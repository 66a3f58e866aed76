import LazyStorage.Server.Store

/-! # The host of a store

The process a store runs in: its storage, its wall clock, and what happens to it
one turn at a time.
-/
namespace LazyStorage.Server

open LazyStorage.Core

/-- A store and the wall clock it reads. -/
structure Host (sh : Shape) where
  store : Store sh
  wall : ℕ

/-- What happens to a host. A crash is a reload with commits pending. A reload is by code that `known`
many of the migrations are in, and runs those not run yet, each an event of its own; `epoch` is new,
for a storage never written to. -/
inductive HostEvent (U : Type)
  | wait (ms : ℕ)
  | deliver (op : Op) (speaker : Speaker U) (live : List String)
  | hello (replica : String) (speaker : Speaker U) (live : List String)
  | own (w : OwnWrite)
  | compact
  | flush
  | reload (known : ℕ) (epoch : String)
  | migrate

namespace Host

variable {sh : Shape} {U : Type} (opts : Options sh U)

/-- A host whose storage was never written to. -/
def create (known : ℕ) (epoch : String) (wall : ℕ) : Host sh :=
  ⟨Store.load opts known epoch wall [], wall⟩

def start (epoch : String) (wall : ℕ) : Host sh := create opts 0 epoch wall

def step (e : HostEvent U) (h : Host sh) : Option (Host sh) :=
  match e with
  | .wait ms => some { h with wall := h.wall + ms }
  | .deliver op speaker live =>
    some { h with store := (h.store.apply opts live h.wall op speaker).1 }
  | .hello replica speaker live =>
    match h.store.claimReplica opts speaker speaker.user replica with
    | some _ => some h
    | none => some { h with store := h.store.takeReplica opts live h.wall speaker.user replica }
  | .own w =>
    match h.store.own opts h.wall w with
    | .error _ => some h
    | .ok out => some { h with store := out.1 }
  | .compact => some { h with store := h.store.compact opts h.wall }
  | .flush => some { h with store := h.store.commitNow }
  | .reload known epoch =>
    let store := Store.load opts known epoch h.wall h.store.stored
    -- storage migrated by newer code is not served
    if known < store.schema then none else some { h with store }
  | .migrate =>
    match opts.migrations[h.store.schema]? with
    | none => none
    | some migration =>
      -- one that fails leaves what those before it had stored
      match h.store.migrateOne opts h.wall migration with
      | .error _ => none
      | .ok store => some { h with store }

end Host

end LazyStorage.Server
