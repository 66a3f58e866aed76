import LazyStorage.Lib.OrderedMap
import LazyStorage.Lib.Runs
import Mathlib.Data.List.MinMax
import Mathlib.Order.Basic

/-! # The outbox in localStorage

The outbox is kept op by op: one document says whose it is, how far it has counted and
the oldest op pending, and each op is under a key of its own. What an earlier version
wrote, the whole outbox as one document, is taken apart when it is loaded. The tab that
loads a key holds it by a lease; one that finds it held keeps nothing.
-/
namespace LazyStorage.Client.LocalOutbox
open Lib

structure Op (D : Type) where
  seq : ℕ
  data : D

structure Meta where
  replicaId : String
  seq : ℕ

/-- What is under the key: the outbox as an earlier version wrote it, or where its ops are. -/
inductive Document (D : Type)
  | whole (about : Meta) (ops : List (Op D))
  | parts (about : Meta) (first : Option ℕ)

structure Lease where
  tab : String
  at_ : ℕ

/-- What localStorage holds under one key. -/
structure Shelf (D : Type) where
  doc : Option (Document D)
  ops : OrderedMap ℕ (Op D)
  lease : Option Lease

/-- An adapter: `pending` are the seqs with an op key, `first` the smallest of them. -/
structure Adapter where
  tab : String
  yielded : Bool
  pending : List ℕ
  first : Option ℕ

structure Tab (D : Type) where
  shelf : Shelf D
  adapter : Adapter

structure Outbox (D : Type) where
  about : Meta
  ops : List (Op D)

def LEASE : ℕ := 5000

variable {D : Type}

/-- Hold the key for this tab, unless another's lease is live. -/
def claim (now : ℕ) (t : Tab D) : Option (Tab D) :=
  match t.shelf.lease with
  | some held =>
    if held.tab ≠ t.adapter.tab ∧ now - held.at_ < LEASE then none
    else some { t with shelf := { t.shelf with lease := some ⟨t.adapter.tab, now⟩ } }
  | none => some { t with shelf := { t.shelf with lease := some ⟨t.adapter.tab, now⟩ } }

def yieldKey (t : Tab D) : Tab D := { t with adapter := { t.adapter with yielded := true } }

def release (t : Tab D) : Tab D :=
  if t.adapter.yielded then t
  else if t.shelf.lease.any (·.tab = t.adapter.tab) then { t with shelf := { t.shelf with lease := none } }
  else t

def lowest (pending : List ℕ) : Option ℕ := pending.min?

def writeMeta (about : Meta) (t : Tab D) : Tab D :=
  { t with shelf := { t.shelf with doc := some (.parts about t.adapter.first) } }

def putOp (t : Tab D) (op : Op D) : Tab D :=
  { shelf := { t.shelf with ops := t.shelf.ops.set op.seq op }
    adapter := { t.adapter with
      pending := if op.seq ∈ t.adapter.pending then t.adapter.pending else t.adapter.pending ++ [op.seq]
      first := if t.adapter.first.all (op.seq < ·) then some op.seq else t.adapter.first } }

def takeOp (settle : Bool) (t : Tab D) (seq : ℕ) : Tab D :=
  let pending := t.adapter.pending.filter (· ≠ seq)
  { shelf := { t.shelf with ops := t.shelf.ops.erase seq }
    adapter := { t.adapter with
      pending
      first := if seq ∈ t.adapter.pending ∧ t.adapter.first = some seq ∧ settle then lowest pending
        else t.adapter.first } }

/-- What is read, and the tab after it. -/
def load (now : ℕ) (t : Tab D) : Option (Outbox D) × Tab D :=
  if t.adapter.yielded then (none, t)
  else match claim now t with
    | none => (none, yieldKey t)
    | some t =>
      let fresh := { t with adapter := { t.adapter with pending := [], first := none } }
      match t.shelf.doc with
      | none => (none, t)
      | some (.whole about ops) => (some ⟨about, ops⟩, writeMeta about (ops.foldl putOp fresh))
      | some (.parts about none) => (some ⟨about, []⟩, fresh)
      | some (.parts about (some first)) =>
        let seqs := List.range' first (about.seq + 1 - first)
        let pending := seqs.filter fun s => (t.shelf.ops.get s).isSome
        (some ⟨about, seqs.filterMap t.shelf.ops.get⟩,
          { t with adapter := { t.adapter with pending, first := lowest pending } })

def save (outbox : Outbox D) (t : Tab D) : Tab D :=
  if t.adapter.yielded then t
  else
    let keep := outbox.ops.map Op.seq
    let t := (t.adapter.pending.filter (· ∉ keep)).foldl (takeOp true) t
    writeMeta outbox.about (outbox.ops.foldl putOp t)

def saveOp (op : Op D) (about : Meta) (t : Tab D) : Tab D :=
  if t.adapter.yielded then t else writeMeta about (putOp t op)

def removeOp (seq : ℕ) (about : Meta) (t : Tab D) : Tab D :=
  if t.adapter.yielded then t else writeMeta about (takeOp true t seq)

def dropOps (seq : ℕ) (about : Meta) (t : Tab D) : Tab D :=
  if t.adapter.yielded then t
  else
    let t := (t.adapter.pending.filter (· ≤ seq)).foldl (takeOp false) t
    writeMeta about { t with adapter := { t.adapter with first := lowest t.adapter.pending } }

/-- What happens at a key: an adapter's calls, its lease, and a fresh adapter that loads. -/
inductive Event (D : Type)
  | opened (tab : String) (now : ℕ)
  | renew (now : ℕ)
  | release
  | save (outbox : Outbox D)
  | saveOp (op : Op D) (about : Meta)
  | removeOp (seq : ℕ) (about : Meta)
  | dropOps (seq : ℕ) (about : Meta)

/-- A fresh adapter over what is there. -/
def fresh (tab : String) (shelf : Shelf D) : Tab D := ⟨shelf, tab, false, [], none⟩

def step (e : Event D) (t : Tab D) : Tab D :=
  match e with
  | .opened tab now => (load now (fresh tab t.shelf)).2
  | .renew now => (claim now t).getD (yieldKey t)
  | .release => release t
  | .save outbox => save outbox t
  | .saveOp op about => saveOp op about t
  | .removeOp seq about => removeOp seq about t
  | .dropOps seq about => dropOps seq about t

end LazyStorage.Client.LocalOutbox
