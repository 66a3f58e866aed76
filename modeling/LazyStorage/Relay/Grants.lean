import LazyStorage.Lib.OrderedMap
import LazyStorage.Lib.Runs
import Mathlib.Data.List.Basic

/-! # Whom a relay's link speaks for

A relay asks the server for each of its clients, by a name no other client has:
the server judges in its own time, and lets in or refuses. Both keep grants, and
what each hears of the other's is on its way for a while. The link keeps its
messages in order and stays up; the relay may have to catch up with the store.
-/
namespace LazyStorage.Relay

open Lib

variable {N : Type} [DecidableEq N]

/-- How a client stands with the server, as its relay knows. -/
inductive Standing
  | pending
  | asked
  | admitted
  | refused
deriving DecidableEq

inductive Up (N : Type)
  | vouch (as : N)
  | op (as : N)
  | leave (as : N)
deriving DecidableEq

/-- What the server says of a client. A refusal for its rate is no verdict. -/
inductive Down (N : Type)
  | admitted (as : N)
  | refused (as : N) (limited : Bool)
  | revoked (as : N)
deriving DecidableEq

/-- A relay and its session at the server: the clients on the store, how each stands, and whether the
relay's copy has caught up; at the server, the vouches being judged and the clients let in. `used` are
the names given so far. -/
structure Link (N : Type) [DecidableEq N] where
  used : List N
  sessions : List N
  grants : OrderedMap N Standing
  synced : Bool
  up : List (Up N)
  judging : List N
  granted : List N
  down : List (Down N)

namespace Link

def start : Link N := ⟨[], [], .empty, false, [], [], [], []⟩

section Relay

/-- Ask the server whether a client may open the store. -/
def vouch (as : N) (l : Link N) : Link N :=
  { l with grants := l.grants.set as .asked, up := l.up ++ [.vouch as] }

/-- A client says hello: it is asked for, if it was not yet. -/
def tryHello (as : N) (l : Link N) : Link N :=
  match l.grants.get as with
  | none => l.vouch as
  | some .pending => l.vouch as
  | some _ => l

/-- Ask for whoever waits. -/
def vouchPending (l : Link N) : Link N :=
  { l with
    grants := l.grants.mapVal fun _ g => if g = .pending then .asked else g
    up := l.up ++ (l.grants.keys.filter fun as => l.grants.get as = some .pending).map .vouch }

/-- A client's session ends: the server is told, if the client was let in. -/
def leave (as : N) (l : Link N) : Link N :=
  let l' := { l with sessions := l.sessions.filter (· ≠ as), grants := l.grants.erase as }
  if l.grants.get as = some .admitted ∧ l.synced then { l' with up := l.up ++ [.leave as] } else l'

/-- Who is refused is told so, and gone. -/
def turnAway (as : N) (l : Link N) : Link N :=
  { l with grants := l.grants.set as .refused }.leave as

/-- A verdict, or a grant taken back. -/
def fromUpstream (msg : Down N) (l : Link N) : Link N :=
  match msg with
  | .admitted as =>
    if (l.grants.get as).isSome then { l with grants := l.grants.set as .admitted } else l
  | .refused as true =>
    if (l.grants.get as).isSome then { l with grants := l.grants.set as .pending } else l
  | .refused as false | .revoked as =>
    if (l.grants.get as).isSome then l.turnAway as else l

end Relay

section Server

/-- A message from the relay: a vouch is refused at once for its rate, or judged. An op is answered to
whom it comes from, and moves no grant. -/
def receive (msg : Up N) (limited : Bool) (l : Link N) : Link N :=
  match msg with
  | .vouch as => if limited then { l with down := l.down ++ [.refused as true] }
    else { l with judging := l.judging ++ [as] }
  | .op _ => l
  | .leave as => { l with granted := l.granted.filter (· ≠ as) }

/-- A vouch judged: its client let in, or refused. -/
def settle (as : N) (i : ℕ) (ok : Bool) (l : Link N) : Link N :=
  let l' := { l with judging := l.judging.eraseIdx i }
  if ok then { l' with
      granted := if as ∈ l.granted then l.granted else l.granted ++ [as]
      down := l.down ++ [.admitted as] }
  else { l' with down := l.down ++ [.refused as false] }

/-- A grant taken back. -/
def revoke (as : N) (l : Link N) : Link N :=
  { l with granted := l.granted.filter (· ≠ as), down := l.down ++ [.revoked as] }

end Server

end Link

inductive Event (N : Type)
  | come (as : N)
  | hello (as : N)
  | retry (as : N)
  | op (as : N)
  | leave (as : N)
  | fallBehind
  | catchUp
  | receive (limited : Bool)
  | settle (i : ℕ) (ok : Bool)
  | revoke (as : N)
  | hear

namespace Link

def step (e : Event N) (l : Link N) : Option (Link N) :=
  match e with
  | .come as => if as ∈ l.used then none else
      some { l with used := as :: l.used, sessions := as :: l.sessions }
  | .hello as => if as ∈ l.sessions then some (l.tryHello as) else none
  | .retry as => if l.grants.get as = some .pending then some (l.vouch as) else none
  | .op as => if l.grants.get as = some .admitted ∧ l.synced then
      some { l with up := l.up ++ [.op as] } else none
  | .leave as => if as ∈ l.sessions then some (l.leave as) else none
  | .fallBehind => some { l.vouchPending with synced := false }
  | .catchUp => some { l.vouchPending with synced := true }
  | .receive limited => match l.up with
    | [] => none
    | msg :: rest => some ({ l with up := rest }.receive msg limited)
  | .settle i ok => (l.judging[i]?).map fun as => l.settle as i ok
  | .revoke as => if as ∈ l.granted then some (l.revoke as) else none
  | .hear => match l.down with
    | [] => none
    | msg :: rest => some ({ l with down := rest }.fromUpstream msg)

/-- Whether everything said was heard, and every vouch judged. -/
def Quiet (l : Link N) : Prop := l.up = [] ∧ l.judging = [] ∧ l.down = []

/-- The server lists a relay's client only while it is there. -/
def Agrees (l : Link N) : Prop :=
  ∀ as, as ∈ l.granted ↔ as ∈ l.sessions ∧ l.grants.get as = some .admitted

/-- A client does not leave while its vouch is out, nor, let in, while the relay catches up. -/
def LeavesHeard (e : Event N) (l : Link N) : Prop :=
  ∀ as, e = .leave as → l.grants.get as ≠ some .asked ∧
    (l.grants.get as = some .admitted → l.synced = true)

end Link

end LazyStorage.Relay
