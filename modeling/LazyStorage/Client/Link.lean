import LazyStorage.Lib.Runs
import LazyStorage.Server.Host
import LazyStorage.Client.Mirror

/-! # A client and its store

One client, the host of its store and the link between them, which keeps what it
carries in order and may be lost at any time, with all that it carries. Others
write to the store as they like, under replica ids of their own.
-/
namespace LazyStorage.Client

open Lib LazyStorage.Core LazyStorage.Server

/-- `history` says how the store settled each op, `acked` which ops the client let go of on an
acknowledgement: nothing reads them. -/
structure System (sh : Shape) (U : Type) where
  client : Mirror sh
  host : Host sh
  session : Option (Session U)
  up : List Up
  down : List Down
  history : History
  acked : List ℕ

inductive Event (U : Type)
  | edit (changes : List Change) (now : ℤ)
  | retry
  | wantPresence
  | opens (user : Option U) (writes : Bool)
  | closes
  | hangsUp
  | receive (others : List String)
  | deliver (now : ℤ)
  | lose (i : ℕ)
  | host (e : HostEvent U)

end LazyStorage.Client

namespace LazyStorage.Server

/-- What acknowledges ops: all up to a number. -/
def Down.upTo : Down → Option ℕ
  | .snapshot _ seq _ _ _ _ => some seq
  | .delta _ seq _ _ _ _ => some seq
  | .ack _ _ seq _ _ _ => some seq
  | _ => none

/-- What answers a hello: with the replica's last op. -/
def Down.answers : Down → Option ℕ
  | .snapshot _ seq _ _ _ _ => some seq
  | .delta _ seq _ _ _ _ => some seq
  | _ => none

def Down.isPatch : Down → Bool
  | .patch _ _ _ => true
  | _ => false

/-- Whether an event leaves the ops of a replica to it, and the store in place. -/
def HostEvent.spares {U : Type} (replica : String) : HostEvent U → Bool
  | .deliver op _ _ => op.replica ≠ replica
  | .hello other _ _ => other ≠ replica
  | .reload _ _ => false
  | .migrate => false
  | _ => true

end LazyStorage.Server

namespace LazyStorage.Client

open Lib LazyStorage.Core LazyStorage.Server

variable {sh : Shape} {U : Type}

namespace System

variable (opts : Options sh U)

/-- A store, and a client that has neither made an op nor heard it. -/
def start (host : Host sh) (replica : String) (wantsClocks : Bool) : System sh U where
  client := .create sh replica wantsClocks
  host := host
  session := none
  up := []
  down := []
  history := []
  acked := []

/-- What the client does, and says. -/
def act (out : Mirror sh × List Up) (s : System sh U) : System sh U :=
  { s with client := out.1, up := s.up ++ out.2 }

/-- The link is lost: with what it carries, and the session at its end. -/
def cut (s : System sh U) : System sh U := { s with session := none, up := [], down := [] }

/-- The store takes a message off the link. One of a session that ended is not read. -/
def receive (others : List String) (msg : Up) (up : List Up) (s : System sh U) : System sh U :=
  match s.session with
  | none => { s with up }
  | some session =>
    let turn := session.receive opts others s.host.wall msg s.host.store
    { s with
      up, session := turn.session
      host := { s.host with store := turn.store }
      down := s.down ++ turn.said
      history := s.history ++ turn.history }

/-- The client takes a message off the link. -/
def deliver (now : ℤ) (msg : Down) (down : List Down) (s : System sh U) : System sh U :=
  let taken := msg.upTo.elim [] fun n => (s.client.outbox.filter (·.seq ≤ n)).map Op.seq
  let out := s.client.handle msg now
  let s := act out { s with down, acked := s.acked ++ taken }
  if out.1.linked then s else s.cut

/-- What others do at the store, heard on the session if it follows. -/
def hear (host : Host sh) (s : System sh U) : System sh U :=
  let flushed := host.store.flushEffects
  { s with
    host := { host with store := flushed.1 }
    down := s.down ++ if s.session.any Session.follows then flushed.2 else [] }

def step (e : Event U) (s : System sh U) : Option (System sh U) :=
  match e with
  | .edit changes now =>
    if changes.isEmpty then none else some (s.act (s.client.edit changes now))
  | .retry => if s.client.retrying then some (s.act s.client.retry) else none
  | .wantPresence => some (s.act s.client.wantPresence)
  | .opens user writes =>
    if s.client.linked then none else
      some (act s.client.onOpen { s.cut with
        session := some (.create user false writes)
        host := { s.host with store := s.host.store.commitNow } })
  | .closes => if s.client.linked then some { s.cut with client := s.client.onClose } else none
  | .hangsUp => some { s with session := none }
  | .receive others =>
    match s.up with
    | [] => none
    | msg :: up => some (s.receive opts others msg up)
  | .deliver now =>
    match s.down with
    | [] => none
    | msg :: down => some (s.deliver now msg down)
  | .lose i =>
    if (s.down[i]?).any Down.isPatch then some { s with down := s.down.eraseIdx i } else none
  | .host e => if e.spares s.client.replica then (s.host.step opts e).map s.hear else none

end System

end LazyStorage.Client
