import LazyStorage.Hub.Admission

/-! # Clients a follower vouches for

On a follower's connection, a message may ask whether one of its clients may open the
store of a session: the client's credential is judged, then the hooks are asked as
that client, each answer coming through a promise, and a yes is a grant on the session.
A vouch over its rate is one whose credential is refused. A client's connection takes
no vouch. `revalidate` is the call and its own verdicts, until it resolves.
-/
namespace LazyStorage.Hub

open Lib

/-- What a vouch waits for: its client's credential, or one of the hooks asked as that client. -/
inductive Stage (C : Type)
  | credential
  | byId (client : C)
  | byStore (client : C)
deriving DecidableEq

structure Vouch (I N C : Type) where
  id : I
  session : ℕ
  as : N
  stage : Stage C
deriving DecidableEq

/-- A hub with the vouches in flight and the clients granted, under their sessions and their names there.
`admitted` are the vouches that let a client in, and nothing reads it. -/
structure FollowerHub (I M N C : Type) [DecidableEq I] [DecidableEq N] where
  socket : Socket I M
  vouches : List (Vouch I N C)
  grants : OrderedMap (I × ℕ × N) C
  admitted : List (Vouch I N C)

inductive HubEvent (I M N C : Type)
  | socket (e : Event I M)
  | credential (i : ℕ) (client : Option C)
  | verdict (i : ℕ) (yes taken : Bool)
  | ungrant (id : I) (n : ℕ) (as : N)

/-- A hub while a call of `revalidate` waits for its verdicts on the sessions there were. -/
structure Judging (I M N C : Type) [DecidableEq I] [DecidableEq N] where
  hub : FollowerHub I M N C
  waiting : List (I × ℕ)

inductive JudgingEvent (I M N C : Type)
  | hub (e : HubEvent I M N C)
  | judged (i : ℕ) (ok : Bool)

variable {I M N C : Type} [DecidableEq I] [DecidableEq N]

/-- The store a session is on. -/
def storeOf (n : ℕ) (trace : List (Obs I M)) : Option I := trace.findSome? fun
  | .opened id _ k => if k = n then some id else none
  | _ => none

/-- The vouch a message handed to a session begins, if it asks for a client. -/
def vouchFor (asks : M → Option N) (trace : List (Obs I M)) : Obs I M → Option (Vouch I N C)
  | .handed n m => (asks m).bind fun as => (storeOf n trace).map fun id => ⟨id, n, as, .credential⟩
  | _ => none

namespace FollowerHub

def start : FollowerHub I M N C := ⟨.start, [], .empty, []⟩

/-- The socket moves on: what its sessions were handed may begin vouches, and a session that ended has no
clients. -/
def onward (asks : M → Option N) (s : Socket I M) (h : FollowerHub I M N C) : FollowerHub I M N C :=
  { h with
    socket := s
    vouches := h.vouches ++ (s.trace.drop h.socket.trace.length).filterMap (vouchFor asks s.trace)
    grants := h.grants.filter fun k _ => s.sessions.get k.1 = some k.2.1 }

/-- A client's credential is judged: its user, or nobody. -/
def credential (i : ℕ) (v : Vouch I N C) (client : Option C) (h : FollowerHub I M N C) :
    Option (FollowerHub I M N C) :=
  match v.stage, client with
  | .credential, some c => some { h with vouches := h.vouches.set i { v with stage := .byId c } }
  | .credential, none => some { h with vouches := h.vouches.eraseIdx i }
  | _, _ => none

/-- A client let in, unless its session is gone, or does not take it. -/
def grant (v : Vouch I N C) (client : C) (taken : Bool) (h : FollowerHub I M N C) : FollowerHub I M N C :=
  if h.socket.closed || h.socket.sessions.get v.id ≠ some v.session || !taken then h else
    { h with grants := h.grants.set (v.id, v.session, v.as) client, admitted := h.admitted ++ [v] }

/-- A hook's answer for a client vouched for, a throw being a no. -/
def verdict (i : ℕ) (v : Vouch I N C) (yes taken : Bool) (h : FollowerHub I M N C) :
    Option (FollowerHub I M N C) :=
  match v.stage, yes with
  | .credential, _ => none
  | .byId c, true => some { h with vouches := h.vouches.set i { v with stage := .byStore c } }
  | .byStore c, true => some ({ h with vouches := h.vouches.eraseIdx i }.grant v c taken)
  | _, false => some { h with vouches := h.vouches.eraseIdx i }

def step (asks : M → Option N) (e : HubEvent I M N C) (h : FollowerHub I M N C) :
    Option (FollowerHub I M N C) :=
  match e with
  | .socket e => (h.socket.step e).map fun s => h.onward asks s
  | .credential i client => h.vouches[i]?.bind fun v => h.credential i v client
  | .verdict i yes taken => h.vouches[i]?.bind fun v => h.verdict i v yes taken
  | .ungrant id n as => some { h with grants := h.grants.erase (id, n, as) }

/-- The call, on every store. -/
def revalidate (asks : M → Option N) (replies : I → Replies) (ends : I → ℕ → Bool)
    (h : FollowerHub I M N C) : Judging I M N C :=
  if h.socket.closed then ⟨h, []⟩ else
    let s := h.socket.revalidate (fun _ => true) replies ends
    ⟨h.onward asks { s with judged := h.socket.judged }, s.sessions.entries⟩

end FollowerHub

namespace Judging

def step (asks : M → Option N) (e : JudgingEvent I M N C) (j : Judging I M N C) :
    Option (Judging I M N C) :=
  match e with
  | .hub e => (j.hub.step asks e).map fun h => { j with hub := h }
  | .judged i ok => j.waiting[i]?.map fun e =>
    -- taken off the call's own list: past the end of the socket's there is nothing to take off
    let s := j.hub.socket.rejudge j.hub.socket.judged.length e ok
    ⟨j.hub.onward asks s, j.waiting.eraseIdx i⟩

end Judging

/-- What the hooks answer now, asked as the connection's own user or as a client vouched for. -/
structure Hooks (I C : Type) where
  byId : Option C → I → Bool
  byStore : Option C → I → Bool

namespace Hooks

def allow (hooks : Hooks I C) (who : Option C) (id : I) : Bool := hooks.byId who id && hooks.byStore who id

/-- Replies given now. -/
def Give (hooks : Hooks I C) (id : I) (r : Replies) : Prop :=
  (r.byId = .now .yes → hooks.byId none id = true) ∧ (r.byStore = .now .yes → hooks.byStore none id = true)

/-- What happens on a connection where the hooks answer so each question put to them since a number of
attempts. What was asked before may be answered in any way. -/
def Answers (hooks : Hooks I C) (since : ℕ) : Event I M → Socket I M → Prop
  | .receive id _ replies _, _ => hooks.Give id replies
  | .settle i v replies _, s => ∀ c, s.checks[i]? = some c → hooks.Give c.id replies ∧
    (since ≤ c.token → v = .yes → (if c.byStore then hooks.byStore none c.id else hooks.byId none c.id) = true)
  | .revalidate _ replies _, _ => ∀ id, hooks.Give id (replies id)
  | _, _ => True

/-- What happens while a call waits, where the hooks answer so each question put to them since. -/
def Judge (hooks : Hooks I C) (call : FollowerHub I M N C) : JudgingEvent I M N C → Judging I M N C → Prop
  | .judged i ok, j => ∀ e, j.waiting[i]? = some e → ok = true → hooks.allow none e.1 = true
  | .hub (.socket e), j => hooks.Answers call.socket.attempts e j.hub.socket
  | .hub (.verdict i yes _), j => ∀ v, j.hub.vouches[i]? = some v → v ∉ call.vouches → yes = true →
    ∀ c, (v.stage = .byId c → hooks.byId (some c) v.id = true) ∧
      (v.stage = .byStore c → hooks.byStore (some c) v.id = true)
  | _, _ => True

end Hooks

end LazyStorage.Hub
