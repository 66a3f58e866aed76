import LazyStorage.Lib.OrderedMap
import LazyStorage.Lib.Runs

/-! # Many stores over one connection

The server side of a multiplexed connection: a session for each store it opens,
made on the first message for it, once `authorizeId` and `authorize` allowed it, at
once or through a promise. Messages queue meanwhile. A queue is its attempt's token;
here attempts are numbered, and so are sessions. What happens is noted in a trace,
which nothing reads.
-/
namespace LazyStorage.Hub

open Lib

variable {I M : Type} [DecidableEq I]

inductive Verdict
  | yes
  | no
  | throws
deriving DecidableEq

/-- What a hook returns. -/
inductive Reply
  | now (v : Verdict)
  | promise
deriving DecidableEq

/-- What is said while an attempt goes on, each in its turn: by `authorizeId`, by the registry, which has
the store or not, and by `authorize`. -/
structure Replies where
  byId : Reply
  found : Bool
  byStore : Reply
deriving DecidableEq

/-- What happens, as an observer of the hub and of the stores sees it. `allowed` is a yes of one of the
hooks, of `authorize` with `byStore`. -/
inductive Obs (I M : Type)
  | received (id : I) (m : M)
  | left (id : I)
  | revalidated (id : I)
  | shut
  | begun (id : I) (token : ℕ)
  | allowed (token : ℕ) (byStore : Bool)
  | denied (id : I)
  | opened (id : I) (token n : ℕ)
  | handed (n : ℕ) (m : M)
  | ended (id : I) (n : ℕ)
deriving DecidableEq

structure Attempt (M : Type) where
  token : ℕ
  queued : List M

/-- A promise of one of the hooks, for an attempt. -/
structure Check (I : Type) where
  id : I
  token : ℕ
  byStore : Bool

structure Socket (I M : Type) [DecidableEq I] where
  closed : Bool
  pending : OrderedMap I (Attempt M)
  sessions : OrderedMap I ℕ
  checks : List (Check I)
  judged : List (I × ℕ)
  attempts : ℕ
  made : ℕ
  trace : List (Obs I M)

namespace Socket

def start : Socket I M := ⟨false, .empty, .empty, [], [], 0, 0, []⟩

def say (o : Obs I M) (s : Socket I M) : Socket I M := { s with trace := s.trace ++ [o] }

/-- A session closed and dropped. -/
def endSession (id : I) (n : ℕ) (s : Socket I M) : Socket I M :=
  { s with sessions := s.sessions.erase id }.say (.ended id n)

/-- A message for the session of a store, which may end itself on it. -/
def deliver (id : I) (m : M) (ends : Bool) (s : Socket I M) : Socket I M :=
  match s.sessions.get id with
  | none => s
  | some n => if ends then (s.say (.handed n m)).endSession id n else s.say (.handed n m)

def deliverAll (id : I) : List M → (ℕ → Bool) → Socket I M → Socket I M
  | [], _, s => s
  | m :: ms, ends, s => deliverAll id ms (fun i => ends (i + 1)) (s.deliver id m (ends 0))

def openStore (id : I) (token : ℕ) (s : Socket I M) : Socket I M :=
  { s with sessions := s.sessions.set id s.made, made := s.made + 1 }.say (.opened id token s.made)

def deny (id : I) (s : Socket I M) : Socket I M :=
  { s with pending := s.pending.erase id }.say (.denied id)

/-- The verdict of `authorize`. -/
def onStore (id : I) (a : Attempt M) (ends : ℕ → Bool) (v : Verdict) (s : Socket I M) : Socket I M :=
  match v with
  | .yes =>
    let s := s.say (.allowed a.token true)
    ({ s with pending := s.pending.erase id }.openStore id a.token).deliverAll id a.queued ends
  | .no | .throws => s.deny id

/-- The verdict of `authorizeId`. -/
def onId (id : I) (a : Attempt M) (replies : Replies) (ends : ℕ → Bool) (v : Verdict)
    (s : Socket I M) : Socket I M :=
  match v with
  | .yes =>
    let s := s.say (.allowed a.token false)
    if replies.found then
      match replies.byStore with
      | .now v => s.onStore id a ends v
      | .promise => { s with checks := s.checks ++ [⟨id, a.token, true⟩] }
    else s.deny id
  | .no | .throws => s.deny id

/-- An attempt to open a store, with what is queued for it. -/
def admission (id : I) (queued : List M) (replies : Replies) (ends : ℕ → Bool) (s : Socket I M) :
    Socket I M :=
  let a : Attempt M := ⟨s.attempts, queued⟩
  let s := { s with pending := s.pending.set id a, attempts := s.attempts + 1 }.say (.begun id a.token)
  match replies.byId with
  | .now v => s.onId id a replies ends v
  | .promise => { s with checks := s.checks ++ [⟨id, a.token, false⟩] }

def receive (id : I) (m : M) (replies : Replies) (ends : ℕ → Bool) (s : Socket I M) : Socket I M :=
  let s := s.say (.received id m)
  if s.sessions.has id then s.deliver id m (ends 0) else
    match s.pending.get id with
    | some a => { s with pending := s.pending.set id { a with queued := a.queued ++ [m] } }
    | none => s.admission id [m] replies ends

def leave (id : I) (s : Socket I M) : Socket I M :=
  let s' := match s.sessions.get id with
    | some n => s.endSession id n
    | none => s
  { s' with pending := s'.pending.erase id }.say (.left id)

/-- A promise settles: it is heard if its attempt is current. -/
def settle (i : ℕ) (c : Check I) (v : Verdict) (replies : Replies) (ends : ℕ → Bool) (s : Socket I M) :
    Socket I M :=
  let s := { s with checks := s.checks.eraseIdx i }
  if s.closed then s else
    match s.pending.get c.id with
    | none => s
    | some a =>
      if a.token ≠ c.token then s
      else if c.byStore then s.onStore c.id a ends v else s.onId c.id a replies ends v

/-- Judge the stores of a connection again: those waiting for a verdict start over, and the sessions there
are wait for one. -/
def revalidate (judged : I → Bool) (replies : I → Replies) (ends : I → ℕ → Bool) (s : Socket I M) :
    Socket I M :=
  let s := (s.pending.entries.filter fun e => judged e.1).foldl (fun s e =>
    (s.say (.revalidated e.1)).admission e.1 e.2.queued (replies e.1) (ends e.1)) s
  let on := s.sessions.entries.filter fun e => judged e.1
  { s with judged := s.judged ++ on, trace := s.trace ++ on.map fun e => .revalidated e.1 }

/-- The verdict on a session judged again: not this verdict's to close, if it left meanwhile. -/
def rejudge (i : ℕ) (e : I × ℕ) (ok : Bool) (s : Socket I M) : Socket I M :=
  let s := { s with judged := s.judged.eraseIdx i }
  if ok || s.closed || s.sessions.get e.1 ≠ some e.2 then s else s.endSession e.1 e.2

def close (s : Socket I M) : Socket I M :=
  { s with closed := true, pending := .empty, sessions := .empty }.say .shut

end Socket

inductive Event (I M : Type)
  | receive (id : I) (m : M) (replies : Replies) (ends : ℕ → Bool)
  | leave (id : I)
  | settle (i : ℕ) (v : Verdict) (replies : Replies) (ends : ℕ → Bool)
  | revalidate (judged : I → Bool) (replies : I → Replies) (ends : I → ℕ → Bool)
  | rejudge (i : ℕ) (ok : Bool)
  | evict (id : I)
  | close

namespace Socket

def step (e : Event I M) (s : Socket I M) : Option (Socket I M) :=
  match e with
  | .receive id m replies ends => some (if s.closed then s else s.receive id m replies ends)
  | .leave id => some (if s.closed then s else s.leave id)
  | .settle i v replies ends => s.checks[i]?.map fun c => s.settle i c v replies ends
  | .revalidate judged replies ends => some (if s.closed then s else s.revalidate judged replies ends)
  | .rejudge i ok => s.judged[i]?.map fun e => s.rejudge i e ok
  | .evict id => (s.sessions.get id).map fun n => s.endSession id n
  | .close => some s.close

end Socket

end LazyStorage.Hub
