import LazyStorage.Lib.OrderedMap
import LazyStorage.Lib.Runs

/-! # Who is there

A store with presence on lists a peer for each session that said hello, and for each
client a follower's session speaks for. What changes is noted for the session or the
grant it happened to, and sent now and then in one message, by replica id. `sent` is
what one client was sent, from a whole list on.
-/
namespace LazyStorage.Server.Presence

open Lib

variable {N R U J : Type} [DecidableEq N] [DecidableEq R] [DecidableEq J]

/-- A session, or a grant on one: the one of its name made when so many had been. -/
inductive Speaker (N : Type)
  | session (n : ℕ)
  | grant (n : ℕ) (as : N) (made : ℕ)
deriving DecidableEq

structure Part (R U J : Type) where
  user : Option U
  replicaId : Option R
  speaksFor : Option R
  shared : Option J

structure Session (N : Type) [DecidableEq N] where
  mayFollow : Bool
  listed : Bool
  grants : Option (OrderedMap N ℕ)

structure Noted where
  joined : Bool
  left : Bool
  shared : Bool
deriving DecidableEq

structure Peer (R U J : Type) where
  replicaId : R
  user : Option U
  data : Option J

inductive Message (R U J : Type)
  | peers (all : List (Peer R U J))
  | changes (left : List R) (joined : List (Peer R U J)) (shared : List (R × Option J))

structure Roster (N R U J : Type) [DecidableEq N] where
  parts : OrderedMap (Speaker N) (Part R U J)
  sessions : OrderedMap ℕ (Session N)
  noted : OrderedMap (Speaker N) Noted
  sent : Option (List (Message R U J))
  made : ℕ

inductive Change
  | join
  | leave
  | share

def Noted.add (entry : Noted) : Change → Noted
  | .join => { entry with joined := true }
  | .leave => { joined := false, shared := false, left := true }
  | .share => { entry with shared := true }

inductive Refusal
  | forbidden
  | replicaTaken
deriving DecidableEq

/-- Whether a speaker may speak for a replica, which may be another user's. -/
def claimReplica (p : Part R U J) (replica : R) (taken : Bool) : Option Refusal :=
  if p.speaksFor.any (· ≠ replica) then some .forbidden
  else if taken then some .replicaTaken else none

/-- Set what a peer shares. -/
def Part.share (p : Part R U J) (data : Option J) : Part R U J := { p with shared := data }

/-- Whether that changes it. -/
def Part.changes (p : Part R U J) (data : Option J) : Bool := p.shared ≠ data

namespace Roster

def start : Roster N R U J := ⟨.empty, .empty, .empty, none, 0⟩

def part (s : Roster N R U J) (p : Speaker N) : Part R U J :=
  (s.parts.get p).getD ⟨none, none, none, none⟩

def setPart (p : Speaker N) (x : Part R U J) (s : Roster N R U J) : Roster N R U J :=
  { s with parts := s.parts.set p x }

def setSession (n : ℕ) (t : Session N) (s : Roster N R U J) : Roster N R U J :=
  { s with sessions := s.sessions.set n t }

/-- Listed sessions that said hello, and the clients followers speak for. -/
def listedPeers (s : Roster N R U J) : List (Speaker N) :=
  (s.sessions.entries.flatMap fun e =>
    (if e.2.listed then [.session e.1] else []) ++
      (e.2.grants.elim [] fun gs => gs.entries.map fun g => .grant e.1 g.1 g.2)).filter
    fun p => (s.part p).replicaId.isSome

def peerOf (s : Roster N R U J) (p : Speaker N) : Option (Peer R U J) :=
  (s.part p).replicaId.map fun r => ⟨r, (s.part p).user, (s.part p).shared⟩

def peers (s : Roster N R U J) : List (Peer R U J) := s.listedPeers.filterMap s.peerOf

def noteChange (p : Speaker N) (what : Change) (s : Roster N R U J) : Roster N R U J :=
  { s with noted := s.noted.set p (((s.noted.get p).getD ⟨false, false, false⟩).add what) }

def send (m : Message R U J) (s : Roster N R U J) : Roster N R U J :=
  { s with sent := s.sent.map (· ++ [m]) }

/-- A client is sent the whole list. -/
def sendPeers (s : Roster N R U J) : Roster N R U J := { s with sent := some [.peers s.peers] }

def left (s : Roster N R U J) : List R :=
  s.noted.entries.filterMap fun e => if e.2.left then (s.part e.1).replicaId else none

def joined (s : Roster N R U J) : List (Peer R U J) :=
  s.noted.entries.filterMap fun e => if !e.2.left && e.2.joined then s.peerOf e.1 else none

def shared (s : Roster N R U J) : List (R × Option J) :=
  s.noted.entries.filterMap fun e =>
    if !e.2.left && !e.2.joined && e.2.shared then
      (s.part e.1).replicaId.map fun r => (r, (s.part e.1).shared)
    else none

def flushPresence (s : Roster N R U J) : Roster N R U J :=
  let quiet : Roster N R U J := { s with noted := .empty }
  if s.left.isEmpty && s.joined.isEmpty && s.shared.isEmpty then quiet
  else quiet.send (.changes s.left s.joined s.shared)

def openSession (user : Option U) (mayFollow : Bool) (s : Roster N R U J) : Roster N R U J :=
  { (s.setPart (.session s.made) ⟨user, none, none, none⟩).setSession s.made ⟨mayFollow, true, none⟩ with
    made := s.made + 1 }

/-- The follower's client left. -/
def ungrant (n : ℕ) (as : N) (s : Roster N R U J) : Roster N R U J :=
  match s.sessions.get n with
  | none => s
  | some t =>
    match t.grants with
    | none => s
    | some gs =>
      match gs.get as with
      | none => s
      | some k => (s.setSession n { t with grants := some (gs.erase as) }).noteChange (.grant n as k) .leave

def close (n : ℕ) (s : Roster N R U J) : Roster N R U J :=
  match s.sessions.get n with
  | none => s
  | some t =>
    let s := { s with sessions := s.sessions.erase n }
    let s := if (s.part (.session n)).replicaId.isSome && t.listed then s.noteChange (.session n) .leave else s
    (t.grants.elim [] (·.entries)).foldl (fun s g => s.noteChange (.grant n g.1 g.2) .leave) s

/-- A grant of a name that has none: a peer from here on. -/
def newGrant (n : ℕ) (as : N) (t : Session N) (gs : OrderedMap N ℕ) (user : Option U) (replica : R)
    (s : Roster N R U J) : Roster N R U J :=
  let p := .grant n as s.made
  let s := { s with made := s.made + 1 }.setSession n { t with grants := some (gs.set as s.made) }
  (s.setPart p ⟨user, some replica, some replica, none⟩).noteChange p .join

/-- A follower's client, vouched for by the transport. -/
def grant (n : ℕ) (as : N) (user : Option U) (replica : R) (taken : Bool) (s : Roster N R U J) :
    Roster N R U J :=
  match s.sessions.get n with
  | none => s
  | some t =>
    -- a vouch may come before the follower's hello
    let grants := if t.grants.isNone && t.mayFollow then some .empty else t.grants
    match grants with
    | none => s
    | some gs =>
      let s := s.setSession n { t with grants := some gs }
      match gs.get as with
      | some k =>
        let g := s.part (.grant n as k)
        match claimReplica g replica taken with
        | some _ => s
        | none => s.setPart (.grant n as k) { g with user := user, speaksFor := some replica }
      | none =>
        match claimReplica (⟨user, none, none, none⟩ : Part R U J) replica taken with
        | some _ => s
        | none => s.newGrant n as t gs user replica

/-- A session says hello, as a follower or not, with what it shares if it says. -/
def hello (n : ℕ) (replica : R) (follower : Bool) (share : Option (Option J)) (taken : Bool)
    (s : Roster N R U J) : Roster N R U J :=
  match s.sessions.get n with
  | none => s
  | some t =>
    if follower && !t.mayFollow && t.grants.isNone then s else
    let p := s.part (.session n)
    match claimReplica p replica taken with
    | some .replicaTaken => s.close n
    | some .forbidden => s
    | none =>
      let joined := p.replicaId.isNone
      let p := { p with speaksFor := some replica, replicaId := some replica }
      -- a follower: the clients it speaks for are peers, not it
      let t := if joined && follower then { t with listed := false, grants := some (t.grants.getD .empty) } else t
      let s := s.setSession n t
      let shared := t.listed && share.any p.changes
      let s := s.setPart (.session n) (if t.listed then share.elim p p.share else p)
      -- its answer waits for the first grant
      if t.grants.any (·.size = 0) then s
      else if joined then if t.listed then s.noteChange (.session n) .join else s
      else if shared then s.noteChange (.session n) .share else s

/-- A peer shares, noted once it is one. -/
def setShared (p : Speaker N) (data : Option J) (s : Roster N R U J) : Roster N R U J :=
  let x := s.part p
  let s := s.setPart p (x.share data)
  if x.changes data && x.replicaId.isSome then s.noteChange p .share else s

def share (n : ℕ) (data : Option J) (s : Roster N R U J) : Roster N R U J :=
  if (s.sessions.get n).any (·.listed) then s.setShared (.session n) data else s

/-- A follower's client shares. -/
def shareAs (n : ℕ) (as : N) (data : Option J) (s : Roster N R U J) : Roster N R U J :=
  match ((s.sessions.get n).bind (·.grants)).bind (·.get as) with
  | none => s
  | some k => s.setShared (.grant n as k) data

end Roster

/-- What a peer shares now, for a client that has it. -/
def applyShared (m : OrderedMap R (Peer R U J)) (e : R × Option J) : OrderedMap R (Peer R U J) :=
  match m.get e.1 with
  | none => m
  | some p => m.set e.1 { p with data := e.2 }

/-- A client's peers, as it is told. -/
def applyPresence (m : OrderedMap R (Peer R U J)) : Message R U J → OrderedMap R (Peer R U J)
  | .peers all => all.foldl (fun m p => m.set p.replicaId p) .empty
  | .changes left joined shared =>
    let m := left.foldl (fun m r => m.erase r) m
    let m := joined.foldl (fun m p => m.set p.replicaId p) m
    shared.foldl applyShared m

inductive Event (N R U J : Type)
  | openSession (user : Option U) (mayFollow : Bool)
  | hello (n : ℕ) (replica : R) (follower : Bool) (share : Option (Option J)) (taken : Bool)
  | share (n : ℕ) (data : Option J)
  | shareAs (n : ℕ) (as : N) (data : Option J)
  | grant (n : ℕ) (as : N) (user : Option U) (replica : R) (taken : Bool)
  | ungrant (n : ℕ) (as : N)
  | close (n : ℕ)
  | flush
  | sendPeers

namespace Roster

def step (e : Event N R U J) (s : Roster N R U J) : Option (Roster N R U J) :=
  some <| match e with
  | .openSession user mayFollow => s.openSession user mayFollow
  | .hello n replica follower share taken => s.hello n replica follower share taken
  | .share n data => s.share n data
  | .shareAs n as data => s.shareAs n as data
  | .grant n as user replica taken => s.grant n as user replica taken
  | .ungrant n as => s.ungrant n as
  | .close n => s.close n
  | .flush => s.flushPresence
  | .sendPeers => s.sendPeers

end Roster

end LazyStorage.Server.Presence
