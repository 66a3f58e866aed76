import LazyStorage.Server.Store

/-! # A session at the store

What a client or a follower says on its session, what the store answers, and
when it holds a session's ops back. A message goes out with the turn that made
it, patches before the answer to the op that made them. How each op was settled
is kept for the history; nothing reads it.
-/
namespace LazyStorage.Server

open Lib LazyStorage.Core

/-- The most ops one hello carries. -/
def helloOps : ℕ := 1000

/-- What a client or a follower says. -/
inductive Up
  | hello (replica : String) (ops : List Op) (since : Option (ℕ × String)) (clocks follower : Bool)
  | op (as : Option String) (op : Op)
  | leave (as : String)
deriving DecidableEq

/-- What the store says. -/
inductive Down
  | snapshot (records : List (RecordKey × Entry)) (seq v : ℕ) (epoch : String) (now : ℕ)
    (lost : List (ℕ × List Lost))
  | delta (ops : List LogEntry) (seq v : ℕ) (epoch : String) (now : ℕ) (lost : List (ℕ × List Lost))
  | patch (changes : List Change) (v ts : ℕ)
  | ack (as replica : Option String) (seq v now : ℕ) (lost : List Lost)
  | error (as replica : Option String) (seq : Option ℕ) (refusal : Refusal)
  | closed (code : Code) (message : String)
  | revoked (as : String) (code : Code) (message : String)

/-- How an op was settled: decided change by change, refused whole, or taken for one decided before. -/
inductive Settled
  | decided
  | refused
  | duplicate
deriving DecidableEq

abbrev History := List ((String × ℕ) × Settled)

/-- A follower's client, vouched for. -/
structure Grant (U : Type) where
  speaker : Speaker U
  replica : String

/-- A session. `held` is what a follower's answer waits with for the first client let in. -/
structure Session (U : Type) where
  speaker : Speaker U
  replica : Option String
  mayFollow : Bool
  clocks : Bool
  follows : Bool
  grants : Option (OrderedMap String (Grant U))
  held : Option (Option (ℕ × String) × List (ℕ × List Lost))

namespace Store

variable {sh : Shape} {U : Type}

/-- What is to be broadcast goes out. -/
def flushEffects (st : Store sh) : Store sh × List Down :=
  ({ st with effects := [] }, st.effects.map fun e => .patch e.changes e.v e.ts)

@[simp] theorem seqOf_flushEffects (st : Store sh) (r : String) :
    st.flushEffects.1.seqOf r = st.seqOf r := rfl

/-- The log after version `since`, or nothing when it does not reach back that far. -/
def deltaSince (st : Store sh) (since : ℕ) : Option (List LogEntry) :=
  if st.version < since then none
  else if since = st.version then some []
  else
    match st.log.dropWhile (·.v ≤ since) with
    | [] => none
    | entry :: log => if entry.v = since + 1 then some (entry :: log) else none

/-- Every record, with its clock for a session that asked for them. -/
def snapshotRecords (clocks : Bool) (st : Store sh) : List (RecordKey × Entry) :=
  st.doc.records.entries.map fun r => (r.1, if clocks then r.2 else ⟨r.2.data, .new⟩)

/-- The answer to a hello: what was missed since the version it says, else everything. -/
def catchUp (now : ℕ) (replica : String) (clocks : Bool) (since : Option (ℕ × String))
    (lost : List (ℕ × List Lost)) (st : Store sh) : Down :=
  let ops := match since with
    | some (v, epoch) => if epoch = st.epoch then st.deltaSince v else none
    | none => none
  match ops with
  | some ops => .delta ops (st.seqOf replica) st.version st.epoch (st.clock.time now) lost
  | none => .snapshot (st.snapshotRecords clocks) (st.seqOf replica) st.version st.epoch
      (st.clock.time now) lost

end Store

/-- The message of a refused op. -/
def refusalOf (op : Op) (as : Option String) (refusal : Refusal) : Down :=
  .error as (as.map fun _ => op.replica) (some op.seq) refusal

def heldBack (wait : ℕ) : Refusal :=
  ⟨.rateLimited, "Waiting for a hello after a refusal; try again in " ++ toString wait ++ " ms",
    some wait⟩

def tooMany (what : String) (wait : ℕ) : Refusal :=
  ⟨.rateLimited, "Too many " ++ what ++ "; try again in " ++ toString wait ++ " ms", some wait⟩

section

variable {sh : Shape} {U : Type} (opts : Options sh U) (others : List String) (now : ℕ)

/-- An op on its own, from a session or a client a follower speaks for: its answer, and how it was
settled unless the rate limit kept it out. A session is held until its next hello, a follower's
client until its time is up. -/
def liveOp (op : Op) (as : Option String) (speaker : Speaker U) (st : Store sh) :
    Store sh × Speaker U × Down × History :=
  let heldUntil := speaker.heldUntil.filter fun t : ℕ => as.isNone || now < t
  let speaker := { speaker with heldUntil }
  match speaker.heldUntil with
  | some t => (st, speaker, refusalOf op as (heldBack (max 1 (t - now))), [])
  | none =>
    let limited := st.throttle opts now (Store.bucketOf opts speaker.user op.replica)
    if 0 < limited.2 then
      (limited.1, { speaker with heldUntil := some (now + limited.2) },
        refusalOf op as (tooMany "ops" limited.2), [])
    else
      match limited.1.apply opts others now op speaker with
      | (st, speaker, .ok (lost, duplicate)) =>
        (st, speaker, .ack as (as.map fun _ => op.replica) op.seq st.version (st.clock.time now) lost,
          [((op.replica, op.seq), if duplicate then .duplicate else .decided)])
      | (st, speaker, .error refusal) =>
        (st, speaker, refusalOf op as refusal, [((op.replica, op.seq), .refused)])

/-- What a hello's ops have come to so far. -/
structure Told (sh : Shape) (U : Type) where
  store : Store sh
  speaker : Speaker U
  acked : List ℕ
  lost : List (ℕ × List Lost)
  said : List Down
  history : History

/-- One op of a hello: not held back, nor counted by the rate limit. -/
def tellOp (follows : Bool) (told : Told sh U) (op : Op) : Told sh U :=
  match told.store.apply opts others now op told.speaker with
  | (st, speaker, .ok (lost, duplicate)) =>
    let out := st.flushEffects
    { store := out.1, speaker
      acked := told.acked ++ [op.seq]
      lost := if lost.isEmpty then told.lost else told.lost ++ [(op.seq, lost)]
      said := told.said ++ if follows then out.2 else []
      history := told.history ++
        [((op.replica, op.seq), if duplicate then .duplicate else .decided)] }
  | (st, speaker, .error refusal) =>
    { told with
      store := st, speaker
      said := told.said ++ [refusalOf op none refusal]
      history := told.history ++ [((op.replica, op.seq), .refused)] }

namespace Session

/-- A session just opened. -/
def create (user : Option U) (mayFollow writes : Bool) : Session U where
  speaker := ⟨user, writes, none, none⟩
  replica := none
  mayFollow := mayFollow
  clocks := false
  follows := true
  grants := none
  held := none

/-- The replicas a session speaks for now. -/
def live (s : Session U) : List String :=
  s.replica.toList ++ (s.grants.elim [] fun grants => grants.values.map Grant.replica)

/-- What a turn at the store comes to: the session, unless it ended, and what is said on it. -/
structure Turn (sh : Shape) (U : Type) where
  store : Store sh
  session : Option (Session U)
  said : List Down
  history : History

/-- A hello let in: its ops decided, then answered with what it missed; a follower that speaks for
nobody yet is only told what came of its ops. -/
def welcome (replica : String) (ops : List Op) (since : Option (ℕ × String)) (clocks follower : Bool)
    (s : Session U) (st : Store sh) : Turn sh U :=
  let st := st.takeReplica opts (others ++ s.live) now s.speaker.user replica
  let joins := s.replica.isNone && follower
  let s := { s with
    speaker := { s.speaker with heldUntil := none, speaksFor := some replica }
    replica := some replica
    grants := if joins then some (s.grants.getD .empty) else s.grants
    clocks }
  let told := (ops.take helloOps).foldl (tellOp opts (others ++ s.live) now s.follows)
    ⟨st, s.speaker, [], [], [], []⟩
  let s := { s with speaker := told.speaker }
  if s.grants.any (·.size = 0) then
    { store := told.store
      session := some { s with follows := false, held := some (since, told.lost) }
      said := told.said ++ told.acked.map fun seq =>
        .ack none none seq told.store.version (told.store.clock.time now) []
      history := told.history }
  else
    { store := told.store
      session := some s
      said := told.said ++ [told.store.catchUp now replica clocks since told.lost]
      history := told.history }

/-- A hello: let in, unless it is a follower's that may not follow, another's replica, or one too
many. -/
def hello (replica : String) (ops : List Op) (since : Option (ℕ × String)) (clocks follower : Bool)
    (s : Session U) (st : Store sh) : Turn sh U :=
  if follower && !s.mayFollow && s.grants.isNone then
    ⟨st, some s, [.error none none none
      ⟨.forbidden, "Only a relay's link opens a follower session", none⟩], []⟩
  else
  match st.claimReplica opts s.speaker s.speaker.user replica with
  | some refusal =>
    if refusal.code = .replicaTaken then
      ⟨st.commitNow, none, [.closed refusal.code refusal.message], []⟩
    else ⟨st, some s, [.error none none none refusal], []⟩
  | none =>
    let limited := st.throttle opts now (Store.bucketOf opts s.speaker.user replica)
    if 0 < limited.2 then
      ⟨limited.1, some s, [.error none none none (tooMany "hellos" limited.2)], []⟩
    else s.welcome opts others now replica ops since clocks follower limited.1

/-- Nobody is vouched for under the name. -/
def unvouched (as : String) : Down :=
  .error (some as) none none ⟨.forbidden, "No client is vouched for under that name", none⟩

/-- What came of an op said on its own: the patches it made, if the session follows, then its
answer. -/
def afterOp (s : Session U) (out : Store sh × Speaker U × Down × History) : Turn sh U :=
  let flushed := out.1.flushEffects
  ⟨flushed.1, some s, (if s.follows then flushed.2 else []) ++ [out.2.2.1], out.2.2.2⟩

/-- A message of the session's. -/
def receive (msg : Up) (s : Session U) (st : Store sh) : Turn sh U :=
  match msg with
  | .hello replica ops since clocks follower =>
    s.hello opts others now replica ops since clocks follower st
  | .op none op =>
    let out := liveOp opts (others ++ s.live) now op none s.speaker st
    afterOp { s with speaker := out.2.1 } out
  | .op (some as) op =>
    match s.grants.bind (·.get as) with
    | none => ⟨st, some s, [unvouched as], []⟩
    | some grant =>
      let out := liveOp opts (others ++ s.live) now op (some as) grant.speaker st
      let grants := s.grants.map (·.set as { grant with speaker := out.2.1 })
      afterOp { s with grants } out
  | .leave as => ⟨st, some { s with grants := s.grants.map (·.erase as) }, [], []⟩

/-- A client of the follower's, vouched for: let in, unless its replica is another's. The first one
let in has the follower answered. -/
def grant (as : String) (user : Option U) (replica : String) (s : Session U) (st : Store sh) :
    Except Refusal (Turn sh U) :=
  if !s.mayFollow && s.grants.isNone then
    .error ⟨.forbidden, "Only a follower speaks for others", none⟩
  else if replica = "" then .error ⟨.invalid, "A vouched client names its replica", none⟩
  else
    let grants := s.grants.getD .empty
    let known := grants.get as
    let speaker := (known.map Grant.speaker).getD ⟨user, true, none, none⟩
    match st.claimReplica opts speaker user replica with
    | some refusal => .error refusal
    | none =>
      let st := st.takeReplica opts (others ++ s.live) now user replica
      let grants := grants.set as
        ⟨{ speaker with user, speaksFor := some replica }, (known.map Grant.replica).getD replica⟩
      match s.held with
      | some (since, lost) =>
        .ok ⟨st, some { s with grants := some grants, held := none, follows := true },
          [st.catchUp now (s.replica.getD "") s.clocks since lost], []⟩
      | none => .ok ⟨st, some { s with grants := some grants }, [], []⟩

/-- A client of the follower's taken back. -/
def revoke (as : String) (code : Code) (message : String) (s : Session U) (st : Store sh) : Turn sh U :=
  match s.grants.bind (·.get as) with
  | none => ⟨st, some s, [], []⟩
  | some _ => ⟨st, some { s with grants := s.grants.map (·.erase as) },
      [.revoked as code message], []⟩

end Session

end

end LazyStorage.Server
