import LazyStorage.Core.ReplicaClock
import LazyStorage.Server.OwnWrites
import LazyStorage.Server.Rules
import Mathlib.Data.Rat.Floor

/-! # The authority

A store decides every op, holds the state, each replica's progress and a log of
the last changes, and commits what it did to storage. What is committed but not
yet stored is `pending`; the storage is the list of the commits it was given.
Times are read by the caller and passed in as `now`, in whole milliseconds.
-/
namespace LazyStorage.Server

open Lib LazyStorage.Core

inductive Code
  | invalid
  | forbidden
  | replicaTaken
  | tooLarge
  | expired
  | rateLimited
  | evicted
  | unavailable
deriving DecidableEq

/-- An op or a hello the store would not take; the code travels to the client. -/
structure Refusal where
  code : Code
  message : String
  retryAfter : Option ℕ
deriving DecidableEq

structure Op where
  replica : String
  seq : ℕ
  ts : ℕ
  changes : List Change
deriving DecidableEq

/-- A replica's progress: the last op seen from it, when, and the user it belongs to. -/
structure Replica where
  seq : ℕ
  seen : ℕ
  owner : Option String
deriving DecidableEq

structure LogEntry where
  v : ℕ
  ts : ℕ
  changes : List Change

/-- What one commit stores. `op` says which op it settled, for the history; nothing reads it. -/
structure Commit where
  upserts : List (RecordKey × Entry)
  deletes : List RecordKey
  replica : Option (String × Replica)
  forget : List String
  version : ℕ
  epoch : String
  schema : ℕ
  log : Option LogEntry
  logFloor : Option ℕ
  op : Option (String × ℕ)

/-- What a storage holds. One never written to has no epoch, and has run no migrations. -/
structure Saved where
  records : OrderedMap RecordKey Entry
  replicas : OrderedMap String Replica
  version : ℕ
  epoch : Option String
  schema : Option ℕ
  log : List LogEntry

namespace Saved

def empty : Saved := ⟨.empty, .empty, 0, none, none, []⟩

def commit (saved : Saved) (change : Commit) : Saved :=
  let records := change.deletes.foldl (fun m key => m.erase key) saved.records
  let replicas := match change.replica with
    | some (id, r) => saved.replicas.set id r
    | none => saved.replicas
  let log := saved.log ++ change.log.toList
  { records := change.upserts.foldl (fun m r => m.set r.1 r.2) records
    replicas := change.forget.foldl (fun m id => m.erase id) replicas
    version := change.version
    epoch := some change.epoch
    schema := some change.schema
    log := match change.logFloor with
      | some floor => log.filter (floor ≤ ·.v)
      | none => log }

/-- What a list of commits, oldest first, leaves. -/
def ofCommits (commits : List Commit) : Saved := commits.foldl commit empty

end Saved

structure RateLimit where
  burst : ℚ
  perSecond : ℚ

structure Bucket where
  tokens : ℚ
  at_ : ℕ

/-- A migration: the diff it has the store write, empty for none, or the error it throws. -/
abbrev Migration (sh : Shape) := Doc sh → Except String (List (String × Value))

/-- `migrations` are all there ever are, in order: the code a store runs knows the first of them. -/
structure Options (sh : Shape) (U : Type) where
  rules : Rules sh U
  validate : Option (List Change → Option U → String → Doc sh → Verdict)
  retention : Option ℕ
  compactEvery : ℕ
  deltaLog : ℕ
  maxChanges : ℕ
  maxReplicas : ℕ
  rateLimit : Option RateLimit
  groupCommit : Bool
  ownerKey : U → String
  migrations : List (Migration sh) := []

/-- A store. `effects` are the log entries to be broadcast, in the order they were made. -/
structure Store (sh : Shape) where
  doc : Doc sh
  replicas : OrderedMap String Replica
  replicasOf : OrderedMap (Option String) (List String)
  version : ℕ
  epoch : String
  schema : ℕ
  log : List LogEntry
  effects : List LogEntry
  clock : ReplicaClock
  lastCompaction : Option ℕ
  buckets : OrderedMap String Bucket
  pending : List Commit
  stored : List Commit

/-- Who an op comes from: a session, or a client a follower speaks for. -/
structure Speaker (U : Type) where
  user : Option U
  writes : Bool
  speaksFor : Option String
  heldUntil : Option ℕ

/-- The most changes one commit groups. -/
def groupMax : ℕ := 256

mutual

/-- Each field of what a put writes, since a put is merged into a record field by field. -/
def fieldsOf : Value → ℕ
  | .obj fs => fieldsIn fs
  | _ => 0

def fieldsIn : List (String × Value) → ℕ
  | [] => 0
  | (_, v) :: fs => 1 + fieldsOf v + fieldsIn fs

end

/-- How much an op writes: a change each, and each field of what it puts. The source stops counting
past the most it allows. -/
def sizeOf (changes : List Change) : ℕ :=
  changes.length + (changes.map fun ch => fieldsOf ch.write.value).sum

namespace Store

variable {sh : Shape} {U : Type}

/-- Store what is pending. -/
def commitNow (st : Store sh) : Store sh :=
  { st with stored := st.stored ++ st.pending, pending := [] }

/-- A change as it is committed, with where the store stands. -/
def dated (change : Commit) (st : Store sh) : Commit :=
  { change with version := st.version, epoch := st.epoch, schema := st.schema }

def commit (opts : Options sh U) (change : Commit) (st : Store sh) : Store sh :=
  let st := { st with pending := st.pending ++ [st.dated change] }
  if opts.groupCommit && st.pending.length < groupMax then st else st.commitNow

/-- A commit of nothing yet. -/
def nothing : Commit := ⟨[], [], none, [], 0, "", 0, none, none, none⟩

/-- The rate limit: how long to wait, 0 for not at all. -/
def throttle (opts : Options sh U) (now : ℕ) (key : String) (st : Store sh) : Store sh × ℕ :=
  match opts.rateLimit with
  | none => (st, 0)
  | some limit =>
    let buckets := match st.buckets.get key with
      | some _ => st.buckets
      | none =>
        let kept := if 10000 ≤ st.buckets.size then
          st.buckets.filter (fun _ b => !decide (60000 < now - b.at_)) else st.buckets
        kept.set key ⟨limit.burst, now⟩
    let bucket := (buckets.get key).getD ⟨limit.burst, now⟩
    let tokens := min limit.burst
      (bucket.tokens + (((now : ℚ) - bucket.at_) / 1000) * limit.perSecond)
    if 1 ≤ tokens then ({ st with buckets := buckets.set key ⟨tokens - 1, now⟩ }, 0)
    else ({ st with buckets := buckets.set key ⟨tokens, now⟩ },
      ⌈((1 - tokens) / limit.perSecond) * 1000⌉.toNat)

def bucketOf (opts : Options sh U) (user : Option U) (replica : String) : String :=
  match user with
  | none => "r:" ++ replica
  | some u => "u:" ++ opts.ownerKey u

/-- The last op seen from a replica. -/
def seqOf (st : Store sh) (replica : String) : ℕ :=
  ((st.replicas.get replica).map Replica.seq).getD 0

/-- Whether a speaker may speak for a replica: nothing when it may, else the refusal. -/
def claimReplica (opts : Options sh U) (st : Store sh) (speaker : Speaker U) (user : Option U)
    (replica : String) : Option Refusal :=
  if replica = "server" then
    some ⟨.forbidden, "The replica id \"server\" is reserved for the store", none⟩
  else
    match speaker.speaksFor.filter (fun r => r ≠ "" && r ≠ replica) with
    | some other => some ⟨.forbidden, "This session speaks for replica \"" ++ other ++ "\", not \"" ++
        replica ++ "\"", none⟩
    | none =>
      match (st.replicas.get replica).bind Replica.owner with
      | none => none
      | some owner =>
        if user.map opts.ownerKey = some owner then none
        else some ⟨.replicaTaken, "That replica id belongs to another user", none⟩

/-- The replicas one owner has. -/
def ownerSet (st : Store sh) (owner : Option String) : List String :=
  (st.replicasOf.get owner).getD []

/-- The replicas that go when one more is remembered: the owner's not seen for longest, but for
those a session speaks for now. -/
def pastLimit (opts : Options sh U) (live : List String) (id : String) (mine : List String)
    (replicas : OrderedMap String Replica) : List String :=
  if mine.length ≤ opts.maxReplicas then [] else
  let seen := fun r => ((replicas.get r).map Replica.seen).getD 0
  let stale := (mine.filter fun r => r ≠ id && r ∉ live).mergeSort (fun a b => seen a ≤ seen b)
  stale.take (mine.length - opts.maxReplicas)

/-- A replica's entry set, before the owner's allowance is kept. -/
def setReplica (id : String) (entry : Replica) (st : Store sh) : Store sh :=
  let before := st.replicas.get id
  let left := match before with
    | some b => if b.owner ≠ entry.owner then
        st.replicasOf.set b.owner ((st.ownerSet b.owner).filter (· ≠ id)) else st.replicasOf
    | none => st.replicasOf
  let mine := (left.get entry.owner).getD []
  { st with
    replicas := st.replicas.set id entry
    replicasOf := left.set entry.owner (if id ∈ mine then mine else mine ++ [id]) }

/-- The replicas forgotten for the limit when one is remembered. -/
def forgottenFor (opts : Options sh U) (live : List String) (id : String) (entry : Replica)
    (st : Store sh) : List String :=
  let st := st.setReplica id entry
  pastLimit opts live id (st.ownerSet entry.owner) st.replicas

/-- A replica's entry set, and the owner's allowance kept. `live` are the replicas some session
speaks for now. -/
def rememberReplica (opts : Options sh U) (live : List String) (id : String) (entry : Replica)
    (st : Store sh) : Store sh :=
  let forgotten := st.forgottenFor opts live id entry
  let st := st.setReplica id entry
  if forgotten.isEmpty then st else
    commit opts { nothing with forget := forgotten }
      { st with
        replicas := forgotten.foldl (fun m r => m.erase r) st.replicas
        replicasOf := st.replicasOf.set entry.owner
          ((st.ownerSet entry.owner).filter (· ∉ forgotten)) }

/-- What is remembered of a replica nobody owns yet, once a user is its owner. -/
def entryTaken (now : ℕ) (key : String) (replica : String) (st : Store sh) : Replica :=
  ⟨st.seqOf replica, ((st.replicas.get replica).map Replica.seen).getD now, some key⟩

/-- Record the user as the owner of a replica nobody owns yet. -/
def takeReplica (opts : Options sh U) (live : List String) (now : ℕ) (user : Option U)
    (replica : String) (st : Store sh) : Store sh :=
  match user.map opts.ownerKey, (st.replicas.get replica).bind Replica.owner with
  | some key, none =>
    let entry := st.entryTaken now key replica
    commit opts { nothing with replica := some (replica, entry) }
      (st.rememberReplica opts live replica entry)
  | _, _ => st

/-- The records' rows for a commit, from the changes that landed. -/
def rowsOf (applied : List Change) (d : Doc sh) : List (RecordKey × Entry) × List RecordKey :=
  let touched := @Rules.recordsOf sh applied
  (touched.filterMap fun key => (d.records.get key).map fun e => (key, e),
    touched.filter fun key => (d.records.get key).isNone)

/-- Changes that landed: into the log, to storage and to be broadcast. -/
def landed (opts : Options sh U) (applied : List Change) (ts : ℕ)
    (replica : Option (String × Replica)) (op : Option (String × ℕ)) (st : Store sh) : Store sh :=
  if applied.isEmpty then
    match replica with
    | none => st
    | some _ => commit opts { nothing with replica, op } st
  else
    let version := st.version + 1
    let entry : LogEntry := ⟨version, ts, applied⟩
    let log := st.log ++ [entry]
    let log := if opts.deltaLog < log.length then log.drop (log.length - opts.deltaLog) else log
    let rows := rowsOf applied st.doc
    commit opts
      { nothing with
        upserts := rows.1, deletes := rows.2, replica, op, log := some entry
        logFloor := some ((log.head?.map LogEntry.v).getD version) }
      { st with version, log, effects := st.effects ++ [entry] }

/-- Forget what is older than the retention window. -/
def compact (opts : Options sh U) (now : ℕ) (st : Store sh) : Store sh :=
  let st := { st with lastCompaction := some now }
  match opts.retention with
  | none => st
  | some retention =>
    let cutoff : ℤ := (now : ℤ) - retention
    let touched := st.doc.prunes cutoff
    let forgotten := (st.replicas.entries.filter fun e =>
      e.1 ≠ "server" && ((e.2.seen : ℤ) < cutoff)).map Prod.fst
    let st := { st with
      doc := st.doc.prune cutoff
      replicas := forgotten.foldl (fun m r => m.erase r) st.replicas
      replicasOf := st.replicasOf.mapVal fun _ ids => ids.filter (· ∉ forgotten) }
    if touched.isEmpty && forgotten.isEmpty then st else
      commit opts
        { nothing with
          upserts := touched.filterMap fun key => (st.doc.records.get key).map fun e => (key, e)
          forget := forgotten } st

def maybeCompact (opts : Options sh U) (now : ℕ) (st : Store sh) : Store sh :=
  let due := match st.lastCompaction with
    | none => true
    | some last => (opts.compactEvery : ℤ) ≤ (now : ℤ) - last
  if opts.retention.isSome && due then st.compact opts now else st

/-- The validator, then every change of the op judged. -/
def applyOp (opts : Options sh U) (op : Op) (user : Option U) (ts : ℕ) (d : Doc sh) :
    Except String (Outcome sh) :=
  let verdict := match opts.validate with
    | none => Verdict.yes
    | some validate => validate op.changes user op.replica d
  match verdict with
  | .no => .error "Refused"
  | .thrown message => .error (if message = "" then "Refused" else message)
  | .yes =>
    match applyAll ts .judge op.changes d with
    | .ok out => .ok out
    | .error err => .error err.message

/-- Why an op is too large or not well formed, if it is. -/
def unfit (opts : Options sh U) (op : Op) : Option Refusal :=
  if opts.maxChanges < sizeOf op.changes then
    some ⟨.tooLarge, "An op of more than " ++ toString opts.maxChanges ++
      " changes (each field a put writes counted)", none⟩
  else
    (op.changes.findSome? fun ch => match sh.assertChange ch with
      | .ok () => none
      | .error err => some err.message).map fun message => ⟨.invalid, message, none⟩

/-- The refusal of an op stamped before the retention window. -/
def tooOld : Refusal :=
  ⟨.expired, "The op is older than the store keeps track of; resync and make it again", none⟩

def expired (opts : Options sh U) (now : ℕ) (op : Op) : Option Refusal :=
  match opts.retention with
  | none => none
  | some retention => if (op.ts : ℤ) < (now : ℤ) - retention then some tooOld else none

/-- What keeps an op from being judged at all, the claim on its replica and duplicates apart. -/
def gate (opts : Options sh U) (now : ℕ) (op : Op) : Option Refusal :=
  (unfit opts op).or (expired opts now op)

/-- Whether an op has what every op has. -/
def assertOp (op : Op) : Option Refusal :=
  if op.replica = "" then some ⟨.invalid, "op.replica must be a string", none⟩
  else if op.seq < 1 then some ⟨.invalid, "op.seq must be a positive integer", none⟩
  else none

/-- What is remembered of an op's replica once it is decided. -/
def entryFor (opts : Options sh U) (now : ℕ) (op : Op) (user : Option U) (st : Store sh) : Replica :=
  ⟨op.seq, now, ((st.replicas.get op.replica).bind Replica.owner).or (user.map opts.ownerKey)⟩

/-- Decide a replica's op: the losers of its changes and whether it is a duplicate, or the refusal
of it whole. The speaker is spoken for by the op's replica from then on. -/
def apply (opts : Options sh U) (live : List String) (now : ℕ) (op : Op) (speaker : Speaker U)
    (st : Store sh) : Store sh × Speaker U × Except Refusal (List Lost × Bool) :=
  match assertOp op with
  | some refusal => (st, speaker, .error refusal)
  | none =>
  if !speaker.writes then
    (st, speaker,
      .error ⟨.forbidden, "This session writes only as the clients vouched for on it", none⟩) else
  match claimReplica opts st speaker speaker.user op.replica with
  | some refusal => (st, speaker, .error refusal)
  | none =>
  let speaker := { speaker with speaksFor := some op.replica }
  let known := st.replicas.get op.replica
  if known.any (fun r => op.seq ≤ r.seq) then (st, speaker, .ok ([], true)) else
  match gate opts now op with
  | some refusal => (st, speaker, .error refusal)
  | none =>
  let ts := clamp op.ts (st.clock.time now)
  match opts.rules.judge st.doc op.changes speaker.user op.replica
      (applyOp opts op speaker.user ts) with
  | (doc, .error message) => ({ st with doc }, speaker, .error ⟨.forbidden, message, none⟩)
  | (doc, .ok (applied, lost)) =>
    let entry := st.entryFor opts now op speaker.user
    let st := { st with doc, clock := st.clock.observe ts }
    let st := st.rememberReplica opts live op.replica entry
    let st := st.landed opts applied ts (some (op.replica, entry)) (some (op.replica, op.seq))
    (st.maybeCompact opts now, speaker, .ok (lost, false))

/-- The server's own write, decided as the authority, now. -/
def own (opts : Options sh U) (now : ℕ) (w : OwnWrite) (st : Store sh) :
    Except String (Store sh × List Change) := do
  let list ← w.accepted sh
  let stamped := st.clock.stamp now
  match applyAll stamped.1 .authority list st.doc with
  | .error err => throw err.message
  | .ok out =>
    let st := { st with doc := out.doc, clock := stamped.2 }
    return (st.landed opts out.applied stamped.1 none none, out.applied)

/-- The seed records of a store never seen. -/
def seeds (sh : Shape) : List (RecordKey × Entry) :=
  sh.collections.flatMap fun c =>
    (((sh.initial c).fields?).getD []).map fun r => ((c, some r.1), ⟨r.2, .new⟩)

/-- What is stored, as a store holds it; the seeds where nothing is, under a new `epoch`, with every
migration `known` done. -/
def restored (opts : Options sh U) (known : ℕ) (epoch : String) (stored : List Commit) : Store sh :=
  let saved := Saved.ofCommits stored
  let doc := Doc.load sh (if stored.isEmpty then seeds sh else saved.records.entries)
  let log := saved.log.filter (·.v ≤ saved.version)
  let log := log.drop (log.length - opts.deltaLog)
  let clock := log.foldl (fun c e => c.observe e.ts) ReplicaClock.create
  { doc, replicas := saved.replicas
    replicasOf := saved.replicas.entries.foldl (fun m e =>
      if e.1 = "server" then m else
        let mine := (m.get e.2.owner).getD []
        m.set e.2.owner (mine ++ [e.1])) .empty
    version := saved.version
    epoch := saved.epoch.getD epoch
    schema := if stored.isEmpty then known else saved.schema.getD 0
    log, effects := [], clock := clock.observe doc.latest
    lastCompaction := none, buckets := .empty, pending := [], stored }

/-- A store loaded from what is stored, or made from the shape's seeds. -/
def load (opts : Options sh U) (known : ℕ) (epoch : String) (now : ℕ) (stored : List Commit) :
    Store sh :=
  let st := restored opts known epoch stored
  let st := if stored.isEmpty && !(seeds sh).isEmpty then
    commit opts { nothing with upserts := seeds sh } st else st
  (st.compact opts now).commitNow

/-- A migration run: its count is stored in the commit of what it writes, or in one of its own when
it has nothing to write. -/
def migrateOne (opts : Options sh U) (now : ℕ) (migration : Migration sh) (st : Store sh) :
    Except String (Store sh) := do
  let diff ← migration st.doc
  let st := { st with schema := st.schema + 1 }
  let st ← if diff.isEmpty then pure (commit opts nothing st) else
    (st.own opts now (.patch diff)).map Prod.fst
  return st.commitNow

end Store

end LazyStorage.Server
