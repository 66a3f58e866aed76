import LazyStorage.Lib.Search
import LazyStorage.Relay.Grants
import LazyStorage.Server.Chronicle
import LazyStorage.Server.Session

/-! # A relay's copy of a store

A relay keeps the server's records, as last told, apart from the ops the server has
not acknowledged: the base, and the queue. What its clients see is the view, the one
with the other on top, and it is kept record by record: what an answer of the
server's touches is put back from the base, with all that lies beneath it, and the
queue replayed. Times are read off the relay's clock by the caller.
-/
namespace LazyStorage.Relay

open Lib LazyStorage.Core LazyStorage.Server

variable {sh : Shape} {U : Type}

/-- How many entries of its own log a relay keeps. -/
def deltaLog : ℕ := 1000

/-- Whose word acknowledges a client's op: the server's, passed on, or the relay's own, whose replica its clients
are. -/
inductive Acknowledge
  | upstream
  | locally
deriving DecidableEq

/-- An op the server has not acknowledged: the relay's own, or one of a client's, said `as` its session. -/
structure Queued where
  as : Option String
  replica : String
  op : Op
  sent : Bool

def Queued.own (entry : Queued) : Bool := entry.as.isNone

/-- A client the server is asked about. -/
structure Asked (U : Type) where
  replica : String
  standing : Standing
  user : Option U

/-- A store's copy: `v` and `epoch` are the server's, `fv` and `fepoch` what the relay's clients count in. -/
structure Edge (sh : Shape) (U : Type) where
  base : Doc sh
  view : Doc sh
  v : ℕ
  epoch : Option String
  fepoch : String
  fv : ℕ
  log : List LogEntry
  queue : List Queued
  ownSeq : ℕ
  seen : OrderedMap String ℕ
  acked : OrderedMap String ℕ
  grants : OrderedMap String (Asked U)
  synced : Bool

/-- One change; what throws is reported, and changes nothing. -/
def safeApply (ts : ℕ) (mode : Mode) (change : Change) (d : Doc sh) : Outcome sh :=
  if !sh.has change.c then .nothing d else
  match apply ts mode change d with
  | .ok out => out
  | .error _ => .nothing (d.note (sh.recordKey change.c change.id))

def safeAll (ts : ℕ) (mode : Mode) (changes : List Change) (d : Doc sh) : Outcome sh :=
  changes.foldl (fun out change => out.andThen (safeApply ts mode change)) (.nothing d)

/-- The records changes are to. -/
def recordsIn (sh : Shape) (changes : List Change) : List RecordKey := changes.map fun ch => sh.recordKey ch.c ch.id

/-- The records waiting ops name. -/
def namedBy (sh : Shape) (queue : List Queued) : List RecordKey :=
  queue.flatMap fun entry => recordsIn sh entry.op.changes

/-- The queue replayed. -/
def replayQueue (queue : List Queued) (d : Doc sh) : Doc sh :=
  queue.foldl (fun d entry => (safeAll entry.op.ts .judge entry.op.changes d).doc) d

/-- The records put back for these: a record takes those beneath it along. -/
def putBack (base : Doc sh) (records : List RecordKey) : List RecordKey :=
  Search.visitAll base.childrenOf (records.length + base.index.parentsOfChild.size) records

/-- Records as the base has them. -/
def restore (base view : Doc sh) (keys : List RecordKey) : Doc sh :=
  keys.foldl (fun view key => view.setRecord key (base.records.get key)) view

/-- What became of records, as changes: each written whole, a record that was there anew. -/
def madeOf (before after : Doc sh) (touched : List RecordKey) : List Change :=
  touched.flatMap fun key =>
    let was := before.get key
    match after.get key with
    | none => if was.isNone then [] else [⟨key.1, key.2, [], .del⟩]
    | some value =>
      if was = some value then []
      else if sh.isSingleton key.1 then [⟨key.1, key.2, [], .set value⟩]
      else (if was.isSome then [⟨key.1, key.2, [], .del⟩] else []) ++ [⟨key.1, key.2, [], .put value⟩]

namespace Edge

/-- Changes to every client of the store, in the relay's own versions. -/
def emitPatch (changes : List Change) (ts : ℕ) (e : Edge sh U) : Edge sh U :=
  if changes.isEmpty then e else
    { e with
      fv := e.fv + 1
      log := lastOf deltaLog (e.log ++ [⟨e.fv + 1, ts, changes⟩]) }

/-- The view worked out again for records, and what changed told. -/
def recompute (records : List RecordKey) (ts : ℕ) (e : Edge sh U) : Edge sh U :=
  let reset := putBack e.base records
  let touched := (reset ++ namedBy sh e.queue).reverse.dedup.reverse
  let view := replayQueue e.queue (restore e.base e.view reset)
  { e with view }.emitPatch (madeOf e.view view touched) ts

/-- Changes the server decided: onto the base, and on to the clients. -/
def fromServer (changes : List Change) (ts : ℕ) (e : Edge sh U) : Edge sh U :=
  let e := { e with base := (safeAll ts .trust changes e.base).doc }
  if e.queue.isEmpty then
    { e with view := (safeAll ts .trust changes e.view).doc }.emitPatch changes ts
  else e.recompute (recordsIn sh changes) ts

/-! ## What goes up -/

/-- An op goes to the server, if it may now. -/
def sendUp (up : Bool) (e : Edge sh U) (entry : Queued) : Queued :=
  let may := match entry.as with
    | none => true
    | some as => (e.grants.get as).any fun grant => grant.standing = .admitted
  if e.synced && up && may then { entry with sent := true } else entry

/-- The server is asked about a client, if the link is up. -/
def vouch (up : Bool) (as : String) (e : Edge sh U) : Edge sh U :=
  match e.grants.get as with
  | none => e
  | some grant => if up then { e with grants := e.grants.set as { grant with standing := .asked } } else e

def vouchPending (up : Bool) (e : Edge sh U) : Edge sh U :=
  { e with grants := e.grants.mapVal fun _ grant =>
      if up && grant.standing = .pending then { grant with standing := .asked } else grant }

/-- The store's hello on its link: the relay's own ops go with it. -/
def helloUp (up : Bool) (e : Edge sh U) : Edge sh U :=
  let queue := e.queue.map fun entry : Queued => { entry with sent := entry.own }
  { e with synced := false, queue }.vouchPending up

/-- The ops of clients that left, of whom the server is asked no more, are let go of. -/
def forgetOrphans (ts : ℕ) (e : Edge sh U) : Edge sh U :=
  let orphan := fun entry : Queued => entry.as.any fun as => !e.grants.has as
  let orphans := e.queue.filter orphan
  if orphans.isEmpty then e
  else
    let queue := e.queue.filter fun entry => !orphan entry
    { e with queue }.recompute (namedBy sh orphans) ts

/-- The link, or the server's session on it, has gone: with it all that was asked and sent. -/
def goOffline (ts : ℕ) (e : Edge sh U) : Edge sh U :=
  let grants := e.grants.mapVal fun _ grant =>
    if grant.standing = .refused then grant else { grant with standing := .pending }
  let e := { e with synced := false, grants }.forgetOrphans ts
  { e with queue := e.queue.map fun entry => { entry with sent := false } }

/-! ## What comes down -/

/-- A snapshot or a delta landed: the relay's ops it counts are let go of, and the view is worked out again for the
records it touched. -/
def caughtUp (up : Bool) (seq v : ℕ) (epoch fresh : String) (ts : ℕ) (applyToBase : Doc sh → Doc sh × List RecordKey)
    (e : Edge sh U) : Edge sh U :=
  let out := applyToBase e.base
  let e := { e with
    queue := e.queue.filter fun entry => !(entry.own && entry.op.seq ≤ seq)
    base := out.1
    v
    epoch := some epoch
    fepoch := if e.epoch.any (· ≠ epoch) then fresh else e.fepoch
    synced := true }
  let e := (e.recompute out.2 ts).vouchPending up
  { e with queue := e.queue.map (e.sendUp up) }

/-- A snapshot's records, as a base: touched are those there were, and those of collections there are. -/
def snapshotInto (records : List (RecordKey × Entry)) (base : Doc sh) : Doc sh × List RecordKey :=
  let known := records.filter fun r => sh.has r.1.1
  (Doc.load sh known, base.keysOf ++ (known.filter fun r => sh.isCollection r.1.1).map Prod.fst)

/-- A delta's entries, onto the base. -/
def deltaInto (ops : List LogEntry) (base : Doc sh) : Doc sh × List RecordKey :=
  (ops.foldl (fun base entry => (safeAll entry.ts .trust entry.changes base).doc) base,
    ops.flatMap fun entry => recordsIn sh entry.changes)

/-- The first waiting op of a kind is let go of, and the view worked out again for what it wrote. -/
def letGo (which : Queued → Bool) (ts : Queued → ℕ) (e : Edge sh U) : Edge sh U :=
  match e.queue.find? which with
  | none => e
  | some entry =>
    let queue := e.queue.eraseP which
    { e with queue }.recompute (recordsIn sh entry.op.changes) (ts entry)

def isOwn (seq : ℕ) (entry : Queued) : Bool := entry.own && entry.op.seq = seq

def isClients (replica : String) (seq : ℕ) (entry : Queued) : Bool :=
  !entry.own && entry.replica = replica && entry.op.seq = seq

/-- Whose op an answer is about. -/
def replicaOf (as : String) (replica : Option String) (e : Edge sh U) : Option String :=
  replica.or ((e.grants.get as).map Asked.replica)

/-- A message of the server's. -/
def fromUpstream (up : Bool) (msg : Server.Down) (fresh : String) (highest : ℕ) (e : Edge sh U) : Edge sh U :=
  match msg with
  | .snapshot records seq v epoch _ _ => e.caughtUp up seq v epoch fresh highest (snapshotInto records)
  | .delta ops seq v epoch _ _ => e.caughtUp up seq v epoch fresh highest (deltaInto ops)
  | .patch changes v ts =>
    if !e.synced then e
    else if e.v + 1 < v then helloUp up { e with synced := false }
    else { e with v }.fromServer changes ts
  | .ack as replica seq v _ _ =>
    let e := { e with v := max e.v v }
    match as with
    | none => e.letGo (isOwn seq) fun entry => entry.op.ts
    | some as =>
      match e.replicaOf as replica with
      | none => e
      | some replica =>
        let acked := e.acked.set replica (max ((e.acked.get replica).getD 0) seq)
        { e with acked }.letGo (isClients replica seq) fun entry => entry.op.ts
  | .error as replica seq refusal =>
    match seq with
    | none => e
    | some seq =>
      if refusal.code = .rateLimited then
        { e with queue := e.queue.map fun entry => if entry.as = as then { entry with sent := false } else entry }
      else
        match as with
        | none => e.letGo (isOwn seq) fun entry => entry.op.ts
        | some as =>
          match e.replicaOf as replica with
          | none => e
          | some replica => e.letGo (isClients replica seq) fun entry => entry.op.ts
  | .closed code _ => if code = .unavailable then e.goOffline highest else { e with synced := false }
  | .revoked as _ _ =>
    match e.grants.get as with
    | none => e
    | some grant =>
      { e with
        grants := e.grants.set as { grant with standing := .refused }
        queue := e.queue.filter fun entry => entry.as ≠ some as }

/-- A client let in: what it said goes up. -/
def admitted (up : Bool) (as : String) (user : Option U) (e : Edge sh U) : Edge sh U :=
  match e.grants.get as with
  | none => e
  | some grant =>
    let e := { e with grants := e.grants.set as { grant with standing := .admitted, user } }
    { e with queue := e.queue.map fun entry => if entry.as = some as then e.sendUp up entry else entry }

/-- A client refused: for its rate, it is asked about again, and else its ops are let go of. -/
def refused (as : String) (limited : Bool) (e : Edge sh U) : Edge sh U :=
  match e.grants.get as with
  | none => e
  | some grant =>
    if limited then { e with grants := e.grants.set as { grant with standing := .pending } } else
      { e with
        grants := e.grants.set as { grant with standing := .refused }
        queue := e.queue.filter fun entry => entry.as ≠ some as }

/-! ## The clients -/

/-- A client's hello: it is asked for, if it was not yet. -/
def hello (up : Bool) (as replica : String) (e : Edge sh U) : Edge sh U :=
  let e := if (e.grants.get as).isSome then e else { e with grants := e.grants.set as ⟨replica, .pending, none⟩ }
  if (e.grants.get as).any fun grant => grant.standing = .pending then e.vouch up as else e

/-- A client's op: judged as the server would, applied to the view at once, queued and sent up. One that waits under a
session of the client's that left is taken over, and one had already is not taken. -/
def take (rules : Rules sh U) (acknowledge : Acknowledge) (self : String) (up : Bool) (as replica : String) (op : Op)
    (now : ℕ) (e : Edge sh U) : Edge sh U :=
  if op.replica ≠ replica || op.seq = 0 then e else
  let known := match acknowledge with
    | .upstream => (e.acked.get op.replica).getD 0
    | .locally => (e.seen.get op.replica).getD 0
  let waits := match acknowledge with
    | .upstream => e.queue.findIdx? (isClients op.replica op.seq)
    | .locally => none
  let left := fun i : ℕ => (e.queue[i]?).any fun entry => entry.as ≠ some as && !entry.as.any e.grants.has
  match waits with
  | some i =>
    if left i then { e with queue := e.queue.modify i fun entry => e.sendUp up { entry with as := some as } } else e
  | none =>
    if op.seq ≤ known then e else
    let ts := clamp op.ts now
    match op.changes.find? fun ch => !(sh.assertChange ch).isOk with
    | some _ => e
    | none =>
      let user := (e.grants.get as).bind Asked.user
      match rules.judge e.view op.changes user op.replica fun d => .ok (safeAll ts .judge op.changes d) with
      | (view, .error _) => { e with view }
      | (view, .ok (applied, _)) =>
        let ownSeq := if acknowledge = .locally then e.ownSeq + 1 else e.ownSeq
        let entry : Queued := match acknowledge with
          | .upstream => ⟨some as, op.replica, { op with ts }, false⟩
          | .locally => ⟨none, self, ⟨self, ownSeq, ts, op.changes⟩, false⟩
        let e := { e with view, ownSeq, seen := e.seen.set op.replica op.seq }
        { e with queue := e.queue ++ [e.sendUp up entry] }.emitPatch applied ts

/-- A client's session ends: what it said and the server has not been sent is let go of. -/
def leave (as : String) (ts : ℕ) (e : Edge sh U) : Edge sh U :=
  match e.grants.get as with
  | none => e
  | some _ =>
    let e := { e with grants := e.grants.erase as }
    let mine := fun entry : Queued => entry.as = some as && !entry.sent
    if (e.queue.filter mine).isEmpty then e
    else
      let queue := e.queue.filter fun entry => !mine entry
      { e with queue }.recompute (namedBy sh (e.queue.filter mine)) ts

/-- The relay's own write, its changes such as a store takes. -/
def patch (self : String) (up : Bool) (changes : List Change) (ts : ℕ) (e : Edge sh U) : Edge sh U :=
  let out := safeAll ts .judge changes e.view
  let e := { e with view := out.doc, ownSeq := e.ownSeq + 1 }
  let queue := e.queue ++ [e.sendUp up ⟨none, self, ⟨self, e.ownSeq, ts, changes⟩, false⟩]
  { e with queue }.emitPatch out.applied ts

/-- A copy made from what storage kept: the base, and the relay's own ops on top. -/
def make (fresh self : String) (records : List (RecordKey × Entry)) (v fv : ℕ) (epoch : Option String) (ownSeq : ℕ)
    (ops : List Op) : Edge sh U :=
  let base := Doc.load sh records
  let queue := ops.map fun op => ⟨none, self, op, false⟩
  { base
    view := replayQueue queue (Doc.load sh base.records.entries)
    v, epoch, fv, ownSeq, queue
    fepoch := fresh
    log := []
    seen := .empty
    acked := .empty
    grants := .empty
    synced := false }

end Edge

/-- What happens to a copy. `up` says whether the link is, and times are the relay's. -/
inductive CopyEvent (U : Type)
  | take (up : Bool) (as replica : String) (op : Op) (now : ℕ)
  | patch (up : Bool) (changes : List Change) (ts : ℕ)
  | hears (up : Bool) (msg : Server.Down) (fresh : String) (highest : ℕ)
  | admitted (up : Bool) (as : String) (user : Option U)
  | refused (as : String) (limited : Bool)
  | hello (up : Bool) (as replica : String)
  | asksAgain (up : Bool) (as : String)
  | resends (up : Bool)
  | leave (as : String) (ts : ℕ)
  | opens (up : Bool)
  | closes (ts : ℕ)

namespace Edge

def step (rules : Rules sh U) (acknowledge : Acknowledge) (self : String) (e : CopyEvent U) (edge : Edge sh U) :
    Option (Edge sh U) :=
  match e with
  | .take up as replica op now => some (edge.take rules acknowledge self up as replica op now)
  | .patch up changes ts =>
    if changes.all fun ch => (sh.assertChange ch).isOk then some (edge.patch self up changes ts) else none
  | .hears up msg fresh highest => some (edge.fromUpstream up msg fresh highest)
  | .admitted up as user => some (edge.admitted up as user)
  | .refused as limited => some (edge.refused as limited)
  | .hello up as replica => some (edge.hello up as replica)
  | .asksAgain up as =>
    if (edge.grants.get as).any fun grant => grant.standing = .pending then some (edge.vouch up as) else none
  | .resends up => some { edge with queue := edge.queue.map (edge.sendUp up) }
  | .leave as ts => some (edge.leave as ts)
  | .opens up => some (edge.helloUp up)
  | .closes ts => some (edge.goOffline ts)

end Edge

end LazyStorage.Relay
