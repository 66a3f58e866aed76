import LazyStorage.Server.Session

/-! # A synced, offline-capable mirror of a store

A client keeps the server's state, as last told, apart from its own edits: the
base, and the outbox of the ops the server has not acknowledged. What the app is
shown is the one with the other replayed on top, and is not kept here. Its wall
clock is read by the caller.
-/
namespace LazyStorage.Client

open Lib LazyStorage.Core LazyStorage.Server

/-- The most ops one hello carries. -/
def helloLimit : ℕ := 1000

/-- The server's epoch and the version of its state that was last told. -/
structure Known where
  epoch : Option String
  v : ℕ
deriving DecidableEq

structure Mirror (sh : Shape) where
  replica : String
  wantsClocks : Bool
  seq : ℕ
  outbox : List Op
  base : Doc sh
  known : Known
  clock : ReplicaClock
  linked : Bool
  synced : Bool
  answered : ℕ
  throttled : Bool
  retrying : Bool

/-- What a storage adapter kept of a client: what it had not been told the server has, and, for one
that keeps a base, its records with their clocks. -/
structure Kept where
  replica : String
  seq : ℕ
  ops : List Op
  records : Option (List (RecordKey × Entry))
  known : Known

/-- Whether a change writes at or beneath a place that was written. -/
def within (written : List Change) (ch : Change) : Bool :=
  written.any fun w => ch.c = w.c && ch.id = w.id && w.path.isPrefixOf ch.path

/-- A new op takes over what older pending ops wrote at or beneath what it sets or deletes. -/
def supersede (changes : List Change) (outbox : List Op) : List Op :=
  let written := changes.filter fun ch =>
    match ch.write with
    | .put _ => false
    | _ => true
  if written.isEmpty then outbox else
  outbox.filterMap fun older =>
    let kept := older.changes.filter fun ch => !within written ch
    if kept.length = older.changes.length then some older
    else if kept.isEmpty then none
    else some { older with changes := kept }

namespace Mirror

variable {sh : Shape}

/-- A client with nothing to say, that has not heard the server: it shows the seeds. -/
def create (sh : Shape) (replica : String) (wantsClocks : Bool) : Mirror sh where
  replica := replica
  wantsClocks := wantsClocks
  seq := 0
  outbox := []
  base := Doc.load sh (Store.seeds sh)
  known := ⟨none, 0⟩
  clock := .create
  linked := false
  synced := false
  answered := 0
  throttled := false
  retrying := false

/-- A client over what its storage adapter kept: all of it, when it is the same replica. -/
def build (sh : Shape) (replica : String) (wantsClocks cache : Bool) (saved : Kept) : Mirror sh :=
  let fresh := create sh replica wantsClocks
  if saved.replica ≠ replica then fresh else
  let fresh := { fresh with seq := saved.seq, outbox := saved.ops }
  match saved.records with
  | some records =>
    if cache then { fresh with base := Doc.load sh records, known := saved.known } else fresh
  | none => fresh

/-- What a storage adapter has of a client once all it was given is written. -/
def kept (c : Mirror sh) : Kept := ⟨c.replica, c.seq, c.outbox, some c.base.records.entries, c.known⟩

/-- Whether an op goes to the server as it is made. -/
def live (c : Mirror sh) : Bool := c.linked && c.synced && !c.throttled

/-- The pending ops with the version last seen. Those past the limit go once it is answered. -/
def hello (c : Mirror sh) : Mirror sh × List Up :=
  let ops := c.outbox.take helloLimit
  let since := c.known.epoch.map fun epoch => (c.known.v, epoch)
  ({ c with answered := (ops.getLast?.map Op.seq).getD 0, throttled := false },
    [.hello c.replica ops since c.wantsClocks false])

/-- A local batch: an op, pending until the server has it. -/
def edit (changes : List Change) (now : ℤ) (c : Mirror sh) : Mirror sh × List Up :=
  let stamped := c.clock.stamp now
  let op : Op := ⟨c.replica, c.seq + 1, stamped.1, changes⟩
  ({ c with
      seq := c.seq + 1
      outbox := supersede changes c.outbox ++ [op]
      clock := stamped.2 },
    if c.live then [.op none op] else [])

/-- Drop acknowledged ops: those up to a number. -/
def acknowledge (upTo : ℕ) (c : Mirror sh) : Mirror sh :=
  { c with outbox := c.outbox.filter (upTo < ·.seq) }

/-- Changes the server decided, onto the base: those of records its shape has. -/
def intoBase (changes : List Change) (ts : ℕ) (c : Mirror sh) : Mirror sh :=
  { c with
    clock := c.clock.observe ts
    base := (changes.filter fun ch => sh.has ch.c).foldl
      (fun base ch => match apply ts .trust ch base with
        | .ok out => out.doc
        | .error _ => base) c.base }

/-- A snapshot's records, as a base. -/
def snapshotInto (records : List (RecordKey × Entry)) (c : Mirror sh) : Mirror sh :=
  { c with base := Doc.load sh (records.filter fun r => sh.has r.1.1) }

/-- A snapshot or a delta landed: the outbox past the hello goes to the server. -/
def caughtUp (seq v : ℕ) (epoch : String) (serverNow : ℕ) (now : ℤ)
    (applyToBase : Mirror sh → Mirror sh) (c : Mirror sh) : Mirror sh × List Up :=
  let c := { c with clock := c.clock.adopt serverNow now }
  let c := applyToBase (c.acknowledge seq)
  let c := { c with known := ⟨some epoch, v⟩, synced := true }
  (c, if c.live then (c.outbox.filter (c.answered < ·.seq)).map (.op none) else [])

/-- A refused op leaves the outbox. -/
def reject (seq : ℕ) (c : Mirror sh) : Mirror sh :=
  { c with outbox := c.outbox.eraseP (·.seq = seq) }

/-- A message of the server's. -/
def handle (msg : Down) (now : ℤ) (c : Mirror sh) : Mirror sh × List Up :=
  match msg with
  | .snapshot records seq v epoch serverNow _ =>
    c.caughtUp seq v epoch serverNow now (snapshotInto records)
  | .delta ops seq v epoch serverNow _ =>
    c.caughtUp seq v epoch serverNow now fun c =>
      ops.foldl (fun c entry => c.intoBase entry.changes entry.ts) c
  | .patch changes v ts =>
    if !c.synced then (c, [])
    else if c.known.epoch.isSome && c.known.v + 1 < v then
      -- one skipped means a patch never arrived
      hello { c with synced := false }
    else (intoBase changes ts { c with known := { c.known with v } }, [])
  | .ack _ _ seq v serverNow _ =>
    (acknowledge seq { c with
      clock := c.clock.adopt serverNow now
      known := { c.known with v := max c.known.v v } }, [])
  | .error _ _ seq refusal =>
    if refusal.code = .rateLimited then
      ({ c with throttled := c.throttled || seq.isSome, retrying := true }, [])
    else
      match seq with
      | some seq => (c.reject seq, [])
      | none => (c, [])
  | .closed code _ =>
    if code = .unavailable then ({ c with synced := false, retrying := true }, [])
    else ({ c with linked := false, synced := false }, [])
  | .revoked _ _ _ => (c, [])

/-- The retry timer's time is up. -/
def retry (c : Mirror sh) : Mirror sh × List Up :=
  let c := { c with retrying := false }
  if c.linked then c.hello else (c, [])

/-- Who is there is asked for, or no more: said in a hello. -/
def wantPresence (c : Mirror sh) : Mirror sh × List Up :=
  if c.linked && !c.retrying then c.hello else (c, [])

/-- The link is up. -/
def onOpen (c : Mirror sh) : Mirror sh × List Up := hello { c with linked := true, synced := false }

/-- The link is down. -/
def onClose (c : Mirror sh) : Mirror sh := { c with linked := false, synced := false }

end Mirror

end LazyStorage.Client
