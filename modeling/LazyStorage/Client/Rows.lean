import Mathlib.Data.List.Sort
import LazyStorage.Client.Link

/-! # A client's rows

A row adapter keeps a row for each record of the base, one for each pending op by
its number, and one that says whose they are and where the base stands. A write is
one transaction, which says that anew; it is made as the client goes on, and a tab
that is closed at any moment is opened again on what was written.
-/
namespace LazyStorage.Client

open Lib LazyStorage.Core LazyStorage.Server

/-- Whose rows they are: the client's numbers, and where its base stands. -/
structure About where
  replica : String
  seq : ℕ
  known : Known
deriving DecidableEq

structure Rows where
  records : OrderedMap RecordKey Entry
  ops : OrderedMap ℕ Op
  about : Option About

namespace Rows

/-- A database new made. -/
def empty : Rows := ⟨.empty, .empty, none⟩

/-- What there is, if anything was ever written: the ops by their numbers. -/
def load (rows : Rows) : Option Kept :=
  rows.about.map fun about =>
    ⟨about.replica, about.seq, (rows.ops.entries.insertionSort fun a b => a.1 ≤ b.1).map Prod.snd,
      some rows.records.entries, about.known⟩

def commit (puts : List (RecordKey × Entry)) (deletes : List RecordKey) (about : About) (rows : Rows) : Rows :=
  { rows with
    records := puts.foldl (fun m r => m.set r.1 r.2) (deletes.foldl (fun m key => m.erase key) rows.records)
    about := some about }

def replace (records : List (RecordKey × Entry)) (about : About) (rows : Rows) : Rows :=
  { rows with records := records.foldl (fun m r => m.set r.1 r.2) .empty, about := some about }

def saveOp (about : About) (rows : Rows) (op : Op) : Rows :=
  { rows with ops := rows.ops.set op.seq op, about := some about }

def removeOp (about : About) (rows : Rows) (seq : ℕ) : Rows :=
  { rows with ops := rows.ops.erase seq, about := some about }

def dropOps (seq : ℕ) (about : About) (rows : Rows) : Rows :=
  { rows with ops := rows.ops.filter fun n _ => seq < n, about := some about }

end Rows

/-- What a new op takes over, for the rows: the ops left with fewer changes, and the numbers of those left with
none. -/
def superseded (changes : List Change) (outbox : List Op) : List Op × List ℕ :=
  let written := changes.filter fun ch =>
    match ch.write with
    | .put _ => false
    | _ => true
  if written.isEmpty then ([], []) else
  let kept := fun older : Op => older.changes.filter fun ch => !within written ch
  let shrunk := outbox.filter fun older => (kept older).length ≠ older.changes.length
  ((shrunk.filter fun older => !(kept older).isEmpty).map fun older => { older with changes := kept older },
    (shrunk.filter fun older => (kept older).isEmpty).map Op.seq)

variable {sh : Shape}

def Mirror.about (c : Mirror sh) : About := ⟨c.replica, c.seq, c.known⟩

/-! ## What a client writes -/

namespace Persistence

variable (cache : Bool) (c : Mirror sh) (rows : Rows)

/-- A new op, and what it took over. -/
def op (made : Op) (superseded : List Op × List ℕ) : Rows :=
  let rows := superseded.1.foldl (Rows.saveOp c.about) rows
  let rows := superseded.2.foldl (Rows.removeOp c.about) rows
  rows.saveOp c.about made

def drop (seq : ℕ) : Rows := rows.dropOps seq c.about

def remove (seq : ℕ) : Rows := rows.removeOp c.about seq

/-- The base changed for these records. -/
def base (touched : List RecordKey) : Rows :=
  if !cache || touched.isEmpty then rows else
  let at_ := fun key : RecordKey => c.base.records.get (sh.recordKey key.1 key.2)
  rows.commit (touched.filterMap fun key => (at_ key).map fun e => (key, e))
    (touched.filter fun key => (at_ key).isNone) c.about

def snapshot : Rows := if cache then rows.replace c.base.records.entries c.about else rows

def version : Rows := if cache then rows.commit [] [] c.about else rows

/-- The database was made anew: all of it, written again. -/
def rewrite : Rows :=
  c.outbox.foldl (Rows.saveOp c.about) (snapshot cache c rows)

end Persistence

namespace Mirror

/-- A local batch. -/
def storesEdit (changes : List Change) (now : ℤ) (c : Mirror sh) (rows : Rows) : Rows :=
  Persistence.op (c.edit changes now).1 rows ⟨c.replica, c.seq + 1, (c.clock.stamp now).1, changes⟩
    (superseded changes c.outbox)

/-- Acknowledged ops are dropped, if there are any. -/
def storesAcknowledge (upTo : ℕ) (c : Mirror sh) (rows : Rows) : Rows :=
  if (c.acknowledge upTo).outbox.length = c.outbox.length then rows else Persistence.drop c rows upTo

/-- A message of the server's. -/
def stores (cache : Bool) (msg : Down) (now : ℤ) (c : Mirror sh) (rows : Rows) : Rows :=
  let after := (c.handle msg now).1
  let keysOf := fun changes : List Change => (changes.filter fun ch => sh.has ch.c).map fun ch => (ch.c, ch.id)
  match msg with
  | .snapshot _ seq _ _ _ _ => Persistence.snapshot cache after (c.storesAcknowledge seq rows)
  | .delta ops seq _ _ _ _ =>
    let touched := ops.flatMap fun entry => keysOf entry.changes
    let rows := Persistence.base cache after (c.storesAcknowledge seq rows) touched
    if touched.isEmpty then Persistence.version cache after rows else rows
  | .patch changes v _ =>
    if !c.synced || (c.known.epoch.isSome && c.known.v + 1 < v) then rows
    else Persistence.base cache after rows (keysOf changes)
  | .ack _ _ seq _ _ _ => storesAcknowledge seq { c with known := after.known } rows
  | .error _ _ seq refusal =>
    if refusal.code = .rateLimited then rows else
    match seq with
    | some seq => if c.outbox.any (·.seq = seq) then Persistence.remove after rows seq else rows
    | none => rows
  | .closed _ _ => rows
  | .revoked _ _ _ => rows

end Mirror

/-! ## A tab over its rows -/

variable {U : Type}

/-- A client, its store, and its rows. -/
structure Opened (sh : Shape) (U : Type) where
  system : System sh U
  rows : Rows

inductive OpenedEvent (U : Type)
  | link (e : Event U)
  | reopen
  | anew

namespace Opened

/-- A store, and a client with a new database. -/
def start (host : Host sh) (replica : String) (wantsClocks : Bool) : Opened sh U :=
  ⟨System.start host replica wantsClocks, .empty⟩

/-- The client a tab opened now would have. -/
def reopened (cache : Bool) (s : Opened sh U) : Mirror sh :=
  match s.rows.load with
  | none => .create sh s.system.client.replica s.system.client.wantsClocks
  | some saved => .build sh saved.replica s.system.client.wantsClocks cache saved

/-- The tab does as it does, and writes; it is closed, and another opened on its rows; or another tab had deleted its
database. -/
def step (opts : Options sh U) (cache : Bool) (e : OpenedEvent U) (s : Opened sh U) : Option (Opened sh U) :=
  match e with
  | .link e => (s.system.step opts e).map fun system =>
    ⟨system, match e with
      | .edit changes now => s.system.client.storesEdit changes now s.rows
      | .deliver now => s.system.down.head?.elim s.rows fun msg => s.system.client.stores cache msg now s.rows
      | _ => s.rows⟩
  | .reopen => some { s with system := { s.system.cut with client := s.reopened cache } }
  | .anew => some { s with rows := Persistence.rewrite cache s.system.client .empty }

end Opened

end LazyStorage.Client
