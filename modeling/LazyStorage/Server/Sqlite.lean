import LazyStorage.Lib.Batch
import LazyStorage.Server.Store

/-! # Storage on SQLite, and in memory

A store's rows in a database, and what commits make of them while its lease is
held: several in one transaction write each row once, as the last of them left it. A
transaction is all or nothing, so it is a function here. Data and clocks are JSON
text in the rows, which is read back as it was written.
-/
namespace LazyStorage.Server

open Lib LazyStorage.Core

/-- What an adapter is given to store. No record's id is empty. -/
structure CommitChange where
  upserts : List (RecordKey × Entry)
  deletes : List RecordKey
  replica : Option (String × Replica)
  forgetReplicas : List String
  version : ℕ
  epoch : String
  schema : Option ℕ
  log : Option LogEntry
  logFloor : Option ℕ
  named : ∀ key ∈ deletes ++ upserts.map Prod.fst, key.2 ≠ some ""

namespace CommitChange

variable (change : CommitChange)

/-- What a change says of records, in order: what each is to be, or that it is deleted. -/
def records : List (RecordKey × Option Entry) :=
  change.deletes.map (fun key => (key, none)) ++ change.upserts.map fun r => (r.1, some r.2)

/-- What a change says of replicas, in order: what each has come to, or that it is forgotten. -/
def progress : List (String × Option Replica) :=
  change.replica.toList.map (fun r => (r.1, some r.2)) ++ change.forgetReplicas.map fun id => (id, none)

theorem named_records {e : RecordKey × Option Entry} (h : e ∈ change.records) : e.1.2 ≠ some "" := by
  refine change.named e.1 ?_
  simp only [records, List.mem_append, List.mem_map] at h ⊢
  rcases h with ⟨key, hkey, rfl⟩ | ⟨r, hr, rfl⟩
  · exact .inl hkey
  · exact .inr ⟨r, hr, rfl⟩

end CommitChange

/-- The last floor named. -/
def floorOf (changes : List CommitChange) : Option ℕ :=
  changes.foldl (fun floor change => change.logFloor.or floor) none

/-! ## The database -/

/-- A record's id in its row: empty for a singleton's. -/
def rowId (id : Option String) : String := id.getD ""

def rowKey (key : RecordKey) : String × String := (key.1, rowId key.2)

/-- The record that a row is of. -/
def recordOf (row : String × String) : RecordKey := (row.1, if row.2 = "" then none else some row.2)

/-- A row of `oplog` written: in its place by `v`, or over the one there. -/
def putLog (entry : LogEntry) : List LogEntry → List LogEntry
  | [] => [entry]
  | e :: log => if entry.v < e.v then entry :: e :: log else if entry.v = e.v then entry :: log
    else e :: putLog entry log

theorem mem_putLog {entry e : LogEntry} {log : List LogEntry} (h : e ∈ putLog entry log) : e = entry ∨ e ∈ log := by
  induction log with
  | nil => exact .inl (List.mem_singleton.mp h)
  | cons x log ih =>
    rw [putLog] at h
    split_ifs at h
    · exact List.mem_cons.mp h
    · exact (List.mem_cons.mp h).imp id fun h => List.mem_cons_of_mem _ h
    · rcases List.mem_cons.mp h with rfl | h
      · exact .inr List.mem_cons_self
      · exact (ih h).imp id fun h => List.mem_cons_of_mem _ h

theorem sorted_putLog {entry : LogEntry} {log : List LogEntry} (h : log.Pairwise (·.v < ·.v)) :
    (putLog entry log).Pairwise (·.v < ·.v) := by
  induction log with
  | nil => simp [putLog]
  | cons e log ih =>
    obtain ⟨he, hlog⟩ := List.pairwise_cons.mp h
    rw [putLog]
    split_ifs with hlt heq
    · refine List.pairwise_cons.mpr ⟨fun x hx => ?_, h⟩
      rcases List.mem_cons.mp hx with rfl | hx
      · exact hlt
      · exact hlt.trans (he x hx)
    · exact List.pairwise_cons.mpr ⟨fun x hx => heq ▸ he x hx, hlog⟩
    · refine List.pairwise_cons.mpr ⟨fun x hx => ?_, ih hlog⟩
      rcases mem_putLog hx with rfl | hx
      · omega
      · exact he x hx

def putLogs (entries log : List LogEntry) : List LogEntry := entries.foldl (fun log entry => putLog entry log) log

theorem sorted_putLogs {entries log : List LogEntry} (h : log.Pairwise (·.v < ·.v)) :
    (putLogs entries log).Pairwise (·.v < ·.v) := by
  induction entries generalizing log with
  | nil => exact h
  | cons entry entries ih => exact ih (sorted_putLog h)

/-- A store's row in `stores`. -/
structure StoreRow where
  version : ℕ
  epoch : Option String
  schema : Option ℕ

/-- A store's rows. The log is in the order of its primary key, and nothing is there without the
store's own row. -/
structure Rows where
  stores : Option StoreRow
  records : OrderedMap (String × String) Entry
  replicas : OrderedMap String Replica
  oplog : List LogEntry
  sorted : oplog.Pairwise (·.v < ·.v)
  whole : stores = none → records = .empty ∧ replicas = .empty ∧ oplog = []

namespace Rows

/-- `version` and `epoch` as given, `schema` as given or else as it is. -/
def setVersion (row : Option StoreRow) (change : CommitChange) : StoreRow :=
  ⟨change.version, some change.epoch, change.schema.or (row.bind StoreRow.schema)⟩

/-- `seq` and `seen` as given, `owner` as it is or else as given; or no row. -/
def setReplica : Option Replica → Option Replica → Option Replica
  | none, _ => none
  | some r, row => some { r with owner := (row.bind Replica.owner).or r.owner }

/-- The rows below a floor deleted, if there is one to prune to. -/
def pruneLog (floor : Option ℕ) (log : List LogEntry) : List LogEntry :=
  log.filter fun entry => floor.all (· ≤ entry.v)

/-- Changes, ending in `last`, in one transaction. -/
def commitChanges (rows : Rows) (changes : List CommitChange) (last : CommitChange) (floor : Option ℕ) : Rows where
  stores := some (setVersion rows.stores last)
  records := Batch.performLast (fun row _ => row)
    (changes.map fun change => change.records.map fun e => (rowKey e.1, e.2)).flatten rows.records
  replicas := Batch.performLast setReplica (changes.map CommitChange.progress).flatten rows.replicas
  oplog := pruneLog floor (putLogs (changes.filterMap CommitChange.log) rows.oplog)
  sorted := (sorted_putLogs rows.sorted).filter _
  whole := nofun

def load (rows : Rows) : Option Saved := rows.stores.map fun row =>
  { records := .ofList (rows.records.entries.map fun e => (recordOf e.1, e.2))
    replicas := rows.replicas
    version := row.version
    epoch := row.epoch
    schema := row.schema
    log := rows.oplog }

end Rows

def PRUNE_EVERY : ℕ := 100

/-- The adapter of one store, and the floor it last pruned the log to. -/
structure Sqlite where
  rows : Rows
  pruned : Option ℕ

namespace Sqlite

def commitMany (db : Sqlite) (changes : List CommitChange) : Sqlite :=
  match changes.getLast? with
  | none => db
  | some last =>
    let floor := floorOf changes
    let prune := floor.any fun f => db.pruned.all fun p => p + PRUNE_EVERY ≤ f
    { rows := db.rows.commitChanges changes last (if prune then floor else none)
      pruned := if prune then floor else db.pruned }

def commit (db : Sqlite) (change : CommitChange) : Sqlite := db.commitMany [change]

def load (db : Sqlite) : Option Saved := db.rows.load

end Sqlite

/-! ## Memory -/

/-- A property of an object set: `__proto__`, where it is no property of its own, sets none. -/
def assign (replicas : OrderedMap String Replica) (id : String) (r : Replica) : OrderedMap String Replica :=
  if id = "__proto__" ∧ replicas.has id = false then replicas else replicas.set id r

/-- The document kept in memory, and whether there is one. -/
structure Memory where
  saved : Saved
  seen : Bool

def memoryStorage : Memory := ⟨.empty, false⟩

namespace Memory

def load (memory : Memory) : Option Saved := if memory.seen then some memory.saved else none

def commit (memory : Memory) (change : CommitChange) : Memory :=
  let records := change.deletes.foldl (fun m key => m.erase key) memory.saved.records
  let replicas := match change.replica with
    | some (id, r) => assign memory.saved.replicas id r
    | none => memory.saved.replicas
  let log := memory.saved.log ++ change.log.toList
  { seen := true
    saved :=
      { records := change.upserts.foldl (fun m r => m.set r.1 r.2) records
        replicas := change.forgetReplicas.foldl (fun m id => m.erase id) replicas
        version := change.version
        epoch := some change.epoch
        schema := change.schema.or memory.saved.schema
        log := match change.logFloor with
          | some floor => log.filter (floor ≤ ·.v)
          | none => log } }

/-- Memory that holds a document, or none yet. -/
def holding : Option Saved → Memory
  | some saved => ⟨saved, true⟩
  | none => memoryStorage

@[simp] theorem load_holding (doc : Option Saved) : (holding doc).load = doc := by
  cases doc <;> rfl

end Memory

/-- A store's own commit, as it is given to its adapter. -/
def Commit.change (c : Commit) (h : ∀ key ∈ c.deletes ++ c.upserts.map Prod.fst, key.2 ≠ some "") : CommitChange :=
  ⟨c.upserts, c.deletes, c.replica, c.forget, c.version, c.epoch, some c.schema, c.log, c.logFloor, h⟩

/-- What a store's commits leave in memory is what is stored of them, but for a replica named `__proto__`. -/
theorem Memory.commit_change (memory : Memory) (c : Commit)
    (h : ∀ key ∈ c.deletes ++ c.upserts.map Prod.fst, key.2 ≠ some "")
    (hproto : ∀ r ∈ c.replica, r.1 ≠ "__proto__") : (memory.commit (c.change h)).load = some (memory.saved.commit c) := by
  unfold Memory.commit Commit.change Memory.load Saved.commit
  cases hreplica : c.replica with
  | none => rfl
  | some r =>
    have hid := hproto r (by simp [hreplica])
    cases c.logFloor <;> simp [assign, hid]

end LazyStorage.Server
