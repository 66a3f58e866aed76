import LazyStorage.Server.Sqlite
import Mathlib.Data.Option.Basic

/-! # Commits grouped

Several commits in one transaction against the same commits one by one, and against
those commits kept in memory. Records come out the same. An owner, a schema and
a replica named `__proto__` may not: which group's do is stated exactly.
-/
namespace LazyStorage.Server

open Lib LazyStorage.Core

/-- The commits of one store, in order: no floor is below one named before it. -/
structure Commits where
  changes : List CommitChange
  rising : changes.Pairwise fun change later => ∀ f ∈ change.logFloor, ∀ f' ∈ later.logFloor, f ≤ f'

/-- Whether a log entry is at a floor or above it. -/
def above (floor : Option ℕ) (entry : LogEntry) : Bool := floor.all (· ≤ entry.v)

/-- Two documents hold the same, their logs from a floor on. -/
structure Saved.Same (floor : Option ℕ) (saved saved' : Saved) : Prop where
  records : ∀ key, saved.records.get key = saved'.records.get key
  replicas : ∀ id, saved.replicas.get id = saved'.replicas.get id
  version : saved.version = saved'.version
  epoch : saved.epoch = saved'.epoch
  schema : saved.schema = saved'.schema
  log : saved.log.filter (above floor) = saved'.log.filter (above floor)

/-- Two databases hold the same of a store, its log from a floor on. -/
structure Rows.Same (floor : Option ℕ) (rows rows' : Rows) : Prop where
  stores : rows.stores = rows'.stores
  records : ∀ row, rows.records.get row = rows'.records.get row
  replicas : ∀ id, rows.replicas.get id = rows'.replicas.get id
  log : rows.oplog.filter (above floor) = rows'.oplog.filter (above floor)

/-- Commits as one leave what they leave one by one, and what they leave is loaded as memory would have it. -/
structure Sqlite.GroupsAs (db : Sqlite) (changes : List CommitChange) : Prop where
  rows : Rows.Same (floorOf changes) (db.commitMany changes).rows (changes.foldl commit db).rows
  load : Option.Rel (Saved.Same (floorOf changes)) (db.commitMany changes).load
    (changes.foldl Memory.commit (.holding db.load)).load

/-! ## The log -/

section Log

variable {p : LogEntry → Bool}

/-- A test that later entries pass too is passed by the same entries, written before it or after. -/
theorem filter_putLog (hp : ∀ x y : LogEntry, x.v ≤ y.v → p x = true → p y = true) (entry : LogEntry)
    (log : List LogEntry) :
    (putLog entry log).filter p = if p entry then putLog entry (log.filter p) else log.filter p := by
  induction log with
  | nil => by_cases h : p entry <;> simp [putLog, h]
  | cons e log ih =>
    rw [putLog]
    by_cases hpass : p entry = true
    · rw [if_pos hpass] at ih ⊢
      rcases lt_trichotomy entry.v e.v with hlt | heq | hgt
      · have he := hp entry e hlt.le hpass
        simp [hpass, he, putLog, hlt]
      · have he := hp entry e heq.le hpass
        simp [hpass, he, putLog, heq]
      · rw [if_neg hgt.not_gt, if_neg hgt.ne', List.filter_cons, ih, List.filter_cons]
        split_ifs
        · rw [putLog, if_neg hgt.not_gt, if_neg hgt.ne']
        · rfl
    · rw [if_neg hpass] at ih ⊢
      rcases lt_trichotomy entry.v e.v with hlt | heq | hgt
      · simp [hpass, hlt]
      · have he : ¬ p e = true := fun he => hpass (hp e entry heq.ge he)
        simp [hpass, he, heq]
      · rw [if_neg hgt.not_gt, if_neg hgt.ne', List.filter_cons, ih, List.filter_cons]

theorem filter_putLogs (hp : ∀ x y : LogEntry, x.v ≤ y.v → p x = true → p y = true) (entries log : List LogEntry) :
    (putLogs entries log).filter p = putLogs (entries.filter p) (log.filter p) := by
  induction entries generalizing log with
  | nil => rfl
  | cons entry entries ih =>
    rw [putLogs, List.foldl_cons]
    refine (ih _).trans ?_
    rw [filter_putLog hp, List.filter_cons]
    split_ifs <;> rfl

/-- An entry past all others is written at the end. -/
theorem putLog_of_lt {entry : LogEntry} {log : List LogEntry} (h : ∀ e ∈ log, e.v < entry.v) :
    putLog entry log = log ++ [entry] := by
  induction log with
  | nil => rfl
  | cons e log ih =>
    have he := h e List.mem_cons_self
    rw [putLog, if_neg he.not_gt, if_neg he.ne', ih fun x hx => h x (List.mem_cons_of_mem _ hx), List.cons_append]

/-- Entries written are entries appended where all of them rise. -/
theorem putLogs_eq_append_iff {entries log : List LogEntry} (hlog : log.Pairwise (·.v < ·.v)) :
    putLogs entries log = log ++ entries ↔ (log ++ entries).Pairwise (·.v < ·.v) := by
  refine ⟨fun h => h ▸ sorted_putLogs hlog, fun h => ?_⟩
  clear hlog
  induction entries generalizing log with
  | nil => exact (List.append_nil log).symm
  | cons entry entries ih =>
    have hlt : ∀ e ∈ log, e.v < entry.v := fun e he =>
      (List.pairwise_append.mp h).2.2 e he entry List.mem_cons_self
    have hrest : putLogs entries (log ++ [entry]) = log ++ [entry] ++ entries := ih (by simpa using h)
    rw [putLogs, List.foldl_cons, putLog_of_lt hlt]
    exact hrest.trans (List.append_cons ..).symm

end Log

theorem above_mono (floor : Option ℕ) (x y : LogEntry) (h : x.v ≤ y.v) (hx : above floor x = true) :
    above floor y = true := by
  cases floor with
  | none => rfl
  | some f =>
    simp only [above, Option.all_some, decide_eq_true_eq] at hx ⊢
    exact hx.trans h

/-! ## One by one -/

namespace Sqlite

variable (db : Sqlite) (changes : List CommitChange)

/-- What the changes do to a store's own row, without the store's row but the last. -/
theorem rows_commitMany {changes : List CommitChange} {last : CommitChange} (h : changes.getLast? = some last) :
    ∃ floor, (floor = none ∨ floor = floorOf changes) ∧
      (db.commitMany changes).rows = db.rows.commitChanges changes last floor := by
  unfold commitMany
  rw [h]
  refine ⟨_, ?_, rfl⟩
  split_ifs
  · exact .inr rfl
  · exact .inl rfl

theorem records_commitMany : (db.commitMany changes).rows.records = Batch.performLast (fun row _ => row)
    (changes.map fun change => change.records.map fun e => (rowKey e.1, e.2)).flatten db.rows.records := by
  cases hlast : changes.getLast? with
  | none =>
    obtain rfl := List.getLast?_eq_none_iff.mp hlast
    rfl
  | some last =>
    obtain ⟨floor, -, hrows⟩ := db.rows_commitMany hlast
    rw [hrows]
    rfl

theorem replicas_commitMany : (db.commitMany changes).rows.replicas = Batch.performLast Rows.setReplica
    (changes.map CommitChange.progress).flatten db.rows.replicas := by
  cases hlast : changes.getLast? with
  | none =>
    obtain rfl := List.getLast?_eq_none_iff.mp hlast
    rfl
  | some last =>
    obtain ⟨floor, -, hrows⟩ := db.rows_commitMany hlast
    rw [hrows]
    rfl

theorem records_commits : (changes.foldl commit db).rows.records =
    (changes.map fun change => change.records.map fun e => (rowKey e.1, e.2)).foldl
      (fun t acts => Batch.performLast (fun row _ => row) acts t) db.rows.records := by
  induction changes generalizing db with
  | nil => rfl
  | cons change changes ih =>
    rw [List.foldl_cons, ih, commit, records_commitMany]
    simp

theorem replicas_commits : (changes.foldl commit db).rows.replicas =
    (changes.map CommitChange.progress).foldl (fun t acts => Batch.performLast Rows.setReplica acts t)
      db.rows.replicas := by
  induction changes generalizing db with
  | nil => rfl
  | cons change changes ih =>
    rw [List.foldl_cons, ih, commit, replicas_commitMany]
    simp

/-- The records come out the same. -/
theorem get_records_commits (row : String × String) :
    (db.commitMany changes).rows.records.get row = (changes.foldl commit db).rows.records.get row := by
  rw [records_commitMany, records_commits]
  exact Batch.get_performLast_flatten (fun _ _ _ => rfl) _ _ _

end Sqlite

/-! ## Replicas -/

/-- What changes say of a replica, one after the other: what it has come to, or that it is forgotten. -/
def toldOf (changes : List CommitChange) (id : String) : List (Option Replica) :=
  Batch.lasts (changes.map CommitChange.progress) id

/-- The first owner named since a replica was last forgotten, the one it had before first. -/
def ownerSince (owner : Option String) (told : List (Option Replica)) : Option String :=
  told.foldl (fun owner r => r.bind fun r => owner.or r.owner) owner

/-- What memory makes of a replica that it is told of. -/
def remember (id : String) (r row : Option Replica) : Option Replica :=
  r.filter fun _ => ¬ (id = "__proto__" ∧ row.isSome = false)

/-- What is told of a replica last comes out the same as one by one and as in memory: its row has no other
owner, no other was named first, and if it is named `__proto__` it is there all along. -/
def OwnerKept (id : String) (row : Option Replica) (told : List (Option Replica)) : Prop :=
  ∀ r, told.getLast? = some (some r) →
    (row.bind Replica.owner = none ∨ row.bind Replica.owner = r.owner) ∧
      ownerSince (row.bind Replica.owner) told = r.owner ∧ (id = "__proto__" → row ≠ none ∧ none ∉ told)

section Replicas

variable (id : String) (row : Option Replica) (told : List (Option Replica))

theorem owner_foldl_setReplica : (told.foldl (fun row r => Rows.setReplica r row) row).bind Replica.owner =
    ownerSince (row.bind Replica.owner) told := by
  induction told generalizing row with
  | nil => rfl
  | cons r told ih =>
    rw [List.foldl_cons, ih]
    cases r <;> rfl

/-- One by one, a replica's owner is the first named. -/
theorem foldl_setReplica : told.foldl (fun row r => Rows.setReplica r row) row =
    told.getLast?.elim row fun r => r.map fun r => { r with owner := ownerSince (row.bind Replica.owner) told } := by
  induction told using List.reverseRecOn with
  | nil => rfl
  | append_singleton told r =>
    rw [List.foldl_append, List.getLast?_concat]
    cases r with
    | none => rfl
    | some r =>
      rw [List.foldl_cons, List.foldl_nil, ownerSince, List.foldl_append]
      change some { r with owner := Option.or (Option.bind _ Replica.owner) r.owner } = _
      rw [owner_foldl_setReplica]
      rfl

theorem foldl_remember_eq_none : told.foldl (fun row r => remember "__proto__" r row) row = none ↔
    row = none ∨ none ∈ told := by
  induction told generalizing row with
  | nil => simp
  | cons r told ih =>
    rw [List.foldl_cons, ih]
    cases r <;> cases row <;> simp [remember]

/-- Memory has what it was told last, but of a replica named `__proto__` that was not there all along. -/
theorem foldl_remember : told.foldl (fun row r => remember id r row) row =
    told.getLast?.elim row (Option.filter fun _ => ¬ (id = "__proto__" ∧ (row = none ∨ none ∈ told))) := by
  induction told using List.reverseRecOn with
  | nil => rfl
  | append_singleton told r =>
    rw [List.foldl_append, List.getLast?_concat, List.foldl_cons, List.foldl_nil, remember]
    cases r with
    | none => rfl
    | some r =>
      by_cases hid : id = "__proto__"
      · subst hid
        have hnone := foldl_remember_eq_none row told
        simp [← hnone]
      · simp [hid]

/-- Exactly which replicas come out of a group as they do one by one, and in memory. -/
theorem ownerKept_iff : (told.getLast?.elim row (fun r => Rows.setReplica r row) =
      told.foldl (fun row r => Rows.setReplica r row) row ∧
    told.getLast?.elim row (fun r => Rows.setReplica r row) = told.foldl (fun row r => remember id r row) row) ↔
      OwnerKept id row told := by
  rw [foldl_setReplica, foldl_remember]
  unfold OwnerKept
  cases hlast : told.getLast? with
  | none => simp
  | some r =>
    cases r with
    | none => simp [Rows.setReplica]
    | some r =>
      obtain ⟨seq, seen, owner⟩ := r
      generalize hheld : row.bind Replica.owner = held
      have hor : held.or owner = owner ↔ held = none ∨ held = owner := by
        cases held <;> simp
      simp only [Option.elim_some, Rows.setReplica, hheld, Option.map_some, Option.some.injEq, Replica.mk.injEq,
        true_and]
      have hmemory : some (Replica.mk seq seen (held.or owner)) = Option.filter (fun _ => decide ¬(id = "__proto__" ∧
          (row = none ∨ none ∈ told))) (some ⟨seq, seen, owner⟩) ↔
          (id = "__proto__" → row ≠ none ∧ none ∉ told) ∧ held.or owner = owner := by
        by_cases hlost : id = "__proto__" ∧ (row = none ∨ none ∈ told)
        · have hnot : ¬ (id = "__proto__" → row ≠ none ∧ none ∉ told) :=
            fun h => hlost.2.elim (h hlost.1).1 (h hlost.1).2
          exact iff_of_false (by simp [hlost]) fun h => hnot h.1
        · have hall : id = "__proto__" → row ≠ none ∧ none ∉ told := fun h => not_or.mp fun hor => hlost ⟨h, hor⟩
          simp only [hlost, not_false_eq_true, decide_true, Option.filter_some, if_true, Option.some.injEq,
            Replica.mk.injEq, true_and]
          exact (and_iff_right hall).symm
      rw [hmemory, hor]
      constructor
      · rintro ⟨howner, hproto, hheld⟩ r rfl
        exact ⟨hheld, howner ▸ hor.mpr hheld, hproto⟩
      · intro h
        obtain ⟨hheld, howner, hproto⟩ := h _ rfl
        exact ⟨(hor.mpr hheld).trans howner.symm, hproto, hheld⟩

end Replicas

/-- The last thing said of a replica that some are forgotten. -/
theorem getLast?_forgets (ids : List String) (id : String) :
    (Batch.asked (ids.map fun id => (id, (none : Option Replica))) id).getLast? =
      if id ∈ ids then some none else none := by
  induction ids using List.reverseRecOn with
  | nil => rfl
  | append_singleton ids i ih =>
    rw [List.map_append, Batch.asked_append, List.getLast?_append, ih]
    by_cases hi : i = id
    · simp [hi]
    · simp [hi, Ne.symm hi]

theorem get_foldl_erase (ids : List String) (replicas : OrderedMap String Replica) (id : String) :
    (ids.foldl (fun m id => m.erase id) replicas).get id = if id ∈ ids then none else replicas.get id := by
  induction ids generalizing replicas with
  | nil => simp
  | cons i ids ih =>
    rw [List.foldl_cons, ih, OrderedMap.get_erase]
    by_cases hi : i = id
    · simp [hi]
    · simp [hi, Ne.symm hi]

theorem get_assign (replicas : OrderedMap String Replica) (i id : String) (r : Replica) :
    (assign replicas i r).get id = if i = id then remember id (some r) (replicas.get id) else replicas.get id := by
  unfold assign remember
  by_cases hi : i = id
  · subst hi
    rw [if_pos rfl, OrderedMap.has]
    by_cases hlost : i = "__proto__" ∧ (replicas.get i).isSome = false
    · rw [if_pos hlost, Option.filter_some, if_neg fun h => absurd hlost (of_decide_eq_true h)]
      exact Option.isNone_iff_eq_none.mp (by simpa using hlost.2)
    · rw [if_neg hlost, Option.filter_some, if_pos (decide_eq_true hlost), OrderedMap.get_set_self]
  · rw [if_neg hi]
    split_ifs
    · rfl
    · exact replicas.get_set_of_ne r hi

namespace Memory

variable (memory : Memory) (change : CommitChange) (changes : List CommitChange)

theorem get_replicas_commit (id : String) : (memory.commit change).saved.replicas.get id =
    (Batch.asked change.progress id).getLast?.elim (memory.saved.replicas.get id)
      fun r => remember id r (memory.saved.replicas.get id) := by
  change (change.forgetReplicas.foldl (fun (m : OrderedMap String Replica) id => m.erase id) _).get id = _
  rw [get_foldl_erase, CommitChange.progress, Batch.asked_append, List.getLast?_append, getLast?_forgets]
  by_cases hforget : id ∈ change.forgetReplicas
  · simp [hforget, remember]
  · cases hreplica : change.replica with
    | none => simp [hforget]
    | some r =>
      by_cases hid : r.1 = id
      · simp [hforget, hid, get_assign]
      · simp [hforget, hid, get_assign]

theorem get_replicas_commits (id : String) : (changes.foldl commit memory).saved.replicas.get id =
    (toldOf changes id).foldl (fun row r => remember id r row) (memory.saved.replicas.get id) := by
  induction changes generalizing memory with
  | nil => rfl
  | cons change changes ih =>
    rw [List.foldl_cons, ih, get_replicas_commit, toldOf, toldOf, Batch.lasts, Batch.lasts, List.map_cons,
      List.filterMap_cons]
    cases (Batch.asked change.progress id).getLast? <;> rfl

end Memory

/-! ## Records -/

theorem recordOf_rowKey {key : RecordKey} (h : key.2 ≠ some "") : recordOf (rowKey key) = key := by
  obtain ⟨c, id⟩ := key
  cases id with
  | none => rfl
  | some id =>
    have hid : id ≠ "" := fun hid => h (congrArg some hid)
    simp [recordOf, rowKey, rowId, hid]

theorem rowKey_recordOf (row : String × String) : rowKey (recordOf row) = row := by
  obtain ⟨c, id⟩ := row
  by_cases hid : id = "" <;> simp [recordOf, rowKey, rowId, hid]

theorem recordOf_ne (row : String × String) : (recordOf row).2 ≠ some "" := by
  by_cases hid : row.2 = "" <;> simp [recordOf, hid]

/-- What is asked of a record's row is what is asked of the record. -/
theorem asked_rows {acts : List (RecordKey × Option Entry)} (hacts : ∀ e ∈ acts, e.1.2 ≠ some "") {key : RecordKey}
    (h : key.2 ≠ some "") : Batch.asked (acts.map fun e => (rowKey e.1, e.2)) (rowKey key) = Batch.asked acts key := by
  induction acts with
  | nil => rfl
  | cons e acts ih =>
    have hrow : rowKey e.1 = rowKey key ↔ e.1 = key := by
      refine ⟨fun heq => ?_, congrArg rowKey⟩
      rw [← recordOf_rowKey (hacts e List.mem_cons_self), heq, recordOf_rowKey h]
    rw [List.map_cons, Batch.asked_cons, Batch.asked_cons, ih fun x hx => hacts x (List.mem_cons_of_mem _ hx)]
    simp only [hrow]

theorem asked_changes (changes : List CommitChange) {key : RecordKey} (h : key.2 ≠ some "") :
    Batch.asked (changes.map fun change => change.records.map fun e => (rowKey e.1, e.2)).flatten (rowKey key) =
      Batch.asked (changes.map CommitChange.records).flatten key := by
  induction changes with
  | nil => rfl
  | cons change changes ih =>
    rw [List.map_cons, List.map_cons, List.flatten_cons, List.flatten_cons, Batch.asked_append, Batch.asked_append, ih,
      asked_rows (fun e he => change.named_records he) h]

namespace Memory

variable (memory : Memory) (changes : List CommitChange)

theorem records_commits : (changes.foldl commit memory).saved.records =
    Batch.perform (fun row _ => row) (changes.map CommitChange.records).flatten memory.saved.records := by
  induction changes generalizing memory with
  | nil => rfl
  | cons change changes ih =>
    rw [List.foldl_cons, ih, List.map_cons, List.flatten_cons]
    simp only [Batch.perform, List.foldl_append, CommitChange.records, List.foldl_map]
    rfl

theorem get_records_commits (key : RecordKey) : (changes.foldl commit memory).saved.records.get key =
    (Batch.asked (changes.map CommitChange.records).flatten key).getLast?.elim (memory.saved.records.get key) id := by
  rw [records_commits, Batch.get_perform, Batch.foldl_of_overwrites fun _ _ _ => rfl]
  rfl

end Memory

/-- A record is loaded from its row. -/
theorem get_loaded (records : OrderedMap (String × String) Entry) (key : RecordKey) :
    (OrderedMap.ofList (records.entries.map fun e => (recordOf e.1, e.2))).get key =
      if key.2 = some "" then none else records.get (rowKey key) := by
  rw [Batch.get_ofList, Batch.asked_map]
  split_ifs with hkey
  · have hnone : records.entries.filter (fun e => recordOf e.1 = key) = [] :=
      List.filter_eq_nil_iff.mpr fun e _ heq => recordOf_ne e.1 (of_decide_eq_true heq ▸ hkey)
    rw [hnone]
    rfl
  · have hrow : ∀ row, recordOf row = key ↔ row = rowKey key := fun row =>
      ⟨fun heq => heq ▸ (rowKey_recordOf row).symm, fun heq => heq ▸ recordOf_rowKey hkey⟩
    have hasked := Batch.asked_entries records (rowKey key)
    simp only [hrow]
    rw [Batch.asked] at hasked
    rw [hasked]
    cases records.get (rowKey key) <;> rfl

/-! ## The store's row, and what is loaded -/

/-- The last schema named. -/
def schemaOf (changes : List CommitChange) : Option ℕ :=
  changes.foldl (fun schema change => change.schema.or schema) none

theorem schemaOf_concat (changes : List CommitChange) (last : CommitChange) :
    schemaOf (changes ++ [last]) = last.schema.or (schemaOf changes) := by
  simp [schemaOf]

theorem floorOf_concat (changes : List CommitChange) (last : CommitChange) :
    floorOf (changes ++ [last]) = last.logFloor.or (floorOf changes) := by
  simp [floorOf]

theorem Sqlite.stores_commit (db : Sqlite) (change : CommitChange) :
    (db.commit change).rows.stores = some (Rows.setVersion db.rows.stores change) := by
  obtain ⟨floor, -, hrows⟩ := db.rows_commitMany (List.getLast?_singleton (a := change))
  rw [commit, hrows]
  rfl

/-- One by one, the schema is the last named. -/
theorem Sqlite.schema_commits (db : Sqlite) (changes : List CommitChange) :
    (changes.foldl commit db).rows.stores.bind StoreRow.schema =
      (schemaOf changes).or (db.rows.stores.bind StoreRow.schema) := by
  induction changes using List.reverseRecOn with
  | nil => rfl
  | append_singleton changes last ih =>
    rw [List.foldl_append, List.foldl_cons, List.foldl_nil, stores_commit, schemaOf_concat, Option.or_assoc, ← ih]
    rfl

theorem Memory.schema_commits (memory : Memory) (changes : List CommitChange) :
    (changes.foldl commit memory).saved.schema = (schemaOf changes).or memory.saved.schema := by
  induction changes using List.reverseRecOn with
  | nil => rfl
  | append_singleton changes last ih =>
    rw [List.foldl_append, List.foldl_cons, List.foldl_nil, schemaOf_concat, Option.or_assoc, ← ih]
    rfl

/-- Memory that holds what is in a database. -/
theorem saved_holding (rows : Rows) :
    (∀ key, (Memory.holding rows.load).saved.records.get key =
        if key.2 = some "" then none else rows.records.get (rowKey key)) ∧
      (∀ id, (Memory.holding rows.load).saved.replicas.get id = rows.replicas.get id) ∧
      (Memory.holding rows.load).saved.schema = rows.stores.bind StoreRow.schema ∧
      (Memory.holding rows.load).saved.log = rows.oplog := by
  cases hstores : rows.stores with
  | some row =>
    rw [Rows.load, hstores]
    exact ⟨fun key => get_loaded rows.records key, fun _ => rfl, rfl, rfl⟩
  | none =>
    obtain ⟨hrecords, hreplicas, hlog⟩ := rows.whole hstores
    rw [Rows.load, hstores, hrecords, hreplicas, hlog]
    exact ⟨fun key => (ite_self none).symm, fun _ => rfl, rfl, rfl⟩

section Floors

variable {p : LogEntry → Bool}

theorem Sqlite.log_commitMany (hp : ∀ x y : LogEntry, x.v ≤ y.v → p x = true → p y = true) (db : Sqlite)
    {changes : List CommitChange} (hfloor : ∀ f ∈ floorOf changes, ∀ e, p e = true → f ≤ e.v) :
    (db.commitMany changes).rows.oplog.filter p =
      putLogs ((changes.filterMap CommitChange.log).filter p) (db.rows.oplog.filter p) := by
  cases hlast : changes.getLast? with
  | none =>
    obtain rfl := List.getLast?_eq_none_iff.mp hlast
    rfl
  | some last =>
    obtain ⟨floor, hprune, hrows⟩ := db.rows_commitMany hlast
    rw [hrows]
    change (Rows.pruneLog floor _).filter p = _
    rw [Rows.pruneLog, List.filter_filter, ← filter_putLogs hp]
    refine List.filter_congr fun e _ => ?_
    rcases hprune with rfl | rfl
    · simp
    · cases hpe : p e with
      | false => rfl
      | true => cases hf : floorOf changes with
        | none => rfl
        | some f => simpa using hfloor f hf e hpe

theorem Sqlite.log_commits (hp : ∀ x y : LogEntry, x.v ≤ y.v → p x = true → p y = true) (db : Sqlite)
    {changes : List CommitChange} (hfloor : ∀ change ∈ changes, ∀ f ∈ change.logFloor, ∀ e, p e = true → f ≤ e.v) :
    (changes.foldl commit db).rows.oplog.filter p =
      putLogs ((changes.filterMap CommitChange.log).filter p) (db.rows.oplog.filter p) := by
  induction changes generalizing db with
  | nil => rfl
  | cons change changes ih =>
    have hone : ∀ f ∈ floorOf [change], ∀ e, p e = true → f ≤ e.v := by
      simpa [floorOf] using hfloor change List.mem_cons_self
    rw [List.foldl_cons, ih _ fun c hc => hfloor c (List.mem_cons_of_mem _ hc), commit, log_commitMany hp db hone]
    cases hlog : change.log with
    | none => simp [hlog, putLogs]
    | some entry => by_cases hpass : p entry = true <;> simp [hlog, putLogs, hpass]

theorem Memory.log_commits (memory : Memory) {changes : List CommitChange}
    (hfloor : ∀ change ∈ changes, ∀ f ∈ change.logFloor, ∀ e, p e = true → f ≤ e.v) :
    (changes.foldl commit memory).saved.log.filter p =
      (memory.saved.log ++ changes.filterMap CommitChange.log).filter p := by
  induction changes generalizing memory with
  | nil => simp
  | cons change changes ih =>
    have hone : (memory.commit change).saved.log.filter p = (memory.saved.log ++ change.log.toList).filter p := by
      have hkeep := hfloor change List.mem_cons_self
      unfold commit
      cases hf : change.logFloor with
      | none => rfl
      | some f =>
        change ((memory.saved.log ++ change.log.toList).filter (f ≤ ·.v)).filter p = _
        rw [List.filter_filter]
        refine List.filter_congr fun e _ => ?_
        cases hpe : p e with
        | false => rfl
        | true => simpa using hkeep f hf e hpe
    rw [List.foldl_cons, ih _ fun c hc => hfloor c (List.mem_cons_of_mem _ hc), List.filter_append, hone]
    cases hlog : change.log with
    | none => simp [hlog]
    | some entry => by_cases hpass : p entry = true <;> simp [hlog, hpass]

end Floors

/-- Every floor named is at the last one or below it. -/
theorem Commits.floor_le (batch : Commits) {change : CommitChange} (hc : change ∈ batch.changes) {f : ℕ}
    (hf : f ∈ change.logFloor) : ∀ e, above (floorOf batch.changes) e = true → f ≤ e.v := by
  obtain ⟨changes, hrising⟩ := batch
  have hle : ∃ g, floorOf changes = some g ∧ f ≤ g := by
    induction changes using List.reverseRecOn with
    | nil => exact absurd hc List.not_mem_nil
    | append_singleton changes last ih =>
      obtain ⟨hinit, -, hlast⟩ := List.pairwise_append.mp hrising
      rw [floorOf_concat]
      rcases List.mem_append.mp hc with hc | hc
      · cases hg : last.logFloor with
        | some g => exact ⟨g, rfl, hlast change hc last List.mem_cons_self f hf g hg⟩
        | none => exact ih hinit hc
      · obtain rfl := List.mem_singleton.mp hc
        exact ⟨f, by rw [Option.mem_def.mp hf]; rfl, le_rfl⟩
  obtain ⟨g, hg, hfg⟩ := hle
  intro e he
  rw [hg] at he
  exact hfg.trans (of_decide_eq_true he)

/-! ## A group -/

/-- What a group leaves as its commits do one by one: the last change names the last schema named, if that is not the
one there; each replica's owner is settled; and the log's entries rise, from the last floor on. -/
structure Rows.Takes (rows : Rows) (changes : List CommitChange) : Prop where
  schema : schemaOf changes = changes.getLast?.bind CommitChange.schema ∨
    schemaOf changes = rows.stores.bind StoreRow.schema
  replicas : ∀ id, OwnerKept id (rows.replicas.get id) (toldOf changes id)
  log : ((rows.oplog ++ changes.filterMap CommitChange.log).filter (above (floorOf changes))).Pairwise (·.v < ·.v)

namespace Sqlite

variable (db : Sqlite) (changes : List CommitChange)

/-- A group's replicas come out the same, one by one and in memory, where they are settled. -/
theorem replicas_iff (id : String) :
    ((db.commitMany changes).rows.replicas.get id = (changes.foldl commit db).rows.replicas.get id ∧
      (db.commitMany changes).rows.replicas.get id =
        (changes.foldl Memory.commit (.holding db.load)).saved.replicas.get id) ↔
      OwnerKept id (db.rows.replicas.get id) (toldOf changes id) := by
  obtain ⟨-, hreplicas, -⟩ := saved_holding db.rows
  rw [replicas_commitMany, replicas_commits, Batch.get_performLast, Batch.get_foldl_performLast,
    Batch.getLast?_asked_flatten, Memory.get_replicas_commits, load, hreplicas]
  exact ownerKept_iff id _ (toldOf changes id)

/-- So do its records. -/
theorem records_same (key : RecordKey) :
    (if key.2 = some "" then none else (db.commitMany changes).rows.records.get (rowKey key)) =
      (changes.foldl Memory.commit (.holding db.load)).saved.records.get key := by
  obtain ⟨hrecords, -⟩ := saved_holding db.rows
  rw [Memory.get_records_commits, load, hrecords]
  split_ifs with hkey
  · -- no change names a record with an empty id
    have hnone : Batch.asked (changes.map CommitChange.records).flatten key = [] := by
      refine List.eq_nil_iff_forall_not_mem.mpr fun row hrow => ?_
      obtain ⟨acts, hacts, hin⟩ := List.mem_flatten.mp (Batch.mem_asked.mp hrow)
      obtain ⟨change, -, rfl⟩ := List.mem_map.mp hacts
      exact change.named_records hin hkey
    rw [hnone]
    rfl
  · rw [records_commitMany, Batch.get_performLast, asked_changes changes hkey]
    rfl

/-- And its log, where its entries rise. -/
theorem log_iff (batch : Commits) (hchanges : batch.changes = changes) :
    ((db.commitMany changes).rows.oplog.filter (above (floorOf changes)) =
        (changes.foldl commit db).rows.oplog.filter (above (floorOf changes)) ∧
      (db.commitMany changes).rows.oplog.filter (above (floorOf changes)) =
        (changes.foldl Memory.commit (.holding db.load)).saved.log.filter (above (floorOf changes))) ↔
      ((db.rows.oplog ++ changes.filterMap CommitChange.log).filter (above (floorOf changes))).Pairwise (·.v < ·.v) := by
  subst hchanges
  have hmono := above_mono (floorOf batch.changes)
  have hfloor := fun change (hc : change ∈ batch.changes) f (hf : f ∈ CommitChange.logFloor change) =>
    batch.floor_le hc hf
  have hlast : ∀ f ∈ floorOf batch.changes, ∀ e, above (floorOf batch.changes) e = true → f ≤ e.v := by
    intro f hf e he
    rw [Option.mem_def.mp hf] at he
    exact of_decide_eq_true he
  obtain ⟨-, -, -, hlog⟩ := saved_holding db.rows
  rw [log_commitMany hmono db hlast, log_commits hmono db hfloor, Memory.log_commits _ hfloor, load, hlog,
    List.filter_append, and_iff_right rfl]
  exact putLogs_eq_append_iff (db.rows.sorted.filter _)

theorem stores_commitMany {init : List CommitChange} {last : CommitChange} (h : changes = init ++ [last]) :
    (db.commitMany changes).rows.stores = some (Rows.setVersion db.rows.stores last) := by
  have hlast : changes.getLast? = some last := by rw [h, List.getLast?_concat]
  obtain ⟨floor, -, hrows⟩ := db.rows_commitMany hlast
  rw [hrows]
  rfl

/-- A group does what its commits do where its schema, its replicas and its log come out the same. -/
theorem groupsAs_concat {init : List CommitChange} {last : CommitChange} (h : changes = init ++ [last]) :
    db.GroupsAs changes ↔
      last.schema.or (db.rows.stores.bind StoreRow.schema) =
          (schemaOf changes).or (db.rows.stores.bind StoreRow.schema) ∧
        (∀ id, (db.commitMany changes).rows.replicas.get id = (changes.foldl commit db).rows.replicas.get id ∧
          (db.commitMany changes).rows.replicas.get id =
            (changes.foldl Memory.commit (.holding db.load)).saved.replicas.get id) ∧
        (db.commitMany changes).rows.oplog.filter (above (floorOf changes)) =
            (changes.foldl commit db).rows.oplog.filter (above (floorOf changes)) ∧
          (db.commitMany changes).rows.oplog.filter (above (floorOf changes)) =
            (changes.foldl Memory.commit (.holding db.load)).saved.log.filter (above (floorOf changes)) := by
  have hgrouped := db.stores_commitMany changes h
  have hapart : (changes.foldl commit db).rows.stores =
      some ⟨last.version, some last.epoch, (schemaOf changes).or (db.rows.stores.bind StoreRow.schema)⟩ := by
    have hschema := db.schema_commits changes
    rw [h, List.foldl_append] at hschema ⊢
    rw [List.foldl_cons, List.foldl_nil, stores_commit] at hschema ⊢
    exact congrArg (fun schema => some (StoreRow.mk last.version (some last.epoch) schema)) hschema
  have hload : ∃ records, (db.commitMany changes).load = some ⟨records, (db.commitMany changes).rows.replicas,
      last.version, some last.epoch, last.schema.or (db.rows.stores.bind StoreRow.schema),
      (db.commitMany changes).rows.oplog⟩ ∧ ∀ key, records.get key =
        (changes.foldl Memory.commit (.holding db.load)).saved.records.get key := by
    refine ⟨_, by rw [load, Rows.load, hgrouped]; rfl, fun key => ?_⟩
    rw [get_loaded, db.records_same changes key]
  obtain ⟨records, hload, hrecords⟩ := hload
  have hmemory : (changes.foldl Memory.commit (.holding db.load)).load =
      some (changes.foldl Memory.commit (.holding db.load)).saved := by
    rw [h, List.foldl_append]
    rfl
  have hversion : (changes.foldl Memory.commit (.holding db.load)).saved.version = last.version ∧
      (changes.foldl Memory.commit (.holding db.load)).saved.epoch = some last.epoch := by
    rw [h, List.foldl_append]
    exact ⟨rfl, rfl⟩
  have hschema : (changes.foldl Memory.commit (.holding db.load)).saved.schema =
      (schemaOf changes).or (db.rows.stores.bind StoreRow.schema) := by
    rw [Memory.schema_commits, load, (saved_holding db.rows).2.2.1]
  constructor
  · rintro ⟨hrows, hdoc⟩
    rw [hload, hmemory] at hdoc
    cases hdoc with
    | some hdoc =>
      exact ⟨hdoc.schema.trans hschema, fun id => ⟨hrows.replicas id, hdoc.replicas id⟩, hrows.log, hdoc.log⟩
  · rintro ⟨hsame, hreplicas, hlog, hlogs⟩
    refine ⟨⟨?_, fun row => db.get_records_commits changes row, fun id => (hreplicas id).1, hlog⟩, ?_⟩
    · rw [hgrouped, hapart, ← hsame]
      rfl
    · rw [hload, hmemory]
      exact .some ⟨hrecords, fun id => (hreplicas id).2, hversion.1.symm, hversion.2.symm, hsame.trans hschema.symm,
        hlogs⟩

/-- Exactly which groups do what their commits do one by one, and in memory. -/
theorem groupsAs_iff (batch : Commits) : db.GroupsAs batch.changes ↔ db.rows.Takes batch.changes := by
  rcases List.eq_nil_or_concat batch.changes with hnil | ⟨init, last, hlast⟩
  · rw [hnil]
    refine iff_of_true ⟨⟨rfl, fun _ => rfl, fun _ => rfl, rfl⟩, ?_⟩ ⟨.inl rfl, fun id => nofun, ?_⟩
    · change Option.Rel _ db.load (Memory.holding db.load).load
      rw [Memory.load_holding]
      cases db.load with
      | none => exact .none
      | some saved => exact .some ⟨fun _ => rfl, fun _ => rfl, rfl, rfl, rfl, rfl⟩
    · exact (List.append_nil db.rows.oplog).symm ▸ db.rows.sorted.filter _
  · rw [List.concat_eq_append] at hlast
    have hschema : last.schema.or (db.rows.stores.bind StoreRow.schema) =
        (schemaOf batch.changes).or (db.rows.stores.bind StoreRow.schema) ↔
          schemaOf batch.changes = batch.changes.getLast?.bind CommitChange.schema ∨
            schemaOf batch.changes = db.rows.stores.bind StoreRow.schema := by
      rw [hlast, schemaOf_concat, List.getLast?_concat, Option.bind_some]
      cases last.schema <;> cases schemaOf init <;> simp [eq_comm]
    rw [db.groupsAs_concat batch.changes hlast, hschema, db.log_iff batch.changes batch rfl]
    simp only [db.replicas_iff]
    exact ⟨fun ⟨h₁, h₂, h₃⟩ => ⟨h₁, h₂, h₃⟩, fun ⟨h₁, h₂, h₃⟩ => ⟨h₁, h₂, h₃⟩⟩

/-- A database where a replica is Ana's. -/
def anas : Sqlite where
  rows :=
    { stores := some ⟨4, some "e1", some 0⟩
      records := .empty
      replicas := .ofList [("r1", ⟨3, 10, some "ana"⟩)]
      oplog := []
      sorted := .nil
      whole := nofun }
  pruned := none

/-- The replica is forgotten, and then Bob's. -/
def retaken : Commits where
  changes := [
    ⟨[], [], none, ["r1"], 4, "e1", some 0, none, none, nofun⟩,
    ⟨[], [], some ("r1", ⟨0, 50, some "bob"⟩), [], 4, "e1", some 0, none, none, nofun⟩]
  rising := by simp

/-- In one group it stays Ana's. -/
theorem retaken_stays : ¬ ∀ (db : Sqlite) (batch : Commits), db.GroupsAs batch.changes := fun h =>
  absurd ((h anas retaken).rows.replicas "r1") (by decide)

end Sqlite

end LazyStorage.Server
