import LazyStorage.Server.Sqlite
import Mathlib.Data.Finset.Erase
import Mathlib.Data.Finset.Insert

/-! # Leases on a file of stores

One process at a time serves a store: loading it takes its lease, a row that says who
has it and until when, and a commit reads that row before it writes. Any number of
processes act here in any order, each by a clock of its own, and what the system tells
one of another's being alive may be wrong.
-/
namespace LazyStorage.Server

open Lib LazyStorage.Core

/-- A row of `leases`; `runsOut` is its column `until`. -/
structure Lease where
  holder : String
  host : String
  pid : ℕ
  runsOut : ℤ

/-- The processes that open a file, each by the id it drew, where it runs, and its `ttl`. -/
structure Processes (P : Type*) where
  holder : P → String
  host : P → String
  pid : P → ℕ
  ttl : P → ℤ
  distinct : Function.Injective holder

/-- Why an adapter throws. -/
inductive StorageError
  | storeLocked (id : String) (current : Lease) (seconds : ℤ) (elsewhere : Bool)
  | leaseLost (id : String)
  | storeOpen (id : String)
  | storageFormat (id : String)

namespace StorageError

def code : StorageError → String
  | storeLocked .. => "store-locked"
  | leaseLost _ => "lease-lost"
  | storeOpen _ => "store-open"
  | storageFormat _ => "storage-format"

def message : StorageError → String
  | storeLocked id current seconds elsewhere => "Store \"" ++ id ++ "\" is open in another process (" ++ current.host ++
      ", pid " ++ toString current.pid ++ "); it is served here once that process lets it go, or " ++ toString seconds ++
      " s after it stops renewing" ++ if elsewhere then "; from here it cannot be told whether that process still " ++
        "runs: one killed without closing the file holds the store until its lease runs out" else ""
  | leaseLost id => "The lease on store \"" ++ id ++ "\" was lost: another process serves it now"
  | storeOpen id => "Store \"" ++ id ++ "\" is loaded here: release it (stores.release(id), or dispose it) before " ++
      "replacing its storage"
  | storageFormat id => "Store \"" ++ id ++ "\" was written by lazy-storage before 1.0, one row per leaf: migrate " ++
      "the file with fromLeaves before serving it"

end StorageError

theorem Rows.sorted_none : ([] : List LogEntry).Pairwise (·.v < ·.v) := .nil

theorem Rows.whole_none (_ : (none : Option StoreRow) = none) :
    (.empty : OrderedMap (String × String) Entry) = .empty ∧ (.empty : OrderedMap String Replica) = .empty ∧
      ([] : List LogEntry) = [] := ⟨rfl, rfl, rfl⟩

/-- A store that has no rows. -/
def Rows.dropped : Rows := ⟨none, .empty, .empty, [], sorted_none, whole_none⟩

/-- A document as a store's whole storage, under a new epoch and without a log. -/
def Rows.replace (rows : Rows) (doc : Saved) (newEpoch : String) : Rows where
  stores := some ⟨doc.version, some newEpoch, doc.schema.or (rows.stores.bind StoreRow.schema)⟩
  records := doc.records.entries.foldl (fun m e => m.set (rowKey e.1) e.2) .empty
  replicas := doc.replicas
  oplog := []
  sorted := sorted_none
  whole := nofun

/-- The file, and what each process has of it: the stores it holds, and the floor it last pruned
each one's log to. `leaves` are the stores kept in rows from before 1.0. -/
structure File (P : Type*) where
  rows : String → Rows
  leases : String → Option Lease
  leaves : String → Bool
  held : P → Finset String
  pruned : P → String → Option ℕ

namespace File

variable {P : Type*} [DecidableEq P] (procs : Processes P)

/-- The row a process writes when it takes a lease. -/
def lease (p : P) (now : ℤ) : Lease := ⟨procs.holder p, procs.host p, procs.pid p, now + procs.ttl p⟩

def take (f : File P) (p : P) (id : String) (now : ℤ) : File P :=
  { f with
    leases := Function.update f.leases id (some (lease procs p now))
    held := Function.update f.held p (insert id (f.held p)) }

/-- The lease is another's, has not run out, and its process is not known to be gone. -/
def lockedBy (p : P) (now : ℤ) (alive : ℕ → Bool) (current : Lease) : Bool :=
  current.holder ≠ procs.holder p && now < current.runsOut &&
    !(current.host = procs.host p && current.pid ≠ procs.pid p && !alive current.pid)

def acquire (f : File P) (p : P) (id : String) (now : ℤ) (alive : ℕ → Bool) : Except StorageError (File P) :=
  match (f.leases id).filter (lockedBy procs p now alive) with
  | some current => .error (.storeLocked id current (-((now - current.runsOut) / 1000))
      (current.host ≠ procs.host p))
  | none => .ok (f.take procs p id now)

/-- The store is let go of. -/
def close (f : File P) (p : P) (id : String) : File P :=
  if id ∈ f.held p then
    { f with
      held := Function.update f.held p ((f.held p).erase id)
      leases := Function.update f.leases id ((f.leases id).filter (·.holder ≠ procs.holder p)) }
  else f

/-- The rows of a store, pruned to no floor yet by a process. -/
def unpruned (f : File P) (p : P) (id : String) : File P :=
  { f with pruned := Function.update f.pruned p (Function.update (f.pruned p) id none) }

def load (f : File P) (p : P) (id : String) (now : ℤ) (alive : ℕ → Bool) :
    File P × Except StorageError (Option Saved) :=
  match (f.unpruned p id).acquire procs p id now alive with
  | .error err => (f.unpruned p id, .error err)
  | .ok f' =>
    if (f'.rows id).stores.isSome ∧ f'.leaves id ∧ (f'.rows id).records.entries = [] then
      (f'.close procs p id, .error (.storageFormat id))
    else (f', .ok (f'.rows id).load)

/-- Changes, in order, in one transaction. The lease is read as it stands once the file is locked, and written
when less than half of it is left. -/
def commitMany (f : File P) (p : P) (id : String) (changes : List CommitChange) (now : ℤ) :
    File P × Except StorageError Unit :=
  if changes.isEmpty then (f, .ok ()) else
  match (f.leases id).filter (·.holder = procs.holder p) with
  | none => ({ f with held := Function.update f.held p ((f.held p).erase id) }, .error (.leaseLost id))
  | some current =>
    let db := Sqlite.commitMany ⟨f.rows id, f.pruned p id⟩ changes
    let runsOut := if 2 * (current.runsOut - now) < procs.ttl p then now + procs.ttl p else current.runsOut
    ({ f with
        rows := Function.update f.rows id db.rows
        pruned := Function.update f.pruned p (Function.update (f.pruned p) id db.pruned)
        leases := Function.update f.leases id (some { current with runsOut }) }, .ok ())

def replace (f : File P) (p : P) (id : String) (doc : Saved) (newEpoch : String) (now : ℤ) (alive : ℕ → Bool) :
    File P × Except StorageError Unit :=
  if id ∈ f.held p then (f, .error (.storeOpen id)) else
  match f.acquire procs p id now alive with
  | .error err => (f, .error err)
  | .ok f' =>
    (File.close procs { f'.unpruned p id with
      rows := Function.update f'.rows id ((f'.rows id).replace doc newEpoch) } p id, .ok ())

/-- A store's rows deleted, and its lease with them. -/
def remove (f : File P) (id : String) : File P :=
  { f with
    rows := Function.update f.rows id .dropped
    leases := Function.update f.leases id none }

/-- The timer: every lease of the process, if it holds a store. -/
def renewAll (f : File P) (p : P) (now : ℤ) : File P :=
  if f.held p = ∅ then f else
  { f with leases := fun id => (f.leases id).map fun current =>
      if current.holder = procs.holder p then { current with runsOut := now + procs.ttl p } else current }

/-- The file closed: every lease of the process given up. -/
def closeAll (f : File P) (p : P) : File P :=
  { f with
    leases := if f.held p = ∅ then f.leases else fun id => (f.leases id).filter (·.holder ≠ procs.holder p)
    held := Function.update f.held p ∅ }

/-! ## Who holds a store -/

variable {procs} {f : File P} {p q : P} {id id' : String} {now : ℤ} {alive : ℕ → Bool}

variable (procs) in
/-- The lease on a store is a process's. -/
def Holds (f : File P) (p : P) (id : String) : Prop := ∃ l ∈ f.leases id, l.holder = procs.holder p

omit [DecidableEq P] in
theorem Holds.unique (hp : f.Holds procs p id) (hq : f.Holds procs q id) : p = q := by
  obtain ⟨l, hl, hp⟩ := hp
  obtain ⟨m, hm, hq⟩ := hq
  have hlm : l = m := Option.mem_unique hl hm
  apply procs.distinct
  rw [← hp, ← hq, hlm]

theorem holds_take : (f.take procs p id now).Holds procs q id' ↔ if id' = id then q = p else f.Holds procs q id' := by
  by_cases h : id' = id
  · subst h
    simp [Holds, take, lease, procs.distinct.eq_iff, eq_comm]
  · simp [Holds, take, h]

theorem close_rows : (f.close procs p id).rows = f.rows := by
  unfold close
  split <;> rfl

theorem held_close : (f.close procs p id).held q ⊆ f.held q := by
  unfold close
  split
  · by_cases h : q = p
    · subst h
      simp [Finset.erase_subset]
    · simp [h]
  · rfl

theorem leases_close : (f.close procs p id).leases id' =
    if id' = id ∧ id ∈ f.held p then (f.leases id').filter (·.holder ≠ procs.holder p) else f.leases id' := by
  unfold close
  by_cases hheld : id ∈ f.held p
  · by_cases hid : id' = id
    · subst hid
      simp [hheld]
    · simp [hheld, hid]
  · simp [hheld]

/-- Letting go of a store takes its lease from the process, and nobody else's. -/
theorem Holds.of_close (h : (f.close procs p id).Holds procs q id') : f.Holds procs q id' := by
  obtain ⟨l, hl, hq⟩ := h
  rw [leases_close] at hl
  split_ifs at hl
  · exact ⟨l, (Option.mem_filter_iff.mp hl).1, hq⟩
  · exact ⟨l, hl, hq⟩

theorem Holds.close_ne (hheld : id ∈ f.held p) (h : (f.close procs p id).Holds procs q id') : q ≠ p ∨ id' ≠ id := by
  obtain ⟨l, hl, hq⟩ := h
  rw [leases_close] at hl
  by_cases hid : id' = id
  · rw [if_pos ⟨hid, hheld⟩] at hl
    have hne := of_decide_eq_true (Option.mem_filter_iff.mp hl).2
    left
    rintro rfl
    exact hne hq
  · exact .inr hid

theorem mem_held_close (h : q ≠ p ∨ id' ≠ id) : id' ∈ (f.close procs p id).held q ↔ id' ∈ f.held q := by
  unfold close
  split
  · by_cases hq : q = p
    · subst hq
      simp [h.resolve_left (· rfl)]
    · simp [hq]
  · rfl

/-- A lease is had by taking it. -/
theorem acquire_ok {f' : File P} (h : f.acquire procs p id now alive = .ok f') : f' = f.take procs p id now := by
  unfold acquire at h
  split at h
  · cases h
  · exact (Except.ok.inj h).symm

variable (procs) in
/-- Loading is refused, or takes the lease, or takes it and gives it back. -/
theorem load_cases (f : File P) (p : P) (id : String) (now : ℤ) (alive : ℕ → Bool) :
    (∃ err, f.load procs p id now alive = (f.unpruned p id, .error err)) ∨
    f.load procs p id now alive = ((f.unpruned p id).take procs p id now, .ok (f.rows id).load) ∨
    ∃ err, f.load procs p id now alive = (((f.unpruned p id).take procs p id now).close procs p id, .error err) := by
  unfold load
  split
  next err _ => exact .inl ⟨err, rfl⟩
  next f' hf =>
    rw [acquire_ok hf]
    split_ifs
    · exact .inr (.inr ⟨_, rfl⟩)
    · exact .inr (.inl rfl)

variable (procs) in
/-- A document is refused, and nothing changes, or it is put in place and the lease given back. -/
theorem replace_cases (f : File P) (p : P) (id : String) (doc : Saved) (newEpoch : String) (now : ℤ)
    (alive : ℕ → Bool) :
    (∃ err, f.replace procs p id doc newEpoch now alive = (f, .error err)) ∨
    f.replace procs p id doc newEpoch now alive =
      (File.close procs { (f.take procs p id now).unpruned p id with
        rows := Function.update f.rows id ((f.rows id).replace doc newEpoch) } p id, .ok ()) := by
  unfold replace
  split_ifs
  · exact .inl ⟨_, rfl⟩
  split
  next err _ => exact .inl ⟨err, rfl⟩
  next f' hf =>
    rw [acquire_ok hf]
    exact .inr rfl

omit [DecidableEq P] in
theorem holds_renewAll : (f.renewAll procs p now).Holds procs q id ↔ f.Holds procs q id := by
  unfold renewAll
  split
  · rfl
  · simp only [Holds, Option.mem_map]
    constructor
    · rintro ⟨_, ⟨l, hl, rfl⟩, hq⟩
      refine ⟨l, hl, ?_⟩
      split_ifs at hq <;> exact hq
    · rintro ⟨l, hl, hq⟩
      refine ⟨_, ⟨l, hl, rfl⟩, ?_⟩
      split_ifs <;> exact hq

theorem commitMany_lost {changes : List CommitChange} (hne : changes ≠ []) (h : ¬f.Holds procs p id) :
    f.commitMany procs p id changes now =
      ({ f with held := Function.update f.held p ((f.held p).erase id) }, .error (.leaseLost id)) := by
  have hnone : (f.leases id).filter (·.holder = procs.holder p) = none := by
    rw [Option.filter_eq_none_iff]
    intro l hl hp
    exact h ⟨l, hl, of_decide_eq_true hp⟩
  rw [commitMany, if_neg (by simpa using hne), hnone]

/-- A commit that goes through writes the rows as they stand, and leaves the lease with its process. -/
theorem commitMany_kept (now : ℤ) {changes : List CommitChange} (hne : changes ≠ []) (h : f.Holds procs p id) :
    ∃ l ∈ f.leases id, ∃ runsOut,
      (runsOut = l.runsOut ∨ runsOut = now + procs.ttl p ∧ 2 * (l.runsOut - now) < procs.ttl p) ∧
      f.commitMany procs p id changes now = ({ f with
        rows := Function.update f.rows id (Sqlite.commitMany ⟨f.rows id, f.pruned p id⟩ changes).rows
        pruned := Function.update f.pruned p (Function.update (f.pruned p) id
          (Sqlite.commitMany ⟨f.rows id, f.pruned p id⟩ changes).pruned)
        leases := Function.update f.leases id (some { l with runsOut }) }, .ok ()) := by
  obtain ⟨l, hl, hp⟩ := h
  have hsome : (f.leases id).filter (·.holder = procs.holder p) = some l := by
    rw [Option.mem_def.mp hl, Option.filter_some, if_pos (decide_eq_true hp)]
  refine ⟨l, hl, _, ?_, by rw [commitMany, if_neg (by simpa using hne), hsome]⟩
  split_ifs with hlow
  · exact .inr ⟨rfl, hlow⟩
  · exact .inl rfl

end File

end LazyStorage.Server
