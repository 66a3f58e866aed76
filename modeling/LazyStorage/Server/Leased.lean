import LazyStorage.Lib.Runs
import LazyStorage.Server.Leases

/-! # One process at a time

What leases make of any number of processes on one file: a commit is written over the
rows its process has seen, the versions of a store number on through all of them, and a
process whose timer runs keeps what it has loaded.
-/
namespace LazyStorage.Server

open Lib LazyStorage.Core

/-! ## What each process has seen -/

/-- What a process does to the file; `alive` is what its system tells it of the others. -/
inductive FileEvent (P : Type*)
  | load (p : P) (id : String) (now : ℤ) (alive : ℕ → Bool)
  | commitMany (p : P) (id : String) (changes : List CommitChange) (now : ℤ)
  | replace (p : P) (id : String) (doc : Saved) (newEpoch : String) (now : ℤ) (alive : ℕ → Bool)
  | renewAll (p : P) (now : ℤ)
  | close (p : P) (id : String)
  | closeAll (p : P)
  | remove (id : String)

/-- A version, with none of a store that was never committed. -/
def Rows.version (rows : Rows) : ℕ := (rows.stores.map StoreRow.version).getD 0

/-- Changes that are numbered on from a version leave the last of theirs. -/
theorem Rows.version_commitMany {rows : Rows} {pruned : Option ℕ} {changes : List CommitChange} {v : ℕ}
    (hne : changes ≠ []) (h : changes.map CommitChange.version = List.range' (v + 1) changes.length) :
    (Sqlite.commitMany ⟨rows, pruned⟩ changes).rows.version = v + changes.length := by
  have hlast : changes.getLast? = some (changes.getLast hne) := List.getLast?_eq_some_getLast hne
  have hversion : (changes.getLast hne).version = v + changes.length := by
    have hmap := congrArg List.getLast? h
    rw [List.getLast?_map, hlast, List.getLast?_range'] at hmap
    have hpos := List.length_pos_iff.mpr hne
    simp [Nat.ne_of_gt hpos] at hmap
    omega
  rw [Sqlite.commitMany, hlast]
  exact hversion

/-- A file, the rows of each store that each process last loaded or wrote, and the versions committed since
they were last put there whole, at `base`. -/
structure Watched (P : Type*) where
  file : File P
  seen : P → String → Option Rows
  base : String → ℕ
  committed : String → List ℕ

namespace Watched

variable {P : Type*} [DecidableEq P] (procs : Processes P)

/-- What a process loaded or wrote is what it has seen. -/
def look (s : Watched P) (p : P) (id : String) : Watched P :=
  { s with seen := Function.update s.seen p (Function.update (s.seen p) id (some (s.file.rows id))) }

/-- The rows are as they were put there. -/
def restart (s : Watched P) (id : String) : Watched P :=
  { s with
    base := Function.update s.base id (s.file.rows id).version
    committed := Function.update s.committed id [] }

def step : FileEvent P → Watched P → Option (Watched P)
  | .load p id now alive, s =>
    match s.file.load procs p id now alive with
    | (file, .ok _) => some (look { s with file } p id)
    | (file, .error _) => some { s with file }
  | .commitMany p id changes now, s =>
    if changes.isEmpty then some s else
    match s.file.commitMany procs p id changes now with
    | (file, .ok _) => some (look { s with
        file
        committed := Function.update s.committed id (s.committed id ++ changes.map CommitChange.version) } p id)
    | (file, .error _) => some { s with file }
  | .replace p id doc newEpoch now alive, s =>
    match s.file.replace procs p id doc newEpoch now alive with
    | (file, .ok _) => some (restart { s with file } id)
    | (file, .error _) => some { s with file }
  | .renewAll p now, s => some { s with file := s.file.renewAll procs p now }
  | .close p id, s => some { s with file := s.file.close procs p id }
  | .closeAll p, s => some { s with file := s.file.closeAll procs p }
  | .remove id, s => some (restart { s with file := s.file.remove id } id)

variable {procs} {s s' : Watched P} {p q : P} {id : String}

variable (procs) in
/-- Whoever has a store's lease holds the store, and has seen its rows as they stand. -/
def Current (s : Watched P) : Prop :=
  ∀ p id, s.file.Holds procs p id → id ∈ s.file.held p ∧ s.seen p id = some (s.file.rows id)

/-- A lease is taken by one that then looks at the rows. -/
theorem Current.take (h : s.Current procs) (p : P) (id : String) (now : ℤ) :
    (look { s with file := s.file.take procs p id now } p id).Current procs := by
  intro q id' hq
  rw [look, File.holds_take] at hq
  by_cases hid : id' = id
  · subst hid
    rw [if_pos rfl] at hq
    subst hq
    simp [look, File.take]
  · rw [if_neg hid] at hq
    obtain ⟨hheld, hseen⟩ := h q id' hq
    by_cases hqp : q = p
    · subst hqp
      simpa [look, File.take, hid] using ⟨hheld, hseen⟩
    · simpa [look, File.take, hqp] using ⟨hheld, hseen⟩

theorem Current.close (h : s.Current procs) (p : P) (id : String) :
    Current procs { s with file := s.file.close procs p id } := by
  intro q id' hq
  obtain ⟨hheld, hseen⟩ := h q id' hq.of_close
  refine ⟨?_, hseen.trans (by rw [File.close_rows])⟩
  by_cases hp : id ∈ s.file.held p
  · exact (File.mem_held_close (hq.close_ne hp)).mpr hheld
  · simpa [File.close, hp] using hheld

/-- A lease taken and given back leaves the store to nobody, whatever is done to its rows in between. -/
theorem Current.passing (h : s.Current procs) (p : P) (id : String) (now : ℤ) {rows : String → Rows}
    (hrows : ∀ id' ≠ id, rows id' = s.file.rows id') (pruned : P → String → Option ℕ) (base : String → ℕ)
    (committed : String → List ℕ) :
    Current procs ⟨File.close procs { s.file.take procs p id now with rows, pruned } p id, s.seen, base,
      committed⟩ := by
  intro q id' hq
  have hne := hq.close_ne (by simp [File.take])
  have htake : (s.file.take procs p id now).Holds procs q id' := hq.of_close
  rw [File.holds_take] at htake
  by_cases hid : id' = id
  · rw [if_pos hid] at htake
    exact absurd hid (hne.resolve_left (not_not_intro htake))
  · rw [if_neg hid] at htake
    obtain ⟨hheld, hseen⟩ := h q id' htake
    refine ⟨(File.mem_held_close hne).mpr ?_, ?_⟩
    · by_cases hqp : q = p
      · subst hqp
        simpa [File.take, hid] using hheld
      · simpa [File.take, hqp] using hheld
    · rw [hseen, File.close_rows]
      exact congrArg some (hrows id' hid).symm

/-- What every step keeps. -/
theorem Current.step (h : s.Current procs) {e : FileEvent P} (hs : Watched.step procs e s = some s') :
    s'.Current procs := by
  cases e with
  | load p id now alive =>
    rw [Watched.step] at hs
    obtain ⟨err, hload⟩ | hload | ⟨err, hload⟩ := s.file.load_cases procs p id now alive
    · rw [hload] at hs
      exact Option.some.inj hs ▸ h
    · rw [hload] at hs
      have ht := Current.take (s := { s with file := s.file.unpruned p id }) h p id now
      exact Option.some.inj hs ▸ ht
    · rw [hload] at hs
      have hpass := h.passing p id now (fun _ _ => rfl) (s.file.unpruned p id).pruned s.base s.committed
      exact Option.some.inj hs ▸ hpass
  | commitMany p id changes now =>
    rw [Watched.step] at hs
    split_ifs at hs with hempty
    · exact Option.some.inj hs ▸ h
    have hne : changes ≠ [] := by simpa using hempty
    by_cases hp : s.file.Holds procs p id
    · obtain ⟨l, hl, runsOut, -, hkept⟩ := File.commitMany_kept now hne hp
      rw [hkept] at hs
      cases hs
      intro q id' hq
      by_cases hid : id' = id
      · subst hid
        have hold : s.file.Holds procs q id' := by
          obtain ⟨m, hm, hmq⟩ := hq
          simp only [look, Function.update_self, Option.mem_def, Option.some.injEq] at hm
          subst hm
          exact ⟨l, hl, hmq⟩
        obtain rfl := hold.unique hp
        exact ⟨(h q id' hold).1, by simp [look]⟩
      · have hold : s.file.Holds procs q id' := by
          obtain ⟨m, hm, hmq⟩ := hq
          simp only [look, Function.update_of_ne hid] at hm
          exact ⟨m, hm, hmq⟩
        obtain ⟨hheld, hseen⟩ := h q id' hold
        by_cases hqp : q = p
        · subst hqp
          simpa [look, hid] using ⟨hheld, hseen⟩
        · simpa [look, hid, hqp] using ⟨hheld, hseen⟩
    · rw [File.commitMany_lost hne hp] at hs
      cases hs
      intro q id' hq
      obtain ⟨hheld, hseen⟩ := h q id' hq
      refine ⟨?_, hseen⟩
      by_cases hqp : q = p
      · subst hqp
        have hid : id' ≠ id := by
          rintro rfl
          exact hp hq
        simpa [hid] using hheld
      · simpa [hqp] using hheld
  | replace p id doc newEpoch now alive =>
    rw [Watched.step] at hs
    obtain ⟨err, hrep⟩ | hrep := s.file.replace_cases procs p id doc newEpoch now alive
    · rw [hrep] at hs
      exact Option.some.inj hs ▸ h
    · rw [hrep] at hs
      cases hs
      exact h.passing p id now (fun id' hid => Function.update_of_ne hid _ _) _ _ _
  | renewAll p now =>
    cases hs
    intro q id hq
    rw [File.holds_renewAll] at hq
    obtain ⟨hheld, hseen⟩ := h q id hq
    unfold File.renewAll
    split
    · exact ⟨hheld, hseen⟩
    · exact ⟨hheld, hseen⟩
  | close p id =>
    cases hs
    exact h.close p id
  | closeAll p =>
    cases hs
    intro q id hq
    obtain ⟨m, hm, hmq⟩ := hq
    have hold : s.file.Holds procs q id ∧ q ≠ p := by
      simp only [File.closeAll] at hm
      split_ifs at hm with hempty
      · refine ⟨⟨m, hm, hmq⟩, ?_⟩
        rintro rfl
        simpa [hempty] using (h q id ⟨m, hm, hmq⟩).1
      · obtain ⟨hm, hne⟩ := Option.mem_filter_iff.mp hm
        refine ⟨⟨m, hm, hmq⟩, ?_⟩
        rintro rfl
        exact of_decide_eq_true hne hmq
    simpa [File.closeAll, hold.2] using h q id hold.1
  | remove id =>
    cases hs
    intro q id' hq
    obtain ⟨m, hm, hmq⟩ := hq
    have hid : id' ≠ id := by
      rintro rfl
      simp [restart, File.remove] at hm
    simp only [restart, File.remove, Function.update_of_ne hid] at hm ⊢
    exact h q id' ⟨m, hm, hmq⟩

/-- A file as it is found. -/
def opening (file : File P) : Watched P := ⟨file, fun _ _ => none, fun id => (file.rows id).version, fun _ => []⟩

/-- A commit that goes through is written over the rows its process last loaded or wrote, and until another process
loads the store nobody else's can: no process writes over what it has not seen. -/
theorem commits_over_what_it_saw {file : File P} (h₀ : ∀ p id, ¬file.Holds procs p id)
    (hs : Reaches (step procs) (fun _ _ => True) (opening file) s)
    {changes : List CommitChange} (hne : changes ≠ []) {now : ℤ}
    (hok : (s.file.commitMany procs p id changes now).2 = .ok ()) :
    s.seen p id = some (s.file.rows id) ∧ ∀ q ≠ p, ∀ others ≠ [], ∀ now,
      (s.file.commitMany procs q id others now).2 = .error (.leaseLost id) := by
  have hcur : s.Current procs := hs.invariant (fun p id hp => absurd hp (h₀ p id)) fun _ _ _ h _ hstep => h.step hstep
  have hp : s.file.Holds procs p id := by
    by_contra hp
    rw [File.commitMany_lost hne hp] at hok
    cases hok
  refine ⟨(hcur p id hp).2, fun q hq others hothers now => ?_⟩
  rw [File.commitMany_lost hothers fun h => hq (h.unique hp)]

/-- Two processes of one machine, the first of which loads a store of a new file. -/
def twoProcesses : Processes Bool where
  holder b := if b then "b" else "a"
  host _ := "host"
  pid b := if b then 2 else 1
  ttl _ := 30000
  distinct a b h := by cases a <;> cases b <;> simp_all

def newFile : File Bool := ⟨fun _ => .dropped, fun _ => none, fun _ => false, fun _ => ∅, fun _ _ => none⟩

theorem newFile_holds (p : Bool) (id : String) : ¬newFile.Holds twoProcesses p id := by
  rintro ⟨l, hl, -⟩
  cases hl

def firstLoaded : Watched Bool :=
  look ⟨(newFile.unpruned false "s").take twoProcesses false "s" 0, fun _ _ => none, fun _ => 0, fun _ => []⟩ false "s"

theorem firstLoaded_lease : firstLoaded.file.leases "s" = some (File.lease twoProcesses false 0) := by
  simp [firstLoaded, look, File.take]

def firstChange : CommitChange := ⟨[], [], none, [], 1, "e", none, none, none, by simp⟩

theorem firstCommit_ok : ∃ file, firstLoaded.file.commitMany twoProcesses false "s" [firstChange] 5 = (file, .ok ()) := by
  have hholds : firstLoaded.file.Holds twoProcesses false "s" := ⟨_, firstLoaded_lease, rfl⟩
  obtain ⟨l, -, runsOut, -, hkept⟩ := File.commitMany_kept 5 (List.cons_ne_nil firstChange []) hholds
  exact ⟨_, hkept⟩

theorem commits_over_what_it_saw_first : firstLoaded.seen false "s" = some (firstLoaded.file.rows "s") ∧
    ∀ q ≠ false, ∀ others ≠ [], ∀ now,
      (firstLoaded.file.commitMany twoProcesses q "s" others now).2 = .error (.leaseLost "s") := by
  have hload : Reaches (step twoProcesses) (fun _ _ => True) (opening newFile) firstLoaded :=
    Reaches.start.next (.load false "s" 0 fun _ => true) trivial rfl
  obtain ⟨file, hok⟩ := firstCommit_ok
  exact commits_over_what_it_saw newFile_holds hload (List.cons_ne_nil _ _) (congrArg Prod.snd hok)

/-! ## Versions -/

/-- Commits are numbered on from the version their process has seen. -/
def NumberedOn : FileEvent P → Watched P → Prop
  | .commitMany p id changes _, s =>
    ∀ rows ∈ s.seen p id, changes.map CommitChange.version = List.range' (rows.version + 1) changes.length
  | _, _ => True

/-- The versions committed are each one more than the one before, and the last is the one stored. -/
def OneByOne (s : Watched P) : Prop :=
  ∀ id, s.committed id = List.range' (s.base id + 1) (s.committed id).length ∧
    (s.file.rows id).version = s.base id + (s.committed id).length

omit [DecidableEq P] in
theorem OneByOne.of_rows (h : s.OneByOne) {file : File P} (hrows : file.rows = s.file.rows)
    (seen : P → String → Option Rows) : OneByOne ⟨file, seen, s.base, s.committed⟩ := by
  intro id
  rw [hrows]
  exact h id

omit [DecidableEq P] in
/-- One store's rows put in place whole, the others as they were. -/
theorem OneByOne.restart (h : s.OneByOne) {file : File P} {id : String}
    (hrows : ∀ id' ≠ id, file.rows id' = s.file.rows id') : OneByOne (Watched.restart { s with file } id) := by
  intro id'
  by_cases hid : id' = id
  · subst hid
    simp [Watched.restart]
  · have hold := h id'
    rw [← hrows id' hid] at hold
    simpa [Watched.restart, hid] using hold

theorem OneByOne.step (h : s.OneByOne) (hcur : s.Current procs) {e : FileEvent P} (hok : NumberedOn e s)
    (hs : Watched.step procs e s = some s') : s'.OneByOne := by
  cases e with
  | load p id now alive =>
    rw [Watched.step] at hs
    obtain ⟨err, hload⟩ | hload | ⟨err, hload⟩ := s.file.load_cases procs p id now alive
    · rw [hload] at hs
      exact Option.some.inj hs ▸ h.of_rows rfl _
    · rw [hload] at hs
      exact Option.some.inj hs ▸ h.of_rows rfl _
    · rw [hload] at hs
      refine Option.some.inj hs ▸ h.of_rows ?_ _
      rw [File.close_rows]
      rfl
  | commitMany p id changes now =>
    rw [Watched.step] at hs
    split_ifs at hs with hempty
    · exact Option.some.inj hs ▸ h
    have hne : changes ≠ [] := by simpa using hempty
    by_cases hp : s.file.Holds procs p id
    · have hnum := hok _ (hcur p id hp).2
      obtain ⟨l, -, runsOut, -, hkept⟩ := File.commitMany_kept now hne hp
      rw [hkept] at hs
      cases hs
      intro id'
      by_cases hid : id' = id
      · subst hid
        obtain ⟨hlist, hversion⟩ := h id'
        have hafter := @Rows.version_commitMany (s.file.rows id') (s.file.pruned p id') changes _ hne hnum
        simp only [look, Function.update_self, List.length_append, List.length_map]
        refine ⟨?_, by omega⟩
        calc s.committed id' ++ changes.map CommitChange.version
            = List.range' (s.base id' + 1) (s.committed id').length ++
              List.range' (s.base id' + 1 + (s.committed id').length) changes.length := by
              rw [hnum, ← hlist, hversion, Nat.add_right_comm]
          _ = _ := List.range'_append_1
      · simpa [look, hid] using h id'
    · rw [File.commitMany_lost hne hp] at hs
      exact Option.some.inj hs ▸ h.of_rows rfl _
  | replace p id doc newEpoch now alive =>
    rw [Watched.step] at hs
    obtain ⟨err, hrep⟩ | hrep := s.file.replace_cases procs p id doc newEpoch now alive
    · rw [hrep] at hs
      exact Option.some.inj hs ▸ h
    · rw [hrep] at hs
      refine Option.some.inj hs ▸ h.restart fun id' hid => ?_
      rw [File.close_rows]
      exact Function.update_of_ne hid _ _
  | renewAll p now =>
    cases hs
    refine h.of_rows ?_ _
    unfold File.renewAll
    split <;> rfl
  | close p id => exact Option.some.inj hs ▸ h.of_rows File.close_rows _
  | closeAll p => exact Option.some.inj hs ▸ h.of_rows rfl _
  | remove id => exact Option.some.inj hs ▸ h.restart fun id' hid => Function.update_of_ne hid _ _

/-- Whichever processes serve a store, one after another, the versions they commit number on one by one from the
version that was there: none is committed twice, and none is left out. -/
theorem versions_one_by_one {file : File P} (h₀ : ∀ p id, ¬file.Holds procs p id)
    (hs : Reaches (step procs) NumberedOn (opening file) s) (id : String) :
    s.committed id = List.range' (s.base id + 1) (s.committed id).length ∧
      (s.file.rows id).version = s.base id + (s.committed id).length := by
  have hstart : (opening file).Current procs ∧ (opening file).OneByOne :=
    ⟨fun p id hp => absurd hp (h₀ p id), fun id => ⟨rfl, rfl⟩⟩
  have hboth : s.Current procs ∧ s.OneByOne :=
    @Reaches.invariant _ _ _ _ _ _ (fun t => t.Current procs ∧ t.OneByOne) hstart
      (fun e t t' h hok hstep => ⟨h.1.step hstep, h.2.step h.1 hok hstep⟩) hs
  exact hboth.2 id

theorem versions_one_by_one_first : ∃ s : Watched Bool, s.committed "s" = [1] ∧
    s.committed "s" = List.range' (s.base "s" + 1) (s.committed "s").length ∧
    (s.file.rows "s").version = s.base "s" + (s.committed "s").length := by
  obtain ⟨file, hok⟩ := firstCommit_ok
  have hload : Reaches (step twoProcesses) NumberedOn (opening newFile) firstLoaded :=
    Reaches.start.next (.load false "s" 0 fun _ => true) trivial rfl
  have hnumbered : NumberedOn (.commitMany false "s" [firstChange] 5) firstLoaded := by
    rintro rows hrows
    obtain rfl : Rows.dropped = rows := Option.some.inj hrows
    rfl
  have hstep : firstLoaded.step twoProcesses (.commitMany false "s" [firstChange] 5) = some (look ⟨file,
      firstLoaded.seen, firstLoaded.base, Function.update firstLoaded.committed "s" [1]⟩ false "s") := by
    rw [Watched.step, hok]
    rfl
  exact ⟨_, rfl, versions_one_by_one newFile_holds (hload.next _ hnumbered hstep) "s"⟩

end Watched

/-! ## Renewed in time -/

namespace FileEvent

variable {P : Type*} [DecidableEq P]

/-- What is left of the file. -/
def perform (procs : Processes P) : FileEvent P → File P → File P
  | .load p id now alive, f => (f.load procs p id now alive).1
  | .commitMany p id changes now, f => (f.commitMany procs p id changes now).1
  | .replace p id doc newEpoch now alive, f => (f.replace procs p id doc newEpoch now alive).1
  | .renewAll p now, f => f.renewAll procs p now
  | .close p id, f => f.close procs p id
  | .closeAll p, f => f.closeAll procs p
  | .remove id, f => f.remove id

/-- The clock a process goes by. -/
def time : FileEvent P → Option ℤ
  | .load _ _ now _ | .commitMany _ _ _ now | .replace _ _ _ _ now _ | .renewAll _ now => some now
  | _ => none

/-- What a process is told of others. -/
def alive : FileEvent P → ℕ → Bool
  | .load _ _ _ alive | .replace _ _ _ _ _ alive => alive
  | _ => fun _ => true

/-- The store is let go of, or loaded again, by its own process, or it is deleted. -/
def endsLease (p : P) (id : String) : FileEvent P → Bool
  | .load q id' _ _ | .close q id' => q = p && id' = id
  | .closeAll q => q = p
  | .remove id' => id' = id
  | _ => false

end FileEvent

theorem Watched.file_step {P : Type*} [DecidableEq P] {procs : Processes P} {s s' : Watched P} {e : FileEvent P}
    (hs : s.step procs e = some s') : s'.file = e.perform procs s.file := by
  cases e with
  | load p id now alive =>
    rw [Watched.step] at hs
    split at hs <;> cases hs <;> simp_all [FileEvent.perform, look]
  | commitMany p id changes now =>
    rw [Watched.step] at hs
    split_ifs at hs with hempty
    · cases hs
      simp [FileEvent.perform, File.commitMany, hempty]
    · split at hs <;> cases hs <;> simp_all [FileEvent.perform, look]
  | replace p id doc newEpoch now alive =>
    rw [Watched.step] at hs
    split at hs <;> cases hs <;> simp_all [FileEvent.perform, restart]
  | renewAll | close | closeAll | remove =>
    cases hs
    rfl

/-- Processes that go by one clock, and when the timer of one of them last renewed its leases. -/
structure Clocked (P : Type*) where
  watched : Watched P
  now : ℤ
  renewed : ℤ

namespace Clocked

variable {P : Type*} [DecidableEq P] (procs : Processes P) (p : P) (id : String)

def step (e : FileEvent P) (s : Clocked P) : Option (Clocked P) :=
  (s.watched.step procs e).map fun watched =>
    { watched
      now := e.time.getD s.now
      renewed := match e with
        | .renewAll q now => if q = p then now else s.renewed
        | _ => s.renewed }

/-- The clock does not go back, the timer is never a whole `ttl` late, the process is not taken for gone, and it does
not let go of the store. -/
def InTime (e : FileEvent P) (s : Clocked P) : Prop :=
  (∀ now ∈ e.time, s.now ≤ now ∧ now < s.renewed + procs.ttl p) ∧ e.alive (procs.pid p) = true ∧
    e.endsLease p id = false

end Clocked

namespace File

variable {P : Type*} [DecidableEq P] (procs : Processes P)

/-- A store that a process holds, by a lease of its own that does not run out before `upTo`. -/
structure Leased (f : File P) (p : P) (id : String) (upTo : ℤ) : Prop where
  held : id ∈ f.held p
  lease : ∃ l ∈ f.leases id, l.holder = procs.holder p ∧ l.host = procs.host p ∧ l.pid = procs.pid p ∧ upTo ≤ l.runsOut

namespace Leased

variable {procs} {f : File P} {p q : P} {id id' : String} {upTo now : ℤ} {alive : ℕ → Bool}

omit [DecidableEq P] in
theorem holds (h : f.Leased procs p id upTo) : f.Holds procs p id :=
  h.lease.imp fun _ hl => ⟨hl.1, hl.2.1⟩

omit [DecidableEq P] in
theorem mono (h : f.Leased procs p id upTo) {t : ℤ} (ht : t ≤ upTo) : f.Leased procs p id t := by
  obtain ⟨l, hl, hholder, hhost, hpid, hout⟩ := h.lease
  exact ⟨h.held, l, hl, hholder, hhost, hpid, ht.trans hout⟩

theorem take_ne (h : f.Leased procs p id upTo) (q : P) (now : ℤ) (hid : id ≠ id') :
    (f.take procs q id' now).Leased procs p id upTo := by
  refine ⟨?_, by simpa [File.take, hid] using h.lease⟩
  by_cases hq : p = q
  · subst hq
    simp [File.take, h.held]
  · simpa [File.take, hq] using h.held

theorem close (h : f.Leased procs p id upTo) (hne : p ≠ q ∨ id ≠ id') : (f.close procs q id').Leased procs p id upTo := by
  obtain ⟨l, hl, hholder, hrest⟩ := h.lease
  refine ⟨(mem_held_close hne).mpr h.held, l, ?_, hholder, hrest⟩
  rw [leases_close]
  split_ifs with hid
  · have hpq : l.holder ≠ procs.holder q := by
      rw [hholder]
      exact procs.distinct.ne (hne.resolve_right (not_not_intro hid.1))
    exact Option.mem_filter_iff.mpr ⟨hl, decide_eq_true hpq⟩
  · exact hl

/-- Nobody else takes a lease that has not run out, its process being alive. -/
theorem acquire (h : f.Leased procs p id upTo) (hq : q ≠ p) (hnow : now < upTo) (halive : alive (procs.pid p) = true) :
    ∃ err, f.acquire procs q id now alive = .error err := by
  obtain ⟨l, hl, hholder, -, hpid, hout⟩ := h.lease
  have hlocked : lockedBy procs q now alive l = true := by
    have hpq : procs.holder p ≠ procs.holder q := procs.distinct.ne hq.symm
    have hlt : now < l.runsOut := hnow.trans_le hout
    simp [lockedBy, hholder, hpid, hpq, hlt, halive]
  have hsome : (f.leases id).filter (lockedBy procs q now alive) = some l := by
    rw [Option.mem_def.mp hl, Option.filter_some, if_pos hlocked]
  rw [File.acquire, hsome]
  exact ⟨_, rfl⟩

theorem load (h : f.Leased procs p id upTo) (hne : q ≠ p ∨ id' ≠ id) (hnow : now < upTo)
    (halive : alive (procs.pid p) = true) : (f.load procs q id' now alive).1.Leased procs p id upTo := by
  have hfresh : (f.unpruned q id').Leased procs p id upTo := ⟨h.held, h.lease⟩
  by_cases hid : id' = id
  · subst hid
    obtain ⟨err, herr⟩ := hfresh.acquire (hne.resolve_right (· rfl)) hnow halive
    rw [File.load, herr]
    exact hfresh
  · have htake := hfresh.take_ne q now (Ne.symm hid)
    obtain ⟨err, hload⟩ | hload | ⟨err, hload⟩ := f.load_cases procs q id' now alive
    · exact hload ▸ hfresh
    · exact hload ▸ htake
    · exact hload ▸ htake.close (.inr (Ne.symm hid))

theorem replace (h : f.Leased procs p id upTo) (hnow : now < upTo) (halive : alive (procs.pid p) = true)
    (doc : Saved) (newEpoch : String) : (f.replace procs q id' doc newEpoch now alive).1.Leased procs p id upTo := by
  by_cases hid : id' = id
  · subst hid
    rw [File.replace]
    split_ifs with hheld
    · exact h
    · have hq : q ≠ p := by
        rintro rfl
        exact hheld h.held
      obtain ⟨err, herr⟩ := h.acquire hq hnow halive
      rw [herr]
      exact h
  · obtain ⟨err, hrep⟩ | hrep := f.replace_cases procs q id' doc newEpoch now alive
    · exact hrep ▸ h
    · have htake := h.take_ne q now (Ne.symm hid)
      rw [hrep]
      exact Leased.close ⟨htake.held, htake.lease⟩ (.inr (Ne.symm hid))

/-- A commit reads the lease, and can but make it run out later. -/
theorem commitMany (h : f.Leased procs p id upTo) (hnow : upTo ≤ now + procs.ttl p) (changes : List CommitChange) :
    (f.commitMany procs q id' changes now).1.Leased procs p id upTo := by
  by_cases hne : changes = []
  · simpa [File.commitMany, hne] using h
  by_cases hq : f.Holds procs q id'
  · obtain ⟨l, hl, runsOut, hruns, hkept⟩ := File.commitMany_kept now hne hq
    rw [hkept]
    refine ⟨h.held, ?_⟩
    by_cases hid : id = id'
    · subst hid
      obtain rfl := hq.unique h.holds
      obtain ⟨m, hm, hholder, hhost, hpid, hout⟩ := h.lease
      obtain rfl : l = m := Option.mem_unique hl hm
      refine ⟨_, Function.update_self .., hholder, hhost, hpid, ?_⟩
      obtain rfl | ⟨rfl, -⟩ := hruns
      · exact hout
      · exact hnow
    · simpa [hid] using h.lease
  · rw [File.commitMany_lost hne hq]
    refine ⟨?_, h.lease⟩
    by_cases hpq : p = q
    · subst hpq
      have hid : id ≠ id' := by
        rintro rfl
        exact hq h.holds
      simpa [hid] using h.held
    · simpa [hpq] using h.held

omit [DecidableEq P] in
theorem renewAll_ne (h : f.Leased procs p id upTo) (hq : q ≠ p) : (f.renewAll procs q now).Leased procs p id upTo := by
  unfold File.renewAll
  split_ifs
  · exact h
  obtain ⟨l, hl, hholder, hrest⟩ := h.lease
  have hne : l.holder ≠ procs.holder q := by
    rw [hholder]
    exact procs.distinct.ne hq.symm
  refine ⟨h.held, l, ?_, hholder, hrest⟩
  simp [Option.mem_def.mp hl, hne]

omit [DecidableEq P] in
theorem renewAll (h : f.Leased procs p id upTo) :
    (f.renewAll procs p now).Leased procs p id (now + procs.ttl p) := by
  obtain ⟨l, hl, hholder, hhost, hpid, -⟩ := h.lease
  have hheld : f.held p ≠ ∅ := Finset.ne_empty_of_mem h.held
  rw [File.renewAll, if_neg hheld]
  refine ⟨h.held, { l with runsOut := now + procs.ttl p }, ?_, hholder, hhost, hpid, le_rfl⟩
  simp [Option.mem_def.mp hl, hholder]

theorem closeAll (h : f.Leased procs p id upTo) (hq : q ≠ p) : (f.closeAll procs q).Leased procs p id upTo := by
  obtain ⟨l, hl, hholder, hrest⟩ := h.lease
  refine ⟨by simpa [File.closeAll, hq.symm] using h.held, l, ?_, hholder, hrest⟩
  have hne : l.holder ≠ procs.holder q := by
    rw [hholder]
    exact procs.distinct.ne hq.symm
  simp only [File.closeAll]
  split_ifs
  · exact hl
  · exact Option.mem_filter_iff.mpr ⟨hl, decide_eq_true hne⟩

end Leased

end File

namespace Clocked

variable {P : Type*} [DecidableEq P] {procs : Processes P} {p : P} {id : String} {s s' : Clocked P}

variable (procs p id) in
/-- The process has the lease, for as long as its timer gave it. -/
def Kept (s : Clocked P) : Prop :=
  s.watched.file.Leased procs p id (s.renewed + procs.ttl p) ∧ s.renewed ≤ s.now

theorem Kept.step (h : s.Kept procs p id) {e : FileEvent P} (hok : InTime procs p id e s)
    (hs : Clocked.step procs p e s = some s') : s'.Kept procs p id := by
  obtain ⟨watched, hw, rfl⟩ := Option.map_eq_some_iff.mp hs
  obtain ⟨hleased, hnow⟩ := h
  obtain ⟨htime, halive, hends⟩ := hok
  have hfile := Watched.file_step hw
  cases e with
  | load q id' now alive =>
    obtain ⟨hlate, hearly⟩ := htime now rfl
    have hne : q ≠ p ∨ id' ≠ id := by simpa [FileEvent.endsLease, imp_iff_not_or] using hends
    exact ⟨hfile ▸ hleased.load hne hearly halive, hnow.trans hlate⟩
  | commitMany q id' changes now =>
    obtain ⟨hlate, -⟩ := htime now rfl
    have hout : s.renewed + procs.ttl p ≤ now + procs.ttl p := by
      have := hnow.trans hlate
      omega
    exact ⟨hfile ▸ hleased.commitMany hout changes, hnow.trans hlate⟩
  | replace q id' doc newEpoch now alive =>
    obtain ⟨hlate, hearly⟩ := htime now rfl
    exact ⟨hfile ▸ hleased.replace hearly halive doc newEpoch, hnow.trans hlate⟩
  | renewAll q now =>
    obtain ⟨hlate, -⟩ := htime now rfl
    by_cases hq : q = p
    · subst hq
      refine ⟨?_, by simp [FileEvent.time]⟩
      simpa [hfile, FileEvent.perform] using hleased.renewAll
    · refine ⟨?_, by simpa [hq, FileEvent.time] using hnow.trans hlate⟩
      simpa [hfile, hq, FileEvent.perform] using hleased.renewAll_ne hq
  | close q id' =>
    have hne : q ≠ p ∨ id' ≠ id := by simpa [FileEvent.endsLease, imp_iff_not_or] using hends
    exact ⟨hfile ▸ hleased.close (hne.imp Ne.symm Ne.symm), hnow⟩
  | closeAll q =>
    have hne : q ≠ p := by simpa [FileEvent.endsLease] using hends
    exact ⟨hfile ▸ hleased.closeAll hne, hnow⟩
  | remove id' =>
    have hne : id ≠ id' := by simpa [FileEvent.endsLease, eq_comm] using hends
    refine ⟨?_, hnow⟩
    rw [hfile]
    exact ⟨hleased.held, by simpa [FileEvent.perform, File.remove, hne] using hleased.lease⟩

/-- A process that has just taken a store's lease, and whose timer comes round before each `ttl` is over, can commit
for as long as it does not let go of the store, and no other process loads it. -/
theorem serves_what_it_renews {watched : Watched P} {t : ℤ} (hheld : id ∈ watched.file.held p)
    (hlease : watched.file.leases id = some (File.lease procs p t))
    (hs : Reaches (step procs p) (InTime procs p id) ⟨watched, t, t⟩ s) :
    (∀ changes now, (s.watched.file.commitMany procs p id changes now).2 = .ok ()) ∧
    ∀ q ≠ p, ∀ now < s.renewed + procs.ttl p, ∀ alive : ℕ → Bool, alive (procs.pid p) = true →
      ∃ err, (s.watched.file.load procs q id now alive).2 = .error err := by
  have hstart : Kept procs p id ⟨watched, t, t⟩ := ⟨⟨hheld, _, hlease, rfl, rfl, rfl, le_rfl⟩, le_rfl⟩
  obtain ⟨hleased, -⟩ : s.Kept procs p id := hs.invariant hstart fun _ _ _ h hok hstep => h.step hok hstep
  constructor
  · intro changes now
    by_cases hne : changes = []
    · simp [File.commitMany, hne]
    · obtain ⟨l, -, runsOut, -, hkept⟩ := File.commitMany_kept now hne hleased.holds
      rw [hkept]
  · intro q hq now hnow alive halive
    have hfresh : (s.watched.file.unpruned q id).Leased procs p id (s.renewed + procs.ttl p) :=
      ⟨hleased.held, hleased.lease⟩
    obtain ⟨err, herr⟩ := hfresh.acquire hq hnow halive
    refine ⟨err, ?_⟩
    rw [File.load, herr]

theorem serves_what_it_renews_first : ∃ s : Clocked Bool, s.renewed = 10000 ∧
    (∀ changes now, (s.watched.file.commitMany Watched.twoProcesses false "s" changes now).2 = .ok ()) ∧
    ∀ q ≠ false, ∀ now < s.renewed + 30000, ∀ alive : ℕ → Bool, alive 1 = true →
      ∃ err, (s.watched.file.load Watched.twoProcesses q "s" now alive).2 = .error err := by
  have hrenew : Reaches (step Watched.twoProcesses false) (InTime Watched.twoProcesses false "s") ⟨Watched.firstLoaded, 0, 0⟩
      ⟨{ Watched.firstLoaded with file := Watched.firstLoaded.file.renewAll Watched.twoProcesses false 10000 }, 10000,
        10000⟩ := by
    refine Reaches.start.next (.renewAll false 10000) ⟨?_, rfl, rfl⟩ rfl
    rintro now hnow
    obtain rfl : 10000 = now := Option.some.inj hnow
    decide
  exact ⟨_, rfl, serves_what_it_renews (Finset.mem_insert_self "s" ∅) Watched.firstLoaded_lease hrenew⟩

end Clocked

end LazyStorage.Server
