import LazyStorage.Core.Landing
import LazyStorage.Server.Turns
import LazyStorage.Server.Verdicts
import Mathlib.Data.List.Induction

/-! # What the commits tell

A storage holds what the commits it was given leave. Each commit of a chronicle
says what its changes made of the records: trusting them on the records stored
before gives the values of the records stored after. Its log entries number the
versions from the first, and the log that is stored is the end of them.
-/
namespace LazyStorage.Server

open Lib LazyStorage.Core

/-- The last so many of a list. -/
def lastOf {α : Type} (n : ℕ) (l : List α) : List α := l.drop (l.length - n)

theorem lastOf_concat {α : Type} {n : ℕ} (hn : 1 ≤ n) (l : List α) (a : α) :
    lastOf n (lastOf n l ++ [a]) = lastOf n (l ++ [a]) := by
  unfold lastOf
  rw [List.drop_append, List.drop_append, List.drop_drop]
  simp only [List.length_append, List.length_drop, List.length_singleton]
  have hzero : l.length - (l.length - n) + 1 - n - (l.length - (l.length - n)) = 0 := by omega
  have hzero' : l.length + 1 - n - l.length = 0 := by omega
  rw [hzero, hzero']
  congr 2
  omega

theorem length_lastOf {α : Type} (n : ℕ) (l : List α) : (lastOf n l).length = min n l.length := by
  simp only [lastOf, List.length_drop]
  omega

theorem lastOf_of_length_le {α : Type} {n : ℕ} {l : List α} (h : l.length ≤ n) : lastOf n l = l := by
  simp [lastOf, Nat.sub_eq_zero_of_le h]

theorem lastOf_lastOf {α : Type} {k n : ℕ} {l : List α} (h : k ≤ (lastOf n l).length) :
    lastOf k (lastOf n l) = lastOf k l := by
  rw [length_lastOf] at h
  unfold lastOf
  rw [List.drop_drop, List.length_drop]
  congr 1
  omega

theorem lastOf_append {α : Type} {k : ℕ} (l : List α) {more : List α} (h : k = more.length) :
    lastOf k (l ++ more) = more := by simp [lastOf, h]

variable {sh : Shape} {U : Type}

/-- The log's entries trusted in order, each at its time. -/
def replayLog : List LogEntry → Doc sh → Except ModelError (Doc sh)
  | [], d => .ok d
  | entry :: log, d => do
    let out ← applyAll entry.ts .trust entry.changes d
    replayLog log out.doc

theorem replayLog_append {log more : List LogEntry} {d mid : Doc sh}
    (h : replayLog log d = .ok mid) : replayLog (log ++ more) d = replayLog more mid := by
  induction log generalizing d with
  | nil =>
    cases h
    rfl
  | cons entry log ih =>
    simp only [replayLog, bind, Except.bind, List.cons_append] at h ⊢
    split at h
    · cases h
    · exact ih h

theorem replayLog_shows {log : List LogEntry} {d d' x : Doc sh} (hd : d.Shows d')
    (h : replayLog log d = .ok x) : ∃ x', replayLog log d' = .ok x' ∧ x.Shows x' := by
  induction log generalizing d d' with
  | nil =>
    cases h
    exact ⟨d', rfl, hd⟩
  | cons entry log ih =>
    simp only [replayLog, bind, Except.bind] at h
    split at h
    · cases h
    next out hout =>
    obtain ⟨out', hout', hend⟩ := trusted_shows hd hout
    obtain ⟨x', hx', hsame⟩ := ih hend h
    exact ⟨x', by simpa [replayLog, hout', bind, Except.bind] using hx', hsame⟩

/-- The floor of the end of a log keeps that end. -/
theorem filter_floor {log : List LogEntry} {start : ℕ}
    (h : log.map LogEntry.v = List.range' start log.length) {n : ℕ} (hn : n < log.length) (v : ℕ) :
    log.filter (((log.drop n).head?.map LogEntry.v).getD v ≤ ·.v) = log.drop n := by
  have hall : ∀ (log : List LogEntry) (start bound : ℕ),
      log.map LogEntry.v = List.range' start log.length → bound ≤ start →
      log.filter (bound ≤ ·.v) = log := by
    intro log start bound hlog hb
    refine List.filter_eq_self.mpr fun e he => decide_eq_true ?_
    have hv : e.v ∈ List.range' start log.length := hlog ▸ List.mem_map_of_mem he
    have := (List.mem_range'_1.mp hv).1
    omega
  induction log generalizing start n with
  | nil => simp at hn
  | cons e log ih =>
    simp only [List.map_cons, List.length_cons, List.range'_succ, List.cons.injEq] at h
    obtain ⟨hv, hrest⟩ := h
    cases n with
    | zero =>
      apply hall (e :: log) start
      · simp [hv, hrest, List.range'_succ]
      · simp [hv]
    | succ n =>
      have hn' : n < log.length := by simpa using hn
      rw [List.drop_succ_cons, List.filter_cons_of_neg, ih hrest hn']
      have hhead : log[n].v ∈ List.range' (start + 1) log.length :=
        hrest ▸ List.mem_map_of_mem (List.getElem_mem hn')
      have := (List.mem_range'_1.mp hhead).1
      simp only [List.head?_drop, List.getElem?_eq_getElem hn', Option.map_some, Option.getD_some,
        decide_eq_true_eq]
      omega

namespace Saved

/-- The rows a store is loaded from: the seeds, where nothing was ever stored. -/
def rows (sh : Shape) (commits : List Commit) : List (RecordKey × Entry) :=
  if commits.isEmpty then Store.seeds sh else (ofCommits commits).records.entries

/-- The doc a store is loaded with. -/
def docAt (sh : Shape) (commits : List Commit) : Doc sh := Doc.load sh (rows sh commits)

end Saved

/-- Every log entry there ever was. -/
def logged (commits : List Commit) : List LogEntry := commits.filterMap Commit.log

theorem logged_append (commits more : List Commit) :
    logged (commits ++ more) = logged commits ++ logged more := List.filterMap_append

@[simp] theorem logged_singleton (c : Commit) : logged [c] = c.log.toList := by
  cases h : c.log <;> simp [logged, h]

/-- What a commit adds to those before it. -/
structure Links (sh : Shape) (deltaLog : ℕ) (commits : List Commit) (c : Commit) : Prop where
  keyed : ∀ k, ((Saved.ofCommits (commits ++ [c])).records.get k).isSome = true → sh.keyed k = true
  version : c.version = (Saved.ofCommits commits).version + c.log.toList.length
  numbered : ∀ entry, c.log = some entry → entry.v = c.version
  log : (Saved.ofCommits (commits ++ [c])).log = lastOf deltaLog (logged (commits ++ [c]))
  shows : ∃ d : Doc sh, replayLog c.log.toList (Saved.docAt sh commits) = .ok d ∧
    d.Shows (Saved.docAt sh (commits ++ [c]))
  lands : ∀ entry, c.log = some entry → Lands entry.ts entry.changes (Saved.docAt sh commits)

/-- The commits of a store's life, each on those before it. -/
inductive Chronicle (sh : Shape) (deltaLog : ℕ) : List Commit → Prop
  | nil : Chronicle sh deltaLog []
  | snoc {commits : List Commit} {c : Commit} : Chronicle sh deltaLog commits →
      Links sh deltaLog commits c → Chronicle sh deltaLog (commits ++ [c])

namespace Chronicle

variable {deltaLog : ℕ} {commits pre rest : List Commit}

theorem of_prefix (h : Chronicle sh deltaLog commits) (hp : pre <+: commits) : Chronicle sh deltaLog pre := by
  induction h with
  | nil =>
    rw [List.prefix_nil.mp hp]
    exact .nil
  | snoc h hlink ih =>
    rcases List.prefix_concat_iff.mp hp with rfl | hp
    · exact .snoc h hlink
    · exact ih hp

theorem keyed (h : Chronicle sh deltaLog commits) (k : RecordKey)
    (hk : ((Saved.ofCommits commits).records.get k).isSome = true) : sh.keyed k = true := by
  cases h with
  | nil => simp [Saved.ofCommits, Saved.empty] at hk
  | snoc _ hlink => exact hlink.keyed k hk

theorem log (h : Chronicle sh deltaLog commits) :
    (Saved.ofCommits commits).log = lastOf deltaLog (logged commits) := by
  cases h with
  | nil => simp [Saved.ofCommits, Saved.empty, logged, lastOf]
  | snoc _ hlink => exact hlink.log

theorem version_concat (commits : List Commit) (c : Commit) :
    (Saved.ofCommits (commits ++ [c])).version = c.version := by
  rw [Saved.ofCommits_append]
  rfl

/-- The log numbers every version, from the first. -/
theorem versions (h : Chronicle sh deltaLog commits) :
    (logged commits).map LogEntry.v = List.range' 1 (Saved.ofCommits commits).version := by
  induction h with
  | nil => rfl
  | @snoc commits c h hlink ih =>
    rw [version_concat, hlink.version, logged_append, logged_singleton, List.map_append, ih]
    cases hlog : c.log with
    | none => simp
    | some entry =>
      have hv := (hlink.numbered entry hlog).trans hlink.version
      simp only [hlog, Option.toList_some, List.length_singleton] at hv
      rw [Option.toList_some, List.length_singleton, List.range'_concat]
      simp [hv, Nat.add_comm]

theorem length_logged (h : Chronicle sh deltaLog commits) :
    (logged commits).length = (Saved.ofCommits commits).version := by
  simpa using congrArg List.length h.versions

/-- From what was stored once, the entries logged since give what is stored now. -/
theorem replays (h : Chronicle sh deltaLog (pre ++ rest)) :
    ∃ d : Doc sh, replayLog (logged rest) (Saved.docAt sh pre) = .ok d ∧
      d.Shows (Saved.docAt sh (pre ++ rest)) := by
  induction rest using List.reverseRecOn with
  | nil =>
    rw [List.append_nil]
    exact ⟨_, rfl, Doc.shows_iff.mpr fun _ => rfl⟩
  | append_singleton rest c ih =>
    rw [← List.append_assoc] at h ⊢
    generalize hall : pre ++ rest ++ [c] = all at h
    cases h with
    | nil => simp at hall
    | @snoc commits c' h hlink =>
      obtain ⟨rfl, rfl⟩ := List.append_inj' hall rfl |>.imp id List.singleton_inj.mp
      obtain ⟨mid, hmid, hsame⟩ := ih h
      obtain ⟨d, hd, hend⟩ := hlink.shows
      obtain ⟨x, hx, hshow⟩ := replayLog_shows (Doc.shows_iff.mpr fun k =>
        (Doc.shows_iff.mp hsame k).symm) hd
      refine ⟨x, ?_, Doc.shows_iff.mpr fun k => ?_⟩
      · rw [logged_append, logged_singleton, replayLog_append hmid, hx]
      · exact ((Doc.shows_iff.mp hshow k).symm).trans (Doc.shows_iff.mp hend k)

end Chronicle

end LazyStorage.Server
