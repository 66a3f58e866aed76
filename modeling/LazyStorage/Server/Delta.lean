import LazyStorage.Server.Served
import LazyStorage.Server.Session

/-! # What a session missed

The log is the end of what was ever entered, numbered up to the version. A hello
that says a version the log reaches back to is answered with the entries since,
any other with a snapshot.
-/
namespace LazyStorage.Server

open Lib LazyStorage.Core

variable {sh : Shape} {U : Type} {opts : Options sh U}

/-- The entries after a version, of a log that numbers each in turn. -/
theorem dropWhile_numbered {log : List LogEntry} {start : ℕ}
    (h : log.map LogEntry.v = List.range' start log.length) (n : ℕ) :
    log.dropWhile (·.v ≤ n) = log.drop (n + 1 - start) := by
  induction log generalizing start with
  | nil => simp
  | cons entry log ih =>
    simp only [List.map_cons, List.length_cons, List.range'_succ, List.cons.injEq] at h
    obtain ⟨hv, hrest⟩ := h
    rw [List.dropWhile_cons]
    by_cases hle : entry.v ≤ n
    · have hsucc : n + 1 - start = (n + 1 - (start + 1)) + 1 := by omega
      rw [if_pos (decide_eq_true hle), ih hrest, hsucc, List.drop_succ_cons]
    · have hzero : n + 1 - start = 0 := by omega
      rw [if_neg (by simpa using hle), hzero, List.drop_zero]

namespace Store

variable {st : Store sh}

/-- The delta since a version: the last entries of the log, as many as there are versions since. -/
theorem deltaSince_eq (h : st.log.map LogEntry.v =
    List.range' (st.version + 1 - st.log.length) st.log.length) (hlen : st.log.length ≤ st.version)
    (n : ℕ) : st.deltaSince n =
      if n ≤ st.version ∧ st.version ≤ n + st.log.length then some (lastOf (st.version - n) st.log)
      else none := by
  unfold deltaSince
  by_cases hahead : st.version < n
  · rw [if_pos hahead, if_neg (by omega)]
  by_cases heq : n = st.version
  · subst heq
    simp [lastOf]
  rw [if_neg hahead, if_neg heq, dropWhile_numbered h]
  have hnumbers : (st.log.drop (n + 1 - (st.version + 1 - st.log.length))).map LogEntry.v =
      List.range' (max (n + 1) (st.version + 1 - st.log.length))
        (st.log.length - (n + 1 - (st.version + 1 - st.log.length))) := by
    rw [List.map_drop, h, List.drop_range']
    congr 1
    omega
  have hlast : n + st.log.length < st.version ∨ st.log.length - (st.version - n) =
      n + 1 - (st.version + 1 - st.log.length) := by omega
  unfold lastOf
  split
  · next hnone =>
    have hempty := List.drop_eq_nil_iff.mp hnone
    rw [if_neg (by omega)]
  · next entry rest hsome =>
    have hv : entry.v = max (n + 1) (st.version + 1 - st.log.length) := by
      rw [hsome] at hnumbers
      have hpos : st.log.length - (n + 1 - (st.version + 1 - st.log.length)) ≠ 0 := by
        intro hzero
        rw [hzero] at hnumbers
        cases hnumbers
      obtain ⟨m, hm⟩ := Nat.exists_eq_succ_of_ne_zero hpos
      rw [hm, List.range'_succ, List.map_cons, List.cons.injEq] at hnumbers
      exact hnumbers.1
    by_cases hreach : st.version ≤ n + st.log.length
    · rw [if_pos (by omega), if_pos (by omega), hlast.resolve_left (by omega), hsome]
    · rw [if_neg (by omega), if_neg (by omega)]

/-- Where a session stood once, what the log entered since brings it here. -/
theorem replays_since {past : Store sh} {exact : Prop} (hpast : past.Told opts exact)
    (h : st.Told opts exact) (hlife : past.commits <+: st.commits)
    (hreach : st.version ≤ past.version + st.log.length) {d : Doc sh} (hd : d.Shows past.doc) :
    ∃ d', replayLog (lastOf (st.version - past.version) st.log) d = .ok d' ∧ d'.Shows st.doc := by
  obtain ⟨rest, hrest⟩ := hlife
  have hchronicle := h.tells.chronicle
  rw [← hrest] at hchronicle
  obtain ⟨x, hx, hend⟩ := hchronicle.replays
  have hversion := hpast.tells.chronicle.length_logged
  have hlog := h.tells.chronicle.log
  rw [hpast.tells.version] at hversion
  rw [h.tells.log] at hlog
  have hlen : (logged st.commits).length = st.version :=
    h.tells.chronicle.length_logged.trans h.tells.version
  have hall : logged st.commits = logged past.commits ++ logged rest := by
    rw [← hrest, logged_append]
  have hcount : st.version = past.version + (logged rest).length := by
    rw [← hlen, hall, List.length_append, hversion]
  have hmissed : lastOf (st.version - past.version) st.log = logged rest := by
    rw [hlog, lastOf_lastOf (by rw [← hlog]; omega), hall, lastOf_append _ (by omega)]
  have hstored : d.Shows (Saved.docAt sh past.commits) :=
    Doc.shows_iff.mpr fun k => by
      rw [Doc.shows_iff.mp hd k]
      simp [Doc.get, hpast.tells.records k]
  obtain ⟨d', hd', hsame⟩ := replayLog_shows (Doc.shows_iff.mpr fun k =>
    (Doc.shows_iff.mp hstored k).symm) hx
  refine ⟨d', by rw [hmissed, hd'], Doc.shows_iff.mpr fun k => ?_⟩
  rw [← Doc.shows_iff.mp hsame k, Doc.shows_iff.mp hend k, hrest]
  simp [Doc.get, h.tells.records k]

theorem Told.numbered {exact : Prop} (h : st.Told opts exact) :
    st.log.map LogEntry.v = List.range' (st.version + 1 - st.log.length) st.log.length ∧
      st.log.length ≤ st.version := by
  have hlog := h.tells.chronicle.log
  have hnumbers := h.tells.chronicle.versions
  rw [h.tells.log] at hlog
  rw [h.tells.version] at hnumbers
  have hlen : (logged st.commits).length = st.version := by simpa using congrArg List.length hnumbers
  have hshort : st.log.length = min opts.deltaLog st.version := by rw [hlog, length_lastOf, hlen]
  refine ⟨?_, by omega⟩
  rw [hshort, hlog, lastOf, List.map_drop, hnumbers, hlen, List.drop_range']
  congr 1 <;> omega

end Store

/-- Every hello is answered with the entries logged since the version it says, where that is one of
this life the log reaches back to: they bring a doc that shows what the store held at that version to
what it holds now. Any other is answered with a snapshot. -/
theorem delta_is_what_was_missed (hn : 1 ≤ opts.deltaLog) {known wall : ℕ} {epoch : String}
    {past h : Host sh}
    (hpast : Reaches (Host.step opts) (fun e h => ∀ w, e = .own w → w.makesNothing h.store.doc = true)
      (Host.create opts known epoch wall) past)
    (hr : Reaches (Host.step opts) (fun e h => ∀ w, e = .own w → w.makesNothing h.store.doc = true)
      (Host.create opts known epoch wall) h)
    (hlife : past.store.commits <+: h.store.commits) (now : ℕ) (replica : String) (clocks : Bool)
    (since : Option (ℕ × String)) (lost : List (ℕ × List Lost)) :
    (∃ n ops, since = some (n, h.store.epoch) ∧ n ≤ h.store.version ∧
        h.store.version ≤ n + h.store.log.length ∧
        h.store.catchUp now replica clocks since lost = .delta ops (h.store.seqOf replica)
          h.store.version h.store.epoch (h.store.clock.time now) lost ∧
        (n = past.store.version → ∀ d : Doc sh, d.Shows past.store.doc →
          ∃ d', replayLog ops d = .ok d' ∧ d'.Shows h.store.doc)) ∨
      ((∀ n, since = some (n, h.store.epoch) → h.store.version < n ∨
        n + h.store.log.length < h.store.version) ∧
        h.store.catchUp now replica clocks since lost = .snapshot (h.store.snapshotRecords clocks)
          (h.store.seqOf replica) h.store.version h.store.epoch (h.store.clock.time now) lost) := by
  have htold : ∀ {h : Host sh}, Reaches (Host.step opts)
      (fun e h => ∀ w, e = .own w → w.makesNothing h.store.doc = true)
      (Host.create opts known epoch wall) h → h.store.Told opts False := fun hr =>
    (keeps_told hn False).reached (fun w h hcond => hcond w rfl) (fun _ _ _ _ => False.elim)
      (.load .nil known epoch wall) hr
  obtain ⟨hnumbers, hlen⟩ := (htold hr).numbered
  unfold Store.catchUp
  cases since with
  | none => exact .inr ⟨fun n hn => (nomatch hn), rfl⟩
  | some said =>
    obtain ⟨n, e⟩ := said
    by_cases he : e = h.store.epoch
    · subst he
      dsimp only
      rw [if_pos rfl, Store.deltaSince_eq hnumbers hlen]
      by_cases hreach : n ≤ h.store.version ∧ h.store.version ≤ n + h.store.log.length
      · left
        refine ⟨n, _, rfl, hreach.1, hreach.2, by rw [if_pos hreach], ?_⟩
        rintro rfl d hd
        exact Store.replays_since (htold hpast) (htold hr) hlife hreach.2 hd
      · right
        refine ⟨fun m hm => ?_, by rw [if_neg hreach]⟩
        cases hm
        omega
    · right
      refine ⟨fun m hm => ?_, by simp [he]⟩
      cases hm
      exact absurd rfl he

/-- The server makes a task whose field holds a number. -/
def numbered : OwnWrite := .patch [("tasks", .obj [("t1", .obj [("a", .num 5)])])]

/-- The server deletes a field inside the number, and the number becomes an empty container: no entry
says so, and a session that has the task as it was is told it missed nothing. -/
theorem unsaid_container_missed :
    let opts := ruled .allow
    ∃ past h : Host board,
      Reaches (Host.step opts) (fun _ _ => True) (Host.create opts 0 "e" 5) past ∧
      Reaches (Host.step opts) (fun _ _ => True) past h ∧ past.store.commits <+: h.store.commits ∧
      h.store.catchUp 9 "c" false (some (past.store.version, past.store.epoch)) [] =
        .delta [] 0 1 "e" 9 [] ∧
      replayLog [] past.store.doc = .ok past.store.doc ∧
      past.store.doc.get ("tasks", some "t1") ≠ h.store.doc.get ("tasks", some "t1") := by
  intro opts
  have hpast : Reaches (Host.step opts) (fun _ _ => True) (Host.create opts 0 "e" 5) _ :=
    .next (.own numbered) .start trivial rfl
  refine ⟨_, _, hpast, .next (.own (.del "tasks" (some "t1") ["a", "b"])) .start trivial rfl,
    ⟨[], rfl⟩, rfl, rfl, by decide +kernel⟩

/-- A task made and a field of it deleted: a session that has the task as it was made is told of the
deletion. -/
theorem delta_is_what_was_missed_on_board :
    ∃ past h : Host board, past.store.version = 1 ∧ h.store.version = 2 ∧
      ∃ n ops, some (1, "e") = some (n, h.store.epoch) ∧ n ≤ h.store.version ∧
        h.store.version ≤ n + h.store.log.length ∧
        h.store.catchUp 9 "c" false (some (1, "e")) [] = .delta ops (h.store.seqOf "c")
          h.store.version h.store.epoch (h.store.clock.time 9) [] ∧
        (n = past.store.version → ∀ d : Doc board, d.Shows past.store.doc →
          ∃ d', replayLog ops d = .ok d' ∧ d'.Shows h.store.doc) := by
  have hpast : Reaches (Host.step (ruled .allow))
      (fun e h => ∀ w, e = .own w → w.makesNothing h.store.doc = true)
      (Host.create (ruled .allow) 0 "e" 5) _ :=
    .next (.own numbered) .start (fun w hw => by cases hw; rfl) rfl
  have hr := Reaches.next (.own (.del "tasks" (some "t1") ["a"])) hpast
    (fun w hw => by cases hw; decide +kernel) rfl
  refine ⟨_, _, ?_, ?_, (delta_is_what_was_missed (by decide) hpast hr ⟨_, rfl⟩ 9 "c" false
    (some (1, "e")) []).resolve_right fun hfar => ?_⟩
  · rfl
  · rfl
  · have hreach := hfar.1 1 rfl
    revert hreach
    decide +kernel

end LazyStorage.Server
