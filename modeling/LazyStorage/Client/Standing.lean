import LazyStorage.Client.Acknowledged
import LazyStorage.Server.Entered
import LazyStorage.Server.Replayed

/-! # Where a base stands

A base stands at a version when it holds, at each place, what the store held then.
The entries logged since bring it on to any later version, and entries it has
already leave it where it is, if they are such as may be trusted twice.
-/
namespace LazyStorage.Server

open Lib LazyStorage.Core

variable {sh : Shape} {deltaLog : ℕ} {commits pre : List Commit} {n w : ℕ} {d : Doc sh}

/-- What the store that made the commits held at a version. -/
def StoodAt (commits : List Commit) (n : ℕ) (d : Doc sh) : Prop :=
  ∃ pre, pre <+: commits ∧ (Saved.ofCommits pre).version = n ∧ (Saved.docAt sh pre).Equals d

theorem StoodAt.more (h : StoodAt commits n d) (new : List Commit) : StoodAt (commits ++ new) n d := by
  obtain ⟨pre, hpre, hrest⟩ := h
  exact ⟨pre, hpre.trans (List.prefix_append _ _), hrest⟩

/-- The entries that took a store from one version to another. -/
def entriesFrom (commits : List Commit) (n w : ℕ) : List LogEntry := ((logged commits).drop n).take (w - n)

theorem entriesFrom_more (new : List Commit) (h : w ≤ (logged commits).length) :
    entriesFrom (commits ++ new) n w = entriesFrom commits n w := by
  unfold entriesFrom
  rw [logged_append]
  by_cases hn : n ≤ w
  · rw [List.drop_append_of_le_length (hn.trans h), List.take_append_of_le_length]
    rw [List.length_drop]
    omega
  · rw [Nat.sub_eq_zero_of_le (by omega), List.take_zero, List.take_zero]

namespace Chronicle

theorem version_mono (h : Chronicle sh deltaLog commits) (hpre : pre <+: commits) :
    (Saved.ofCommits pre).version ≤ (Saved.ofCommits commits).version := by
  obtain ⟨rest, rfl⟩ := hpre
  rw [← (h.of_prefix (List.prefix_append _ _)).length_logged, ← h.length_logged, logged_append, List.length_append]
  omega

/-- Each version between was the store's once. -/
theorem exists_version (h : Chronicle sh deltaLog commits) (hpre : pre <+: commits)
    (hn : (Saved.ofCommits pre).version ≤ w) (hw : w ≤ (Saved.ofCommits commits).version) :
    ∃ mid, pre <+: mid ∧ mid <+: commits ∧ (Saved.ofCommits mid).version = w := by
  induction h with
  | nil =>
    obtain rfl := List.prefix_nil.mp hpre
    exact ⟨[], List.prefix_rfl, List.prefix_rfl, by omega⟩
  | @snoc commits c h hlink ih =>
    rcases List.prefix_concat_iff.mp hpre with rfl | hpre
    · exact ⟨_, List.prefix_rfl, List.prefix_rfl, by omega⟩
    by_cases hle : w ≤ (Saved.ofCommits commits).version
    · obtain ⟨mid, hmid, hlast, hversion⟩ := ih hpre hle
      exact ⟨mid, hmid, hlast.trans (List.prefix_append _ _), hversion⟩
    · refine ⟨_, hpre.trans (List.prefix_append _ _), List.prefix_rfl, ?_⟩
      have hstep : c.log.toList.length ≤ 1 := by cases c.log <;> simp
      rw [version_concat, hlink.version] at hw ⊢
      omega

/-- What was logged between two moments of the store's life. -/
theorem entries_between {mid : List Commit} (h : Chronicle sh deltaLog commits) {rest : List Commit}
    (hmid : pre ++ rest = mid) (hlast : mid <+: commits) :
    entriesFrom commits (Saved.ofCommits pre).version (Saved.ofCommits mid).version = logged rest := by
  obtain ⟨more, rfl⟩ := hlast
  subst hmid
  have hchronicle := h.of_prefix (List.prefix_append (pre ++ rest) more)
  rw [← hchronicle.length_logged, ← (hchronicle.of_prefix (List.prefix_append pre rest)).length_logged, entriesFrom,
    logged_append (pre ++ rest) more, logged_append pre rest, List.append_assoc, List.drop_left, List.length_append,
    Nat.add_sub_cancel_left, List.take_left]

end Chronicle

theorem StoodAt.le (h : StoodAt commits n d) (hchronicle : Chronicle sh deltaLog commits) :
    n ≤ (Saved.ofCommits commits).version := by
  obtain ⟨pre, hpre, rfl, -⟩ := h
  exact hchronicle.version_mono hpre

/-- The entries since bring it on. -/
theorem StoodAt.replay (h : StoodAt commits n d) (hchronicle : Chronicle sh deltaLog commits) (hn : n ≤ w)
    (hw : w ≤ (Saved.ofCommits commits).version) :
    ∃ d', replayLog (entriesFrom commits n w) d = .ok d' ∧ StoodAt commits w d' := by
  obtain ⟨pre, hpre, rfl, hd⟩ := h
  obtain ⟨mid, ⟨rest, hmid⟩, hlast, rfl⟩ := hchronicle.exists_version hpre hn hw
  rw [hchronicle.entries_between hmid hlast]
  have hlife := hchronicle.of_prefix hlast
  rw [← hmid] at hlife
  obtain ⟨x, hx, hshows⟩ := hlife.replays
  obtain ⟨x', hx', hend⟩ := replayLog_equals hlife.lands hd hx
  refine ⟨x', hx', mid, hlast, rfl, fun key => ?_⟩
  rw [← hmid]
  exact (Doc.Equals.of_shows hshows key).symm.trans (hend key)

theorem repeatableLog_append {log more : List LogEntry} {mid : Doc sh} (h : repeatableLog (log ++ more) d = true)
    (hlog : replayLog log d = .ok mid) : repeatableLog more mid = true := by
  induction log generalizing d with
  | nil =>
    cases hlog
    exact h
  | cons entry log ih =>
    obtain ⟨out, hout, hlog⟩ := of_replayLog_cons hlog
    simp only [List.cons_append, repeatableLog, hout, Bool.and_eq_true] at h
    exact ih h.2 hlog

theorem repeatableLog_left {log more : List LogEntry} (h : repeatableLog (log ++ more) d = true) :
    repeatableLog log d = true := by
  induction log generalizing d with
  | nil => rfl
  | cons entry log ih =>
    simp only [List.cons_append, repeatableLog, Bool.and_eq_true] at h ⊢
    refine ⟨h.1, ?_⟩
    have hrest := h.2
    split at hrest
    · exact ih hrest
    · rfl

/-- Entries it has leave it where it stands. -/
theorem StoodAt.again (h : StoodAt commits w d) (hchronicle : Chronicle sh deltaLog commits) (hn : n ≤ w)
    (hrepeat : repeatableLog (logged commits) (Saved.docAt sh []) = true) :
    ∃ d', replayLog (entriesFrom commits n w) d = .ok d' ∧ StoodAt commits w d' := by
  obtain ⟨mid, hmid, rfl, hd⟩ := h
  have hlife := hchronicle.of_prefix hmid
  obtain ⟨pre, -, ⟨rest, hrest⟩, rfl⟩ := hlife.exists_version List.nil_prefix (Nat.zero_le n) hn
  rw [hchronicle.entries_between hrest hmid]
  rw [← hrest] at hlife
  obtain ⟨x, hx, hshows⟩ := (hlife.of_prefix (List.prefix_append pre rest) : Chronicle sh deltaLog ([] ++ pre)).replays
  obtain ⟨y, hy, hshows'⟩ := hlife.replays
  obtain ⟨z, hz, hsame⟩ := replayLog_shows (Doc.shows_iff.mpr fun k => (Doc.shows_iff.mp hshows k).symm) hy
  have hlands : LandsLog (logged rest) x :=
    hlife.lands.of_shows (Doc.shows_iff.mpr fun k => (Doc.shows_iff.mp hshows k).symm)
  obtain ⟨more, rfl⟩ := hmid
  rw [← hrest, logged_append, logged_append, List.append_assoc] at hrepeat
  have hrepeats := repeatableLog_left (repeatableLog_append hrepeat hx)
  have hz' : z.Equals d := fun key => by
    rw [← Doc.Equals.of_shows hsame key, Doc.Equals.of_shows hshows' key]
    rw [hrest]
    exact hd key
  obtain ⟨x', hx', hend⟩ := replayLog_again hlands hrepeats hz hz'
  exact ⟨x', hx', mid, List.prefix_append _ _, rfl, fun key => (hd key).trans ((hz' key).symm.trans (hend key))⟩

/-! ## What a hello is answered with -/

section Answer

variable {U : Type} {opts : Options sh U} {st : Store sh} {exact : Prop}

namespace Store

theorem Told.length_logged (h : st.Told opts exact) : (logged st.commits).length = st.version :=
  h.tells.chronicle.length_logged.trans h.tells.version

/-- A delta is what was logged since. -/
theorem Told.deltaSince_entries (h : st.Told opts exact) {n : ℕ} {ops : List LogEntry}
    (hops : st.deltaSince n = some ops) : n ≤ st.version ∧ ops = entriesFrom st.commits n st.version := by
  obtain ⟨hnumbers, hlen⟩ := h.numbered
  rw [deltaSince_eq hnumbers hlen] at hops
  split_ifs at hops with hreach
  have hlogged := h.length_logged
  have hlog : st.log = lastOf opts.deltaLog (logged st.commits) := by rw [← h.tells.log, h.tells.chronicle.log]
  refine ⟨hreach.1, ?_⟩
  rw [← Option.some.inj hops, hlog, lastOf_lastOf (by rw [← hlog]; omega), entriesFrom, lastOf, hlogged,
    List.take_of_length_le (by rw [List.length_drop]; omega)]
  congr 1
  omega

/-- A snapshot stands where the store is. -/
theorem Told.stood_snapshot (h : st.Told opts exact) (clocks : Bool) :
    StoodAt st.commits st.version (Doc.load sh ((st.snapshotRecords clocks).filter fun r => sh.has r.1.1)) := by
  have hkeyed : ∀ r ∈ st.snapshotRecords clocks, sh.keyed r.1 = true := by
    rintro r hr
    obtain ⟨e, he, rfl⟩ := List.mem_map.mp hr
    exact h.shaped e.1 (by simp [OrderedMap.mem_entries.mp he])
  have hall : (st.snapshotRecords clocks).filter (fun r => sh.has r.1.1) = st.snapshotRecords clocks := by
    refine List.filter_eq_self.mpr fun r hr => ?_
    have hkey := hkeyed r hr
    unfold Shape.keyed at hkey
    unfold Shape.has
    revert hkey
    cases sh.isCollection r.1.1 <;> cases sh.isSingleton r.1.1 <;> simp
  let shown := st.doc.records.mapVal fun _ e => if clocks then e else ⟨e.data, .new⟩
  refine ⟨st.commits, List.prefix_rfl, h.tells.version, Doc.Equals.of_shows (Doc.shows_iff.mpr fun k => ?_)⟩
  have hentries : st.snapshotRecords clocks = shown.entries := rfl
  have hloaded : (Doc.load sh (st.snapshotRecords clocks)).get k = (shown.get k).map Entry.data := by
    rw [Doc.get, Doc.records_load _ hkeyed, hentries, OrderedMap.get_foldl_set shown.nodup, OrderedMap.get_empty,
      Option.or_none]
    change ((shown.get k).or _).map _ = _
    cases hget : shown.get k with
    | some e => rfl
    | none =>
      rw [OrderedMap.get_mapVal, Option.map_eq_none_iff] at hget
      unfold Doc.unset
      rw [Option.none_or, if_neg]
      rintro hs
      obtain ⟨hs, hid⟩ := Bool.and_eq_true_iff.mp hs
      have hthere := h.sound.full k.1 hs
      rw [← Option.isNone_iff_eq_none.mp hid, hget] at hthere
      cases hthere
  rw [hall, hloaded, OrderedMap.get_mapVal, Doc.get, h.tells.records, Option.map_map]
  cases clocks <;> rfl

end Store

end Answer

end LazyStorage.Server

namespace LazyStorage.Client

open Lib LazyStorage.Core LazyStorage.Server

variable {sh : Shape} {U : Type}

/-! ## What a client makes of entries -/

theorem foldl_apply {ts : ℕ} {changes : List Change} {base : Doc sh} {out : Outcome sh}
    (h : applyAll ts .trust changes base = .ok out) :
    changes.foldl (fun base ch => match apply ts .trust ch base with
      | .ok out => out.doc
      | .error _ => base) base = out.doc := by
  induction changes generalizing base out with
  | nil =>
    cases h
    rfl
  | cons change changes ih =>
    obtain ⟨o, more, ho, hmore, rfl⟩ := of_applyAll_cons h
    rw [List.foldl_cons, ho]
    have hrest := ih hmore
    exact hrest

theorem base_intoBase {c : Mirror sh} {entry : LogEntry} (hknown : entry.Known sh) {out : Outcome sh}
    (h : applyAll entry.ts .trust entry.changes c.base = .ok out) :
    (c.intoBase entry.changes entry.ts).base = out.doc := by
  have hall : entry.changes.filter (fun ch => sh.has ch.c) = entry.changes :=
    List.filter_eq_self.mpr fun ch hch => (hknown ch hch).1
  unfold Mirror.intoBase
  dsimp only
  rw [hall]
  exact foldl_apply h

theorem base_entries {ops : List LogEntry} {c : Mirror sh} {d : Doc sh} (hknown : ∀ entry ∈ ops, entry.Known sh)
    (h : replayLog ops c.base = .ok d) :
    (ops.foldl (fun c entry => c.intoBase entry.changes entry.ts) c).base = d := by
  induction ops generalizing c with
  | nil =>
    cases h
    rfl
  | cons entry ops ih =>
    obtain ⟨out, hout, h⟩ := of_replayLog_cons h
    refine ih (fun e he => hknown e (List.mem_cons_of_mem _ he)) ?_
    rwa [base_intoBase (hknown entry List.mem_cons_self) hout]

end LazyStorage.Client
