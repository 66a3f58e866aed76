import LazyStorage.Core.Trusted
import LazyStorage.Server.Delta

/-! # Entries had already

A relay's saved copy may hold records newer than its version, and a fetched
snapshot patches that come after it. The entries of the log are then trusted on a
doc that has some of them already.
-/
namespace LazyStorage.Server

open Lib LazyStorage.Core

variable {sh : Shape} {U : Type} {opts : Options sh U} {key : RecordKey}
  {log more : List LogEntry} {d d' mid : Doc sh}

/-- The changes of each entry find their parents, trusted in their turn. -/
def LandsLog : List LogEntry → Doc sh → Prop
  | [], _ => True
  | entry :: log, d => Lands entry.ts entry.changes d ∧
      ∀ out, applyAll entry.ts .trust entry.changes d = .ok out → LandsLog log out.doc

/-- Whether the changes of each entry are stored as they are merged and write inside no array, trusted
in their turn. -/
def repeatableLog : List LogEntry → Doc sh → Bool
  | [], _ => true
  | entry :: log, d =>
    repeatable entry.ts entry.changes d &&
      match applyAll entry.ts .trust entry.changes d with
      | .ok out => repeatableLog log out.doc
      | .error _ => true

theorem of_replayLog_cons {entry : LogEntry} (h : replayLog (entry :: log) d = .ok d') :
    ∃ out, applyAll entry.ts .trust entry.changes d = .ok out ∧ replayLog log out.doc = .ok d' := by
  simp only [replayLog, bind, Except.bind] at h
  split at h
  · cases h
  next out hout => exact ⟨out, hout, h⟩

theorem replayLog_cons {entry : LogEntry} {out : Outcome sh}
    (hout : applyAll entry.ts .trust entry.changes d = .ok out) :
    replayLog (entry :: log) d = replayLog log out.doc := by
  simp only [replayLog, hout, bind, Except.bind]

namespace LandsLog

theorem of_shows (h : LandsLog log d) (hd : d.Shows d') : LandsLog log d' := by
  induction log generalizing d d' with
  | nil => trivial
  | cons entry log ih =>
    refine ⟨h.1.of_shows hd, fun out' hout' => ?_⟩
    have hback : d'.Shows d := Doc.shows_iff.mpr fun k => (Doc.shows_iff.mp hd k).symm
    obtain ⟨out, hout, hend⟩ := trusted_shows hback hout'
    refine ih (h.2 out hout) (Doc.shows_iff.mpr fun k => ?_)
    exact (Doc.shows_iff.mp hend k).symm

theorem append (h : LandsLog log d) (hlog : replayLog log d = .ok mid) (hmore : LandsLog more mid) :
    LandsLog (log ++ more) d := by
  induction log generalizing d with
  | nil =>
    cases hlog
    exact hmore
  | cons entry log ih =>
    obtain ⟨out, hout, hlog⟩ := of_replayLog_cons hlog
    refine ⟨h.1, fun o ho => ?_⟩
    rw [hout] at ho
    cases ho
    exact ih (h.2 out hout) hlog

end LandsLog

/-- What was logged since found its parents. -/
theorem Chronicle.lands {deltaLog : ℕ} {pre rest : List Commit}
    (h : Chronicle sh deltaLog (pre ++ rest)) : LandsLog (logged rest) (Saved.docAt sh pre) := by
  induction rest using List.reverseRecOn with
  | nil => trivial
  | append_singleton rest c ih =>
    rw [← List.append_assoc] at h
    generalize hall : pre ++ rest ++ [c] = all at h
    cases h with
    | nil => simp at hall
    | @snoc commits c' h hlink =>
      obtain ⟨rfl, rfl⟩ := List.append_inj' hall rfl |>.imp id List.singleton_inj.mp
      obtain ⟨mid, hmid, hsame⟩ := h.replays
      rw [logged_append, logged_singleton]
      refine (ih h).append hmid ?_
      have hback : (Saved.docAt sh (pre ++ rest)).Shows mid :=
        Doc.shows_iff.mpr fun k => (Doc.shows_iff.mp hsame k).symm
      cases hlog : c.log with
      | none => trivial
      | some entry => exact ⟨(hlink.lands entry hlog).of_shows hback, fun _ _ => trivial⟩

/-- What an entry of the log writes of a record. -/
def LogEntry.overwrites (sh : Shape) (key : RecordKey) (entry : LogEntry) :
    List (Overwrite String Leaf) := entry.changes.flatMap (·.overwrites sh key)

/-- What the entries of a log write of a record. -/
theorem replayLog_trust (hlands : LandsLog log d) (hrepeat : repeatableLog log d = true)
    (h : replayLog log d = .ok d') :
    Overwrite.FindAll (log.flatMap (·.overwrites sh key)) (d.spots key) ∧
      ∀ x : Doc sh, ∃ x', replayLog log x = .ok x' ∧
        x'.spots key = Overwrite.runAll (log.flatMap (·.overwrites sh key)) (x.spots key) := by
  induction log generalizing d with
  | nil => exact ⟨trivial, fun x => ⟨x, rfl, rfl⟩⟩
  | cons entry log ih =>
    obtain ⟨out, hout, h⟩ := of_replayLog_cons h
    simp only [repeatableLog, hout, Bool.and_eq_true] at hrepeat
    obtain ⟨hfind, hone⟩ := @applyAll_trust sh key _ _ _ _ hlands.1 hrepeat.1 hout
    obtain ⟨hrest, hall⟩ := ih (hlands.2 out hout) hrepeat.2 h
    obtain ⟨o, ho, hspots⟩ := hone entry.ts d
    rw [hout] at ho
    cases ho
    rw [List.flatMap_cons]
    refine ⟨?_, fun x => ?_⟩
    · rw [Overwrite.findAll_append]
      refine ⟨hfind, ?_⟩
      rw [hspots] at hrest
      exact hrest
    · obtain ⟨o, ho, hx⟩ := hone entry.ts x
      obtain ⟨x', hx', hend⟩ := hall o.doc
      refine ⟨x', (replayLog_cons ho).trans hx', ?_⟩
      rw [Overwrite.runAll_append, hend, hx]
      rfl

/-- Docs that hold the same at each place do so after each entry. -/
theorem replayLog_equals {x : Doc sh} (hlands : LandsLog log d) (hd : d.Equals x)
    (h : replayLog log d = .ok d') : ∃ x', replayLog log x = .ok x' ∧ d'.Equals x' := by
  induction log generalizing d x with
  | nil =>
    cases h
    exact ⟨x, rfl, hd⟩
  | cons entry log ih =>
    obtain ⟨out, hout, h⟩ := of_replayLog_cons h
    obtain ⟨o, ho, hone⟩ := applyAll_equals hlands.1 hd hout
    obtain ⟨x', hx', hend⟩ := ih (hlands.2 out hout) hone h
    exact ⟨x', (replayLog_cons ho).trans hx', hend⟩

/-- Entries trusted on what they left leave it as it is. -/
theorem replayLog_again {x : Doc sh} (hlands : LandsLog log d) (hrepeat : repeatableLog log d = true)
    (h : replayLog log d = .ok d') (hx : d'.Equals x) :
    ∃ x', replayLog log x = .ok x' ∧ d'.Equals x' := by
  have hall := fun key => @replayLog_trust sh key log d d' hlands hrepeat h
  obtain ⟨x', hx', -⟩ := (hall ("", none)).2 x
  refine ⟨x', hx', fun key => ?_⟩
  obtain ⟨hfind, hone⟩ := hall key
  obtain ⟨o, ho, hspots⟩ := hone d
  rw [h] at ho
  cases ho
  obtain ⟨o, ho, hend⟩ := hone x
  rw [hx'] at ho
  cases ho
  rw [hend, ← hx key, hspots, Overwrite.runAll_again hfind]

namespace Store

/-- The entries after a version are those logged since. -/
theorem Told.dropWhile_logged {st past : Store sh} {exact : Prop} (hpast : past.Told opts exact)
    (h : st.Told opts exact) {rest : List Commit} (hlife : past.commits ++ rest = st.commits) :
    (logged st.commits).dropWhile (·.v ≤ past.version) = logged rest := by
  have hnumbers := h.tells.chronicle.versions
  rw [← h.tells.chronicle.length_logged] at hnumbers
  have hlen := hpast.tells.chronicle.length_logged
  rw [hpast.tells.version] at hlen
  rw [dropWhile_numbered hnumbers, ← hlife, logged_append, Nat.add_sub_cancel, ← hlen,
    List.drop_left]

/-- What was logged since a store was as it was finds its parents there. -/
theorem Told.lands {st past : Store sh} {exact : Prop} (hpast : past.Told opts exact)
    (h : st.Told opts exact) {rest : List Commit} (hlife : past.commits ++ rest = st.commits) :
    LandsLog (logged rest) past.doc ∧
      ∃ d, replayLog (logged rest) past.doc = .ok d ∧ d.Shows st.doc := by
  have hchronicle := h.tells.chronicle
  rw [← hlife] at hchronicle
  have hstored : (Saved.docAt sh past.commits).Shows past.doc :=
    Doc.shows_iff.mpr fun k => by simp [Doc.get, hpast.tells.records k]
  obtain ⟨x, hx, hend⟩ := hchronicle.replays
  obtain ⟨d, hd, hsame⟩ := replayLog_shows hstored hx
  refine ⟨hchronicle.lands.of_shows hstored, d, hd, Doc.shows_iff.mpr fun k => ?_⟩
  rw [← Doc.shows_iff.mp hsame k, Doc.shows_iff.mp hend k, hlife]
  simp [Doc.get, h.tells.records k]

end Store

/-- A doc that holds a state is brought to a later one by all the entries logged since an earlier one,
whatever it has of them already, where the entries it has are stored as they are merged and write
inside no array. -/
theorem replaying_again_is_harmless (hn : 1 ≤ opts.deltaLog) {known wall : ℕ} {epoch : String}
    {past mid h : Host sh}
    (hpast : Reaches (Host.step opts) (fun e h => ∀ w, e = .own w → w.makesNothing h.store.doc = true)
      (Host.create opts known epoch wall) past)
    (hmid : Reaches (Host.step opts) (fun e h => ∀ w, e = .own w → w.makesNothing h.store.doc = true)
      (Host.create opts known epoch wall) mid)
    (hr : Reaches (Host.step opts) (fun e h => ∀ w, e = .own w → w.makesNothing h.store.doc = true)
      (Host.create opts known epoch wall) h)
    (hkept : past.store.commits <+: mid.store.commits)
    (hlife : mid.store.commits <+: h.store.commits)
    (hrepeat : repeatableLog ((logged mid.store.commits).dropWhile (·.v ≤ past.store.version))
      past.store.doc = true) (d : Doc sh) (hd : d.Equals mid.store.doc) :
    ∃ d', replayLog ((logged h.store.commits).dropWhile (·.v ≤ past.store.version)) d = .ok d' ∧
      d'.Equals h.store.doc := by
  have htold : ∀ {h : Host sh}, Reaches (Host.step opts)
      (fun e h => ∀ w, e = .own w → w.makesNothing h.store.doc = true)
      (Host.create opts known epoch wall) h → h.store.Told opts False := fun hr =>
    (keeps_told hn False).reached (fun w h hcond => hcond w rfl) (fun _ _ _ _ => False.elim)
      (.load .nil known epoch wall) hr
  obtain ⟨rest, hrest⟩ := hkept
  obtain ⟨more, hmore⟩ := hlife
  have hall : past.store.commits ++ (rest ++ more) = h.store.commits := by
    rw [← hmore, ← hrest, List.append_assoc]
  rw [(htold hpast).dropWhile_logged (htold hmid) hrest] at hrepeat
  rw [(htold hpast).dropWhile_logged (htold hr) hall, logged_append]
  -- the entries the doc has leave it as it is
  obtain ⟨hlands, x, hx, hshows⟩ := (htold hpast).lands (htold hmid) hrest
  have hsame : x.Equals d := fun key =>
    (Doc.Equals.of_shows hshows key).trans (hd key).symm
  obtain ⟨y, hy, hagain⟩ := replayLog_again hlands hrepeat hx hsame
  -- and those it has not bring it on
  obtain ⟨hlands', z, hz, hshows'⟩ := (htold hmid).lands (htold hr) hmore
  have hon : mid.store.doc.Equals y := fun key =>
    (Doc.Equals.of_shows hshows key).symm.trans (hagain key)
  obtain ⟨d', hd', hend⟩ := replayLog_equals hlands' hon hz
  refine ⟨d', by rw [replayLog_append hy, hd'], fun key => ?_⟩
  exact (hend key).symm.trans (Doc.Equals.of_shows hshows' key)

/-- The server makes a task whose field holds an object with a null in it. -/
def nulled : OwnWrite := .patch [("tasks", .obj [("t1", .obj [("a", .obj [("b", .null)])])])]

/-- The server makes a task with a list of one object, -/
def arrayed : OwnWrite :=
  .patch [("tasks", .obj [("t1", .obj [("xs", .arr [.obj [("a", .num 1)]])])])]

/-- and puts an object where the list is. -/
def putOver : OwnWrite := .patch [("tasks", .obj [("t1", .obj [("xs", .obj [])])])]

def listed : Host board :=
  (Host.step (ruled .allow) (.own arrayed) (Host.create (ruled .allow) 0 "e" 5)).getD
    (Host.create (ruled .allow) 0 "e" 5)

/-- Whether the entries logged since a version, trusted on what they left, make or remove a place of
the task. -/
def harmed (v : ℕ) (path : Path) (h : Host board) : Bool :=
  match replayLog ((logged h.store.commits).dropWhile (·.v ≤ v)) h.store.doc with
  | .ok d => ((d.get ("tasks", some "t1")).bind (valueAt · path)).isSome !=
      ((h.store.doc.get ("tasks", some "t1")).bind (valueAt · path)).isSome
  | .error _ => false

theorem of_harmed {v : ℕ} {path : Path} {h : Host board} (hh : harmed v path h = true) :
    ∃ d, replayLog ((logged h.store.commits).dropWhile (·.v ≤ v)) h.store.doc = .ok d ∧
      ¬ d.Equals h.store.doc := by
  unfold harmed at hh
  split at hh
  · next d hd =>
    refine ⟨d, hd, fun heq => ?_⟩
    rw [heq.isSome] at hh
    simp at hh
  · cases hh

/-- What a store writes itself is stored after what was. -/
theorem Store.commits_own {st : Store sh} {now : ℕ} {w : OwnWrite} {res : Store sh × List Change}
    (h : st.own opts now w = .ok res) : st.commits <+: res.1.commits := by
  obtain ⟨list, out, -, -, rfl⟩ := Store.of_own h
  unfold landed
  split_ifs
  · exact List.prefix_rfl
  · rw [commits_commit]
    exact List.prefix_append _ _

def HostEvent.isOwn : HostEvent U → Bool
  | .own _ => true
  | _ => false

theorem commits_of_owns {h h' : Host sh}
    (hr : Reaches (Host.step opts) (fun e _ => e.isOwn = true) h h') :
    h.store.commits <+: h'.store.commits := by
  refine Reaches.invariant (P := fun s => h.store.commits <+: s.store.commits) List.prefix_rfl
    (fun e s s' hs hok hstep => ?_) hr
  cases e with
  | own w =>
    simp only [Host.step] at hstep
    split at hstep
    · cases hstep
      exact hs
    · next out hout =>
      cases hstep
      exact hs.trans (Store.commits_own hout)
  | _ => cases hok

/-- Entries trusted on the state they left change it: a null stored inside a put is deleted when the
put is merged in, and a field deleted inside a list gets its way made, once an object is there. -/
theorem replaying_again_harms :
    let opts := ruled .allow
    (∃ past h : Host board, Reaches (Host.step opts) (fun _ _ => True) (Host.create opts 0 "e" 5) past ∧
      Reaches (Host.step opts) (fun _ _ => True) past h ∧ past.store.commits <+: h.store.commits ∧
      ∃ d, replayLog ((logged h.store.commits).dropWhile (·.v ≤ past.store.version)) h.store.doc =
        .ok d ∧ ¬ d.Equals h.store.doc) ∧
    ∃ past h : Host board, Reaches (Host.step opts) (fun _ _ => True) (Host.create opts 0 "e" 5) past ∧
      Reaches (Host.step opts) (fun _ _ => True) past h ∧ past.store.commits <+: h.store.commits ∧
      ∃ d, replayLog ((logged h.store.commits).dropWhile (·.v ≤ past.store.version)) h.store.doc =
        .ok d ∧ ¬ d.Equals h.store.doc := by
  intro opts
  constructor
  · exact ⟨_, _, .start, .next (.own nulled) .start trivial rfl, ⟨_, rfl⟩,
      @of_harmed 0 ["a", "b"] _ (by decide +kernel)⟩
  have hpast : Reaches (Host.step opts) (fun _ _ => True) (Host.create opts 0 "e" 5) listed :=
    .next (.own arrayed) .start trivial rfl
  obtain ⟨h, hr, hh⟩ : ∃ h, Reaches (Host.step opts) (fun e _ => e.isOwn = true) listed h ∧
      harmed 1 ["xs", "0"] h = true :=
    Reaches.exists_of_replay (fun (e : HostEvent Unit) _ => e.isOwn) (fun _ _ he => he)
      [HostEvent.own (.del "tasks" (some "t1") ["xs", "0", "a"]), .own putOver] (by decide +kernel)
  exact ⟨_, h, hpast, hr.mono fun _ _ _ => trivial, commits_of_owns hr, of_harmed hh⟩

/-- A task made and a field of it deleted: a doc that has both entries is given them again. -/
theorem replaying_again_is_harmless_on_board :
    ∃ past h : Host board, past.store.version = 0 ∧ h.store.version = 2 ∧
      ∃ d', replayLog ((logged h.store.commits).dropWhile (·.v ≤ past.store.version)) h.store.doc =
        .ok d' ∧ d'.Equals h.store.doc := by
  have hr : Reaches (Host.step (ruled .allow))
      (fun e h => ∀ w, e = .own w → w.makesNothing h.store.doc = true)
      (Host.create (ruled .allow) 0 "e" 5) _ :=
    .next (.own (.del "tasks" (some "t1") ["a"]))
      (.next (.own numbered) .start (fun w hw => by cases hw; rfl) rfl)
      (fun w hw => by cases hw; decide +kernel) rfl
  exact ⟨_, _, rfl, rfl, replaying_again_is_harmless (by decide) .start hr hr
    ⟨_, rfl⟩ List.prefix_rfl (by decide +kernel) _ fun _ => rfl⟩

end LazyStorage.Server
