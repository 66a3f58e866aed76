import LazyStorage.Core.Touches

/-! # What is reported found its parent

A change that lands, in a mode that makes nothing on its way, finds the parent of
its path. So does what it reports, trusted in its turn where it was decided.
-/
namespace LazyStorage.Core

open Lib

variable {sh : Shape} {ts : ℕ} {mode : Mode} {key : RecordKey} {as bs changes : List Change}
  {d d' : Doc sh}

/-- Each change, trusted in its turn, finds its parent there. -/
def Lands (ts : ℕ) : List Change → Doc sh → Prop
  | [], _ => True
  | change :: changes, d => d.Clear .trust (sh.recordKey change.c change.id) change.path ∧
      ∀ out, apply ts .trust change d = .ok out → Lands ts changes out.doc

theorem Doc.Clear.of_shows {path : Path} (h : d.Clear mode key path) (hs : d.Shows d') :
    d'.Clear mode key path := by
  intro hm hp
  obtain ⟨e, he, hparent⟩ := h hm hp
  have hk := hs.records key
  rw [he] at hk
  generalize hget : d'.records.get key = r at hk
  cases hk with
  | some halike =>
    refine ⟨_, rfl, ?_⟩
    rw [← hparent]
    simp only [Entry.hasParent, halike.data]

namespace Lands

theorem of_whole (h : ∀ ch ∈ changes, ch.path = []) : Lands ts changes d := by
  induction changes generalizing d with
  | nil => trivial
  | cons change changes ih =>
    refine ⟨fun _ hp => absurd (h change (by simp)) hp, fun out _ => ?_⟩
    exact ih fun ch hch => h ch (by simp [hch])

theorem one {change : Change} (h : d.Clear .trust (sh.recordKey change.c change.id) change.path) :
    Lands ts [change] d := ⟨h, fun _ _ => trivial⟩

/-- Docs that show the same find the same parents. -/
theorem of_shows (h : Lands ts changes d) (hs : d.Shows d') : Lands ts changes d' := by
  induction changes generalizing d d' with
  | nil => trivial
  | cons change changes ih =>
    refine ⟨h.1.of_shows hs, fun out' hout' => ?_⟩
    have hback : d'.Shows d := Doc.shows_iff.mpr fun k => (Doc.shows_iff.mp hs k).symm
    obtain ⟨out, hout, hend⟩ := trusted_shows hback (applyAll_one hout')
    obtain ⟨o, m, ho, hm, rfl⟩ := of_applyAll_cons hout
    cases hm
    refine ih (h.2 o ho) (Doc.shows_iff.mpr fun k => ?_)
    exact (Doc.shows_iff.mp hend k).symm

/-- Changes that replay, and more where they lead. -/
theorem append (h : Lands ts as d) (hreplays : Replays ts as d d') (h' : Lands ts bs d') :
    Lands ts (as ++ bs) d := by
  obtain ⟨out, hout, hsame⟩ := hreplays
  have hend : Lands ts bs out.doc := h'.of_shows (Doc.shows_iff.mpr hsame.get)
  clear h' hsame
  induction as generalizing d out with
  | nil =>
    cases hout
    exact hend
  | cons change as ih =>
    obtain ⟨o, m, ho, hm, rfl⟩ := of_applyAll_cons hout
    refine ⟨h.1, fun out hout => ?_⟩
    rw [ho] at hout
    cases hout
    exact ih (h.2 o ho) m hm hend

end Lands

/-- A record deleted is reported whole, with what it takes along. -/
theorem removeRecord_whole (cascade : Bool) (fuel : ℕ) (key : RecordKey) (d : Doc sh) :
    ∀ ch ∈ (d.removeRecord cascade fuel key).applied, ch.path = [] := by
  induction fuel generalizing key d with
  | zero => simp [Doc.removeRecord, Outcome.nothing]
  | succ fuel ih =>
    simp only [Doc.removeRecord]
    split
    · simp [Outcome.nothing]
    · refine List.foldlRecOn _ _ (motive := fun out : Outcome sh => ∀ ch ∈ out.applied, ch.path = [])
        (by simp) fun out hout kid _ ch hch => ?_
      rcases List.mem_append.mp hch with hch | hch
      · exact hout ch hch
      · exact ih kid out.doc ch hch

section Step

variable {value : Value} {kind : Kind} {path : Path}

theorem atRoot_whole : ∀ ch ∈ (atRoot ts mode key value kind d).outcome.applied, ch.path = [] := by
  have hwrite : ∀ ch ∈ (writeRoot ts mode key value kind d).applied, ch.path = [] := by
    simp only [writeRoot]
    split_ifs <;> simp [Outcome.nothing, Outcome.lose, writeWhole]
  cases kind with
  | put =>
    simp only [atRoot]
    split_ifs
    · simp [Step.outcome, Outcome.nothing]
    · exact hwrite
  | set => exact hwrite
  | del =>
    simp only [atRoot, Step.outcome, deleteRoot]
    split_ifs
    · simp [Outcome.nothing]
    · simp [Outcome.nothing, Outcome.lose]
    · exact removeRecord_whole _ _ _ _

theorem within_lands (hkey : Normal sh key) {e : Entry} (he : d.records.get key = some e)
    (hclear : mode.makes = true → e.hasParent sh key path = true) :
    Lands ts (within ts mode key value kind path e (.nothing d)).outcome.applied d := by
  unfold within
  cases harrive : e.arrive sh mode ts key path with
  | error why => trivial
  | ok e' =>
    dsimp only
    split_ifs
    · trivial
    split
    · trivial
    · trivial
    · trivial
    refine .one fun _ _ => ⟨e, ?_, ?_⟩
    · exact (congrArg d.records.get hkey).trans he
    · rw [show sh.recordKey key.1 key.2 = key from hkey]
      simp only [Entry.arrive] at harrive
      split_ifs at harrive with _ hparent hm
      · exact hparent
      · exact hclear hm

variable (ts value d) in
/-- What one step reports found its parent. -/
theorem step_lands (hkey : Normal sh key) (hclear : d.Clear mode key path) :
    Lands ts (step ts mode key value kind path d).outcome.applied d := by
  have hnote : (d.note key).Shows d := Doc.shows_iff.mpr (d.note_same key).get
  have hclear := hclear.of_same (Doc.Same.symm (d.note_same key))
  simp only [step]
  by_cases hpath : path = []
  · subst hpath
    exact .of_whole atRoot_whole
  · simp only [List.isEmpty_iff, hpath, if_false]
    split
    · next e he =>
      refine Lands.of_shows (within_lands hkey he fun hm => ?_) hnote
      obtain ⟨e', he', hparent⟩ := hclear hm hpath
      obtain rfl : e = e' := Option.some.inj (he.symm.trans he')
      exact hparent
    · next hnone =>
      by_cases hm : mode.makes = true
      · obtain ⟨e', he', -⟩ := hclear hm hpath
        rw [hnone] at he'
        cases he'
      · simp only [hm]
        trivial

end Step

/-- What a run reports that makes nothing on its way found its parents: along a merge, key by key. -/
theorem run_lands (hkey : Normal sh key) (value : Value) :
    ∀ (kind : Kind) (path : Path) (d : Doc sh),
      (path = [] → kind = .del → sh.isSingleton key.1 = false) → d.Clear mode key path →
      Lands ts (run ts mode key value kind path d).applied d := by
  induction value using Value.merging_induction with
  | leaf v hv =>
    intro kind path d _ hclear
    have hs : Lands ts (step ts mode key v kind path d).outcome.applied d := step_lands ts d v hkey hclear
    cases v <;> first | simpa only [run] using hs | exact absurd hv (by simp)
  | fields fs ih =>
    intro kind path d hdel hclear
    have hfields : ∀ gs : List (String × Value), (∀ e ∈ gs, e ∈ fs) →
        sh.isRegister key path = false → ∀ d : Doc sh, d.ObjAt key path →
        Lands ts (runFields ts mode key gs path d).applied d := by
      intro gs hg hreg
      induction gs with
      | nil => exact fun d _ => trivial
      | cons e gs ihg =>
        intro d hobj
        have hclear' : d.Clear mode key (path ++ [e.1]) := hobj.clear hreg e.1
        have hone := ih e (hg e (by simp)) (changeFor e.2).kind (path ++ [e.1]) d (by simp) hclear'
        have hfaithful : Faithful ts key (path ++ [e.1]) d _ :=
          run_faithful hkey e.2 (changeFor e.2).kind (path ++ [e.1]) d (by simp) hclear'
        have hkept := hfaithful.keeps path (by simp) (by simp) hobj
        exact hone.append hfaithful.replays (ihg (fun e he => hg e (by simp [he])) _ hkept)
    have hs : Lands ts (step ts mode key (.obj fs) kind path d).outcome.applied d :=
      step_lands ts d (.obj fs) hkey hclear
    obtain ⟨hfaithful, hmerge⟩ := step_faithful ts (.obj fs) d hkey hdel hclear
    simp only [run]
    revert hs hfaithful hmerge
    generalize step ts mode key (.obj fs) kind path d = s
    intro hs hfaithful hmerge
    cases s with
    | done out => exact hs
    | merge out =>
      obtain ⟨hobj, hreg⟩ := hmerge out rfl
      exact hs.append hfaithful.replays (hfields fs (fun _ h => h) hreg out.doc hobj)

/-- What a list of changes reports found its parents, if a mode that makes what is missing is given
whole records only. -/
theorem applyAll_lands {out : Outcome sh} (hwhole : mode.makes = true → ∀ ch ∈ changes, ch.path = [])
    (h : applyAll ts mode changes d = .ok out) : Lands ts out.applied d := by
  induction changes generalizing d out with
  | nil =>
    cases h
    trivial
  | cons change changes ih =>
    obtain ⟨o, m, ho, hm, rfl⟩ := of_applyAll_cons h
    obtain ⟨hsingle, rfl⟩ := of_apply ho
    have hclear : d.Clear mode (sh.recordKey change.c change.id) change.path :=
      fun hk hp => absurd (hwhole hk change (by simp)) hp
    refine Lands.append ?_ ?_ (ih (fun hk ch hch => hwhole hk ch (by simp [hch])) hm)
    · exact run_lands (normal_recordKey _ _) _ _ _ _ hsingle hclear
    · exact (run_faithful (normal_recordKey _ _) _ _ _ _ hsingle hclear).replays

end LazyStorage.Core
