import LazyStorage.Core.Alike

/-! # What is reported, trusted again

Changes replay from one doc to another when trusting them on the first, in
order and at one time, leaves the records of the second. A record dropped, a
cascade and a record written whole each replay what they report.
-/
namespace LazyStorage.Core

open Lib

variable {sh : Shape} {ts : ℕ} {mode : Mode} {key : RecordKey}

namespace Doc

/-- The same records, data and clocks; the index is not compared. -/
abbrev Same (d d' : Doc sh) : Prop := d.Alike Eq False d'

theorem same_iff {d d' : Doc sh} : d.Same d' ↔ ∀ k, d.records.get k = d'.records.get k := by
  refine ⟨fun h k => ?_, fun h => ⟨fun k => ?_, False.elim⟩⟩
  · have hk := h.records k
    revert hk
    generalize d.records.get k = a
    generalize d'.records.get k = b
    intro hk
    cases hk with
    | none => rfl
    | @some e e' he =>
      obtain ⟨data, clock⟩ := e
      obtain ⟨data', clock'⟩ := e'
      obtain ⟨rfl, rfl⟩ := he
      rfl
  · rw [h k]
    cases d'.records.get k with
    | none => exact .none
    | some e => exact .some ⟨rfl, rfl⟩

theorem Same.refl (d : Doc sh) : d.Same d := same_iff.mpr fun _ => rfl

theorem Same.symm {d d' : Doc sh} (h : d.Same d') : d'.Same d :=
  same_iff.mpr fun k => (same_iff.mp h k).symm

theorem Same.trans {x y z : Doc sh} (h : x.Same y) (h' : y.Same z) : x.Same z :=
  same_iff.mpr fun k => (same_iff.mp h k).trans (same_iff.mp h' k)

end Doc

theorem Blind.eq (mode : Mode) (ts : ℕ) : Blind mode ts Eq where
  born := rfl
  setLive h _ := h ▸ rfl
  setGone h _ := h ▸ rfl
  dropBeneath h _ _ _ := h ▸ rfl
  liveAt _ _ _ h _ := h ▸ rfl
  gone _ _ _ h _ := h ▸ rfl
  beneath _ _ _ h _ := h ▸ rfl
  maxOf _ _ _ h := h ▸ Iff.rfl

theorem trust_looks : Mode.trust.looks = true → False := by decide

/-- Changes trusted on one doc leave the records of another. -/
def Replays (ts : ℕ) (changes : List Change) (d d' : Doc sh) : Prop :=
  ∃ out, applyAll ts .trust changes d = .ok out ∧ d'.Same out.doc

namespace Replays

theorem none {d d' : Doc sh} (h : d'.Same d) : Replays ts [] d d' := ⟨.nothing d, rfl, h⟩

theorem congr {changes : List Change} {d₀ d d' : Doc sh} (hd : d₀.Same d)
    (h : Replays ts changes d d') : Replays ts changes d₀ d' := by
  obtain ⟨out, ho, hs⟩ := h
  rcases (Blind.eq .trust ts).applyAll sh trust_looks changes hd with
    ⟨err, -, h₂⟩ | ⟨out₀, out', h₁, h₂, hout⟩
  · rw [ho] at h₂
    cases h₂
  · rw [ho] at h₂
    cases h₂
    exact ⟨out₀, h₁, hs.trans (Doc.Same.symm hout.doc)⟩

theorem append {as bs : List Change} {d₁ d₂ d₃ : Doc sh} (h : Replays ts as d₁ d₂)
    (h' : Replays ts bs d₂ d₃) : Replays ts (as ++ bs) d₁ d₃ := by
  obtain ⟨out, ho, hs⟩ := h
  obtain ⟨more, hm, hs'⟩ := congr hs.symm h'
  exact ⟨_, applyAll_append ho hm, hs'⟩

theorem one {change : Change} {d d' : Doc sh} {out : Outcome sh}
    (h : apply ts .trust change d = .ok out) (hs : d'.Same out.doc) :
    Replays ts [change] d d' := ⟨out, applyAll_one h, hs⟩

end Replays

/-- A key as a shape makes it: a singleton's is its name alone. -/
def Normal (sh : Shape) (key : RecordKey) : Prop := sh.recordKey key.1 key.2 = key

theorem normal_recordKey (c : String) (id : Option String) : Normal sh (sh.recordKey c id) := by
  unfold Normal Shape.recordKey
  split_ifs <;> simp_all

theorem normal_of_parentsOf (h : sh.parentsOf key.1 ≠ []) :
    Normal sh key ∧ sh.isSingleton key.1 = false := by
  have hs : sh.isSingleton key.1 = false := by
    by_contra hs
    exact h (Shape.parentsOf_singleton (by simpa using hs))
  exact ⟨by simp [Normal, Shape.recordKey, hs], hs⟩

/-- A reported change, trusted: what the key and the path say is run again. -/
theorem apply_reported (hkey : Normal sh key) {path : Path} {w : Write}
    (hdel : path = [] → w = .del → sh.isSingleton key.1 = false) (d : Doc sh) :
    apply ts mode ⟨key.1, key.2, path, w⟩ d = .ok (run ts mode key w.value w.kind path d) := by
  have hc : ¬ (path.isEmpty && w = .del && sh.isSingleton key.1) = true := by
    simp only [Bool.and_eq_true, List.isEmpty_iff, decide_eq_true_eq, not_and, and_imp]
    exact fun hp hw hs => by simp [hdel hp hw] at hs
  unfold Normal at hkey
  simp only [apply, if_neg hc, hkey]

/-- A change decided is no deletion of a singleton. -/
theorem of_apply {change : Change} {d : Doc sh} {out : Outcome sh}
    (h : apply ts mode change d = .ok out) :
    (change.path = [] → change.write.kind = .del →
      sh.isSingleton (sh.recordKey change.c change.id).1 = false) ∧
    out = run ts mode (sh.recordKey change.c change.id) change.write.value change.write.kind
      change.path d := by
  simp only [apply] at h
  split_ifs at h with hsingle
  refine ⟨fun hp hk => ?_, (Except.ok.inj h).symm⟩
  have hw : change.write = .del := by cases hw : change.write <;> simp_all [Write.kind]
  simp only [Bool.and_eq_true, List.isEmpty_iff, decide_eq_true_eq, not_and,
    Bool.not_eq_true] at hsingle
  have hs := hsingle ⟨hp, hw⟩
  simp [Shape.recordKey, hs]

theorem run_of_done {value : Value} {kind : Kind} {path : Path} {d : Doc sh} {out : Outcome sh}
    (h : step ts mode key value kind path d = .done out) :
    run ts mode key value kind path d = out := by
  cases value <;> simp only [run, h, Step.outcome]

theorem Doc.write_self {d : Doc sh} {e : Entry} (h : d.records.get key = some e) :
    (d.write key e).Same d := by
  refine Doc.same_iff.mpr fun k => ?_
  simp only [Doc.records_write, OrderedMap.get_set]
  split_ifs with hk
  · rw [← hk, h]
  · rfl

theorem Doc.write_write (d : Doc sh) (e e' : Entry) :
    ((d.write key e).write key e').Same (d.write key e') := by
  refine Doc.same_iff.mpr fun k => ?_
  simp only [Doc.records_write, OrderedMap.get_set]
  split_ifs <;> rfl

theorem Doc.relink_same (d : Doc sh) (k : RecordKey) : (d.relink k).Same d :=
  Doc.same_iff.mpr fun _ => by simp

theorem Doc.note_same (d : Doc sh) (k : RecordKey) : (d.note k).Same d :=
  Doc.same_iff.mpr fun _ => by simp

theorem landed_same {out : Outcome sh} {d : Doc sh} {e e' : Entry} {path : Path} {w : Write}
    (h : out.doc.Same (d.write key e)) :
    (landed key path e' w out).doc.Same (d.write key e') := by
  have hw : (out.doc.write key e').Same (d.write key e') :=
    Doc.Same.trans (Doc.Alike.write h key ⟨rfl, rfl⟩) (Doc.write_write d e e')
  simp only [landed, Outcome.report]
  split_ifs
  · exact Doc.Same.trans (Doc.relink_same _ _) hw
  · exact hw

/-- A record dropped is what its reported deletion drops. -/
theorem replays_drop (hkey : Normal sh key) (hs : sh.isSingleton key.1 = false) {d d' : Doc sh}
    (hd : (d.records.get key).isSome = true) (h : d'.Same (d.drop key)) :
    Replays ts [⟨key.1, key.2, [], .del⟩] d d' := by
  refine .one (apply_reported hkey (fun _ _ => hs) d) ?_
  obtain ⟨n, hn⟩ : ∃ n, d.records.size = n + 1 :=
    Nat.exists_eq_succ_of_ne_zero fun h0 => by
      rw [OrderedMap.size_eq_zero h0] at hd
      cases hd
  have hget : ((d.note key).get key).isNone = false := by
    simpa [Doc.get] using hd
  have hstep : step ts .trust key Write.del.value Write.del.kind [] d =
      .done ⟨(((d.note key).note key).drop key).relink key, [⟨key.1, key.2, [], .del⟩], []⟩ := by
    have hrec : d.records.get key ≠ none := fun h => by simp [h] at hd
    simp [step, settledKind, Write.kind, atRoot, deleteRoot, hrec, Mode.judging, Mode.cascades, hn,
      Doc.removeRecord, hget]
  rw [run_of_done hstep]
  refine Doc.Same.trans h (Doc.Same.symm (Doc.Same.trans (Doc.relink_same _ _) ?_))
  exact Doc.Alike.drop (Doc.Same.trans (Doc.note_same _ _) (Doc.note_same _ _)) key

/-- A cascade reports every record it takes. -/
theorem removeRecord_replays (cascade : Bool) (fuel : ℕ) (hkey : Normal sh key)
    (hs : sh.isSingleton key.1 = false) (d : Doc sh) :
    Replays ts (d.removeRecord cascade fuel key).applied d
      (d.removeRecord cascade fuel key).doc := by
  induction fuel generalizing key d with
  | zero => exact .none (.refl d)
  | succ fuel ih =>
    by_cases hnone : (d.get key).isNone = true
    · simp only [Doc.removeRecord, hnone, if_true]
      exact .none (.refl d)
    simp only [Doc.removeRecord, hnone]
    have hkids : ∀ kid ∈ (if cascade then d.childrenOf key else []), sh.parentsOf kid.1 ≠ [] := by
      intro kid hkid
      split_ifs at hkid
      · exact ChildIndex.parentsOf_of_mem_childrenOf hkid
      · simp at hkid
    have hfirst : Replays ts [⟨key.1, key.2, [], .del⟩] d (((d.note key).drop key).relink key) := by
      refine replays_drop hkey hs ?_ ?_
      · simpa [Doc.get, Option.isSome_iff_ne_none] using hnone
      · exact Doc.Same.trans (Doc.relink_same _ _) (Doc.Alike.drop (d.note_same key) key)
    revert hkids hfirst
    generalize (if cascade then d.childrenOf key else []) = kids
    generalize hout : (⟨((d.note key).drop key).relink key, [⟨key.1, key.2, [], .del⟩], []⟩ :
      Outcome sh) = out
    intro hkids hfirst
    have hstart : Replays ts out.applied d out.doc := by rw [← hout]; exact hfirst
    clear hout hfirst
    induction kids generalizing out with
    | nil => exact hstart
    | cons kid kids ihk =>
      obtain ⟨hn, hs⟩ := normal_of_parentsOf (hkids kid (by simp))
      exact ihk _ (fun k hk => hkids k (by simp [hk])) (hstart.append (ih hn hs out.doc))

/-- A record written whole is what its report writes. -/
theorem replays_writeWhole (hkey : Normal sh key) {value : Value} {kind : Kind}
    (hk : settledKind sh key [] kind value = kind) (hdel : kind ≠ .del) {d : Doc sh}
    (hput : kind = .put → (d.get key).any Value.isObj = false) :
    Replays ts [⟨key.1, key.2, [], wholeWrite kind value⟩] d
      (writeWhole ts key value (wholeWrite kind value) d).doc := by
  have hw : ∀ w : Write, w = wholeWrite kind value →
      w ≠ .del ∧ w.value = value ∧ settledKind sh key [] w.kind w.value = kind := by
    rintro w rfl
    unfold wholeWrite
    split_ifs with hp
    · subst hp
      exact ⟨by simp, rfl, hk⟩
    · refine ⟨by simp, rfl, ?_⟩
      cases kind <;> simp_all [settledKind, Write.kind, Write.value]
  generalize hwd : wholeWrite kind value = w
  obtain ⟨hne, hv, hsettled⟩ := hw w hwd.symm
  refine .one (apply_reported hkey (fun _ h => absurd h hne) d) ?_
  have hroot : step ts .trust key w.value w.kind [] d =
      .done (writeWhole ts key value w (d.note key)) := by
    have hobj : kind = .put → ((d.note key).get key).any Value.isObj = false := fun h => by
      simpa [Doc.get] using hput h
    rw [hv] at hsettled
    simp only [step, List.isEmpty_nil, if_true, hv, hsettled]
    cases kind
    · subst hwd
      simp only [atRoot, hobj rfl, writeRoot, Mode.judging, Mode.checks]
      rfl
    · subst hwd
      simp only [atRoot, writeRoot, Mode.judging, Mode.checks]
      rfl
    · exact absurd rfl hdel
  rw [run_of_done hroot]
  refine Doc.Same.trans (Doc.relink_same _ _) (Doc.Same.symm (Doc.Same.trans (Doc.relink_same _ _) ?_))
  exact Doc.Alike.write (d.note_same key) key ⟨rfl, rfl⟩

end LazyStorage.Core
