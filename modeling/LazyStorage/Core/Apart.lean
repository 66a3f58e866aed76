import LazyStorage.Core.Touches

/-! # A record apart from the others

In a mode that neither checks the parents a child names nor takes children along,
a change looks at the record it names and at nothing else, but for the deletion of
the record whole, which is judged by what lies beneath it.
-/
namespace LazyStorage.Core

open Lib

variable {sh : Shape} {ts : ℕ} {mode : Mode} {key : RecordKey}

/-- Docs that have the same record under a key, with the same clock. -/
def Doc.Meets (key : RecordKey) (d d' : Doc sh) : Prop := d.records.get key = d'.records.get key

/-- Steps that go on the same way from docs that have the same record. -/
inductive Step.Meets (key : RecordKey) : Step sh → Step sh → Prop
  | done {out out' : Outcome sh} (h : out.doc.Meets key out'.doc) : Meets key (.done out) (.done out')
  | merge {out out' : Outcome sh} (h : out.doc.Meets key out'.doc) : Meets key (.merge out) (.merge out')

theorem Step.Meets.outcome {s s' : Step sh} (h : s.Meets key s') :
    s.outcome.doc.Meets key s'.outcome.doc := by
  cases h with
  | done h => exact h
  | merge h => exact h

section Step

variable {value : Value} {kind : Kind} {path : Path} {d d' : Doc sh}

theorem Doc.Meets.write (d d' : Doc sh) (e : Entry) : (d.write key e).Meets key (d'.write key e) := by
  simp [Meets]

theorem Doc.Meets.relink (h : d.Meets key d') : (d.relink key).Meets key (d'.relink key) := by
  simpa [Meets] using h

theorem within_apart (hchecks : mode.checks = false) (e : Entry) {out out' : Outcome sh}
    (h : out.doc.Meets key out'.doc) :
    (within ts mode key value kind path e out).Meets key (within ts mode key value kind path e out') := by
  have hstrands : ∀ d : Doc sh, strands mode key value kind path d = false := fun d => by
    simp [strands, hchecks]
  unfold within
  split
  · exact .done h
  simp only [hstrands, Bool.false_eq_true, if_false]
  split
  · exact .done (.write _ _ _)
  · exact .done (.write _ _ _)
  · exact .merge (.write _ _ _)
  · refine .done ?_
    simp only [landed, Outcome.report]
    split_ifs
    · exact .relink (.write _ _ _)
    · exact .write _ _ _

theorem writeRoot_apart (hchecks : mode.checks = false) (h : d.Meets key d') :
    (writeRoot ts mode key value kind d).doc.Meets key (writeRoot ts mode key value kind d').doc := by
  unfold writeRoot
  rw [show d.records.get key = d'.records.get key from h]
  simp only [hchecks, Bool.false_and, Bool.false_eq_true, if_false]
  split_ifs
  · exact h
  · exact .relink (.write _ _ _)

/-- A record deleted alone is gone. -/
theorem get_removeRecord (hcascades : mode.cascades = false) :
    (d.removeRecord mode.cascades d.records.size key).doc.records.get key = none := by
  cases hget : d.records.get key with
  | none =>
    have hspared : (d.removeRecord mode.cascades d.records.size key).doc = d := by
      cases hsize : d.records.size with
      | zero => rfl
      | succ n => simp [Doc.removeRecord, Doc.get, hget, Outcome.nothing]
    rw [hspared, hget]
  | some e =>
    obtain ⟨n, hn⟩ : ∃ n, d.records.size = n + 1 := Nat.exists_eq_succ_of_ne_zero fun h0 => by
      rw [OrderedMap.size_eq_zero h0] at hget
      cases hget
    rw [hn, hcascades]
    simp [Doc.removeRecord, Doc.get, hget, OrderedMap.get_erase_self]

/-- Judged alike by what lies beneath, a record is deleted from both docs or from neither. -/
theorem deleteRoot_apart (hcascades : mode.cascades = false) (h : d.Meets key d')
    (hnewer : mode.judging = true → (d.records.get key).isSome = true →
      ((ts : ℤ) < d.subtreeMax key ↔ (ts : ℤ) < d'.subtreeMax key)) :
    (deleteRoot ts mode key d).doc.Meets key (deleteRoot ts mode key d').doc := by
  unfold deleteRoot
  rw [← show d.records.get key = d'.records.get key from h]
  cases hget : d.records.get key with
  | none => exact h
  | some e =>
    simp only [hget, Option.isSome_some, forall_const] at hnewer
    simp only [Option.isNone_some, Bool.false_eq_true, if_false]
    cases hj : mode.judging with
    | false => exact (get_removeRecord hcascades).trans (get_removeRecord hcascades).symm
    | true =>
      simp only [Bool.true_and, decide_eq_true_eq, hnewer hj]
      split_ifs
      · exact h
      · exact (get_removeRecord hcascades).trans (get_removeRecord hcascades).symm

theorem atRoot_apart (hchecks : mode.checks = false) (hcascades : mode.cascades = false)
    (h : d.Meets key d')
    (hnewer : kind = .del → mode.judging = true → (d.records.get key).isSome = true →
      ((ts : ℤ) < d.subtreeMax key ↔ (ts : ℤ) < d'.subtreeMax key)) :
    (atRoot ts mode key value kind d).Meets key (atRoot ts mode key value kind d') := by
  have hget : d.get key = d'.get key := congrArg (Option.map Entry.data) h
  cases kind with
  | put =>
    simp only [atRoot, ← hget]
    split_ifs
    · exact .merge h
    · exact .done (writeRoot_apart hchecks h)
  | set => exact .done (writeRoot_apart hchecks h)
  | del => exact .done (deleteRoot_apart hcascades h (hnewer rfl))

theorem step_apart (hchecks : mode.checks = false) (hcascades : mode.cascades = false)
    (h : d.Meets key d')
    (hnewer : path = [] → kind = .del → mode.judging = true → (d.records.get key).isSome = true →
      ((ts : ℤ) < d.subtreeMax key ↔ (ts : ℤ) < d'.subtreeMax key)) :
    (step ts mode key value kind path d).Meets key (step ts mode key value kind path d') := by
  have hnote : (d.note key).Meets key (d'.note key) := by simpa [Doc.Meets] using h
  unfold step
  dsimp only
  rw [← show (d.note key).records.get key = (d'.note key).records.get key from hnote]
  by_cases hpath : path = []
  · subst hpath
    simp only [List.isEmpty_nil, if_true]
    refine atRoot_apart hchecks hcascades hnote fun hk hj hthere => ?_
    rw [Doc.subtreeMax_note, Doc.subtreeMax_note]
    exact hnewer rfl (settledKind_eq_del.mp hk) hj (by simpa using hthere)
  · simp only [List.isEmpty_iff, hpath, if_false]
    split
    · exact within_apart hchecks _ hnote
    · split_ifs
      · exact within_apart hchecks _ (.write _ _ _)
      · exact .done hnote

end Step

/-- One change to a record, on docs that have the same. -/
theorem run_apart (hchecks : mode.checks = false) (hcascades : mode.cascades = false) (value : Value) :
    ∀ (kind : Kind) (path : Path) {d d' : Doc sh}, d.Meets key d' →
      (path = [] → kind = .del → mode.judging = true → (d.records.get key).isSome = true →
        ((ts : ℤ) < d.subtreeMax key ↔ (ts : ℤ) < d'.subtreeMax key)) →
      (run ts mode key value kind path d).doc.Meets key (run ts mode key value kind path d').doc := by
  induction value using Value.merging_induction with
  | leaf v hv =>
    intro kind path d d' h hnewer
    have hs : (step ts mode key v kind path d).Meets key (step ts mode key v kind path d') :=
      step_apart hchecks hcascades h hnewer
    have hout := hs.outcome
    cases v <;> first | simpa only [run] using hout | exact absurd hv (by simp)
  | fields fs ih =>
    intro kind path d d' h hnewer
    have hfields : ∀ gs : List (String × Value), (∀ e ∈ gs, e ∈ fs) → ∀ {d d' : Doc sh},
        d.Meets key d' →
        (runFields ts mode key gs path d).doc.Meets key (runFields ts mode key gs path d').doc := by
      intro gs hg
      induction gs with
      | nil => exact fun h => h
      | cons e gs ihg =>
        intro d d' h
        refine ihg (fun e he => hg e (by simp [he])) ?_
        exact ih e (hg e (by simp)) _ _ h (by simp)
    have hs : (step ts mode key (.obj fs) kind path d).Meets key
        (step ts mode key (.obj fs) kind path d') := step_apart hchecks hcascades h hnewer
    simp only [run]
    revert hs
    generalize step ts mode key (.obj fs) kind path d = s
    generalize step ts mode key (.obj fs) kind path d' = s'
    intro hs
    cases hs with
    | done h => exact h
    | merge h => exact hfields fs (fun _ h => h) h

namespace Doc

/-- The walk from a record sees what lies beneath it. -/
theorem mem_subtree {d : Doc sh} {k : RecordKey} :
    k ∈ d.subtree key ↔ Search.Beneath d.childrenOf key k := by
  have hlisted : ∀ x, ∀ y ∈ d.childrenOf x, y ∈ key :: d.index.parentsOfChild.keys := by
    intro x y hy
    refine List.mem_cons_of_mem _ (OrderedMap.mem_keys.mpr ?_)
    exact (List.mem_filter.mp hy).2
  have hseen : Search.unseen (key :: d.index.parentsOfChild.keys) [] ≤
      d.index.parentsOfChild.size + 1 := by
    refine (List.length_filter_le _ _).trans ?_
    simp [OrderedMap.size, OrderedMap.keys]
  obtain ⟨hcloses, hroot⟩ := Search.closes_visit (fun x _ => hlisted x) _ [] key
    (List.mem_cons_self ..) hseen
  constructor
  · intro hk
    exact (Search.beneath_of_mem_visit _ hk).resolve_left (by simp)
  · intro hk
    induction hk with
    | refl => exact hroot
    | tail _ hstep ih => exact hcloses.closed _ ih (by simp) _ hstep

theorem lt_subtreeMax_iff {d : Doc sh} : (ts : ℤ) < d.subtreeMax key ↔
    ∃ k, Search.Beneath d.childrenOf key k ∧ (ts : ℤ) < (d.clockOf k).maxOf := by
  simp only [lt_subtreeMax, mem_subtree]

/-- What is newer in a record is newer in all that it and what lies beneath it hold. -/
theorem lt_subtreeMax_of_lt {d : Doc sh} (h : (ts : ℤ) < (d.clockOf key).maxOf) :
    (ts : ℤ) < d.subtreeMax key := lt_subtreeMax_iff.mpr ⟨key, .refl, h⟩

/-- A record with no other beneath it is judged by its own times. -/
theorem lt_subtreeMax_childless {d : Doc sh} (h : ∀ x, ∀ k ∈ d.childrenOf x, k = key) :
    (ts : ℤ) < d.subtreeMax key ↔ (ts : ℤ) < (d.clockOf key).maxOf := by
  refine ⟨fun hlt => ?_, lt_subtreeMax_of_lt⟩
  obtain ⟨k, hk, hlt⟩ := lt_subtreeMax_iff.mp hlt
  cases hk with
  | refl => exact hlt
  | tail _ hstep => exact h _ k hstep ▸ hlt

end Doc

end LazyStorage.Core
