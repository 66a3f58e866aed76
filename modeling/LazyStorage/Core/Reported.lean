import LazyStorage.Core.Inside

/-! # What is reported is of records the shape has

A change is reported under the key it was made under; what a deletion takes along
is of a collection that has parents, and so of one the shape knows. A singleton is
named without an id.
-/
namespace LazyStorage.Core

open Lib

variable {sh : Shape} {ts : ℕ} {mode : Mode} {key : RecordKey} {d d' : Doc sh}

/-- Of the collection or singleton the change is of, or of a collection of children. -/
def Reported (sh : Shape) (c : String) (out : List Change) : Prop :=
  ∀ ch ∈ out, (ch.c = c ∨ sh.isCollection ch.c = true) ∧ Normal sh (ch.c, ch.id)

/-- Of a collection or singleton of the shape's, named as its records are. -/
def Change.Known (sh : Shape) (ch : Change) : Prop := sh.has ch.c = true ∧ Normal sh (ch.c, ch.id)

theorem Reported.append {c : String} {as bs : List Change} (h : Reported sh c as) (h' : Reported sh c bs) :
    Reported sh c (as ++ bs) := fun ch hch => (List.mem_append.mp hch).elim (h ch) (h' ch)

theorem Reported.known {c : String} {out : List Change} (h : Reported sh c out) (hc : sh.has c = true) :
    ∀ ch ∈ out, ch.Known sh := by
  intro ch hch
  obtain ⟨hsame | hkid, hnormal⟩ := h ch hch
  · exact ⟨by rw [hsame, hc], hnormal⟩
  · exact ⟨by rw [Shape.has, hkid, Bool.true_or], hnormal⟩

theorem reported_one (hkey : Normal sh key) (path : Path) (write : Write) :
    Reported sh key.1 [⟨key.1, key.2, path, write⟩] := by
  intro ch hch
  obtain rfl := List.mem_singleton.mp hch
  exact ⟨.inl rfl, hkey⟩

theorem reported_nil (c : String) : Reported sh c [] := fun _ hch => nomatch hch

/-- Children are of a collection. -/
theorem isCollection_child {k : RecordKey} (h : k ∈ d.childrenOf key) : sh.isCollection k.1 = true := by
  obtain ⟨l, hl⟩ := List.exists_mem_of_ne_nil _ (ChildIndex.parentsOf_of_mem_childrenOf h)
  exact Shape.isCollection_iff.mpr (sh.linked k.1 l hl).1

theorem reported_removeRecord (cascade : Bool) (fuel : ℕ) {key : RecordKey} (hkey : Normal sh key) (d : Doc sh) :
    Reported sh key.1 (d.removeRecord cascade fuel key).applied := by
  induction fuel generalizing key d with
  | zero => exact reported_nil key.1
  | succ fuel ih =>
    simp only [Doc.removeRecord]
    split
    · exact reported_nil key.1
    · refine List.foldlRecOn _ _ (motive := fun out : Outcome sh => Reported sh key.1 out.applied)
        (reported_one hkey [] .del) fun out hout kid hkid => hout.append fun ch hch => ?_
      cases cascade with
      | false => cases hkid
      | true =>
        have hnormal : Normal sh kid := (normal_of_parentsOf (ChildIndex.parentsOf_of_mem_childrenOf hkid)).1
        obtain ⟨hsame | hdeeper, hnamed⟩ := ih hnormal out.doc ch hch
        · exact ⟨.inr (by rw [hsame]; exact isCollection_child hkid), hnamed⟩
        · exact ⟨.inr hdeeper, hnamed⟩

theorem reported_atRoot (hkey : Normal sh key) (value : Value) (kind : Kind) (d : Doc sh) :
    Reported sh key.1 (atRoot ts mode key value kind d).outcome.applied := by
  have hwrite : Reported sh key.1 (writeRoot ts mode key value kind d).applied := by
    simp only [writeRoot]
    split_ifs
    · exact reported_nil key.1
    · exact reported_nil key.1
    · exact reported_one hkey _ _
  cases kind with
  | put =>
    simp only [atRoot]
    split_ifs
    · exact reported_nil key.1
    · exact hwrite
  | set => exact hwrite
  | del =>
    simp only [atRoot, Step.outcome, deleteRoot]
    split_ifs
    · exact reported_nil key.1
    · exact reported_nil key.1
    · exact reported_removeRecord _ _ hkey _

theorem reported_within (hkey : Normal sh key) (value : Value) (kind : Kind) (path : Path) (e : Entry)
    {out : Outcome sh}
    (h : Reported sh key.1 out.applied) :
    Reported sh key.1 (within ts mode key value kind path e out).outcome.applied := by
  unfold within
  cases e.arrive sh mode ts key path with
  | error why => exact h
  | ok e' =>
    dsimp only
    split_ifs
    · exact h
    split
    · exact h
    · exact h
    · exact h
    · exact h.append (reported_one hkey _ _)

theorem reported_step (hkey : Normal sh key) (value : Value) (kind : Kind) (path : Path) (d : Doc sh) :
    Reported sh key.1 (step ts mode key value kind path d).outcome.applied := by
  unfold step
  dsimp only
  split_ifs
  · exact reported_atRoot hkey _ _ _
  all_goals split
  · exact reported_within hkey _ _ _ _ (reported_nil key.1)
  · exact reported_within hkey _ _ _ _ (reported_one hkey _ _)
  · exact reported_within hkey _ _ _ _ (reported_nil key.1)
  · exact reported_nil key.1

theorem reported_run (hkey : Normal sh key) (value : Value) (kind : Kind) (path : Path) (d : Doc sh) :
    Reported sh key.1 (run ts mode key value kind path d).applied := by
  refine run_rule (V := fun _ => True) (H := fun _ _ _ => True) (P := fun _ _ out => Reported sh key.1 out.applied)
    (fun _ _ _ _ => trivial) ?_ ?_ ?_ ?_ ?_ ?_ value kind path d trivial trivial
  · exact fun value kind path d _ _ => reported_step hkey value kind path d
  · exact fun _ _ _ _ _ _ _ _ _ => trivial
  · exact fun _ _ _ _ _ _ _ _ => trivial
  · exact fun _ _ => reported_nil key.1
  · exact fun path d out more hout hmore => hout.append hmore
  · exact fun path k d out hout => hout

/-- Changes of records the shape has report changes of records it has. -/
theorem applied_known {changes : List Change} {out : Outcome sh} (h : applyAll ts mode changes d = .ok out)
    (hhas : ∀ ch ∈ changes, sh.has ch.c = true) : ∀ ch ∈ out.applied, ch.Known sh := by
  induction changes generalizing d out with
  | nil =>
    cases h
    exact fun ch hch => nomatch hch
  | cons change changes ih =>
    obtain ⟨o, more, ho, hmore, rfl⟩ := of_applyAll_cons h
    intro ch hch
    rcases List.mem_append.mp hch with hch | hch
    · unfold apply at ho
      dsimp only at ho
      split_ifs at ho
      cases ho
      have hreported := @reported_run sh ts mode (sh.recordKey change.c change.id) (normal_recordKey _ _)
        change.write.value change.write.kind change.path d
      rw [show (sh.recordKey change.c change.id).1 = change.c by unfold Shape.recordKey; split <;> rfl] at hreported
      exact hreported.known (hhas change (by simp)) ch hch
    · exact ih hmore (fun c hc => hhas c (by simp [hc])) ch hch

end LazyStorage.Core
