import LazyStorage.Core.Journal

/-! # What a change leaves alone

Off the record it names, a change at most deletes, and that only in a mode that
takes the children of a deleted record with it. What a list of changes names is
therefore all that trusting it can touch.
-/
namespace LazyStorage.Core

open Lib

variable {sh : Shape} {ts : ℕ} {mode : Mode} {key k : RecordKey}

/-- A record is as it was, or gone where the mode takes children along. -/
def Spared (mode : Mode) (k : RecordKey) (d d' : Doc sh) : Prop :=
  d'.records.get k = d.records.get k ∨ (mode.cascades = true ∧ d'.records.get k = none)

namespace Spared

variable {x y z : Doc sh}

theorem refl (x : Doc sh) : Spared mode k x x := .inl rfl

theorem of_eq (h : y.records.get k = x.records.get k) : Spared mode k x y := .inl h

theorem trans (h : Spared mode k x y) (h' : Spared mode k y z) : Spared mode k x z := by
  rcases h' with h' | h'
  · rcases h with h | ⟨hc, h⟩
    · exact .inl (h'.trans h)
    · exact .inr ⟨hc, h'.trans h⟩
  · exact .inr h'

end Spared

theorem get_write_of_ne (h : k ≠ key) (d : Doc sh) (e : Entry) :
    (d.write key e).records.get k = d.records.get k := by
  rw [Doc.records_write, OrderedMap.get_set_of_ne _ _ (Ne.symm h)]

theorem removeRecord_spares (fuel : ℕ) (h : k ≠ key) (d : Doc sh) :
    Spared mode k d (d.removeRecord mode.cascades fuel key).doc := by
  have hall : ∀ (fuel : ℕ) (key : RecordKey) (d : Doc sh),
      (d.removeRecord true fuel key).doc.records.get k = d.records.get k ∨
        (d.removeRecord true fuel key).doc.records.get k = none := by
    intro fuel
    induction fuel with
    | zero => exact fun key d => .inl rfl
    | succ fuel ih =>
      intro key d
      simp only [Doc.removeRecord]
      split_ifs
      · exact .inl rfl
      refine List.foldlRecOn _ _ (motive := fun out : Outcome sh =>
        out.doc.records.get k = d.records.get k ∨ out.doc.records.get k = none) ?_ ?_
      · simp only [Doc.records_relink, Doc.records_drop, Doc.records_note, OrderedMap.get_erase]
        split_ifs
        · exact .inr rfl
        · exact .inl rfl
      · intro out hout kid _
        rcases ih kid out.doc with hk | hk
        · exact hout.imp hk.trans hk.trans
        · exact .inr hk
  cases hc : mode.cascades with
  | true => exact (hall fuel key d).imp id fun h => ⟨hc, h⟩
  | false =>
    left
    cases fuel with
    | zero => rfl
    | succ fuel =>
      simp only [Doc.removeRecord]
      split
      · rfl
      · simp [OrderedMap.get_erase_of_ne, Ne.symm h]

theorem atRoot_spares (h : k ≠ key) (value : Value) (kind : Kind) (d : Doc sh) :
    Spared mode k d (atRoot ts mode key value kind d).outcome.doc := by
  have hwrite : Spared mode k d (writeRoot ts mode key value kind d).doc := by
    unfold writeRoot writeWhole
    dsimp only
    split_ifs
    · exact .refl d
    · exact .refl d
    · exact .of_eq (by rw [Doc.records_relink, get_write_of_ne h])
  unfold atRoot
  cases kind with
  | put =>
    dsimp only
    split_ifs
    · exact .refl d
    · exact hwrite
  | set => exact hwrite
  | del =>
    unfold deleteRoot
    dsimp only [Step.outcome]
    split_ifs
    · exact .refl d
    · exact .refl d
    · exact removeRecord_spares _ h d

theorem within_spares (h : k ≠ key) (value : Value) (kind : Kind) (path : Path) (e : Entry)
    (out : Outcome sh) :
    Spared mode k out.doc (within ts mode key value kind path e out).outcome.doc := by
  unfold within
  split
  · exact .refl _
  dsimp only
  split_ifs
  · exact .of_eq (get_write_of_ne h _ _)
  split
  · exact .of_eq (get_write_of_ne h _ _)
  · exact .of_eq (get_write_of_ne h _ _)
  · exact .of_eq (get_write_of_ne h _ _)
  · refine .of_eq ?_
    simp only [Step.outcome, landed, Outcome.report]
    split_ifs
    · rw [Doc.records_relink, get_write_of_ne h, get_write_of_ne h]
    · rw [get_write_of_ne h, get_write_of_ne h]

theorem step_spares (h : k ≠ key) (value : Value) (kind : Kind) (path : Path) (d : Doc sh) :
    Spared mode k d (step ts mode key value kind path d).outcome.doc := by
  have hnote : Spared mode k d (d.note key) := .of_eq (d.get_note key k)
  refine hnote.trans ?_
  unfold step
  dsimp only
  split
  · exact atRoot_spares h _ _ _
  split
  · exact within_spares h _ _ _ _ _
  · split
    · refine Spared.trans (.of_eq ?_) (within_spares h _ _ _ _ _)
      exact get_write_of_ne h _ _
    · exact .refl _

/-- Off the record it names, a run at most deletes. -/
theorem run_spares (h : k ≠ key) (value : Value) : ∀ (kind : Kind) (path : Path) (d : Doc sh),
    Spared mode k d (run ts mode key value kind path d).doc := by
  induction value using Value.merging_induction with
  | leaf v hv =>
    intro kind path d
    have hs : Spared mode k d (step ts mode key v kind path d).outcome.doc :=
      step_spares h v kind path d
    cases v <;> first | simpa only [run] using hs | exact absurd hv (by simp)
  | fields fs ih =>
    intro kind path d
    have hfields : ∀ gs : List (String × Value), (∀ e ∈ gs, e ∈ fs) → ∀ d : Doc sh,
        Spared mode k d (runFields ts mode key gs path d).doc := by
      intro gs hg
      induction gs with
      | nil => exact fun d => .refl d
      | cons e gs ihg =>
        intro d
        exact (ih e (hg e (by simp)) _ _ d).trans (ihg (fun e he => hg e (by simp [he])) _)
    have hs : Spared mode k d (step ts mode key (.obj fs) kind path d).outcome.doc :=
      step_spares h (.obj fs) kind path d
    simp only [run]
    revert hs
    generalize step ts mode key (.obj fs) kind path d = s
    intro hs
    cases s with
    | done out => exact hs
    | merge out => exact hs.trans (hfields fs (fun _ h => h) out.doc)

/-- Off the records they name, changes at most delete. -/
theorem applyAll_spares {changes : List Change} {d : Doc sh} {out : Outcome sh}
    (h : applyAll ts mode changes d = .ok out)
    (hk : ∀ ch ∈ changes, sh.recordKey ch.c ch.id ≠ k) : Spared mode k d out.doc := by
  induction changes generalizing d out with
  | nil =>
    cases h
    exact .refl d
  | cons change changes ih =>
    obtain ⟨o, m, ho, hm, rfl⟩ := of_applyAll_cons h
    obtain ⟨-, rfl⟩ := of_apply ho
    have hone : Spared mode k d (run ts mode (sh.recordKey change.c change.id) change.write.value
        change.write.kind change.path d).doc :=
      run_spares (Ne.symm (hk change (by simp))) change.write.value change.write.kind change.path d
    have hrest : Spared mode k _ m.doc := ih hm fun ch hch => hk ch (by simp [hch])
    exact hone.trans hrest

/-- What trusted changes do not name stays as it was. -/
theorem trusted_spares {changes : List Change} {d : Doc sh} {out : Outcome sh}
    (h : applyAll ts .trust changes d = .ok out)
    (hk : ∀ ch ∈ changes, sh.recordKey ch.c ch.id ≠ k) : out.doc.records.get k = d.records.get k :=
  (applyAll_spares h hk).resolve_right fun h => absurd h.1 (by decide)

namespace Shape

/-- Whether the shape has the record: in a collection, with an id, or a singleton. -/
def keyed (sh : Shape) (k : RecordKey) : Bool :=
  (sh.isCollection k.1 && k.2.isSome) || (sh.isSingleton k.1 && k.2.isNone)

theorem recordKey_keyed (h : sh.keyed k = true) : sh.recordKey k.1 k.2 = k := by
  obtain ⟨c, id⟩ := k
  simp only [keyed, Bool.or_eq_true, Bool.and_eq_true] at h
  rcases h with ⟨hc, -⟩ | ⟨hs, hnone⟩
  · simp [recordKey, not_isSingleton hc]
  · simp [recordKey, hs, Option.isNone_iff_eq_none.mp hnone]

theorem keyed_of_accepts {change : Change} (h : sh.Accepts change) :
    sh.keyed (sh.recordKey change.c change.id) = true := by
  rw [recordKey_eq h]
  have hknown := h.known
  have hident := h.ident
  cases hc : sh.isCollection change.c <;> simp_all [keyed, has]

end Shape

/-- Nothing above a path that a shape accepts is a register. -/
theorem free_of_accepts {change : Change} (h : sh.Accepts change) {q : Path} (hq : q <+: change.path)
    (hne : q ≠ change.path) : sh.isRegister (sh.recordKey change.c change.id) q = false := by
  have hlen : q.length < change.path.length :=
    lt_of_le_of_ne hq.length_le fun heq => hne (hq.eq_of_length heq)
  have hfree := List.any_eq_false.mp h.free q.length (List.mem_range.mpr hlen)
  rw [← List.prefix_iff_eq_take.mp hq] at hfree
  simpa using hfree

/-- What a shape accepts is decided. -/
theorem apply_of_accepts {change : Change} (h : sh.Accepts change) (ts : ℕ) (mode : Mode) (d : Doc sh) :
    apply ts mode change d = .ok (run ts mode (sh.recordKey change.c change.id) change.write.value
      change.write.kind change.path d) := by
  unfold apply
  rw [if_neg]
  simp only [Bool.and_eq_true, List.isEmpty_iff, decide_eq_true_eq, not_and, Bool.not_eq_true]
  exact fun h₁ => h.keeps h₁.2 h₁.1

namespace Doc

variable {d d' : Doc sh}

/-- Every record is one that the shape has. -/
def Shaped (d : Doc sh) : Prop := ∀ k, (d.records.get k).isSome = true → sh.keyed k = true

theorem Shaped.congr (h : d.Shaped) (hsame : ∀ k, d'.records.get k = d.records.get k) : d'.Shaped :=
  fun k hk => h k (hsame k ▸ hk)

theorem Shaped.prune (h : d.Shaped) (cutoff : ℤ) : (d.prune cutoff).Shaped :=
  fun k hk => h k (by simpa [Doc.prune, OrderedMap.get_mapVal] using hk)

theorem Shaped.applyAll {changes : List Change} {out : Outcome sh} (h : d.Shaped)
    (hc : ∀ ch ∈ changes, sh.Accepts ch) (hout : applyAll ts mode changes d = .ok out) :
    out.doc.Shaped := by
  intro k hk
  by_cases hnamed : ∃ ch ∈ changes, sh.recordKey ch.c ch.id = k
  · obtain ⟨ch, hch, rfl⟩ := hnamed
    exact Shape.keyed_of_accepts (hc ch hch)
  · rcases applyAll_spares hout fun ch hch heq => hnamed ⟨ch, hch, heq⟩ with hsame | ⟨-, hgone⟩
    · exact h k (hsame ▸ hk)
    · simp [hgone] at hk

/-- A singleton with no record is its initial value. -/
def unset (sh : Shape) (k : RecordKey) : Option Entry :=
  if sh.isSingleton k.1 && k.2.isNone then some ⟨sh.initial k.1, .new⟩ else none

theorem records_load (stored : List (RecordKey × Entry)) (h : ∀ r ∈ stored, sh.keyed r.1 = true)
    (k : RecordKey) : (load sh stored).records.get k =
      ((stored.foldl (fun m r => m.set r.1 r.2) OrderedMap.empty).get k).or (unset sh k) := by
  have hstored : ∀ (l : List (RecordKey × Entry)) (m m' : OrderedMap RecordKey Entry),
      (∀ r ∈ l, sh.keyed r.1 = true) → m.get k = (m'.get k).or (unset sh k) →
      (l.foldl (fun m r =>
        if (sh.isCollection r.1.1 && r.1.2.isSome) || sh.isSingleton r.1.1 then
          m.set (sh.recordKey r.1.1 r.1.2) r.2 else m) m).get k =
        ((l.foldl (fun m r => m.set r.1 r.2) m').get k).or (unset sh k) := by
    intro l
    induction l with
    | nil => exact fun m m' _ hm => hm
    | cons r l ih =>
      intro m m' hl hm
      have hr := hl r (by simp)
      have hthere : ((sh.isCollection r.1.1 && r.1.2.isSome) || sh.isSingleton r.1.1) = true := by
        simp only [Shape.keyed, Bool.or_eq_true, Bool.and_eq_true] at hr ⊢
        exact hr.imp id And.left
      apply ih _ _ fun r hr => hl r (by simp [hr])
      dsimp only
      rw [if_pos hthere, Shape.recordKey_keyed hr, OrderedMap.get_set, OrderedMap.get_set]
      split_ifs
      · rfl
      · exact hm
  have hsingles : ∀ (l : List String) (m : OrderedMap RecordKey Entry),
      (l.foldl (fun m c => m.set (c, none) ⟨sh.initial c, .new⟩) m).get k =
        if k.1 ∈ l ∧ k.2 = none then some ⟨sh.initial k.1, .new⟩ else m.get k := by
    intro l
    induction l with
    | nil => simp
    | cons c l ih =>
      intro m
      obtain ⟨c', id⟩ := k
      rw [List.foldl_cons, ih, OrderedMap.get_set]
      grind
  simp only [load, ofRecords, records_foldl_relink]
  apply hstored _ _ _ h
  rw [hsingles]
  simp only [OrderedMap.get_empty, Option.none_or, unset, Bool.and_eq_true, Shape.isSingleton_iff,
    Option.isNone_iff_eq_none]

theorem shaped_load (stored : List (RecordKey × Entry)) (h : ∀ r ∈ stored, sh.keyed r.1 = true) :
    (load sh stored).Shaped := by
  have hset : ∀ (l : List (RecordKey × Entry)) (m : OrderedMap RecordKey Entry),
      (∀ r ∈ l, sh.keyed r.1 = true) → (∀ k, (m.get k).isSome = true → sh.keyed k = true) →
      ∀ k, ((l.foldl (fun m r => m.set r.1 r.2) m).get k).isSome = true → sh.keyed k = true := by
    intro l
    induction l with
    | nil => exact fun m _ hm => hm
    | cons r l ih =>
      intro m hl hm
      apply ih _ fun r hr => hl r (by simp [hr])
      intro k hk
      rw [OrderedMap.get_set] at hk
      split_ifs at hk with hkey
      · exact hkey ▸ hl r (by simp)
      · exact hm k hk
  intro k hk
  rw [records_load stored h, Option.isSome_or, Bool.or_eq_true] at hk
  rcases hk with hk | hk
  · exact hset stored .empty h (by simp) k hk
  · unfold unset at hk
    split_ifs at hk with hs
    · simp [Shape.keyed, hs]
    · cases hk

/-- The same values in the same records, whatever their clocks. -/
abbrev Shows (d d' : Doc sh) : Prop := d.Alike (fun _ _ => True) False d'

theorem shows_iff : d.Shows d' ↔ ∀ k, d.get k = d'.get k := by
  refine ⟨Alike.get, fun h => ⟨fun k => ?_, False.elim⟩⟩
  have hk := h k
  unfold Doc.get at hk
  revert hk
  generalize d.records.get k = a
  generalize d'.records.get k = b
  intro hk
  cases a <;> cases b <;> simp only [Option.map_none, Option.map_some, reduceCtorEq,
    Option.some.injEq] at hk
  · exact .none
  · exact .some ⟨hk, trivial⟩

end Doc

theorem Blind.shows (ts : ℕ) : Blind .trust ts fun _ _ => True where
  born := trivial
  setLive _ _ := trivial
  setGone _ _ := trivial
  dropBeneath _ _ _ _ := trivial
  liveAt h := absurd h (by decide)
  gone h := absurd h (by decide)
  beneath h := absurd h (by decide)
  maxOf h := absurd h (by decide)

/-- Trusting the same changes, docs that show the same go on showing the same. -/
theorem trusted_shows {changes : List Change} {d d' : Doc sh} {out : Outcome sh} (h : d.Shows d')
    (hout : applyAll ts .trust changes d = .ok out) :
    ∃ out', applyAll ts .trust changes d' = .ok out' ∧ out.doc.Shows out'.doc := by
  rcases (Blind.shows ts).applyAll sh trust_looks changes h with
    ⟨err, h₁, -⟩ | ⟨o, o', h₁, h₂, hend⟩
  · rw [hout] at h₁
    cases h₁
  · rw [hout] at h₁
    cases h₁
    exact ⟨o', h₂, hend.doc⟩

end LazyStorage.Core
