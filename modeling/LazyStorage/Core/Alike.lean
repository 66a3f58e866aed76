import LazyStorage.Core.Merge
import Mathlib.Data.Option.Basic

/-! # Docs a run cannot tell apart

A relation on clocks is blind for a mode and a time when it holds of what a run
at that time writes, is kept by each way it edits a clock and, where the mode
judges, hides every test it makes. Two docs with the same data and related
clocks then decide every change alike, and stay related.
-/
namespace LazyStorage.Core

open Lib

namespace Mode

/-- Whether the mode reads the child index. -/
def looks (mode : Mode) : Bool := mode.judging || mode.cascades

end Mode

/-- A relation on clocks that no run in `mode` at `ts` sees through. -/
structure Blind (mode : Mode) (ts : ℕ) (R : Clock → Clock → Prop) : Prop where
  born : R (.born ts) (.born ts)
  setLive : ∀ {c c'}, R c c' → ∀ p, R (c.setLive p ts) (c'.setLive p ts)
  setGone : ∀ {c c'}, R c c' → ∀ p, R (c.setGone p ts) (c'.setGone p ts)
  dropBeneath : ∀ {c c'}, R c c' → ∀ p i b, R (c.dropBeneath p i b) (c'.dropBeneath p i b)
  liveAt : mode.judging = true → ∀ {c c'}, R c c' → ∀ p,
    newer (c.liveAt p) ts = newer (c'.liveAt p) ts
  gone : mode.judging = true → ∀ {c c'}, R c c' → ∀ p,
    newer (c.gone.get p) ts = newer (c'.gone.get p) ts
  beneath : mode.judging = true → ∀ {c c'}, R c c' → ∀ p,
    c.newerBeneath p ts = c'.newerBeneath p ts
  maxOf : mode.judging = true → ∀ {c c'}, R c c' → ((ts : ℤ) < c.maxOf ↔ (ts : ℤ) < c'.maxOf)

variable {sh : Shape}

/-- The same data, and related clocks. -/
structure Entry.Alike (R : Clock → Clock → Prop) (e e' : Entry) : Prop where
  data : e.data = e'.data
  clock : R e.clock e'.clock

/-- The same records with related clocks and, where `indexed`, the same child index. -/
structure Doc.Alike (R : Clock → Clock → Prop) (indexed : Prop) (d d' : Doc sh) : Prop where
  records : ∀ key, Option.Rel (Entry.Alike R) (d.records.get key) (d'.records.get key)
  index : indexed → d.index = d'.index

/-- The same reports, over docs that are alike. -/
structure Outcome.Alike (R : Clock → Clock → Prop) (indexed : Prop) (out out' : Outcome sh) :
    Prop where
  doc : out.doc.Alike R indexed out'.doc
  applied : out.applied = out'.applied
  lost : out.lost = out'.lost

inductive Ruling.Alike (R : Clock → Clock → Prop) : Ruling → Ruling → Prop
  | lose : Ruling.Alike R .lose .lose
  | skip : Ruling.Alike R .skip .skip
  | merge : Ruling.Alike R .merge .merge
  | land {e e' : Entry} (w : Write) : e.Alike R e' → Ruling.Alike R (.land e w) (.land e' w)

inductive Step.Alike (R : Clock → Clock → Prop) (indexed : Prop) : Step sh → Step sh → Prop
  | done {out out'} : out.Alike R indexed out' → Step.Alike R indexed (.done out) (.done out')
  | merge {out out'} : out.Alike R indexed out' → Step.Alike R indexed (.merge out) (.merge out')

variable {R : Clock → Clock → Prop} {indexed : Prop} {mode : Mode} {ts : ℕ}
  {key : RecordKey}

namespace Doc.Alike

variable {d d' : Doc sh}

theorem get (h : d.Alike R indexed d') (k : RecordKey) : d.get k = d'.get k := by
  have hk := h.records k
  unfold Doc.get
  revert hk
  cases d.records.get k <;> cases d'.records.get k <;> intro hk <;> cases hk
  · rfl
  · next hk => simp [hk.data]

theorem isSome (h : d.Alike R indexed d') (k : RecordKey) :
    (d.records.get k).isSome = (d'.records.get k).isSome := by
  have := congrArg Option.isSome (h.get k)
  simpa [Doc.get] using this

theorem note (h : d.Alike R indexed d') (k : RecordKey) :
    (d.note k).Alike R indexed (d'.note k) :=
  ⟨fun x => by simpa using h.records x, fun hi => by simpa using h.index hi⟩

theorem write (h : d.Alike R indexed d') (k : RecordKey) {e e' : Entry} (he : e.Alike R e') :
    (d.write k e).Alike R indexed (d'.write k e') := by
  refine ⟨fun x => ?_, h.index⟩
  simp only [Doc.records_write, OrderedMap.get_set]
  split_ifs
  · exact .some he
  · exact h.records x

theorem drop (h : d.Alike R indexed d') (k : RecordKey) :
    (d.drop k).Alike R indexed (d'.drop k) := by
  refine ⟨fun x => ?_, h.index⟩
  simp only [Doc.records_drop, OrderedMap.get_erase]
  split_ifs
  · exact .none
  · exact h.records x

theorem relink (h : d.Alike R indexed d') (k : RecordKey) :
    (d.relink k).Alike R indexed (d'.relink k) := by
  have hn : d.namedParents k = d'.namedParents k := by simp only [Doc.namedParents, h.get]
  refine ⟨fun x => by simpa using h.records x, fun hi => ?_⟩
  simp only [Doc.relink, hn]
  split_ifs
  · exact h.index hi
  · simp only [h.index hi]

theorem orphaned (h : d.Alike R indexed d') (c : String) (fs : List (String × Value)) :
    d.orphaned c fs = d'.orphaned c fs := by
  simp only [Doc.orphaned, h.get]

theorem childrenOf (h : d.Alike R indexed d') (hi : indexed) : d.childrenOf = d'.childrenOf := by
  funext k
  simp only [Doc.childrenOf, h.index hi]

theorem size (h : d.Alike R indexed d') : d.records.size = d'.records.size :=
  OrderedMap.size_congr h.isSome

theorem clockOf (h : d.Alike R indexed d') (k : RecordKey) :
    R (d.clockOf k) (d'.clockOf k) ∨ d.clockOf k = d'.clockOf k := by
  have hk := h.records k
  unfold Doc.clockOf
  revert hk
  cases d.records.get k <;> cases d'.records.get k <;> intro hk <;> cases hk
  · exact Or.inr rfl
  · next hk => exact Or.inl hk.clock

end Doc.Alike

theorem Doc.lt_subtreeMax {d : Doc sh} : (ts : ℤ) < d.subtreeMax key ↔
    ∃ k ∈ d.subtree key, (ts : ℤ) < (d.clockOf k).maxOf := by
  have : ¬ (ts : ℤ) < -1 := by omega
  simp [subtreeMax, lt_foldl_max, this]

namespace Outcome.Alike

theorem nothing {d d' : Doc sh} (h : d.Alike R indexed d') :
    (Outcome.nothing d).Alike R indexed (Outcome.nothing d') := ⟨h, rfl, rfl⟩

variable {out out' : Outcome sh}

theorem lose (h : out.Alike R indexed out') (path : Path) (why : Why) :
    (out.lose key path why).Alike R indexed (out'.lose key path why) :=
  ⟨h.doc, h.applied, by simp [Outcome.lose, h.lost]⟩

theorem report (h : out.Alike R indexed out') (path : Path) (w : Write) :
    (out.report key path w).Alike R indexed (out'.report key path w) :=
  ⟨h.doc, by simp [Outcome.report, h.applied], h.lost⟩

theorem withDoc (h : out.Alike R indexed out') {d d' : Doc sh} (hd : d.Alike R indexed d') :
    ({ out with doc := d } : Outcome sh).Alike R indexed { out' with doc := d' } :=
  ⟨hd, h.applied, h.lost⟩

theorem andThen (h : out.Alike R indexed out') {next next' : Doc sh → Outcome sh}
    (hn : ∀ d d', d.Alike R indexed d' → (next d).Alike R indexed (next' d')) :
    (out.andThen next).Alike R indexed (out'.andThen next') := by
  have := hn _ _ h.doc
  exact ⟨this.doc, by simp [Outcome.andThen, h.applied, this.applied],
    by simp [Outcome.andThen, h.lost, this.lost]⟩

end Outcome.Alike

theorem Step.Alike.outcome {s s' : Step sh} (h : s.Alike R indexed s') :
    s.outcome.Alike R indexed s'.outcome := by
  cases h with
  | done h => exact h
  | merge h => exact h

/-- The reading of times that guards a deletion of a whole record. -/
theorem Blind.subtreeMax (hR : Blind mode ts R) (hj : mode.judging = true) (hi : indexed)
    {d d' : Doc sh} (h : d.Alike R indexed d') :
    (ts : ℤ) < d.subtreeMax key ↔ (ts : ℤ) < d'.subtreeMax key := by
  simp only [Doc.lt_subtreeMax, Doc.subtree, h.childrenOf hi, h.index hi]
  refine exists_congr fun k => and_congr_right fun _ => ?_
  rcases h.clockOf k with hk | hk
  · exact hR.maxOf hj hk
  · rw [hk]

theorem removeRecord_alike (cascade : Bool) (hi : cascade = true → indexed) (fuel : ℕ)
    {d d' : Doc sh} (h : d.Alike R indexed d') (k : RecordKey) :
    (d.removeRecord cascade fuel k).Alike R indexed (d'.removeRecord cascade fuel k) := by
  induction fuel generalizing d d' k with
  | zero => exact .nothing h
  | succ fuel ih =>
    have hkids : (if cascade then d.childrenOf k else []) =
        if cascade then d'.childrenOf k else [] := by
      cases cascade with
      | false => rfl
      | true => simp [h.childrenOf (hi rfl)]
    simp only [Doc.removeRecord, h.get, hkids]
    by_cases hk : (d'.get k).isNone
    · simpa only [hk, if_true] using .nothing h
    simp only [hk]
    have hout : (⟨((d.note k).drop k).relink k, [⟨k.1, k.2, [], .del⟩], []⟩ : Outcome sh).Alike
        R indexed ⟨((d'.note k).drop k).relink k, [⟨k.1, k.2, [], .del⟩], []⟩ :=
      ⟨((h.note k).drop k).relink k, rfl, rfl⟩
    revert hout
    generalize (⟨((d.note k).drop k).relink k, [⟨k.1, k.2, [], .del⟩], []⟩ : Outcome sh) = out
    generalize (⟨((d'.note k).drop k).relink k, [⟨k.1, k.2, [], .del⟩], []⟩ : Outcome sh) = out'
    generalize (if cascade then d'.childrenOf k else []) = kids
    intro hout
    induction kids generalizing out out' with
    | nil => exact hout
    | cons kid kids ihk => exact ihk _ _ (hout.andThen fun _ _ hd => ih hd kid)

namespace Blind

variable (sh key) (hR : Blind mode ts R)
include hR

theorem stampInside (value : Value) : ∀ (path : Path) {c c' : Clock}, R c c' →
    R (Clock.stampInside sh key ts value path c) (Clock.stampInside sh key ts value path c') := by
  induction value using Value.merging_induction with
  | leaf v hv =>
    intro path c c' h
    cases v <;> first | exact hR.setLive h path | exact absurd hv (by simp)
  | fields fs ih =>
    intro path c c' h
    have hf : ∀ (gs : List (String × Value)), (∀ e ∈ gs, e ∈ fs) → ∀ {c c' : Clock}, R c c' →
        R (Clock.stampFields sh key ts gs path c) (Clock.stampFields sh key ts gs path c') := by
      intro gs
      induction gs with
      | nil => exact fun _ _ _ h => h
      | cons e gs ihg =>
        intro hg c c' h
        exact ihg (fun e he => hg e (by simp [he])) (ih e (hg e (by simp)) _ h)
    simp only [Clock.stampInside]
    split_ifs
    · exact hR.setLive h path
    · exact hf fs (fun _ h => h) (hR.setLive h path)

variable {e e' : Entry}

theorem makeWay (h : e.Alike R e') (p : Path) : (e.makeWay ts p).Alike R (e'.makeWay ts p) := by
  obtain ⟨data, clock⟩ := e
  obtain ⟨data', clock'⟩ := e'
  obtain ⟨rfl, hc⟩ := h
  have hfold : ∀ (ps : List Path) {c c' : Clock}, R c c' →
      R (ps.foldl (fun c p => c.makeContainer p ts) c)
        (ps.foldl (fun c p => c.makeContainer p ts) c') := by
    intro ps
    induction ps with
    | nil => exact fun h => h
    | cons p ps ih => exact fun h => ih (hR.setLive (hR.dropBeneath h p true false) p)
  cases hd : data.isObj with
  | true => exact ⟨by simp [Entry.makeWay, hd], by simpa [Entry.makeWay, hd] using hfold _ hc⟩
  | false => exact ⟨by simp [Entry.makeWay, hd], by simpa [Entry.makeWay, hd] using hfold _ hR.born⟩

theorem stale (hj : mode.judging = true) (h : e.Alike R e') (path : Path) :
    e.stale path ts = e'.stale path ts := by
  simp only [Entry.stale, hR.liveAt hj h.clock]

omit hR sh key in
theorem current (h : e.Alike R e') (path : Path) : e.current path = e'.current path := by
  simp only [Entry.current, h.data]

theorem arrive (h : e.Alike R e') (path : Path) :
    (∃ why, e.arrive sh mode ts key path = .error why ∧ e'.arrive sh mode ts key path = .error why) ∨
    ∃ a a', e.arrive sh mode ts key path = .ok a ∧ e'.arrive sh mode ts key path = .ok a' ∧
      a.Alike R a' := by
  have hs : (mode.judging && e.stale path ts) = (mode.judging && e'.stale path ts) := by
    cases hj : mode.judging with
    | false => rfl
    | true => simp [hR.stale hj h path]
  have hp : e.hasParent sh key path = e'.hasParent sh key path := by
    simp only [Entry.hasParent, h.data]
  simp only [Entry.arrive, hs, hp]
  split_ifs
  · exact Or.inl ⟨_, rfl, rfl⟩
  · exact Or.inr ⟨e, e', rfl, rfl, h⟩
  · exact Or.inr ⟨_, _, rfl, rfl, hR.makeWay h _⟩
  · exact Or.inl ⟨_, rfl, rfl⟩

theorem overwrite (h : e.Alike R e') (path : Path) (value : Value) :
    (e.overwrite mode ts path value).Alike R (e'.overwrite mode ts path value) := by
  have ho : ∀ b, (mode.judging && e.outlives ts path b) = (mode.judging && e'.outlives ts path b) := by
    intro b
    cases hj : mode.judging with
    | false => rfl
    | true =>
      simp only [Entry.outlives, hR.liveAt hj h.clock, hR.gone hj h.clock, hR.beneath hj h.clock]
  simp only [Entry.overwrite, ho, current h path]
  split_ifs
  · exact .lose
  · exact .land _ ⟨by simp only [Entry.place, h.data],
      hR.setLive (hR.dropBeneath h.clock _ _ _) _⟩

theorem settle (h : e.Alike R e') (path : Path) (kind : Kind) (value : Value) :
    (e.settle sh mode ts key path kind value).Alike R
      (e'.settle sh mode ts key path kind value) := by
  have hfresh : (e.fresh sh mode ts key path value).Alike R (e'.fresh sh mode ts key path value) := by
    have hg : (mode.judging && newer (e.clock.gone.get path) ts) =
        (mode.judging && newer (e'.clock.gone.get path) ts) := by
      cases hj : mode.judging with
      | false => rfl
      | true => simp only [hR.gone hj h.clock]
    simp only [Entry.fresh, hg]
    split_ifs
    · exact .lose
    · exact .land _ ⟨by simp only [Entry.place, h.data],
        hR.stampInside sh key value _ (hR.dropBeneath h.clock _ _ _)⟩
  have hdelete : ∀ v, (e.delete mode ts path v).Alike R (e'.delete mode ts path v) := by
    intro v
    have hn : (mode.judging && (newer (e.clock.liveAt path) ts ||
          (v.isObj && e.clock.newerBeneath path ts))) =
        (mode.judging && (newer (e'.clock.liveAt path) ts ||
          (v.isObj && e'.clock.newerBeneath path ts))) := by
      cases hj : mode.judging with
      | false => rfl
      | true => simp only [hR.liveAt hj h.clock, hR.beneath hj h.clock]
    simp only [Entry.delete, hn]
    split_ifs
    · exact .lose
    · exact .land _ ⟨by simp only [h.data], hR.setGone (hR.dropBeneath h.clock _ _ _) _⟩
  have hover := hR.overwrite h path value
  simp only [Entry.settle, current h path]
  split
  · exact hfresh
  · exact .merge
  · exact hover
  · exact hover
  · exact .skip
  · exact hdelete _

variable (hlook : mode.looks = true → indexed)
include hlook

theorem deleteRoot {d d' : Doc sh} (h : d.Alike R indexed d') :
    (deleteRoot ts mode key d).Alike R indexed (deleteRoot ts mode key d') := by
  have hsub : (mode.judging && decide ((ts : ℤ) < d.subtreeMax key)) =
      (mode.judging && decide ((ts : ℤ) < d'.subtreeMax key)) := by
    cases hj : mode.judging with
    | false => rfl
    | true => simp only [hR.subtreeMax hj (hlook (by simp [Mode.looks, hj])) h]
  have hnone : (d.records.get key).isNone = (d'.records.get key).isNone := by
    simpa [Doc.get] using congrArg Option.isNone (h.get key)
  simp only [Core.deleteRoot, hnone, hsub, h.size]
  split_ifs
  · exact .nothing h
  · exact (Outcome.Alike.nothing h).lose [] .newer
  · exact removeRecord_alike _ (fun hm => hlook (by simp [Mode.looks, hm])) _ h key

omit hlook in
theorem writeRoot {d d' : Doc sh} (h : d.Alike R indexed d') (value : Value) (kind : Kind) :
    (writeRoot ts mode key value kind d).Alike R indexed
      (writeRoot ts mode key value kind d') := by
  have hmax : (mode.judging && (d.records.get key).any fun e => (ts : ℤ) < e.clock.maxOf) =
      (mode.judging && (d'.records.get key).any fun e => (ts : ℤ) < e.clock.maxOf) := by
    cases hj : mode.judging with
    | false => rfl
    | true =>
      have hk := h.records key
      revert hk
      cases d.records.get key <;> cases d'.records.get key <;> intro hk <;> cases hk
      · rfl
      · next he => simp only [Option.any_some, hR.maxOf hj he.clock]
  have hnone : (d.records.get key).isNone = (d'.records.get key).isNone := by
    simpa [Doc.get] using congrArg Option.isNone (h.get key)
  simp only [Core.writeRoot, hmax, hnone, h.orphaned]
  split_ifs
  · exact (Outcome.Alike.nothing h).lose [] .newer
  · exact (Outcome.Alike.nothing h).lose [] .missing
  all_goals exact ⟨(h.write key ⟨rfl, hR.born⟩).relink key, rfl, rfl⟩

theorem atRoot {d d' : Doc sh} (h : d.Alike R indexed d') (value : Value) (kind : Kind) :
    (atRoot ts mode key value kind d).Alike R indexed (atRoot ts mode key value kind d') := by
  cases kind with
  | del => exact .done (hR.deleteRoot sh key hlook h)
  | set => exact .done (hR.writeRoot sh key h value .set)
  | put =>
    simp only [Core.atRoot, h.get]
    split_ifs
    · exact .merge (.nothing h)
    · exact .done (hR.writeRoot sh key h value .put)

omit hlook in
theorem within {out out' : Outcome sh} (h : out.Alike R indexed out') (he : e.Alike R e')
    (value : Value) (kind : Kind) (path : Path) :
    (within ts mode key value kind path e out).Alike R indexed
      (within ts mode key value kind path e' out') := by
  unfold Core.within
  rcases hR.arrive sh key he path with ⟨why, h₁, h₂⟩ | ⟨a, a', h₁, h₂, ha⟩
  · simp only [h₁, h₂]
    exact .done (h.lose path why)
  simp only [h₁, h₂]
  have hw := h.withDoc (h.doc.write key ha)
  have hstrands : strands mode key value kind path (out.doc.write key a) =
      strands mode key value kind path (out'.doc.write key a') := by
    simp only [strands, hw.doc.orphaned]
  simp only [hstrands]
  by_cases hst : strands mode key value kind path (out'.doc.write key a') = true
  · simp only [hst, if_true]
    exact .done (hw.lose path .missing)
  simp only [hst]
  have hs := hR.settle sh key ha path kind value
  revert hs
  generalize a.settle sh mode ts key path kind value = r
  generalize a'.settle sh mode ts key path kind value = r'
  intro hs
  cases hs with
  | lose => exact .done (hw.lose path .newer)
  | skip => exact .done hw
  | merge => exact .merge hw
  | land w hl =>
    have hd := hw.doc.write key hl
    refine .done (Outcome.Alike.report (hw.withDoc ?_) path w)
    dsimp only
    split_ifs
    · exact hd.relink key
    · exact hd

theorem step {d d' : Doc sh} (h : d.Alike R indexed d') (value : Value) (kind : Kind) (path : Path) :
    (step ts mode key value kind path d).Alike R indexed
      (step ts mode key value kind path d') := by
  have hn := h.note key
  unfold Core.step
  dsimp only
  split_ifs
  · exact hR.atRoot sh key hlook hn _ _
  · have hk := hn.records key
    revert hk
    generalize (d.note key).records.get key = r
    generalize (d'.note key).records.get key = r'
    intro hk
    cases hk with
    | none =>
      exact hR.within sh key ((Outcome.Alike.nothing (hn.write key ⟨rfl, hR.born⟩)).report [] _)
        ⟨rfl, hR.born⟩ _ _ _
    | some he => exact hR.within sh key (.nothing hn) he _ _ _
  · have hk := hn.records key
    revert hk
    generalize (d.note key).records.get key = r
    generalize (d'.note key).records.get key = r'
    intro hk
    cases hk with
    | none => exact .done ((Outcome.Alike.nothing hn).lose path .missing)
    | some he => exact hR.within sh key (.nothing hn) he _ _ _

/-- Docs alike decide a change alike, and stay alike. -/
theorem run (value : Value) : ∀ (kind : Kind) (path : Path) {d d' : Doc sh}, d.Alike R indexed d' →
    (run ts mode key value kind path d).Alike R indexed
      (run ts mode key value kind path d') := by
  induction value using Value.merging_induction with
  | leaf v hv =>
    intro kind path d d' h
    have hs := (hR.step sh key hlook h v kind path).outcome
    cases v <;> first | simpa [Core.run] using hs | exact absurd hv (by simp)
  | fields fs ih =>
    intro kind path d d' h
    have hf : ∀ gs : List (String × Value), (∀ e ∈ gs, e ∈ fs) → ∀ d d' : Doc sh,
        d.Alike R indexed d' → (runFields ts mode key gs path d).Alike R indexed
          (runFields ts mode key gs path d') := by
      intro gs
      induction gs with
      | nil => exact fun _ _ _ h => .nothing h
      | cons e gs ihg =>
        intro hg d d' h
        simp only [runFields]
        exact (ih e (hg e (by simp)) _ _ h).andThen
          (ihg (fun e he => hg e (by simp [he])))
    have hs := hR.step sh key hlook h (.obj fs) kind path
    simp only [Core.run]
    revert hs
    generalize Core.step ts mode key (.obj fs) kind path d = s
    generalize Core.step ts mode key (.obj fs) kind path d' = s'
    intro hs
    cases hs with
    | done h => exact h
    | merge h => exact h.andThen (hf fs fun _ h => h)

omit key in
/-- A list of changes is refused on both docs, or decided alike. -/
theorem applyAll (changes : List Change) {d d' : Doc sh} (h : d.Alike R indexed d') :
    (∃ err, applyAll ts mode changes d = .error err ∧ applyAll ts mode changes d' = .error err) ∨
    ∃ out out', applyAll ts mode changes d = .ok out ∧ applyAll ts mode changes d' = .ok out' ∧
      out.Alike R indexed out' := by
  induction changes generalizing d d' with
  | nil => exact Or.inr ⟨_, _, rfl, rfl, .nothing h⟩
  | cons change changes ih =>
    have hrun := hR.run sh (sh.recordKey change.c change.id) hlook change.write.value
      change.write.kind change.path h
    by_cases hsingle : change.path.isEmpty && change.write = .del && sh.isSingleton change.c
    · refine Or.inl ⟨singletonKept change.c, ?_, ?_⟩ <;>
        simp only [Core.applyAll, apply, if_pos hsingle, bind, Except.bind]
    have happly : ∀ x : Doc sh, apply ts mode change x =
        .ok (Core.run ts mode (sh.recordKey change.c change.id) change.write.value
          change.write.kind change.path x) := fun x => if_neg hsingle
    rcases ih hrun.doc with ⟨err, h₁, h₂⟩ | ⟨out, out', h₁, h₂, hout⟩
    · refine Or.inl ⟨err, ?_, ?_⟩ <;> simp [Core.applyAll, happly, bind, Except.bind, h₁, h₂]
    · exact Or.inr ⟨_, _, applyAll_cons (happly d) h₁, applyAll_cons (happly d') h₂, hout.doc,
        congrArg₂ (· ++ ·) hrun.applied hout.applied, congrArg₂ (· ++ ·) hrun.lost hout.lost⟩

end Blind

end LazyStorage.Core
