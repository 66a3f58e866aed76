import LazyStorage.Core.Children

/-! # What a deletion takes along

A record deleted goes with every record listed beneath it, through every level,
and with no other. What goes is no longer listed, and nothing that stays is
listed under what went.
-/
namespace LazyStorage.Core

open Lib

variable {sh : Shape}

namespace Doc

variable {d d' : Doc sh}

/-- A doc in which some records went, and what was listed under them. -/
structure Uproots (d d' : Doc sh) : Prop where
  kept : ∀ k, d'.records.get k = d.records.get k ∨ d'.records.get k = none
  listed : ∀ k, d'.index.parents k = d.index.parents k ∨
    (d'.get k = none ∧ d'.index.parents k = [])
  freed : ∀ z, (d.get z).isSome = true → d'.get z = none → ∀ k, (d'.get k).isSome = true →
    z ∉ d'.index.parents k

theorem Uproots.refl (d : Doc sh) : Uproots d d :=
  ⟨fun _ => .inl rfl, fun _ => .inl rfl, fun z hz hnone => by simp [hnone] at hz⟩

theorem Uproots.get (h : Uproots d d') {k : RecordKey} (hk : (d'.get k).isSome = true) :
    d'.get k = d.get k := by
  rcases h.kept k with hkept | hnone
  · simp [Doc.get, hkept]
  · simp [Doc.get, hnone] at hk

theorem Uproots.parents (h : Uproots d d') {k : RecordKey} (hk : (d'.get k).isSome = true) :
    d'.index.parents k = d.index.parents k := by
  rcases h.listed k with hl | ⟨hnone, -⟩
  · exact hl
  · simp [hnone] at hk

theorem Uproots.trans {x y z : Doc sh} (h : Uproots x y) (h' : Uproots y z) : Uproots x z where
  kept k := by
    rcases h'.kept k with hk | hk
    · rw [hk]
      exact h.kept k
    · exact .inr hk
  listed k := by
    rcases h'.listed k with hk | hk
    · rcases h.listed k with hl | ⟨hnone, hl⟩
      · exact .inl (hk.trans hl)
      · right
        rcases h'.kept k with hz | hz
        · exact ⟨by simpa [Doc.get, hz] using hnone, hk.trans hl⟩
        · exact ⟨by simp [Doc.get, hz], hk.trans hl⟩
    · exact .inr hk
  freed p hp hnone k hk := by
    by_cases hmid : (y.get p).isSome = true
    · exact h'.freed p hmid hnone k hk
    · rw [h'.parents hk]
      exact h.freed p hp (by simpa using hmid) k (h'.get hk ▸ hk)

theorem Uproots.size_le (h : Uproots d d') : d'.records.size ≤ d.records.size := by
  apply OrderedMap.size_le
  intro k hk
  rcases h.kept k with hkept | hnone
  · rwa [← hkept]
  · simp [hnone] at hk

/-- Where the root of what is listed beneath it has gone, all of it has. -/
theorem Uproots.beneath (h : Uproots d d') (hd : d.Tended) {k x : RecordKey}
    (hthere : (d.get k).isSome = true) (hgone : d'.get k = none)
    (hx : Search.Beneath d.childrenOf k x) : (d.get x).isSome = true ∧ d'.get x = none := by
  induction hx with
  | refl => exact ⟨hthere, hgone⟩
  | tail _ hstep ih =>
    next y x _ =>
    have hlisted := hd.paired.mem_childrenOf.mp hstep
    refine ⟨hd.there x y hlisted, ?_⟩
    by_contra hstays
    have hsome := Option.isSome_iff_ne_none.mpr hstays
    exact h.freed y ih.1 ih.2 x hsome (h.parents hsome ▸ hlisted)

@[simp] theorem childrenOf_note (d : Doc sh) (k : RecordKey) :
    (d.note k).childrenOf = d.childrenOf := by
  funext x
  simp [childrenOf]

@[simp] theorem subtreeMax_note (d : Doc sh) (k x : RecordKey) :
    (d.note k).subtreeMax x = d.subtreeMax x := by
  simp [subtreeMax, subtree, clockOf]

theorem records_edited {key : RecordKey} (d : Doc sh) (path : Path) (e : Entry) :
    (d.edited key path e).records = d.records.set key e := by
  unfold edited
  split_ifs <;> simp

/-- A record noted, dropped and linked again. -/
theorem records_dropped (d : Doc sh) (k x : RecordKey) :
    (((d.note k).drop k).relink k).records.get x = if k = x then none else d.records.get x := by
  simp [OrderedMap.get_erase]

theorem parents_dropped (d : Doc sh) (k x : RecordKey) :
    (((d.note k).drop k).relink k).index.parents x = d.index.parents x ∨
      (x = k ∧ (((d.note k).drop k).relink k).index.parents x = []) := by
  by_cases hc : sh.parentsOf k.1 = []
  · left
    simp [relink, hc, drop]
  · rw [parents_relink _ x hc]
    split_ifs with hx
    · exact .inr ⟨hx, by simp [namedParents, get]⟩
    · left
      simp [drop]

end Doc

/-- A cascade with fuel for every record takes along all that is listed under what it takes. -/
theorem removeRecord_uproots (fuel : ℕ) {d : Doc sh} (hfuel : d.records.size ≤ fuel)
    (hpaired : d.index.Paired) (k : RecordKey) :
    d.Uproots (d.removeRecord true fuel k).doc ∧ (d.removeRecord true fuel k).doc.get k = none := by
  induction fuel generalizing d k with
  | zero =>
    refine ⟨.refl d, ?_⟩
    have hnone := OrderedMap.size_eq_zero (Nat.le_zero.mp hfuel) k
    simp [Doc.removeRecord, Outcome.nothing, Doc.get, hnone]
  | succ fuel ih =>
    by_cases hnone : (d.get k).isNone = true
    · simp only [Doc.removeRecord, hnone, if_true]
      exact ⟨.refl d, Option.isNone_iff_eq_none.mp hnone⟩
    simp only [Doc.removeRecord, hnone]
    have hthere : (d.records.get k).isSome = true := by
      simpa [Doc.get, Option.isSome_iff_ne_none] using hnone
    have hsize : (((d.note k).drop k).relink k).records.size ≤ fuel := by
      have := OrderedMap.size_erase_lt hthere
      simp only [Doc.records_relink, Doc.records_drop, Doc.records_note]
      omega
    have hpaired' := (d.follows_drop k).paired hpaired
    -- every record beneath goes, and stays gone, while the rest is freed of what goes
    have hfold : ∀ (kids : List RecordKey) (out : Outcome sh), out.doc.index.Paired →
        out.doc.records.size ≤ fuel →
        let out' := kids.foldl (fun out kid => out.andThen (Doc.removeRecord true fuel kid)) out
        out.doc.Uproots out'.doc ∧ ∀ kid ∈ kids, out'.doc.get kid = none := by
      intro kids
      induction kids with
      | nil => exact fun out _ _ => ⟨.refl _, by simp⟩
      | cons kid kids ihk =>
        intro out hout hn
        obtain ⟨hup, hgone⟩ := ih hn hout kid
        have hpair := removeRecord_keeps (P := fun x : Doc sh => x.index.Paired)
          (fun x z hx _ => (x.follows_drop z).paired hx) true fuel hout kid
        obtain ⟨hrest, hkids⟩ := ihk (out.andThen (Doc.removeRecord true fuel kid)) hpair
          (hup.size_le.trans hn)
        refine ⟨hup.trans hrest, fun z hz => ?_⟩
        rcases List.mem_cons.mp hz with rfl | hz
        · by_contra hback
          have := hrest.get (Option.isSome_iff_ne_none.mpr hback)
          exact hback (this.trans hgone)
        · exact hkids z hz
    obtain ⟨hup, hkids⟩ := hfold (d.childrenOf k) ⟨((d.note k).drop k).relink k,
      [⟨k.1, k.2, [], .del⟩], []⟩ hpaired' hsize
    simp only [if_true, Bool.false_eq_true, if_false]
    generalize (d.childrenOf k).foldl
      (fun (out : Outcome sh) kid => out.andThen (Doc.removeRecord true fuel kid))
      ⟨((d.note k).drop k).relink k, [⟨k.1, k.2, [], .del⟩], []⟩ = out at hup hkids ⊢
    have hkept : ∀ x, out.doc.records.get x = d.records.get x ∨ out.doc.records.get x = none := by
      intro x
      rcases hup.kept x with hx | hx
      · rw [hx, Doc.records_dropped]
        split_ifs
        · exact .inr rfl
        · exact .inl rfl
      · exact .inr hx
    have hself : out.doc.get k = none := by
      rcases hup.kept k with hx | hx
      · simp [Doc.get, hx]
      · simp [Doc.get, hx]
    have hlisted : ∀ x, out.doc.index.parents x = d.index.parents x ∨
        (out.doc.get x = none ∧ out.doc.index.parents x = []) := by
      intro x
      rcases hup.listed x with hx | hx
      · rw [hx]
        rcases Doc.parents_dropped d k x with hd | ⟨rfl, hd⟩
        · exact .inl hd
        · exact .inr ⟨hself, hd⟩
      · exact .inr hx
    refine ⟨⟨hkept, hlisted, fun z hz hgone y hy => ?_⟩, hself⟩
    by_cases hzk : z = k
    · subst hzk
      intro hunder
      rcases hlisted y with hl | ⟨hnone, -⟩
      · rw [hl] at hunder
        rw [hkids y (hpaired.mem_childrenOf.mpr hunder)] at hy
        cases hy
      · simp [hnone] at hy
    · refine hup.freed z ?_ hgone y hy
      simpa [Doc.get, OrderedMap.get_erase, Ne.symm hzk] using hz

/-- What a cascade takes lies beneath the record it starts from. -/
theorem beneath_of_removed (fuel : ℕ) {d : Doc sh} (hpaired : d.index.Paired) {k x : RecordKey}
    (hthere : (d.get x).isSome = true) (hgone : (d.removeRecord true fuel k).doc.get x = none) :
    Search.Beneath d.childrenOf k x := by
  induction fuel generalizing d k with
  | zero =>
    have hsame : d.get x = none := hgone
    simp [hsame] at hthere
  | succ fuel ih =>
    by_cases hnone : (d.get k).isNone = true
    · have hsame : d.get x = none := by simpa [Doc.removeRecord, hnone, Outcome.nothing] using hgone
      simp [hsame] at hthere
    by_cases hkx : k = x
    · exact hkx ▸ .refl
    -- a doc on the way lists nothing that was not listed at the start
    let Shrunk (y : Doc sh) : Prop := y.index.Paired ∧
      ∀ z, y.index.parents z = d.index.parents z ∨ y.index.parents z = []
    have hshrunk : ∀ (y : Doc sh) (z : RecordKey), Shrunk y → Shrunk (((y.note z).drop z).relink z) := by
      rintro y z ⟨hp, hl⟩
      refine ⟨(y.follows_drop z).paired hp, fun w => ?_⟩
      rcases y.parents_dropped z w with hw | ⟨-, hw⟩
      · exact hw ▸ hl w
      · exact .inr hw
    have hfold : ∀ (kids : List RecordKey) (out : Outcome sh), Shrunk out.doc →
        (out.doc.get x).isSome = true →
        (kids.foldl (fun out kid => out.andThen (Doc.removeRecord true fuel kid)) out).doc.get x =
          none → ∃ kid ∈ kids, Search.Beneath d.childrenOf kid x := by
      intro kids
      induction kids with
      | nil =>
        intro out _ hsome hgone
        simp only [List.foldl_nil] at hgone
        simp [hgone] at hsome
      | cons kid kids ihk =>
        intro out hout hsome hgone
        by_cases hmid : (out.doc.removeRecord true fuel kid).doc.get x = none
        · refine ⟨kid, by simp, Relation.ReflTransGen.mono (fun a b hab => ?_) _ _
            (ih hout.1 hsome hmid)⟩
          have hlist := hout.1.mem_childrenOf.mp hab
          rcases hout.2 b with hb | hb
          · exact hpaired.mem_childrenOf.mpr (hb ▸ hlist)
          · simp [hb] at hlist
        · obtain ⟨kid', hkid', hb⟩ := ihk (out.andThen (Doc.removeRecord true fuel kid))
            (removeRecord_keeps (P := Shrunk) (fun y z hy _ => hshrunk y z hy) true fuel hout kid)
            (Option.isSome_iff_ne_none.mpr hmid) hgone
          exact ⟨kid', by simp [hkid'], hb⟩
    simp only [Doc.removeRecord, hnone, if_true, Bool.false_eq_true, if_false] at hgone
    obtain ⟨kid, hkid, hb⟩ := hfold _ _ (hshrunk d k ⟨hpaired, fun _ => .inl rfl⟩)
      (by simpa [Doc.get, OrderedMap.get_erase, hkx] using hthere) hgone
    exact .head hkid hb

namespace Doc

/-- Whether a judged change deletes a record that is there. -/
def deletes (ts : ℕ) (change : Change) (d : Doc sh) : Bool :=
  let key := sh.recordKey change.c change.id
  change.path.isEmpty && change.write = .del && (d.records.get key).isSome &&
    !decide ((ts : ℤ) < d.subtreeMax key)

/-- Whether judged changes delete a record beneath another that one of them deletes. -/
def Takes (ts : ℕ) (k : RecordKey) : List Change → Doc sh → Prop
  | [], _ => False
  | change :: changes, d =>
    (d.deletes ts change = true ∧ k ≠ sh.recordKey change.c change.id ∧
      Search.Beneath d.childrenOf (sh.recordKey change.c change.id) k) ∨
    ∃ out, apply ts .judge change d = .ok out ∧ Takes ts k changes out.doc

end Doc

section Judged

variable {ts : ℕ} {d : Doc sh} {change : Change} {out : Outcome sh} {k : RecordKey}

/-- What a judged change that deletes does. -/
theorem doc_of_deletes (h : apply ts .judge change d = .ok out) (hdel : d.deletes ts change = true) :
    out.doc = ((d.note (sh.recordKey change.c change.id)).removeRecord true d.records.size
      (sh.recordKey change.c change.id)).doc := by
  obtain ⟨-, rfl⟩ := of_apply h
  simp only [Doc.deletes, Bool.and_eq_true, List.isEmpty_iff, decide_eq_true_eq,
    Bool.not_eq_true'] at hdel
  obtain ⟨⟨⟨hpath, hwrite⟩, hthere⟩, hnewest⟩ := hdel
  have hnone : (d.records.get (sh.recordKey change.c change.id)).isNone = false := by
    simpa [Option.isSome_iff_ne_none] using hthere
  simp [hpath, hwrite, Write.value, Write.kind, run, step, settledKind, atRoot, deleteRoot,
    Step.outcome, hnone, hnewest, Mode.cascades]

/-- A judged change that deletes no record touches no other than its own. -/
theorem others_of_not_deletes (h : apply ts .judge change d = .ok out)
    (hdel : d.deletes ts change = false) (hk : k ≠ sh.recordKey change.c change.id) :
    out.doc.records.get k = d.records.get k := by
  obtain ⟨hsingle, rfl⟩ := of_apply h
  have hwrite : ∀ (x : Doc sh) (e : Entry), (x.write (sh.recordKey change.c change.id) e).records.get k
      = x.records.get k := fun x e => by simp [OrderedMap.get_set, Ne.symm hk]
  refine run_keeps (P := fun x => x.records.get k = d.records.get k) (normal_recordKey _ _)
    (fun x x' value kind path hpath hx hdeed => ?_) _ _ _ d rfl hsingle
    (fun hm => absurd hm (by decide)) fun hroot x' hdeed => ?_
  · cases hdeed with
    | nothing => simpa using hx
    | remove hroot => exact absurd hroot hpath
    | whole hroot => exact absurd hroot hpath
    | inside => simpa [Doc.records_edited, OrderedMap.get_set, Ne.symm hk] using hx
  · cases hdeed with
    | nothing => simp
    | remove _ hasked hthere hnewest =>
      have hw : change.write = .del := by
        cases hwr : change.write <;> simp_all [Write.kind]
      have hnewest := hnewest rfl
      rw [Doc.subtreeMax_note] at hnewest
      simp [Doc.deletes, hroot, hw, hnewest] at hdel
      simp [hdel] at hthere
    | whole => simpa using hwrite _ _
    | inside hpath => exact absurd rfl hpath

theorem follows_of_judged (h : apply ts .judge change d = .ok out) : d.Follows out.doc := by
  obtain ⟨hsingle, rfl⟩ := of_apply h
  exact run_follows (normal_recordKey _ _) _ _ _ d hsingle fun hm => absurd hm (by decide)

theorem uproots_of_deletes (h : apply ts .judge change d = .ok out) (hdel : d.deletes ts change = true)
    (hpaired : d.index.Paired) : d.Uproots out.doc ∧
      out.doc.get (sh.recordKey change.c change.id) = none := by
  rw [doc_of_deletes h hdel]
  have hnoted : d.Uproots (d.note (sh.recordKey change.c change.id)) :=
    ⟨fun _ => .inl (by simp), fun _ => .inl (by simp), fun z hz hnone => by
      simp [Doc.get] at hz hnone
      simp [hnone] at hz⟩
  obtain ⟨hup, hgone⟩ := removeRecord_uproots d.records.size (by simp)
    ((d.follows_note _).paired hpaired) (sh.recordKey change.c change.id)
  exact ⟨hnoted.trans hup, hgone⟩

/-- A record no change names stays as it is or goes. -/
theorem kept_of_judged (h : apply ts .judge change d = .ok out) (hpaired : d.index.Paired)
    (hk : k ≠ sh.recordKey change.c change.id) :
    out.doc.records.get k = d.records.get k ∨ out.doc.records.get k = none := by
  cases hdel : d.deletes ts change with
  | true => exact (uproots_of_deletes h hdel hpaired).1.kept k
  | false => exact .inl (others_of_not_deletes h hdel hk)

variable {changes : List Change}

theorem kept_of_judgedAll (h : applyAll ts .judge changes d = .ok out) (hpaired : d.index.Paired)
    (hk : ∀ ch ∈ changes, k ≠ sh.recordKey ch.c ch.id) :
    out.doc.records.get k = d.records.get k ∨ out.doc.records.get k = none := by
  induction changes generalizing d out with
  | nil =>
    cases h
    exact .inl rfl
  | cons change changes ih =>
    obtain ⟨o, m, ho, hm, rfl⟩ := of_applyAll_cons h
    rcases ih hm ((follows_of_judged ho).paired hpaired) fun ch hch => hk ch (by simp [hch]) with hr | hr
    · rcases kept_of_judged ho hpaired (hk change (by simp)) with hs | hs
      · exact .inl (hr.trans hs)
      · exact .inr (hr.trans hs)
    · exact .inr hr

/-- A record that changed, though no change names it, was taken along. -/
theorem takes_of_changed (h : applyAll ts .judge changes d = .ok out) (hpaired : d.index.Paired)
    (hk : ∀ ch ∈ changes, k ≠ sh.recordKey ch.c ch.id)
    (hchanged : out.doc.records.get k ≠ d.records.get k) : d.Takes ts k changes := by
  induction changes generalizing d out with
  | nil =>
    cases h
    exact absurd rfl hchanged
  | cons change changes ih =>
    obtain ⟨o, m, ho, hm, rfl⟩ := of_applyAll_cons h
    have hname := hk change (by simp)
    by_cases hone : o.doc.records.get k = d.records.get k
    · refine .inr ⟨o, ho, ih hm ((follows_of_judged ho).paired hpaired)
        (fun ch hch => hk ch (by simp [hch])) ?_⟩
      rw [hone]
      exact hchanged
    cases hdel : d.deletes ts change with
    | false => exact absurd (others_of_not_deletes ho hdel hname) hone
    | true =>
      have hgone := (kept_of_judged ho hpaired hname).resolve_left hone
      have hthere : ((d.note (sh.recordKey change.c change.id)).get k).isSome = true := by
        rw [hgone] at hone
        simpa [Doc.get, Option.isSome_iff_ne_none] using Ne.symm hone
      have hb := beneath_of_removed d.records.size ((d.follows_note _).paired hpaired) hthere
        (k := sh.recordKey change.c change.id) (by simp [← doc_of_deletes ho hdel, Doc.get, hgone])
      exact .inl ⟨hdel, hname, by simpa using hb⟩

/-- A record taken along was there, and has gone. -/
theorem gone_of_takes (h : applyAll ts .judge changes d = .ok out) (htended : d.Tended)
    (hk : ∀ ch ∈ changes, k ≠ sh.recordKey ch.c ch.id) (ht : d.Takes ts k changes) :
    (d.get k).isSome = true ∧ out.doc.get k = none := by
  induction changes generalizing d out with
  | nil => exact ht.elim
  | cons change changes ih =>
    obtain ⟨o, m, ho, hm, rfl⟩ := of_applyAll_cons h
    have hnamed : ∀ ch ∈ changes, k ≠ sh.recordKey ch.c ch.id := fun ch hch => hk ch (by simp [hch])
    have hfollows := follows_of_judged ho
    rcases ht with ⟨hdel, -, hb⟩ | ⟨o', ho', ht⟩
    · obtain ⟨hup, hself⟩ := uproots_of_deletes ho hdel htended.paired
      have hroot : (d.get (sh.recordKey change.c change.id)).isSome = true := by
        simp only [Doc.deletes, Bool.and_eq_true] at hdel
        simpa [Doc.get] using hdel.1.2
      obtain ⟨hthere, hgone⟩ := hup.beneath htended hroot hself hb
      refine ⟨hthere, ?_⟩
      rcases kept_of_judgedAll hm (hfollows.paired htended.paired) hnamed with hr | hr
      · simpa [Doc.get, hr] using hgone
      · simp [Doc.get, hr]
    · obtain rfl : o = o' := Except.ok.inj (ho.symm.trans ho')
      obtain ⟨hthere, hgone⟩ := ih hm (hfollows.tended htended) hnamed ht
      refine ⟨?_, hgone⟩
      rcases kept_of_judged ho htended.paired (hk change (by simp)) with hr | hr
      · simpa [Doc.get, hr] using hthere
      · simp [Doc.get, hr] at hthere

end Judged

end LazyStorage.Core
