import LazyStorage.Core.Cascade

/-! # A trial, and its undoing

While a trial runs, the journal holds each record it has touched as it was
before. Put back from the journal, every record is what it was, and the child
index lists the children there were.
-/
namespace LazyStorage.Core

open Lib

variable {sh : Shape} {ts : ℕ} {mode : Mode} {key : RecordKey}

namespace Doc

variable {d₀ d d' : Doc sh}

/-- Every singleton is there. -/
def Full (d : Doc sh) : Prop := ∀ c, sh.isSingleton c = true → (d.records.get (c, none)).isSome = true

/-- A trial begun on `d₀`: what the journal does not hold has not changed, and what it holds is
as it was. It holds no singleton that was not there. -/
def Traced (d₀ d : Doc sh) : Prop :=
  ∃ before, d.journal = some before ∧
    (∀ k, (before.get k).getD (d.records.get k) = d₀.records.get k) ∧
    ∀ k, before.get k = some none → sh.isSingleton k.1 = false

theorem Traced.start (d : Doc sh) : d.Traced { d with journal := some .empty } :=
  ⟨.empty, rfl, fun _ => by simp, fun _ => by simp⟩

@[simp] theorem journal_relink (d : Doc sh) (k : RecordKey) : (d.relink k).journal = d.journal := by
  unfold relink
  split_ifs <;> rfl

/-- A record noted, and no other touched. -/
theorem Traced.touch {k : RecordKey} (h : d₀.Traced d)
    (hthere : d.records.get k = none → sh.isSingleton k.1 = false)
    (hjournal : d'.journal = (d.note k).journal)
    (hother : ∀ x, x ≠ k → d'.records.get x = d.records.get x) : d₀.Traced d' := by
  obtain ⟨before, hbefore, hwas, hsingle⟩ := h
  simp only [note, hbefore] at hjournal
  by_cases hk : before.has k = true
  · refine ⟨before, by simpa [hk, hbefore] using hjournal, fun x => ?_, hsingle⟩
    by_cases hx : x = k
    · obtain ⟨e, he⟩ := Option.isSome_iff_exists.mp (hx ▸ hk)
      simpa [he] using hwas x
    · rw [hother x hx]
      exact hwas x
  · have hnone : before.get k = none := by simpa [OrderedMap.has] using hk
    refine ⟨before.set k (d.records.get k), by simpa [hk] using hjournal, fun x => ?_, fun x hx => ?_⟩
    · rw [OrderedMap.get_set]
      split_ifs with hx
      · have := hwas k
        rw [hnone] at this
        exact hx ▸ this
      · rw [hother x (Ne.symm hx)]
        exact hwas x
    · rw [OrderedMap.get_set] at hx
      split_ifs at hx with hkx
      · exact hkx ▸ hthere (Option.some.inj hx)
      · exact hsingle x hx

theorem Full.singleton (h : d.Full) (hkey : Normal sh key) (hnone : d.records.get key = none) :
    sh.isSingleton key.1 = false := by
  by_contra hs
  have hs : sh.isSingleton key.1 = true := by simpa using hs
  have hk : key = (key.1, none) := by
    rw [← hkey]
    simp [Shape.recordKey, hs]
  have := h key.1 hs
  rw [← hk, hnone] at this
  cases this

/-- What changes one record, and leaves it there, keeps every singleton. -/
theorem Full.of_write (key : RecordKey) (h : d.Full) (hthere : (d'.records.get key).isSome = true)
    (hother : ∀ x, x ≠ key → d'.records.get x = d.records.get x) : d'.Full := by
  intro c hc
  by_cases hk : ((c, none) : RecordKey) = key
  · exact hk ▸ hthere
  · exact hother _ hk ▸ h c hc

theorem journal_edited (d : Doc sh) (path : Path) (e : Entry) :
    (d.edited key path e).journal = d.journal := by
  unfold edited
  split_ifs
  · exact journal_relink _ key
  · rfl

end Doc

section Deeds

variable {value : Value} {kind : Kind} {path : Path} {d₀ d d' : Doc sh}

/-- No deed takes a singleton away. -/
theorem Deed.full (h : Deed ts mode key value kind path d d') (hcascade : mode.cascades = true)
    (hsingle : path = [] → kind = .del → sh.isSingleton key.1 = false) (hpaired : d.index.Paired)
    (hd : d.Full) : d'.Full := by
  cases h with
  | nothing => exact hd
  | remove hroot hasked =>
    intro c hc
    by_contra hgone
    rw [hcascade] at hgone
    have hthere : (d.get (c, none)).isSome = true := by simpa [Doc.get] using hd c hc
    have hb := beneath_of_removed d.records.size hpaired (k := key) hthere
      (by simpa [Doc.get] using hgone)
    rcases Relation.ReflTransGen.cases_tail hb with heq | ⟨p, -, hp⟩
    · have := hsingle hroot hasked
      rw [← heq, hc] at this
      cases this
    · exact hpaired.linked (hpaired.mem_childrenOf.mp hp) (Shape.parentsOf_singleton hc)
  | whole =>
    refine hd.of_write key (by simp) fun x hx => ?_
    simp [OrderedMap.get_set, Ne.symm hx]
  | inside hpath he hparent hedit hdata =>
    refine hd.of_write key (by simp [Doc.records_edited]) fun x hx => ?_
    simp [Doc.records_edited, OrderedMap.get_set, Ne.symm hx]

/-- Whatever a deed does to a noted record, the journal tells what there was. -/
theorem Deed.traced (h : Deed ts mode key value kind path (d.note key) d')
    (hthere : d.records.get key = none → sh.isSingleton key.1 = false) (hd : d₀.Traced d) :
    d₀.Traced d' := by
  have hnoted : d₀.Traced (d.note key) := hd.touch hthere rfl (by simp)
  cases h with
  | nothing => exact hnoted
  | remove =>
    refine removeRecord_keeps (P := d₀.Traced) (fun x k hx hsome => ?_) _ _ hnoted key
    refine hx.touch (k := k) (fun hnone => ?_) (by simp [Doc.drop]) fun z hz => ?_
    · simp [Doc.get, hnone] at hsome
    · rw [Doc.records_dropped, if_neg (Ne.symm hz)]
  | whole =>
    refine hd.touch hthere (by simp [Doc.write]) fun x hx => ?_
    simp [OrderedMap.get_set, Ne.symm hx]
  | inside hpath he hparent hedit hdata =>
    refine hd.touch hthere (by simp [Doc.journal_edited]) fun x hx => ?_
    simp [Doc.records_edited, OrderedMap.get_set, Ne.symm hx]

end Deeds

/-- What every doc of a store keeps: its index lists records that are there, and every singleton
is. -/
structure Doc.Sound (d : Doc sh) : Prop where
  tended : d.Tended
  full : d.Full

/-- A journal does not matter. -/
theorem Doc.Sound.congr {d d' : Doc sh} (h : d.Sound) (hrec : d'.records = d.records)
    (hindex : d'.index = d.index) : d'.Sound where
  tended := ⟨hindex ▸ h.tended.paired, fun k p hp => by
    simpa [Doc.get, hrec] using h.tended.there k p (hindex ▸ hp)⟩
  full c hc := hrec ▸ h.full c hc

theorem Doc.Indexed.congr {d d' : Doc sh} (hrec : d'.records = d.records)
    (hindex : d'.index = d.index) (h : d.Indexed) : d'.Indexed where
  paired := hindex ▸ h.paired
  exact k p := by
    have hget : d'.get k = d.get k := by simp [Doc.get, hrec]
    rw [hindex, h.exact k p, Doc.namedParents_congr hget]

theorem Doc.Sound.note {d : Doc sh} (h : d.Sound) (k : RecordKey) : (d.note k).Sound :=
  ⟨(d.follows_note k).tended h.tended, fun c hc => by simpa using h.full c hc⟩

theorem Deed.sound {value : Value} {kind : Kind} {path : Path} {d d' : Doc sh}
    (h : Deed ts mode key value kind path d d') (hcascade : mode.cascades = true)
    (hsingle : path = [] → kind = .del → sh.isSingleton key.1 = false) (hd : d.Sound) : d'.Sound :=
  ⟨h.follows.tended hd.tended, h.full hcascade hsingle hd.tended.paired hd.full⟩

section Lists

variable {changes : List Change} {d : Doc sh} {out : Outcome sh}
  (hwhole : mode.makes = true → ∀ ch ∈ changes, ch.path = [])
include hwhole

/-- A list of changes that takes children along keeps a doc sound. -/
theorem applyAll_sound (hcascade : mode.cascades = true) (h : applyAll ts mode changes d = .ok out)
    (hd : d.Sound) : out.doc.Sound :=
  applyAll_keeps (fun key _ _ _ _ _ _ hsingle hx hdeed =>
    hdeed.sound hcascade hsingle (hx.note key)) hwhole h hd

theorem applyAll_follows (h : applyAll ts mode changes d = .ok out) : d.Follows out.doc :=
  applyAll_keeps (P := d.Follows) (fun key x _ _ _ _ _ _ hx hdeed =>
    (hx.trans (x.follows_note key)).trans hdeed.follows) hwhole h (.refl d)

end Lists

/-- A trial of judged changes can be told apart from its start by the journal alone. -/
theorem traced_of_judged {changes : List Change} {d : Doc sh} {out : Outcome sh}
    (h : applyAll ts .judge changes { d with journal := some .empty } = .ok out) (hd : d.Sound) :
    d.Traced out.doc := by
  have hstart : Doc.Sound { d with journal := some .empty } :=
    ⟨⟨hd.tended.paired, hd.tended.there⟩, hd.full⟩
  have hend := applyAll_keeps (P := fun x : Doc sh => x.Sound ∧ d.Traced x)
    (fun key x x' value kind path hkey hsingle hx hdeed =>
      ⟨hdeed.sound rfl hsingle (hx.1.note key), hdeed.traced (hx.1.full.singleton hkey) hx.2⟩)
    (fun hm => absurd hm (by decide)) h ⟨hstart, .start d⟩
  exact hend.2

namespace Doc

variable {d₀ d d' : Doc sh}

/-- What a record is once put back. -/
theorem records_setRecord (d : Doc sh) (k : RecordKey) (e : Option Entry)
    (hsingle : e = none → sh.isSingleton k.1 = false) (x : RecordKey) :
    (d.setRecord k e).records.get x = if k = x then e else d.records.get x := by
  cases e with
  | some e => simp [setRecord, OrderedMap.get_set]
  | none =>
    simp only [setRecord, hsingle rfl]
    simp [OrderedMap.get_erase]

theorem records_undo {l : List (RecordKey × Option Entry)} (hl : (l.map Prod.fst).Nodup)
    (hsingle : ∀ k, (k, none) ∈ l → sh.isSingleton k.1 = false) (d : Doc sh) (x : RecordKey) :
    (l.foldl (fun d e => d.setRecord e.1 e.2) d).records.get x =
      (Assoc.get l x).getD (d.records.get x) := by
  induction l generalizing d with
  | nil => rfl
  | cons r l ih =>
    obtain ⟨k, e⟩ := r
    simp only [List.map_cons, List.nodup_cons] at hl
    rw [List.foldl_cons, ih hl.2 (fun k hk => hsingle k (by simp [hk])),
      records_setRecord d k e (fun he => hsingle k (by simp [he])), Assoc.get_cons]
    split_ifs with hk
    · subst hk
      rw [Assoc.get_eq_none_iff.mpr hl.1]
      rfl
    · rfl

theorem follows_setRecord (d : Doc sh) (k : RecordKey) (e : Option Entry) :
    Follows d (d.setRecord k e) := by
  have hdrop : Follows d ((d.drop k).relink k) :=
    follows_relink rfl fun x hx => by simp [get, OrderedMap.get_erase, Ne.symm hx]
  cases e with
  | some e => exact follows_write d k e
  | none =>
    simp only [setRecord]
    split_ifs
    · exact follows_write d k _
    · exact hdrop

theorem follows_undo (d : Doc sh) (before : OrderedMap RecordKey (Option Entry)) :
    Follows d (d.undo before) := by
  unfold undo
  generalize before.entries = l
  induction l generalizing d with
  | nil => exact .refl d
  | cons r l ih => exact (follows_setRecord d r.1 r.2).trans (ih _)

/-- A trial undone leaves every record, its data and its clock, as it was. -/
theorem Traced.undone (h : d₀.Traced d) (k : RecordKey) :
    (Doc.undo { d with journal := none } (d.journal.getD .empty)).records.get k =
      d₀.records.get k := by
  obtain ⟨before, hbefore, hwas, hsingle⟩ := h
  rw [hbefore, Option.getD_some, undo, records_undo before.nodup fun x hx =>
    hsingle x (OrderedMap.mem_entries.mp hx)]
  exact hwas k

@[simp] theorem records_foldl_relink (keys : List RecordKey) (d : Doc sh) :
    (keys.foldl (fun d key => d.relink key) d).records = d.records := by
  induction keys generalizing d with
  | nil => rfl
  | cons key keys ih => rw [List.foldl_cons, ih, records_relink]

/-- Every singleton is there from the start. -/
theorem full_load (stored : List (RecordKey × Entry)) : (load sh stored).Full := by
  intro c hc
  simp only [load, ofRecords, records_foldl_relink]
  have hkeep : ∀ (l : List (RecordKey × Entry)) (m : OrderedMap RecordKey Entry),
      (m.get (c, none)).isSome = true →
      ((l.foldl (fun m r =>
        if (sh.isCollection r.1.1 && r.1.2.isSome) || sh.isSingleton r.1.1 then
          m.set (sh.recordKey r.1.1 r.1.2) r.2 else m) m).get (c, none)).isSome = true := by
    intro l
    induction l with
    | nil => exact fun m hm => hm
    | cons r l ih =>
      intro m hm
      apply ih
      dsimp only
      split_ifs
      · rw [OrderedMap.get_set]
        split_ifs
        · rfl
        · exact hm
      · exact hm
  apply hkeep
  have hmem := Shape.isSingleton_iff.mp hc
  have hsingles : ∀ (l : List String) (m : OrderedMap RecordKey Entry),
      (c ∈ l ∨ (m.get (c, none)).isSome = true) →
      ((l.foldl (fun m c => m.set (c, none) ⟨sh.initial c, .new⟩) m).get (c, none)).isSome = true := by
    intro l
    induction l with
    | nil => exact fun m hm => hm.resolve_left (by simp)
    | cons x l ih =>
      intro m hm
      apply ih
      by_cases hx : x = c
      · right
        simp [hx]
      · rcases hm with hm | hm
        · exact .inl ((List.mem_cons.mp hm).resolve_left (Ne.symm hx))
        · right
          simpa [OrderedMap.get_set, hx] using hm
  exact hsingles _ _ (.inl hmem)

theorem sound_load (stored : List (RecordKey × Entry)) : (load sh stored).Sound :=
  ⟨(indexed_load stored).tended, full_load stored⟩

theorem get_prune (cutoff : ℤ) (d : Doc sh) (k : RecordKey) : (d.prune cutoff).get k = d.get k := by
  simp [prune, get, OrderedMap.get_mapVal, Function.comp_def]

theorem follows_prune (cutoff : ℤ) (d : Doc sh) : Follows d (d.prune cutoff) :=
  ⟨id, fun k => .inr ⟨rfl, namedParents_congr (get_prune cutoff d k), fun _ => by rw [get_prune]; exact id⟩⟩

theorem Sound.prune (h : d.Sound) (cutoff : ℤ) : (d.prune cutoff).Sound :=
  ⟨(follows_prune cutoff d).tended h.tended, fun c hc => by
    simpa [Doc.prune, OrderedMap.get_mapVal] using h.full c hc⟩

/-- A trial undone keeps a doc sound. -/
theorem Sound.undone (h : d₀.Sound) (ht : d₀.Traced d) (hd : d.Sound) :
    (Doc.undo { d with journal := none } (d.journal.getD .empty)).Sound := by
  refine ⟨(follows_undo _ _).tended ⟨hd.tended.paired, hd.tended.there⟩, fun c hc => ?_⟩
  rw [ht.undone]
  exact h.full c hc

end Doc

end LazyStorage.Core
