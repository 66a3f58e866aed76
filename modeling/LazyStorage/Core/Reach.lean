import LazyStorage.Core.Kinship
import LazyStorage.Core.Touches

/-! # How far changes reach

Judged changes reach no further than the records beneath those they name, through
the children there are; trusted ones reach the records they name. No change but a
deletion takes a record away, so no singleton ever goes.
-/
namespace LazyStorage.Core

open Lib

variable {sh : Shape} {ts : ℕ} {mode : Mode} {key : RecordKey}

section There

variable {value : Value} {kind : Kind} {path : Path} {d : Doc sh}

theorem atRoot_there (hdel : kind ≠ .del) (h : (d.records.get key).isSome = true) :
    ((atRoot ts mode key value kind d).outcome.doc.records.get key).isSome = true := by
  have hwrite : ((writeRoot ts mode key value kind d).doc.records.get key).isSome = true := by
    unfold writeRoot writeWhole
    dsimp only
    split_ifs
    · exact h
    · exact h
    · simp
  unfold atRoot
  cases kind with
  | put =>
    dsimp only
    split_ifs
    · exact h
    · exact hwrite
  | set => exact hwrite
  | del => exact absurd rfl hdel

theorem within_there (e : Entry) {out : Outcome sh} (h : (out.doc.records.get key).isSome = true) :
    ((within ts mode key value kind path e out).outcome.doc.records.get key).isSome = true := by
  unfold within
  split
  · exact h
  dsimp only
  split_ifs
  · simp [Step.outcome, Outcome.lose]
  split
  · simp [Step.outcome, Outcome.lose]
  · simp [Step.outcome]
  · simp [Step.outcome]
  · simp only [Step.outcome, landed, Outcome.report]
    split_ifs
    · simp
    · simp

theorem step_there (hdel : path = [] → kind ≠ .del) (h : (d.records.get key).isSome = true) :
    ((step ts mode key value kind path d).outcome.doc.records.get key).isSome = true := by
  have hnoted : ((d.note key).records.get key).isSome = true := by simpa using h
  unfold step
  dsimp only
  split
  · next hpath =>
    refine atRoot_there (fun hk => ?_) hnoted
    have hkind := hdel (List.isEmpty_iff.mp hpath)
    revert hk
    unfold settledKind
    cases kind with
    | del => exact absurd rfl hkind
    | put => dsimp only; split_ifs <;> simp
    | set => dsimp only; split_ifs <;> simp
  split
  · exact within_there _ hnoted
  · next hnone =>
    rw [hnone] at hnoted
    cases hnoted

/-- A record that is there stays, unless it is deleted. -/
theorem run_there (value : Value) : ∀ (kind : Kind) (path : Path) (d : Doc sh), (path = [] → kind ≠ .del) →
    (d.records.get key).isSome = true → ((run ts mode key value kind path d).doc.records.get key).isSome = true := by
  induction value using Value.merging_induction with
  | leaf v hv =>
    intro kind path d hdel h
    have hs : ((step ts mode key v kind path d).outcome.doc.records.get key).isSome = true := step_there hdel h
    cases v <;> first | simpa only [run] using hs | exact absurd hv (by simp)
  | fields fs ih =>
    intro kind path d hdel h
    have hfields : ∀ gs : List (String × Value), (∀ e ∈ gs, e ∈ fs) → ∀ d : Doc sh,
        (d.records.get key).isSome = true →
        ((runFields ts mode key gs path d).doc.records.get key).isSome = true := by
      intro gs hg
      induction gs with
      | nil => exact fun d h => h
      | cons e gs ihg =>
        intro d h
        exact ihg (fun e he => hg e (by simp [he])) _ (ih e (hg e (by simp)) _ _ d (by simp) h)
    have hs : ((step ts mode key (.obj fs) kind path d).outcome.doc.records.get key).isSome = true :=
      step_there hdel h
    simp only [run]
    revert hs
    generalize step ts mode key (.obj fs) kind path d = s
    intro hs
    cases s with
    | done out => exact hs
    | merge out => exact hfields fs (fun _ h => h) out.doc hs

end There

/-- A change to a record the shape has, that writes nothing beneath a link field. -/
def Change.fits (sh : Shape) (change : Change) : Bool :=
  sh.keyed (sh.recordKey change.c change.id) &&
    match change.path with
    | field :: _ :: _ => (sh.parentsOf (sh.recordKey change.c change.id).1).all fun link => link.field ≠ field
    | _ => true

namespace Doc

variable {d d' : Doc sh} {A : RecordKey → Prop}

/-- A doc whose index lists the children there are, and that has every singleton. -/
structure Sane (d : Doc sh) : Prop where
  indexed : d.Indexed
  full : d.Full

theorem Sane.sound (h : d.Sane) : d.Sound := ⟨h.indexed.tended, h.full⟩

theorem sane_load (stored : List (RecordKey × Entry)) : (load sh stored).Sane :=
  ⟨indexed_load stored, full_load stored⟩

theorem Sane.note (h : d.Sane) (key : RecordKey) : (d.note key).Sane where
  indexed := (d.follows_note key).indexed h.indexed
  full c hc := by
    rw [get_note]
    exact h.full c hc

theorem Sane.setRecord (h : d.Sane) {key : RecordKey} {e : Option Entry}
    (hkey : sh.isSingleton key.1 = true → e.isSome = true) : (d.setRecord key e).Sane where
  indexed := (d.follows_setRecord key e).indexed h.indexed
  full c hc := by
    cases e with
    | some e =>
      rw [Doc.setRecord, records_relink, records_write, OrderedMap.get_set]
      split_ifs
      · rfl
      · exact h.full c hc
    | none =>
      have hs : sh.isSingleton key.1 = false := by
        by_contra hs
        cases hkey (by simpa using hs)
      have hne : key ≠ (c, none) := by
        rintro rfl
        rw [hc] at hs
        cases hs
      rw [Doc.setRecord, hs, if_neg (by simp), records_relink, records_drop, OrderedMap.get_erase_of_ne _ hne]
      exact h.full c hc

theorem get_setRecord {key : RecordKey} {e : Option Entry} (hkey : sh.isSingleton key.1 = true → e.isSome = true)
    (k : RecordKey) : (d.setRecord key e).records.get k = if key = k then e else d.records.get k := by
  cases e with
  | some e => rw [Doc.setRecord, records_relink, records_write, OrderedMap.get_set]
  | none =>
    have hs : sh.isSingleton key.1 = false := by
      by_contra hs
      cases hkey (by simpa using hs)
    rw [Doc.setRecord, hs, if_neg (by simp), records_relink, records_drop, OrderedMap.get_erase]

/-- A set of records is closed when it has the children of each of its own. -/
def Closed (A : RecordKey → Prop) (d : Doc sh) : Prop := ∀ p k, A p → k ∈ d.childrenOf p → A k

theorem Closed.beneath (h : d.Closed A) {p k : RecordKey} (hp : A p) (hk : Search.Beneath d.childrenOf p k) :
    A k := by
  induction hk with
  | refl => exact hp
  | tail _ hstep ih => exact h _ _ ih hstep

/-- Docs that have the same records but for those of a set: it is closed in both or in neither. -/
theorem Closed.congr (h : d.Closed A) (hd : d.Indexed) (hd' : d'.Indexed)
    (hsame : ∀ k, ¬A k → d'.records.get k = d.records.get k) : d'.Closed A := by
  intro p k hp hk
  by_contra hoff
  have hnamed : d'.namedParents k = d.namedParents k := namedParents_congr (by rw [Doc.get, Doc.get, hsame k hoff])
  have hparent := hd'.mem_childrenOf.mp hk
  rw [hnamed] at hparent
  exact hoff (h p k hp (hd.mem_childrenOf.mpr hparent))

end Doc

section Apply

variable {change : Change} {d : Doc sh} {out : Outcome sh}

/-- A judged change leaves every record but those of a closed set that has the one it names. -/
theorem judged_reach {A : RecordKey → Prop} (h : apply ts .judge change d = .ok out) (hd : d.Sane) (hA : d.Closed A)
    (hnames : A (sh.recordKey change.c change.id)) :
    out.doc.Sane ∧ ∀ k, ¬A k → out.doc.records.get k = d.records.get k := by
  have hall := applyAll_one h
  have hsound := applyAll_sound (fun hm => absurd hm (by decide)) rfl hall hd.sound
  refine ⟨⟨(follows_of_judged h).indexed hd.indexed, hsound.full⟩, fun k hk => ?_⟩
  by_contra hchanged
  have hother : ∀ ch ∈ [change], k ≠ sh.recordKey ch.c ch.id := by
    intro ch hch
    obtain rfl := List.mem_singleton.mp hch
    rintro rfl
    exact hk hnames
  rcases takes_of_changed hall hd.indexed.paired hother hchanged with ⟨-, -, hb⟩ | ⟨_, _, hnever⟩
  · exact hk (hA.beneath hnames hb)
  · exact hnever

/-- A trusted change leaves every record but the one it names, and takes no singleton away. -/
theorem trusted_reach (h : apply ts .trust change d = .ok out) (hd : d.Sane) (hfits : change.fits sh = true) :
    out.doc.Sane ∧ ∀ k, k ≠ sh.recordKey change.c change.id → out.doc.records.get k = d.records.get k := by
  have hother : ∀ k, k ≠ sh.recordKey change.c change.id → out.doc.records.get k = d.records.get k := fun k hk =>
    trusted_spares (applyAll_one h) fun ch hch => by
      obtain rfl := List.mem_singleton.mp hch
      exact Ne.symm hk
  obtain ⟨hsingle, rfl⟩ := of_apply h
  refine ⟨⟨?_, fun c hc => ?_⟩, hother⟩
  · refine run_indexed (normal_recordKey _ _) _ _ _ hsingle hd.indexed ?_
    rintro - fs field seg rest - hpath
    simp only [Change.fits, hpath, Bool.and_eq_true, List.all_eq_true, decide_eq_true_eq] at hfits
    simp only [Doc.namesAlone, List.any_eq_false, Bool.and_eq_true, decide_eq_true_eq, not_and]
    exact fun link hlink hfield => absurd hfield (hfits.2 link hlink)
  · by_cases hkey : ((c, none) : RecordKey) = sh.recordKey change.c change.id
    · rw [hkey]
      refine run_there _ _ _ _ (fun hpath hkind => ?_) (hkey ▸ hd.full c hc)
      have hno := hsingle hpath hkind
      rw [← hkey, hc] at hno
      cases hno
    · rw [hother _ hkey]
      exact hd.full c hc

end Apply

/-- What a doc loaded has is a singleton, or was stored. -/
theorem Doc.of_load {stored : List (RecordKey × Entry)} {k : RecordKey}
    (h : ((Doc.load sh stored).records.get k).isSome = true) :
    sh.keyed k = true ∧ (sh.isSingleton k.1 = true ∨ ∃ r ∈ stored, sh.isCollection r.1.1 = true ∧ r.1 = k) := by
  let P (k : RecordKey) : Prop :=
    sh.keyed k = true ∧ (sh.isSingleton k.1 = true ∨ ∃ r ∈ stored, sh.isCollection r.1.1 = true ∧ r.1 = k)
  have hset : ∀ {m : OrderedMap RecordKey Entry} {key : RecordKey} {e : Entry}, P key →
      (∀ k, (m.get k).isSome = true → P k) → ∀ k, ((m.set key e).get k).isSome = true → P k := by
    intro m key e hkey hm k hk
    rw [OrderedMap.get_set] at hk
    split_ifs at hk with hsame
    · exact hsame ▸ hkey
    · exact hm k hk
  simp only [load, ofRecords, records_foldl_relink] at h
  refine List.foldlRecOn _ _ (motive := fun m : OrderedMap RecordKey Entry => ∀ k, (m.get k).isSome = true → P k)
    ?_ (fun m hm r hr => ?_) k h
  · refine List.foldlRecOn _ _ (motive := fun m : OrderedMap RecordKey Entry => ∀ k, (m.get k).isSome = true → P k)
      (by simp) fun m hm c hc => hset ?_ hm
    have hs := Shape.isSingleton_iff.mpr hc
    exact ⟨by simp [Shape.keyed, hs], .inl hs⟩
  · split_ifs with hguard
    · refine hset ?_ hm
      obtain ⟨⟨c, id⟩, e⟩ := r
      by_cases hs : sh.isSingleton c = true
      · rw [Shape.recordKey, if_pos hs]
        exact ⟨by simp [Shape.keyed, hs], .inl hs⟩
      · simp only [hs, Bool.or_false, Bool.and_eq_true] at hguard
        rw [Shape.recordKey, if_neg hs]
        exact ⟨by simp [Shape.keyed, hguard], .inr ⟨_, hr, hguard.1, rfl⟩⟩
    · exact hm

end LazyStorage.Core
