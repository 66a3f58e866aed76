import LazyStorage.Core.Journal
import LazyStorage.Core.ReplicaClock

/-! # The times a doc's clocks hold

A run at a time writes that time and no other. A bound on the times of a doc
that is at or above the run's own therefore stays a bound.
-/
namespace LazyStorage.Core

open Lib

variable {sh : Shape} {ts bound : ℕ} {mode : Mode}

namespace Clock

/-- A clock related to itself, all of whose times are within the bound. -/
def Within (bound : ℕ) (c c' : Clock) : Prop := c = c' ∧ ∀ t ∈ c.times, t ≤ bound

theorem within_of_get {c : Clock} (hbirth : ∀ t, c.birth = some t → t ≤ bound)
    (hlive : ∀ p t, c.live.get p = some t → t ≤ bound)
    (hgone : ∀ p t, c.gone.get p = some t → t ≤ bound) : Within bound c c := by
  refine ⟨rfl, fun t ht => ?_⟩
  rcases (mem_times c).mp ht with hb | ⟨p, hp⟩ | ⟨p, hp⟩
  · exact hbirth t hb
  · exact hlive p t hp
  · exact hgone p t hp

theorem Within.birth {c c' : Clock} (h : Within bound c c') {t : ℕ} (ht : c.birth = some t) :
    t ≤ bound := h.2 t ((mem_times c).mpr (.inl ht))

theorem Within.live {c c' : Clock} (h : Within bound c c') {p : Path} {t : ℕ}
    (ht : c.live.get p = some t) : t ≤ bound := h.2 t ((mem_times c).mpr (.inr (.inl ⟨p, ht⟩)))

theorem Within.gone {c c' : Clock} (h : Within bound c c') {p : Path} {t : ℕ}
    (ht : c.gone.get p = some t) : t ≤ bound := h.2 t ((mem_times c).mpr (.inr (.inr ⟨p, ht⟩)))

theorem Within.blind (mode : Mode) (hts : ts ≤ bound) : Blind mode ts (Within bound) where
  born := by
    refine within_of_get (fun t ht => ?_) (fun p t ht => ?_) fun p t ht => ?_
    · obtain rfl : ts = t := Option.some.inj ht
      exact hts
    · simp [Clock.born] at ht
    · simp [Clock.born] at ht
  setLive h p := by
    obtain ⟨rfl, -⟩ := id h
    refine within_of_get (fun t ht => h.birth (by simpa using ht)) (fun q t ht => ?_)
      fun q t ht => h.gone (by simpa using ht)
    rw [setLive_live] at ht
    split_ifs at ht
    · exact Option.some.inj ht ▸ hts
    · exact h.live ht
  setGone h p := by
    obtain ⟨rfl, -⟩ := id h
    refine within_of_get (fun t ht => h.birth ht) (fun q t ht => h.live ht) fun q t ht => ?_
    simp only [setGone, OrderedMap.get_set] at ht
    split_ifs at ht
    · exact Option.some.inj ht ▸ hts
    · exact h.gone ht
  dropBeneath h p i b := by
    obtain ⟨rfl, -⟩ := id h
    refine within_of_get (fun t ht => h.birth (by simpa using ht)) (fun q t ht => ?_) fun q t ht => ?_
    · rw [dropBeneath_live] at ht
      split_ifs at ht
      exact h.live ht
    · rw [dropBeneath_gone] at ht
      split_ifs at ht
      exact h.gone ht
  liveAt _ _ _ h _ := h.1 ▸ rfl
  gone _ _ _ h _ := h.1 ▸ rfl
  beneath _ _ _ h _ := h.1 ▸ rfl
  maxOf _ _ _ h := h.1 ▸ Iff.rfl

@[simp] theorem times_new : Clock.new.times = [] := rfl

theorem times_prune (cutoff : ℤ) (c : Clock) {t : ℕ} (h : t ∈ (c.prune cutoff).times) : t ∈ c.times := by
  rw [mem_times] at h ⊢
  rcases h with hb | ⟨p, hp⟩ | ⟨p, hp⟩
  · exact .inl (Option.filter_eq_some_iff.mp hb).1
  · refine .inr (.inl ⟨p, ?_⟩)
    simp only [prune] at hp
    split_ifs at hp
    · exact hp
    · rw [OrderedMap.get_filter] at hp
      exact (Option.filter_eq_some_iff.mp hp).1
  · refine .inr (.inr ⟨p, ?_⟩)
    simp only [prune, OrderedMap.get_filter] at hp
    exact (Option.filter_eq_some_iff.mp hp).1

end Clock

namespace Doc

variable {d : Doc sh}

/-- Every time in every record's clock is within the bound. -/
def StampedBy (bound : ℕ) (d : Doc sh) : Prop :=
  ∀ k e, d.records.get k = some e → ∀ t ∈ e.clock.times, t ≤ bound

theorem stampedBy_iff : d.StampedBy bound ↔ d.Alike (Clock.Within bound) True d := by
  constructor
  · refine fun h => ⟨fun k => ?_, fun _ => rfl⟩
    cases hk : d.records.get k with
    | none => exact .none
    | some e => exact .some ⟨rfl, rfl, h k e hk⟩
  · intro h k e hk t ht
    have hrel := h.records k
    rw [hk] at hrel
    cases hrel with
    | some he => exact he.clock.2 t ht

theorem StampedBy.mono {later : ℕ} (h : d.StampedBy bound) (hb : bound ≤ later) : d.StampedBy later :=
  fun k e hk t ht => (h k e hk t ht).trans hb

theorem StampedBy.congr {d' : Doc sh} (h : d.StampedBy bound)
    (hrec : ∀ k, d'.records.get k = d.records.get k) : d'.StampedBy bound :=
  fun k e hk => h k e (hrec k ▸ hk)

/-- What is decided at a time within the bound keeps to it. -/
theorem StampedBy.applyAll (h : d.StampedBy bound) (hts : ts ≤ bound) {changes : List Change}
    {out : Outcome sh} (hout : applyAll ts mode changes d = .ok out) : out.doc.StampedBy bound := by
  rcases (Clock.Within.blind mode hts).applyAll sh (fun _ => trivial) changes (stampedBy_iff.mp h) with
    ⟨err, herr, -⟩ | ⟨o, o', ho, ho', hend⟩
  · rw [hout] at herr
    cases herr
  · rw [hout] at ho ho'
    cases ho
    cases ho'
    exact stampedBy_iff.mpr hend.doc

theorem StampedBy.prune (h : d.StampedBy bound) (cutoff : ℤ) : (d.prune cutoff).StampedBy bound := by
  intro k e hk t ht
  simp only [Doc.prune, OrderedMap.get_mapVal, Option.map_eq_some_iff] at hk
  obtain ⟨e, he, rfl⟩ := hk
  exact h k e he t (Clock.times_prune cutoff e.clock ht)

/-- The newest time there is bounds them all. -/
theorem stampedBy_latest (h : d.latest ≤ bound) : d.StampedBy bound := by
  intro k e hk t ht
  by_contra hlt
  have hmax : (bound : ℤ) < e.clock.maxOf := (Clock.lt_maxOf _ _).mpr ⟨t, ht, by omega⟩
  have hlate : (bound : ℤ) < d.latest :=
    (lt_foldl_max fun e : Entry => e.clock.maxOf).mpr (.inr ⟨e, OrderedMap.mem_values.mpr ⟨k, hk⟩, hmax⟩)
  omega

end Doc

namespace ReplicaClock

variable (clock : ReplicaClock)

theorem highest_observe (ts : ℤ) : (clock.observe ts).highest = max clock.highest ts.toNat := by
  unfold observe
  split_ifs
  · change ts.toNat = _
    omega
  · omega

theorem le_observe (ts : ℤ) : clock.highest ≤ (clock.observe ts).highest := by
  rw [highest_observe]
  omega

theorem le_observe_self (ts : ℤ) : ts ≤ (clock.observe ts).highest := by
  rw [highest_observe]
  omega

theorem lt_stamp (now : ℤ) : clock.highest < (clock.stamp now).1 :=
  lt_of_lt_of_le (Nat.lt_succ_self _) (le_max_right _ _)

theorem stamp_highest (now : ℤ) : (clock.stamp now).2.highest = (clock.stamp now).1 := rfl

theorem le_time (now : ℤ) : clock.highest ≤ clock.time now := le_max_right _ _

end ReplicaClock

end LazyStorage.Core
