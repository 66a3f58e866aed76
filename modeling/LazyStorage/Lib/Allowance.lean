import Mathlib.Algebra.Order.Field.Basic
import Mathlib.Tactic.Linarith
import Mathlib.Tactic.Ring

/-! # What a token bucket lets through

A bucket holds at most a burst and fills at a rate. What it holds later is its level;
however it is read and spent from, as much as was let through in a window and the level
are never more than a burst and what the window filled.
-/
namespace LazyStorage.Lib

variable {K : Type*} [Field K] [LinearOrder K] {burst rate tokens since t w s e now : K} {g : ℕ}
  {f f' : K → K}

/-- What a bucket with so many tokens at one time holds at another. -/
def level (burst rate tokens since t : K) : K := min burst (tokens + (t - since) * rate)

theorem level_le_burst : level burst rate tokens since t ≤ burst := min_le_left _ _

theorem level_le : level burst rate tokens since t ≤ tokens + (t - since) * rate := min_le_right _ _

variable [IsStrictOrderedRing K]

theorem level_nonneg (hburst : 0 ≤ burst) (hrate : 0 ≤ rate) (htokens : 0 ≤ tokens) (ht : since ≤ t) :
    0 ≤ level burst rate tokens since t :=
  le_min hburst (add_nonneg htokens (mul_nonneg (sub_nonneg.mpr ht) hrate))

theorem level_mono (hrate : 0 ≤ rate) (h : w ≤ t) : level burst rate tokens since w ≤ level burst rate tokens since t := by
  refine min_le_min_left burst ?_
  have := mul_le_mul_of_nonneg_right (sub_le_sub_right h since) hrate
  linarith

/-- What is read at one time is there at another. -/
theorem level_level (hrate : 0 ≤ rate) (h : w ≤ t) :
    level burst rate (level burst rate tokens since w) w t = level burst rate tokens since t := by
  have hfill : 0 ≤ (t - w) * rate := mul_nonneg (sub_nonneg.mpr h) hrate
  have hsum : tokens + (w - since) * rate + (t - w) * rate = tokens + (t - since) * rate := by ring
  have hburst : min burst (burst + (t - w) * rate) = burst := min_eq_left (le_add_of_nonneg_right hfill)
  rw [level, level, level, ← min_add_add_right, hsum, ← min_assoc, hburst]

/-- A full bucket stays full. -/
theorem level_full (hrate : 0 ≤ rate) (h : burst ≤ tokens + (w - since) * rate) (ht : w ≤ t) :
    level burst rate tokens since t = burst := by
  have := mul_le_mul_of_nonneg_right (sub_le_sub_right ht since) hrate
  exact min_eq_left (by linarith)

/-- So many were let through in a window up to now, with the level from now on: never more than a burst and what the
window fills. -/
structure Allowance (burst rate s e now : K) (g : ℕ) (f : K → K) : Prop where
  held : ∀ t, now ≤ t → s ≤ t → t ≤ e → g + f t ≤ burst + rate * (t - s)
  total : (g : K) ≤ burst + rate * (e - s)

theorem Allowance.start (hburst : 0 ≤ burst) (hrate : 0 ≤ rate) (hse : s ≤ e) (now : K) :
    Allowance burst rate s e now 0 fun _ => burst := by
  refine ⟨fun t _ hst _ => ?_, ?_⟩
  · have := mul_nonneg hrate (sub_nonneg.mpr hst)
    rw [Nat.cast_zero]
    linarith
  · have := mul_nonneg hrate (sub_nonneg.mpr hse)
    rw [Nat.cast_zero]
    linarith

/-- Time passes, and the level is no higher than it was to be. -/
theorem Allowance.pass (h : Allowance burst rate s e now g f) (hw : now ≤ w) (hf : ∀ t, w ≤ t → f' t ≤ f t) :
    Allowance burst rate s e w g f' := by
  refine ⟨fun t ht hst hte => ?_, h.total⟩
  have hheld := h.held t (hw.trans ht) hst hte
  have hle := hf t ht
  linarith

/-- One is let through, and the level falls by it. -/
theorem Allowance.spend (h : Allowance burst rate s e now g f) (hw : now ≤ w) (hsw : s ≤ w) (hwe : w ≤ e)
    (hf : ∀ t, w ≤ t → f' t + 1 ≤ f w + (t - w) * rate) (hnonneg : 0 ≤ f' e) :
    Allowance burst rate s e w (g + 1) f' := by
  have hnow := h.held w hw hsw hwe
  have hlater : ∀ t, w ≤ t → (g : K) + 1 + f' t ≤ burst + rate * (t - s) := by
    intro t ht
    have hle := hf t ht
    have hsum : rate * (t - s) = rate * (w - s) + (t - w) * rate := by ring
    linarith
  rw [← Nat.cast_succ] at hlater
  refine ⟨fun t ht _ _ => hlater t ht, ?_⟩
  have hend := hlater e hwe
  linarith

end LazyStorage.Lib
