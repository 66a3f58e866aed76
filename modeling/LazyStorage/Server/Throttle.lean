import LazyStorage.Lib.Allowance
import LazyStorage.Lib.OrderedMap
import Mathlib.Data.Rat.Floor
import Mathlib.Tactic.FieldSimp

/-! # The op rate

Each user has a bucket of tokens, made full when first asked for, that an op takes one
from; a refusal says after how long there will be one. When there are many buckets and
one more is made, those not asked for in a minute are dropped.
-/
namespace LazyStorage.Server.Rate
open Lib

/-- The rate limit of a store: both numbers positive, or the store is not made. -/
structure RateLimit where
  burst : ℚ
  perSecond : ℚ
  burst_pos : 0 < burst
  perSecond_pos : 0 < perSecond

structure Bucket where
  tokens : ℚ
  since : ℚ
deriving DecidableEq

variable {U : Type} [DecidableEq U]

abbrev Buckets (U : Type) [DecidableEq U] := OrderedMap U Bucket

def MINUTE : ℚ := 60000

def MANY : ℕ := 10000

/-- The buckets once there is one for a user, full when it is new. -/
def Buckets.make (r : RateLimit) (buckets : Buckets U) (user : U) (wall : ℚ) : Bucket × Buckets U :=
  match buckets.get user with
  | some bucket => (bucket, buckets)
  | none =>
    let kept := if MANY ≤ buckets.size then buckets.filter fun _ b => ¬ MINUTE < wall - b.since else buckets
    (⟨r.burst, wall⟩, kept)

/-- 0 when a call is let through, else after how many milliseconds to ask again. -/
def throttle (r : RateLimit) (buckets : Buckets U) (user : U) (wall : ℚ) : ℤ × Buckets U :=
  let (bucket, buckets) := buckets.make r user wall
  let tokens := min r.burst (bucket.tokens + (wall - bucket.since) / 1000 * r.perSecond)
  if 1 ≤ tokens then (0, buckets.set user ⟨tokens - 1, wall⟩)
  else (⌈(1 - tokens) / r.perSecond * 1000⌉, buckets.set user ⟨tokens, wall⟩)

structure Call (U : Type) where
  user : U
  wall : ℚ

def answers (r : RateLimit) (buckets : Buckets U) : List (Call U) → List ℤ
  | [] => []
  | c :: calls => (throttle r buckets c.user c.wall).1 :: answers r (throttle r buckets c.user c.wall).2 calls

/-- How many calls of a user are let through from one time to another. -/
def passed (user : U) (s e : ℚ) (calls : List (Call U)) (given : List ℤ) : ℕ :=
  (calls.zip given).countP fun p => p.1.user = user ∧ s ≤ p.1.wall ∧ p.1.wall ≤ e ∧ p.2 = 0

variable {r : RateLimit} {buckets : Buckets U} {user u : U} {wall t s e : ℚ} {calls : List (Call U)}

def RateLimit.perMs (r : RateLimit) : ℚ := r.perSecond / 1000

theorem RateLimit.perMs_pos (r : RateLimit) : 0 < r.perMs := div_pos r.perSecond_pos (by decide)

/-- What a user could take at a time: a full bucket where there is none. -/
def Buckets.level (r : RateLimit) (buckets : Buckets U) (u : U) (t : ℚ) : ℚ :=
  match buckets.get u with
  | none => r.burst
  | some b => Lib.level r.burst r.perMs b.tokens b.since t

/-- What is in buckets read by a time. -/
def Buckets.Sound (buckets : Buckets U) (wall : ℚ) : Prop :=
  ∀ u b, buckets.get u = some b → 0 ≤ b.tokens ∧ b.since ≤ wall

/-- Whether a call drops no bucket that is not full again. -/
def Buckets.Gentle (r : RateLimit) (buckets : Buckets U) (c : Call U) : Prop :=
  buckets.get c.user = none → MANY ≤ buckets.size → ∀ u b, buckets.get u = some b → MINUTE < c.wall - b.since →
    r.burst ≤ b.tokens + (c.wall - b.since) / 1000 * r.perSecond

theorem fill_eq (r : RateLimit) (x : ℚ) : x / 1000 * r.perSecond = x * r.perMs := by
  rw [RateLimit.perMs]
  ring

theorem Buckets.make_level (r : RateLimit) (buckets : Buckets U) (user : U) (wall : ℚ) :
    Lib.level r.burst r.perMs (buckets.make r user wall).1.tokens (buckets.make r user wall).1.since wall =
      buckets.level r user wall := by
  rw [make, Buckets.level]
  cases buckets.get user with
  | some b => rfl
  | none => exact min_eq_left (by simp)

/-- A call is let through when there is a token, which it takes; else what there is stays. -/
theorem throttle_cases (r : RateLimit) (buckets : Buckets U) (user : U) (wall : ℚ) :
    1 ≤ buckets.level r user wall ∧ throttle r buckets user wall =
        (0, (buckets.make r user wall).2.set user ⟨buckets.level r user wall - 1, wall⟩) ∨
      buckets.level r user wall < 1 ∧ throttle r buckets user wall =
        (⌈(1 - buckets.level r user wall) / r.perSecond * 1000⌉,
          (buckets.make r user wall).2.set user ⟨buckets.level r user wall, wall⟩) := by
  have hlevel : min r.burst ((buckets.make r user wall).1.tokens +
      (wall - (buckets.make r user wall).1.since) / 1000 * r.perSecond) = buckets.level r user wall := by
    rw [fill_eq, ← Buckets.make_level]
    rfl
  rw [throttle]
  dsimp only
  rw [hlevel]
  by_cases h : 1 ≤ buckets.level r user wall
  · exact .inl ⟨h, if_pos h⟩
  · exact .inr ⟨not_le.mp h, if_neg h⟩

theorem Buckets.make_sound (h : buckets.Sound t) (ht : t ≤ wall) : (buckets.make r user wall).2.Sound wall := by
  have hlater : buckets.Sound wall := fun u b hb => ⟨(h u b hb).1, (h u b hb).2.trans ht⟩
  rw [make]
  cases buckets.get user with
  | some b => exact hlater
  | none =>
    dsimp only
    split
    · intro u b hb
      rw [OrderedMap.get_filter, Option.filter_eq_some_iff] at hb
      exact hlater u b hb.1
    · exact hlater

theorem Buckets.Sound.level_nonneg (r : RateLimit) (h : buckets.Sound t) : 0 ≤ buckets.level r u t := by
  rw [Buckets.level]
  cases hb : buckets.get u with
  | none => exact le_of_lt r.burst_pos
  | some b =>
    exact Lib.level_nonneg (le_of_lt r.burst_pos) (le_of_lt r.perMs_pos) (h u b hb).1 (h u b hb).2

theorem Buckets.level_le_burst : buckets.level r u t ≤ r.burst := by
  rw [level]
  cases buckets.get u with
  | none => exact le_refl _
  | some b => exact Lib.level_le_burst

theorem Buckets.level_mono {w : ℚ} (h : w ≤ t) : buckets.level r u w ≤ buckets.level r u t := by
  rw [level, level]
  cases buckets.get u with
  | none => exact le_refl _
  | some b => exact Lib.level_mono (le_of_lt r.perMs_pos) h

/-- What is dropped leaves a full bucket, and the rest is as it was. -/
theorem Buckets.make_get (r : RateLimit) (buckets : Buckets U) (user : U) (wall : ℚ) (u : U) :
    (buckets.make r user wall).2.get u = buckets.get u ∨ (buckets.make r user wall).2.get u = none ∧
      buckets.get user = none ∧ MANY ≤ buckets.size ∧ ∃ b, buckets.get u = some b ∧ MINUTE < wall - b.since := by
  rw [make]
  cases buckets.get user with
  | some b => exact .inl rfl
  | none =>
    dsimp only
    split
    · next hmany =>
      rw [OrderedMap.get_filter]
      cases hb : buckets.get u with
      | none => exact .inl rfl
      | some b =>
        by_cases hidle : MINUTE < wall - b.since
        · exact .inr ⟨if_neg fun h => (of_decide_eq_true h : ¬ MINUTE < wall - b.since) hidle, rfl, hmany, b, rfl, hidle⟩
        · exact .inl (if_pos (decide_eq_true hidle))
    · exact .inl rfl

/-- Dropping buckets lowers no level, and raises none when those that go are full. -/
theorem Buckets.make_level_others (r : RateLimit) (buckets : Buckets U) (user u : U) (h : wall ≤ t) :
    buckets.level r u t ≤ (buckets.make r user wall).2.level r u t ∧
      (buckets.Gentle r ⟨user, wall⟩ → (buckets.make r user wall).2.level r u t = buckets.level r u t) := by
  rcases buckets.make_get r user wall u with hsame | ⟨hnone, huser, hmany, b, hb, hidle⟩
  · rw [level, level, hsame]
    exact ⟨le_refl _, fun _ => rfl⟩
  · have hlevel : (buckets.make r user wall).2.level r u t = r.burst := by rw [level, hnone]
    rw [hlevel]
    refine ⟨level_le_burst, fun hgentle => ?_⟩
    have hfull := hgentle huser hmany u b hb hidle
    rw [fill_eq] at hfull
    rw [level, hb]
    exact (level_full (le_of_lt r.perMs_pos) hfull h).symm

/-- What is there at one time, kept, is there at another. -/
theorem Buckets.level_again (r : RateLimit) (buckets : Buckets U) (user : U) (h : wall ≤ t) :
    Lib.level r.burst r.perMs (buckets.level r user wall) wall t = buckets.level r user t := by
  rw [level, level]
  cases buckets.get user with
  | none => exact level_full (le_of_lt r.perMs_pos) (by simp) h
  | some b => exact level_level (le_of_lt r.perMs_pos) h

theorem Buckets.level_set (buckets : Buckets U) (user u : U) (b : Bucket) (t : ℚ) :
    Buckets.level r (buckets.set user b) u t =
      if user = u then Lib.level r.burst r.perMs b.tokens b.since t else buckets.level r u t := by
  rw [level, OrderedMap.get_set]
  by_cases hu : user = u
  · rw [if_pos hu, if_pos hu]
  · rw [if_neg hu, if_neg hu, level]

theorem Buckets.Sound.set {b : Bucket} (h : buckets.Sound wall) (htokens : 0 ≤ b.tokens) (hsince : b.since ≤ wall)
    (user : U) : Buckets.Sound (buckets.set user b) wall := by
  intro u b' hb'
  rw [OrderedMap.get_set] at hb'
  split at hb'
  · obtain rfl := Option.some.inj hb'
    exact ⟨htokens, hsince⟩
  · exact h u b' hb'

/-- What a call leaves: a user who is let through has one token less; and no level is lower for a call that is
refused or of another, nor higher when it drops no bucket that is not full. -/
structure Throttled (r : RateLimit) (buckets : Buckets U) (user : U) (wall : ℚ) (answer : ℤ) (after : Buckets U) : Prop where
  sound : after.Sound wall
  zero : answer = 0 ↔ 1 ≤ buckets.level r user wall
  own : ∀ w, wall ≤ w → after.level r user w =
    if answer = 0 then Lib.level r.burst r.perMs (buckets.level r user wall - 1) wall w else buckets.level r user w
  others : ∀ u w, u ≠ user → wall ≤ w → buckets.level r u w ≤ after.level r u w ∧
    (buckets.Gentle r ⟨user, wall⟩ → after.level r u w = buckets.level r u w)
  wait : answer ≠ 0 → 1 ≤ buckets.level r user wall + answer * r.perMs

theorem retry_pos {x : ℚ} (hx : x < 1) : 0 < ⌈(1 - x) / r.perSecond * 1000⌉ :=
  Int.ceil_pos.mpr (mul_pos (div_pos (sub_pos.mpr hx) r.perSecond_pos) (by decide))

theorem throttled (r : RateLimit) (h : buckets.Sound t) (ht : t ≤ wall) (user : U) :
    Throttled r buckets user wall (throttle r buckets user wall).1 (throttle r buckets user wall).2 := by
  have hmade : (buckets.make r user wall).2.Sound wall := Buckets.make_sound h ht
  have hothers : ∀ b u w, u ≠ user → wall ≤ w → buckets.level r u w ≤
      Buckets.level r ((buckets.make r user wall).2.set user b) u w ∧ (buckets.Gentle r ⟨user, wall⟩ →
        Buckets.level r ((buckets.make r user wall).2.set user b) u w = buckets.level r u w) := by
    intro b u w hu hw
    rw [Buckets.level_set, if_neg (Ne.symm hu)]
    exact buckets.make_level_others r user u hw
  rcases throttle_cases r buckets user wall with ⟨hone, heq⟩ | ⟨hlt, heq⟩
  · rw [heq]
    refine ⟨hmade.set (sub_nonneg.mpr hone) (le_refl _) user, iff_of_true rfl hone, fun w hw => ?_, hothers _,
      fun hne => absurd rfl hne⟩
    rw [Buckets.level_set, if_pos rfl, if_pos rfl]
  · have hpos := retry_pos (r := r) hlt
    have hnow : buckets.Sound wall := fun u b hb => ⟨(h u b hb).1, (h u b hb).2.trans ht⟩
    rw [heq]
    refine ⟨hmade.set (hnow.level_nonneg r) (le_refl _) user,
      iff_of_false (ne_of_gt hpos) (not_le.mpr hlt), fun w hw => ?_, hothers _, fun _ => ?_⟩
    · rw [Buckets.level_set, if_pos rfl, if_neg (ne_of_gt hpos)]
      exact buckets.level_again r user hw
    · have hceil := Int.le_ceil ((1 - buckets.level r user wall) / r.perSecond * 1000)
      have hmul := mul_le_mul_of_nonneg_right hceil (le_of_lt r.perMs_pos)
      have hback : (1 - buckets.level r user wall) / r.perSecond * 1000 * r.perMs = 1 - buckets.level r user wall := by
        have := ne_of_gt r.perSecond_pos
        rw [RateLimit.perMs]
        field_simp
      linarith

end LazyStorage.Server.Rate
