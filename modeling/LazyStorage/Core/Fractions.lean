import LazyStorage.Core.Positions

/-! # There is always a fraction between

Digits sort as their indices do. Between two fractions, or above one, `midpoint`
gives a fraction, never empty: the digits they share are kept, and the first that
differ are halved where there is room.
-/
namespace LazyStorage.Core

theorem base_eq : BASE = 62 := by decide

theorem digit_mem {i : ℕ} (h : i < BASE) : digit i ∈ DIGITS := by
  rw [digit, List.getD_eq_getElem _ _ h]
  exact List.getElem_mem h

theorem idxOf_lt {c : Char} (h : c ∈ DIGITS) : DIGITS.idxOf c < BASE := List.idxOf_lt_length_iff.mpr h

theorem digit_idxOf {c : Char} (h : c ∈ DIGITS) : digit (DIGITS.idxOf c) = c := by
  rw [digit, List.getD_eq_getElem _ _ (idxOf_lt h)]
  exact List.getElem_idxOf (idxOf_lt h)

theorem digits_sorted : DIGITS.Pairwise (· < ·) := by decide

theorem digit_lt {i j : ℕ} (h : i < j) (hj : j < BASE) : digit i < digit j := by
  rw [digit, digit, List.getD_eq_getElem _ _ (h.trans hj), List.getD_eq_getElem _ _ hj]
  exact List.pairwise_iff_getElem.mp digits_sorted i j (h.trans hj) hj h

theorem idxOf_lt_iff {c d : Char} (hc : c ∈ DIGITS) (hd : d ∈ DIGITS) : DIGITS.idxOf c < DIGITS.idxOf d ↔ c < d := by
  constructor
  · intro h
    have hlt := digit_lt h (idxOf_lt hd)
    rwa [digit_idxOf hc, digit_idxOf hd] at hlt
  · intro h
    by_contra hle
    rcases Nat.lt_or_eq_of_le (Nat.le_of_not_lt hle) with hlt | heq
    · have hgt := digit_lt hlt (idxOf_lt hc)
      rw [digit_idxOf hc, digit_idxOf hd] at hgt
      exact lt_asymm h hgt
    · rw [← digit_idxOf hc, ← digit_idxOf hd, heq] at h
      exact lt_irrefl _ h

theorem idxOf_digit {i : ℕ} (h : i < BASE) : DIGITS.idxOf (digit i) = i := by
  have hmem := digit_mem h
  rcases Nat.lt_trichotomy (DIGITS.idxOf (digit i)) i with hlt | heq | hgt
  · have := digit_lt hlt h
    rw [digit_idxOf hmem] at this
    exact absurd this (lt_irrefl _)
  · exact heq
  · have := digit_lt hgt (idxOf_lt hmem)
    rw [digit_idxOf hmem] at this
    exact absurd this (lt_irrefl _)

theorem zero_mem : '0' ∈ DIGITS := by decide

@[simp] theorem idxOf_zero : DIGITS.idxOf '0' = 0 := by decide

/-- Whether a fraction is one: digits that do not end in `0`. -/
structure Fraction (f : Key) : Prop where
  digits : ∀ c ∈ f, c ∈ DIGITS
  last : f.getLast? ≠ some '0'

theorem fraction_nil : Fraction [] := ⟨by simp, by simp⟩

variable {a b f m : Key} {c y : Char}

theorem Fraction.tail (h : Fraction (c :: f)) : Fraction f := by
  refine ⟨fun d hd => h.digits d (List.mem_cons_of_mem _ hd), fun hlast => h.last ?_⟩
  cases f with
  | nil => exact nomatch hlast
  | cons d f => rwa [List.getLast?_cons_cons]

theorem Fraction.drop (h : Fraction f) (n : ℕ) : Fraction (f.drop n) := by
  induction n generalizing f with
  | zero => exact h
  | succ n ih =>
    cases f with
    | nil => exact fraction_nil
    | cons d f => exact ih h.tail

theorem Fraction.cons (h : Fraction f) (hne : f ≠ []) (hc : c ∈ DIGITS) : Fraction (c :: f) := by
  refine ⟨fun d hd => ?_, ?_⟩
  · rcases List.mem_cons.mp hd with rfl | hd
    · exact hc
    · exact h.digits d hd
  · cases f with
    | nil => exact absurd rfl hne
    | cons d f =>
      rw [List.getLast?_cons_cons]
      exact h.last

theorem Fraction.append (h : Fraction f) (hne : f ≠ []) {g : Key} (hg : ∀ c ∈ g, c ∈ DIGITS) : Fraction (g ++ f) := by
  induction g with
  | nil => exact h
  | cons c g ih =>
    refine Fraction.cons (ih fun d hd => hg d (List.mem_cons_of_mem _ hd)) ?_ (hg c List.mem_cons_self)
    exact List.append_ne_nil_of_right_ne_nil _ hne

theorem fraction_single (hc : c ∈ DIGITS) (hne : c ≠ '0') : Fraction [c] := by
  refine ⟨by simpa using hc, ?_⟩
  simpa using hne

/-- Past what two fractions share, they stand as before. -/
theorem drop_shared_lt (hb : Fraction b) (h : a < b) : a.drop (shared a b) < b.drop (shared a b) := by
  induction b generalizing a with
  | nil => exact absurd h (List.not_lt_nil a)
  | cons y b ih =>
    cases a with
    | nil =>
      rw [shared]
      split
      · next hy =>
        subst hy
        cases b with
        | nil => exact absurd rfl hb.last
        | cons z b =>
          have hlt := ih hb.tail (List.nil_lt_cons z b)
          rw [List.drop_nil] at hlt ⊢
          exact hlt
      · exact h
    | cons x a =>
      rw [shared]
      split
      · next hx =>
        subst hx
        exact ih hb.tail (List.cons_lt_cons_self.mp h)
      · exact h

theorem lt_take_shared (h : a.drop (shared a b) < m) : a < b.take (shared a b) ++ m := by
  induction b generalizing a with
  | nil => exact h
  | cons y b ih =>
    cases a with
    | nil =>
      rw [shared] at h ⊢
      split
      · exact List.nil_lt_cons ..
      · next hy => rwa [if_neg hy] at h
    | cons x a =>
      rw [shared] at h ⊢
      split
      · next hx =>
        rw [if_pos hx] at h
        subst hx
        exact List.cons_lt_cons_self.mpr (ih h)
      · next hx => rwa [if_neg hx] at h

theorem take_shared_lt (h : m < b.drop (shared a b)) : b.take (shared a b) ++ m < b := by
  have hlt : b.take (shared a b) ++ m < b.take (shared a b) ++ b.drop (shared a b) := List.append_left_lt h
  rwa [List.take_append_drop] at hlt

theorem firstDigit_lt (ha : Fraction a) : firstDigit a 0 < BASE := by
  cases a with
  | nil => exact (by decide : 0 < BASE)
  | cons x a => exact idxOf_lt (ha.digits x List.mem_cons_self)

/-- A digit above the first of a fraction is above the fraction. -/
theorem lt_single {i : ℕ} (ha : Fraction a) (h : firstDigit a 0 < i) (hi : i < BASE) : a < [digit i] := by
  cases a with
  | nil => exact List.nil_lt_cons ..
  | cons x a =>
    have hx := ha.digits x List.mem_cons_self
    refine List.cons_lt_cons_iff.mpr (.inl ?_)
    rw [← idxOf_lt_iff hx (digit_mem hi), idxOf_digit hi]
    exact h

/-- And below the first of a fraction, or with none, below it. -/
theorem single_lt {i : ℕ} (hb : Fraction b) (hne : b ≠ []) (h : i < firstDigit b BASE) : [digit i] < b := by
  cases b with
  | nil => exact absurd rfl hne
  | cons y b =>
    have hy := hb.digits y List.mem_cons_self
    have hi : i < BASE := h.trans (idxOf_lt hy)
    refine List.cons_lt_cons_iff.mpr (.inl ?_)
    rw [← idxOf_lt_iff (digit_mem hi) hy, idxOf_digit hi]
    exact h

/-- Where two fractions share nothing, the first digit of the lower one is the smaller. -/
theorem firstDigit_lt_firstDigit (ha : Fraction a) (hb : Fraction b) (h : b = [] ∨ a < b) (hshared : shared a b = 0) :
    firstDigit a 0 < firstDigit b BASE := by
  cases b with
  | nil => exact firstDigit_lt ha
  | cons y b =>
    have hy := hb.digits y List.mem_cons_self
    have hlt := h.resolve_left (List.cons_ne_nil y b)
    cases a with
    | nil =>
      have hne : y ≠ '0' := by
        rintro rfl
        simp [shared] at hshared
      refine Nat.pos_of_ne_zero fun hzero => hne ?_
      rw [← digit_idxOf hy, show DIGITS.idxOf y = 0 from hzero]
      decide
    | cons x a =>
      have hne : x ≠ y := by
        rintro rfl
        simp [shared] at hshared
      have hx := ha.digits x List.mem_cons_self
      rcases List.cons_lt_cons_iff.mp hlt with hlt | ⟨heq, -⟩
      · exact (idxOf_lt_iff hx hy).mpr hlt
      · exact absurd heq hne

/-- Between two fractions there is one, and above one. -/
theorem midpoint_between (ha : Fraction a) (hb : Fraction b) (h : b = [] ∨ a < b) :
    ∃ m, midpoint a b = .ok m ∧ Fraction m ∧ m ≠ [] ∧ a < m ∧ (b = [] ∨ m < b) := by
  induction a, b using midpoint.induct with
  | case1 a b hthrow => exact absurd h (by simpa [not_or] using hthrow)
  | case2 a b hok hshared ih =>
    have hne : b ≠ [] := by
      rintro rfl
      simp [shared] at hshared
    have hlt := drop_shared_lt hb (h.resolve_left hne)
    obtain ⟨m, hm, hfraction, hm0, hlow, hhigh⟩ := ih (ha.drop _) (hb.drop _) (.inr hlt)
    have hrest : b.drop (shared a b) ≠ [] := fun hnil => List.not_lt_nil _ (hnil ▸ hlt)
    refine ⟨b.take (shared a b) ++ m, ?_, ?_, ?_, lt_take_shared hlow, .inr (take_shared_lt (hhigh.resolve_left hrest))⟩
    · rw [midpoint, if_neg hok, if_pos hshared, hm]
      rfl
    · exact hfraction.append hm0 fun c hc => hb.digits c (List.mem_of_mem_take hc)
    · exact List.append_ne_nil_of_right_ne_nil _ hm0
  | case3 a b hok hshared hwide =>
    -- room for a digit between: the middle one
    have hbase := base_eq
    have hfirst : firstDigit b BASE ≤ BASE := by
      cases b with
      | nil => exact Nat.le_refl _
      | cons y b => exact (idxOf_lt (hb.digits y List.mem_cons_self)).le
    have hlow : firstDigit a 0 < (firstDigit a 0 + firstDigit b BASE + 1) / 2 := by omega
    have hhigh : (firstDigit a 0 + firstDigit b BASE + 1) / 2 < firstDigit b BASE := by omega
    have hi := Nat.lt_of_lt_of_le hhigh hfirst
    refine ⟨[digit ((firstDigit a 0 + firstDigit b BASE + 1) / 2)], ?_, fraction_single (digit_mem hi) ?_,
      List.cons_ne_nil _ _, lt_single ha hlow hi, ?_⟩
    · rw [midpoint, if_neg hok, if_neg hshared, if_pos hwide]
    · intro hzero
      have hidx := idxOf_digit hi
      rw [hzero, idxOf_zero] at hidx
      omega
    · rcases eq_or_ne b [] with hb0 | hb0
      · exact .inl hb0
      · exact .inr (single_lt hb hb0 hhigh)
  | case4 a b hok hshared hnarrow hlong =>
    have hfirst := firstDigit_lt_firstDigit ha hb h (Nat.eq_zero_of_not_pos hshared)
    cases b with
    | nil => simp at hlong
    | cons y b =>
      have hy := hb.digits y List.mem_cons_self
      have hdigit : digit (firstDigit (y :: b) BASE) = y := digit_idxOf hy
      refine ⟨[y], ?_, fraction_single hy ?_, List.cons_ne_nil _ _, ?_, .inr ?_⟩
      · rw [midpoint, if_neg hok, if_neg hshared, if_neg hnarrow, if_pos hlong]
        rfl
      · rintro rfl
        simp [firstDigit] at hfirst
      · have hlt := lt_single ha hfirst (idxOf_lt hy)
        rwa [hdigit] at hlt
      · cases b with
        | nil => simp at hlong
        | cons z b => exact List.cons_lt_cons_self.mpr (List.nil_lt_cons z b)
  | case5 a b hok hshared hnarrow hshort ih =>
    have hfirst := firstDigit_lt_firstDigit ha hb h (Nat.eq_zero_of_not_pos hshared)
    obtain ⟨m, hm, hfraction, hm0, hlow, -⟩ := ih (ha.drop 1) fraction_nil (.inl rfl)
    have hdigit := digit_mem (firstDigit_lt ha)
    refine ⟨digit (firstDigit a 0) :: m, ?_, hfraction.cons hm0 hdigit, List.cons_ne_nil _ _, ?_, ?_⟩
    · rw [midpoint, if_neg hok, if_neg hshared, if_neg hnarrow, if_neg hshort, hm]
      rfl
    · cases a with
      | nil => exact List.nil_lt_cons ..
      | cons x a =>
        rw [firstDigit, digit_idxOf (ha.digits x List.mem_cons_self)]
        exact List.cons_lt_cons_self.mpr hlow
    · cases b with
      | nil => exact .inl rfl
      | cons y b =>
        have hy := hb.digits y List.mem_cons_self
        refine .inr (List.cons_lt_cons_iff.mpr (.inl ?_))
        rw [← idxOf_lt_iff hdigit hy, idxOf_digit (firstDigit_lt ha)]
        exact hfirst

end LazyStorage.Core
