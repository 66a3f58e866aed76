import LazyStorage.Core.Fractions
import Mathlib.Data.Nat.Digits.Lemmas

/-! # Integer parts in a row

An integer part has a rank: the digits' value past the integers of the heads before
its own. Ranks order integer parts whatever follows them, one more or one less is
the rank next to it, and the smallest has rank 0.
-/
namespace LazyStorage.Core

/-- The value of digits. -/
def value (ds : List Char) : ℕ := Nat.ofDigits BASE (ds.map DIGITS.idxOf).reverse

def letters : List Char := DIGITS.drop 10

/-- How many digits follow a head. -/
def width (head : Char) : ℕ := ((integerLength head).toOption.getD 1) - 1

/-- How many integer parts have a head before this one. -/
def offset (head : Char) : ℕ := ((letters.takeWhile (· ≠ head)).map fun c => BASE ^ width c).sum

def rank : Key → ℕ
  | [] => 0
  | head :: ds => offset head + value ds

/-- Whether a string is an integer part. -/
structure Integer (i : Key) : Prop where
  digits : ∀ c ∈ i, c ∈ DIGITS
  length : ∃ head ds, i = head :: ds ∧ head ∈ letters ∧ ds.length = width head

/-- Whether one string is before another whatever follows. -/
def Before (i j : Key) : Prop := ∀ f g, i ++ f < j ++ g

theorem letters_mem : ∀ c ∈ letters, c ∈ DIGITS := fun _ h => List.mem_of_mem_drop h

theorem integerLength_letter : ∀ c ∈ letters, integerLength c = .ok (width c + 1) := by decide

theorem letter_of_length : ∀ c ∈ DIGITS, (integerLength c).toOption.isSome = true → c ∈ letters := by decide

theorem letters_sorted : letters.Pairwise (· < ·) := digits_sorted.sublist (List.drop_sublist _ _)

/-- A sum up to a letter, and what the letter adds, is within the sum up to a later one. -/
theorem sum_upto_le {f : Char → ℕ} {l : List Char} {c d : Char} (hl : l.Pairwise (· < ·)) (hc : c ∈ l) (hd : d ∈ l)
    (hlt : c < d) : ((l.takeWhile (· ≠ c)).map f).sum + f c ≤ ((l.takeWhile (· ≠ d)).map f).sum := by
  induction l with
  | nil => exact absurd hc List.not_mem_nil
  | cons x xs ih =>
    obtain ⟨hx, hxs⟩ := List.pairwise_cons.mp hl
    by_cases hxc : x = c
    · subst hxc
      simp [hlt.ne]
    · have hc' : c ∈ xs := (List.mem_cons.mp hc).resolve_left (Ne.symm hxc)
      have hxd : x ≠ d := ((hx c hc').trans hlt).ne
      have hle := ih hxs hc' ((List.mem_cons.mp hd).resolve_left hxd.symm)
      have hskip : ∀ y : Char, x ≠ y → (x :: xs).takeWhile (· ≠ y) = x :: xs.takeWhile (· ≠ y) :=
        fun y hy => List.takeWhile_cons_of_pos (decide_eq_true hy)
      rw [hskip c hxc, hskip d hxd, List.map_cons, List.map_cons, List.sum_cons, List.sum_cons]
      omega

/-- The sum up to the letter that follows is the sum up to a letter and what that letter adds. -/
theorem sum_upto_next {f : Char → ℕ} {l : List Char} {c d : Char} (hl : l.Pairwise (· < ·)) (h : [c, d] <:+: l) :
    ((l.takeWhile (· ≠ d)).map f).sum = ((l.takeWhile (· ≠ c)).map f).sum + f c := by
  obtain ⟨before, after, rfl⟩ := h
  rw [List.append_assoc, List.pairwise_append] at hl
  obtain ⟨-, hrest, hpast⟩ := hl
  have hcd : c < d := (List.pairwise_cons.mp hrest).1 d (by simp)
  have hskip : ∀ x ∈ [c, d] ++ after, ∀ rest,
      (before ++ rest).takeWhile (· ≠ x) = before ++ rest.takeWhile (· ≠ x) :=
    fun x hx rest => List.takeWhile_append_of_pos fun a ha => decide_eq_true (hpast a ha x hx).ne
  rw [List.append_assoc, hskip d (by simp), hskip c (by simp)]
  simp [hcd.ne]

/-- Every letter's integers are past those of the letters before it. -/
theorem offset_le {c d : Char} (hc : c ∈ letters) (hd : d ∈ letters) (h : c < d) :
    offset c + BASE ^ width c ≤ offset d :=
  sum_upto_le letters_sorted hc hd h

/-- What is next to each other, in a list, is so at its places. -/
theorem infix_of_getElem? {l : List Char} {i : ℕ} {c d : Char} (hc : l[i]? = some c) (hd : l[i + 1]? = some d) :
    [c, d] <:+: l := by
  obtain ⟨hi, rfl⟩ := List.getElem?_eq_some_iff.mp hc
  obtain ⟨hj, rfl⟩ := List.getElem?_eq_some_iff.mp hd
  have hdrop : l.drop i = l[i] :: l[i + 1] :: l.drop (i + 2) := by
    rw [List.drop_eq_getElem_cons hi, List.drop_eq_getElem_cons hj]
  exact List.IsInfix.trans ⟨[], l.drop (i + 2), by rw [hdrop]; rfl⟩ (List.drop_suffix i l).isInfix

/-- At each letter's place: the letter that follows, and the one before it. -/
theorem letters_at : ∀ i < 52,
    (letters.getD i 'z' ≠ 'Z' → letters.getD i 'z' ≠ 'z' →
        letters[i + 1]? = some (Char.ofNat ((letters.getD i 'z').toNat + 1))) ∧
      (letters.getD i 'z' ≠ 'a' → letters.getD i 'z' ≠ 'A' →
        0 < i ∧ letters[i - 1]? = some (Char.ofNat ((letters.getD i 'z').toNat - 1))) := by
  decide

theorem infix_next {c : Char} (hc : c ∈ letters) (hZ : c ≠ 'Z') (hz : c ≠ 'z') :
    [c, Char.ofNat (c.toNat + 1)] <:+: letters := by
  obtain ⟨i, hi, rfl⟩ := List.mem_iff_getElem.mp hc
  have hat := (letters_at i hi).1
  rw [List.getD_eq_getElem _ _ hi] at hat
  exact infix_of_getElem? (List.getElem?_eq_getElem hi) (hat hZ hz)

theorem infix_prev {c : Char} (hc : c ∈ letters) (ha : c ≠ 'a') (hA : c ≠ 'A') :
    [Char.ofNat (c.toNat - 1), c] <:+: letters := by
  obtain ⟨i, hi, rfl⟩ := List.mem_iff_getElem.mp hc
  have hat := (letters_at i hi).2
  rw [List.getD_eq_getElem _ _ hi] at hat
  obtain ⟨hpos, hprev⟩ := hat ha hA
  exact infix_of_getElem? hprev (by rw [Nat.sub_add_cancel hpos, List.getElem?_eq_getElem hi])

/-- The letter that follows has one digit more, from `a` on, or one less. -/
theorem width_next : ∀ c ∈ letters, c ≠ 'Z' → c ≠ 'z' →
    if 'a' < Char.ofNat (c.toNat + 1) then width (Char.ofNat (c.toNat + 1)) = width c + 1
    else width (Char.ofNat (c.toNat + 1)) + 1 = width c := by
  decide

theorem width_prev : ∀ c ∈ letters, c ≠ 'a' → c ≠ 'A' →
    if Char.ofNat (c.toNat - 1) < 'Z' then width (Char.ofNat (c.toNat - 1)) = width c + 1
    else width (Char.ofNat (c.toNat - 1)) + 1 = width c := by
  decide

theorem next_letter {c : Char} (hc : c ∈ letters) (hZ : c ≠ 'Z') (hz : c ≠ 'z') :
    Char.ofNat (c.toNat + 1) ∈ letters ∧ offset (Char.ofNat (c.toNat + 1)) = offset c + BASE ^ width c := by
  have hnext := infix_next hc hZ hz
  exact ⟨hnext.subset (by simp), sum_upto_next letters_sorted hnext⟩

theorem prev_letter {c : Char} (hc : c ∈ letters) (ha : c ≠ 'a') (hA : c ≠ 'A') :
    Char.ofNat (c.toNat - 1) ∈ letters ∧
      offset c = offset (Char.ofNat (c.toNat - 1)) + BASE ^ width (Char.ofNat (c.toNat - 1)) := by
  have hprev := infix_prev hc ha hA
  exact ⟨hprev.subset (by simp), sum_upto_next letters_sorted hprev⟩

variable {i j : Key} {ds es : List Char}

@[simp] theorem value_nil : value [] = 0 := rfl

theorem value_cons (c : Char) (ds : List Char) :
    value (c :: ds) = DIGITS.idxOf c * BASE ^ ds.length + value ds := by
  rw [value, List.map_cons, List.reverse_cons, Nat.ofDigits_append, Nat.ofDigits_singleton, List.length_reverse,
    List.length_map, Nat.mul_comm, Nat.add_comm, value]

theorem one_lt_base : 1 < BASE := by decide

theorem value_lt (h : ∀ c ∈ ds, c ∈ DIGITS) : value ds < BASE ^ ds.length := by
  have hlt := Nat.ofDigits_lt_base_pow_length one_lt_base (l := (ds.map DIGITS.idxOf).reverse) fun x hx => by
    obtain ⟨c, hc, rfl⟩ := List.mem_map.mp (List.mem_reverse.mp hx)
    exact idxOf_lt (h c hc)
  rwa [List.length_reverse, List.length_map] at hlt

theorem value_inj (hlength : ds.length = es.length) (hds : ∀ c ∈ ds, c ∈ DIGITS) (hes : ∀ c ∈ es, c ∈ DIGITS)
    (h : value ds = value es) : ds = es := by
  have hindices : ∀ l : List Char, (∀ c ∈ l, c ∈ DIGITS) → ∀ x ∈ (l.map DIGITS.idxOf).reverse, x < BASE := by
    intro l hl x hx
    obtain ⟨c, hc, rfl⟩ := List.mem_map.mp (List.mem_reverse.mp hx)
    exact idxOf_lt (hl c hc)
  have hsame := List.reverse_inj.mp (Nat.ofDigits_inj_of_len_eq one_lt_base (by simpa using hlength)
    (hindices ds hds) (hindices es hes) h)
  have hback : ∀ l : List Char, (∀ c ∈ l, c ∈ DIGITS) → (l.map DIGITS.idxOf).map digit = l := by
    intro l hl
    rw [List.map_map]
    exact (List.map_congr_left fun c hc => digit_idxOf (hl c hc)).trans (List.map_id l)
  rw [← hback ds hds, hsame, hback es hes]

theorem before_of_value_lt (hlength : ds.length = es.length) (hds : ∀ c ∈ ds, c ∈ DIGITS) (hes : ∀ c ∈ es, c ∈ DIGITS)
    (h : value ds < value es) : Before ds es := by
  induction ds generalizing es with
  | nil =>
    obtain rfl := List.length_eq_zero_iff.mp hlength.symm
    exact absurd h (Nat.lt_irrefl _)
  | cons c ds ih =>
    cases es with
    | nil => simp at hlength
    | cons e es =>
      have hc := hds c List.mem_cons_self
      have he := hes e List.mem_cons_self
      have hlength : ds.length = es.length := Nat.succ.inj hlength
      have hds' : ∀ d ∈ ds, d ∈ DIGITS := fun d hd => hds d (List.mem_cons_of_mem _ hd)
      have hes' : ∀ d ∈ es, d ∈ DIGITS := fun d hd => hes d (List.mem_cons_of_mem _ hd)
      intro f g
      rw [List.cons_append, List.cons_append, List.cons_lt_cons_iff]
      rcases Nat.lt_trichotomy (DIGITS.idxOf c) (DIGITS.idxOf e) with hlt | heq | hgt
      · exact .inl ((idxOf_lt_iff hc he).mp hlt)
      · have hce : c = e := by rw [← digit_idxOf hc, heq, digit_idxOf he]
        rw [value_cons, value_cons, heq, hlength] at h
        exact .inr ⟨hce, ih hlength hds' hes' (Nat.lt_of_add_lt_add_left h) f g⟩
      · -- a greater first digit outweighs the rest
        have hmore : (DIGITS.idxOf e + 1) * BASE ^ es.length ≤ DIGITS.idxOf c * BASE ^ es.length :=
          Nat.mul_le_mul_right _ hgt
        have hrest := value_lt hes'
        rw [value_cons, value_cons, hlength] at h
        rw [Nat.succ_mul] at hmore
        omega

@[simp] theorem value_zeros (n : ℕ) : value (List.replicate n '0') = 0 := by
  induction n with
  | zero => rfl
  | succ n ih => rw [List.replicate_succ, value_cons, ih, idxOf_zero, Nat.zero_mul]

theorem value_nines (n : ℕ) : value (List.replicate n 'z') + 1 = BASE ^ n := by
  induction n with
  | zero => rfl
  | succ n ih =>
    have hz : DIGITS.idxOf 'z' + 1 = BASE := by decide
    rw [List.replicate_succ, value_cons, List.length_replicate, Nat.add_assoc, ih, Nat.pow_succ, ← Nat.succ_mul,
      Nat.succ_eq_add_one, hz, Nat.mul_comm]

/-- One more, unless all digits are the last one. -/
theorem carryUp_value (h : ∀ c ∈ ds, c ∈ DIGITS) : ∀ up carry, carryUp ds = (up, carry) →
    up.length = ds.length ∧ (∀ c ∈ up, c ∈ DIGITS) ∧
      (carry = false → value up = value ds + 1) ∧
      (carry = true → up = List.replicate ds.length '0' ∧ value ds + 1 = BASE ^ ds.length) := by
  induction ds with
  | nil =>
    rintro up carry heq
    obtain ⟨rfl, rfl⟩ := Prod.mk.inj heq
    simp
  | cons c ds ih =>
    intro up carry heq
    have hc := h c List.mem_cons_self
    cases hrest : carryUp ds with
    | mk up' carry' =>
      obtain ⟨hlength, hdigits, hmore, hcarried⟩ := ih (fun d hd => h d (List.mem_cons_of_mem _ hd)) up' carry' hrest
      rw [carryUp, hrest] at heq
      cases carry' with
      | false =>
        obtain ⟨rfl, rfl⟩ := Prod.mk.inj heq
        refine ⟨congrArg Nat.succ hlength, List.forall_mem_cons.mpr ⟨hc, hdigits⟩, fun _ => ?_, nofun⟩
        rw [value_cons, value_cons, hlength, hmore rfl, Nat.add_assoc]
      | true =>
        obtain ⟨hzeros, hall⟩ := hcarried rfl
        dsimp only at heq
        split at heq
        · next hlast =>
          obtain ⟨rfl, rfl⟩ := Prod.mk.inj heq
          refine ⟨congrArg Nat.succ hlength, List.forall_mem_cons.mpr ⟨zero_mem, hdigits⟩, nofun, fun _ => ⟨?_, ?_⟩⟩
          · rw [hzeros, List.length_cons, List.replicate_succ]
          · rw [value_cons, Nat.add_assoc, hall, ← Nat.succ_mul, Nat.succ_eq_add_one, hlast, List.length_cons,
              Nat.pow_succ, Nat.mul_comm]
        · next hlast =>
          obtain ⟨rfl, rfl⟩ := Prod.mk.inj heq
          have hd : DIGITS.idxOf c + 1 < BASE := Nat.lt_of_le_of_ne (idxOf_lt hc) hlast
          refine ⟨congrArg Nat.succ hlength, List.forall_mem_cons.mpr ⟨digit_mem hd, hdigits⟩, fun _ => ?_, nofun⟩
          rw [value_cons, value_cons, idxOf_digit hd, hlength, hzeros, value_zeros, Nat.add_zero, Nat.add_assoc, hall,
            ← Nat.succ_mul]

/-- One less, unless all digits are `0`. -/
theorem borrowDown_value (h : ∀ c ∈ ds, c ∈ DIGITS) : ∀ down borrow, borrowDown ds = (down, borrow) →
    down.length = ds.length ∧ (∀ c ∈ down, c ∈ DIGITS) ∧
      (borrow = false → value down + 1 = value ds) ∧
      (borrow = true → down = List.replicate ds.length 'z' ∧ value ds = 0) := by
  have hz : digit (BASE - 1) = 'z' := by decide
  have hzmem : 'z' ∈ DIGITS := by decide
  induction ds with
  | nil =>
    rintro down borrow heq
    obtain ⟨rfl, rfl⟩ := Prod.mk.inj heq
    simp
  | cons c ds ih =>
    intro down borrow heq
    have hc := h c List.mem_cons_self
    cases hrest : borrowDown ds with
    | mk down' borrow' =>
      obtain ⟨hlength, hdigits, hless, hborrowed⟩ :=
        ih (fun d hd => h d (List.mem_cons_of_mem _ hd)) down' borrow' hrest
      rw [borrowDown, hrest] at heq
      cases borrow' with
      | false =>
        obtain ⟨rfl, rfl⟩ := Prod.mk.inj heq
        refine ⟨congrArg Nat.succ hlength, List.forall_mem_cons.mpr ⟨hc, hdigits⟩, fun _ => ?_, nofun⟩
        rw [value_cons, value_cons, hlength, Nat.add_assoc, hless rfl]
      | true =>
        obtain ⟨hnines, hzero⟩ := hborrowed rfl
        dsimp only at heq
        split at heq
        · next hfirst =>
          obtain ⟨rfl, rfl⟩ := Prod.mk.inj heq
          refine ⟨congrArg Nat.succ hlength, List.forall_mem_cons.mpr ⟨hz ▸ hzmem, hdigits⟩, nofun,
            fun _ => ⟨?_, ?_⟩⟩
          · rw [hnines, hz, List.length_cons, List.replicate_succ]
          · rw [value_cons, hfirst, hzero, Nat.zero_mul]
        · next hfirst =>
          obtain ⟨rfl, rfl⟩ := Prod.mk.inj heq
          have hd : DIGITS.idxOf c - 1 < BASE := Nat.lt_of_le_of_lt (Nat.sub_le _ _) (idxOf_lt hc)
          have hsucc : DIGITS.idxOf c - 1 + 1 = DIGITS.idxOf c := Nat.succ_pred_eq_of_ne_zero hfirst
          refine ⟨congrArg Nat.succ hlength, List.forall_mem_cons.mpr ⟨digit_mem hd, hdigits⟩, fun _ => ?_, nofun⟩
          rw [value_cons, value_cons, idxOf_digit hd, hlength, hnines, hzero, Nat.add_assoc, value_nines,
            ← Nat.succ_mul, Nat.succ_eq_add_one, hsucc, Nat.add_zero]

/-- Ranks order integer parts. -/
theorem before_of_rank_lt (hi : Integer i) (hj : Integer j) (h : rank i < rank j) : Before i j := by
  obtain ⟨c, ds, rfl, hc, hds⟩ := hi.length
  obtain ⟨d, es, rfl, hd, hes⟩ := hj.length
  have hdsd : ∀ x ∈ ds, x ∈ DIGITS := fun x hx => hi.digits x (List.mem_cons_of_mem _ hx)
  have hesd : ∀ x ∈ es, x ∈ DIGITS := fun x hx => hj.digits x (List.mem_cons_of_mem _ hx)
  intro f g
  rw [List.cons_append, List.cons_append, List.cons_lt_cons_iff]
  rcases lt_trichotomy c d with hlt | rfl | hgt
  · exact .inl hlt
  · right
    exact ⟨rfl, before_of_value_lt (hds.trans hes.symm) hdsd hesd (Nat.lt_of_add_lt_add_left h) f g⟩
  · have hle := offset_le hd hc hgt
    have hval := value_lt hesd
    rw [hes] at hval
    rw [rank, rank] at h
    omega

theorem rank_inj (hi : Integer i) (hj : Integer j) (h : rank i = rank j) : i = j := by
  obtain ⟨c, ds, rfl, hc, hds⟩ := hi.length
  obtain ⟨d, es, rfl, hd, hes⟩ := hj.length
  have hdsd : ∀ x ∈ ds, x ∈ DIGITS := fun x hx => hi.digits x (List.mem_cons_of_mem _ hx)
  have hesd : ∀ x ∈ es, x ∈ DIGITS := fun x hx => hj.digits x (List.mem_cons_of_mem _ hx)
  have hdsv := value_lt hdsd
  have hesv := value_lt hesd
  rw [hds] at hdsv
  rw [hes] at hesv
  rw [rank, rank] at h
  rcases lt_trichotomy c d with hlt | rfl | hgt
  · have hle := offset_le hc hd hlt
    omega
  · rw [value_inj (hds.trans hes.symm) hdsd hesd (Nat.add_left_cancel h)]
  · have hle := offset_le hd hc hgt
    omega

theorem integer_smallest : Integer SMALLEST_INTEGER :=
  ⟨by decide, 'A', List.replicate 26 '0', rfl, by decide +kernel, by decide +kernel⟩

theorem rank_smallest : rank SMALLEST_INTEGER = 0 := by decide

theorem integer_zero : Integer ZERO := ⟨by decide, 'a', ['0'], rfl, by decide +kernel, by decide +kernel⟩

/-- One more is next in rank, and no integer part has a greater rank than one without it. -/
theorem incrementInteger_rank (hi : Integer i) :
    (∀ above, incrementInteger i = some above → Integer above ∧ rank above = rank i + 1) ∧
      (incrementInteger i = none → ∀ j, Integer j → rank j ≤ rank i) := by
  obtain ⟨head, ds, rfl, hhead, hds⟩ := hi.length
  have hdsd : ∀ x ∈ ds, x ∈ DIGITS := fun x hx => hi.digits x (List.mem_cons_of_mem _ hx)
  have hheadd := hi.digits head List.mem_cons_self
  rw [incrementInteger]
  cases hcarry : carryUp ds with
  | mk up carry =>
    obtain ⟨hlength, hup, hmore, hcarried⟩ := carryUp_value hdsd up carry hcarry
    cases carry with
    | false =>
      refine ⟨fun above heq => ?_, by simp⟩
      obtain rfl := Option.some.inj heq
      refine ⟨⟨List.forall_mem_cons.mpr ⟨hheadd, hup⟩, head, up, rfl, hhead, hlength.trans hds⟩, ?_⟩
      rw [rank, rank, hmore rfl, Nat.add_assoc]
    | true =>
      obtain ⟨hzeros, hall⟩ := hcarried rfl
      rw [hds] at hall
      dsimp only
      split
      · next hZ =>
        subst hZ
        refine ⟨fun above heq => ?_, by simp⟩
        obtain rfl := Option.some.inj heq
        refine ⟨integer_zero, ?_⟩
        rw [rank, Nat.add_assoc, hall]
        decide
      split
      · next hz =>
        subst hz
        refine ⟨by simp, fun _ j hj => ?_⟩
        obtain ⟨c, es, rfl, hc, hes⟩ := hj.length
        have hesv := value_lt fun x hx => hj.digits x (List.mem_cons_of_mem _ hx)
        rw [hes] at hesv
        rw [rank, rank]
        rcases lt_trichotomy c 'z' with hlt | rfl | hgt
        · have hle := offset_le hc hhead hlt
          omega
        · omega
        · have hmax : ∀ x ∈ letters, ¬ 'z' < x := by decide
          exact absurd hgt (hmax c hc)
      · next hZ hz =>
        obtain ⟨hnext, hoffset⟩ := next_letter hhead hZ hz
        have hwidth := width_next head hhead hZ hz
        refine ⟨fun above heq => ?_, by simp⟩
        obtain rfl := Option.some.inj heq
        rw [hzeros, hds]
        split
        · next hlonger =>
          rw [if_pos hlonger] at hwidth
          rw [← List.replicate_succ']
          refine ⟨⟨List.forall_mem_cons.mpr ⟨letters_mem _ hnext, fun x hx => ?_⟩, _, _, rfl, hnext, ?_⟩, ?_⟩
          · exact List.eq_of_mem_replicate hx ▸ zero_mem
          · rw [List.length_replicate, hwidth]
          · rw [rank, rank, value_zeros, hoffset]
            omega
        · next hshorter =>
          rw [if_neg hshorter] at hwidth
          rw [List.drop_replicate]
          refine ⟨⟨List.forall_mem_cons.mpr ⟨letters_mem _ hnext, fun x hx => ?_⟩, _, _, rfl, hnext, ?_⟩, ?_⟩
          · exact List.eq_of_mem_replicate hx ▸ zero_mem
          · rw [List.length_replicate]
            omega
          · rw [rank, rank, value_zeros, hoffset]
            omega

/-- One less is the one before in rank, and only the smallest has none. -/
theorem decrementInteger_rank (hi : Integer i) :
    (∀ below, decrementInteger i = some below → Integer below ∧ rank below + 1 = rank i) ∧
      (decrementInteger i = none → rank i = 0) := by
  have hzmem : 'z' ∈ DIGITS := by decide
  obtain ⟨head, ds, rfl, hhead, hds⟩ := hi.length
  have hdsd : ∀ x ∈ ds, x ∈ DIGITS := fun x hx => hi.digits x (List.mem_cons_of_mem _ hx)
  have hheadd := hi.digits head List.mem_cons_self
  rw [decrementInteger]
  cases hborrow : borrowDown ds with
  | mk down borrow =>
    obtain ⟨hlength, hdown, hless, hborrowed⟩ := borrowDown_value hdsd down borrow hborrow
    cases borrow with
    | false =>
      refine ⟨fun below heq => ?_, by simp⟩
      obtain rfl := Option.some.inj heq
      refine ⟨⟨List.forall_mem_cons.mpr ⟨hheadd, hdown⟩, head, down, rfl, hhead, hlength.trans hds⟩, ?_⟩
      rw [rank, rank, Nat.add_assoc, hless rfl]
    | true =>
      obtain ⟨hnines, hzero⟩ := hborrowed rfl
      dsimp only
      split
      · next ha =>
        subst ha
        refine ⟨fun below heq => ?_, by simp⟩
        obtain rfl := Option.some.inj heq
        refine ⟨⟨by decide, 'Z', ['z'], rfl, by decide +kernel, by decide +kernel⟩, ?_⟩
        rw [rank, rank, hzero]
        decide
      split
      · next hA =>
        subst hA
        refine ⟨by simp, fun _ => ?_⟩
        rw [rank, hzero]
        decide
      · next ha hA =>
        obtain ⟨hprev, hoffset⟩ := prev_letter hhead ha hA
        have hwidth := width_prev head hhead ha hA
        refine ⟨fun below heq => ?_, by simp⟩
        obtain rfl := Option.some.inj heq
        rw [hnines, hds]
        split
        · next hlonger =>
          rw [if_pos hlonger] at hwidth
          have hvalue := value_nines (width head + 1)
          rw [← List.replicate_succ']
          refine ⟨⟨List.forall_mem_cons.mpr ⟨letters_mem _ hprev, fun x hx => ?_⟩, _, _, rfl, hprev, ?_⟩, ?_⟩
          · exact List.eq_of_mem_replicate hx ▸ hzmem
          · rw [List.length_replicate, hwidth]
          · rw [rank, rank, hzero, hoffset, hwidth]
            omega
        · next hshorter =>
          rw [if_neg hshorter] at hwidth
          have hvalue := value_nines (width head - 1)
          have hless : width head - 1 = width (Char.ofNat (head.toNat - 1)) := by omega
          rw [hless] at hvalue
          rw [List.drop_replicate, hless]
          refine ⟨⟨List.forall_mem_cons.mpr ⟨letters_mem _ hprev, fun x hx => ?_⟩, _, _, rfl, hprev, ?_⟩, ?_⟩
          · exact List.eq_of_mem_replicate hx ▸ hzmem
          · rw [List.length_replicate]
          · rw [rank, rank, hzero, hoffset]
            omega

end LazyStorage.Core
