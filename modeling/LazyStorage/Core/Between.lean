import LazyStorage.Core.Integers

/-! # There is a key between

A position key is an integer part and a fraction, other than the smallest integer
alone. Between any two, `keyBetween` gives one; below a single key it gives the
smallest integer, which is none, and nowhere else.
-/
namespace LazyStorage.Core

/-- The integer part and the fraction of a position key. -/
structure Parts (k i f : Key) : Prop where
  eq : k = i ++ f
  integer : Integer i
  fraction : Fraction f
  range : i = SMALLEST_INTEGER → f ≠ []

variable {a b i j f g k : Key} {a' : Option Key}

theorem integerPart_append (hi : Integer i) (f : Key) : integerPart (i ++ f) = .ok i := by
  obtain ⟨head, ds, rfl, hhead, hds⟩ := hi.length
  rw [List.cons_append, integerPart, integerLength_letter head hhead, ← hds]
  simp [Bind.bind, Except.bind]

theorem Parts.integerPart (h : Parts k i f) : integerPart k = .ok i := h.eq ▸ integerPart_append h.integer f

theorem Parts.drop (h : Parts k i f) : k.drop i.length = f := by
  rw [h.eq, List.drop_left]

theorem Parts.isPositionKey (h : Parts k i f) : isPositionKey k := by
  have hne : k ≠ [] := by
    obtain ⟨head, ds, rfl, -⟩ := h.integer.length
    rw [h.eq]
    exact List.cons_ne_nil _ _
  have hdigits : ∀ ch ∈ k, ch ∈ DIGITS := by
    intro ch hch
    rw [h.eq] at hch
    exact (List.mem_append.mp hch).elim (h.integer.digits ch) (h.fraction.digits ch)
  rw [Core.isPositionKey, assertKey, if_neg hne, if_neg (not_not.mpr hdigits), h.integerPart]
  simp only [Bind.bind, Except.bind, h.drop]
  rw [if_neg h.fraction.last, if_neg fun hcond => h.range hcond.1 hcond.2]

theorem exists_parts (h : isPositionKey k) : ∃ i f, Parts k i f := by
  rw [isPositionKey, assertKey] at h
  split at h
  · exact nomatch h
  split at h
  · exact nomatch h
  next hdigits =>
  have hdigits := not_not.mp hdigits
  cases k with
  | nil => exact nomatch h
  | cons head rest =>
    rw [integerPart] at h
    cases hlength : integerLength head with
    | error e => simp [hlength, Bind.bind, Except.bind] at h
    | ok n =>
      have hhead : head ∈ letters := letter_of_length head (hdigits head List.mem_cons_self) (by rw [hlength]; rfl)
      obtain rfl : width head + 1 = n := Except.ok.inj ((integerLength_letter head hhead).symm.trans hlength)
      simp only [hlength, Bind.bind, Except.bind, List.length_cons] at h
      by_cases hcut : width head + 1 > rest.length + 1
      · rw [if_pos hcut] at h
        exact nomatch h
      rw [if_neg hcut] at h
      dsimp only at h
      split at h
      · exact nomatch h
      next hlast =>
      split at h
      · exact nomatch h
      next hrange =>
      have htake : ((head :: rest).take (width head + 1)).length = width head + 1 := by
        rw [List.length_take, List.length_cons]
        omega
      rw [htake] at hlast hrange
      refine ⟨(head :: rest).take (width head + 1), (head :: rest).drop (width head + 1),
        (List.take_append_drop ..).symm, ⟨fun c hc => hdigits c (List.mem_of_mem_take hc), head, rest.take (width head),
          rfl, hhead, ?_⟩, ⟨fun c hc => hdigits c (List.mem_of_mem_drop hc), hlast⟩, fun hi hf => hrange ⟨hi, hf⟩⟩
      rw [List.length_take]
      omega

theorem isPositionKey_iff : isPositionKey k ↔ ∃ i f, Parts k i f :=
  ⟨exists_parts, fun ⟨_, _, h⟩ => h.isPositionKey⟩

/-- Two integer parts are one, or one is before the other whatever follows. -/
theorem Integer.trichotomy (hi : Integer i) (hj : Integer j) : i = j ∨ Before i j ∨ Before j i := by
  rcases Nat.lt_trichotomy (rank i) (rank j) with hlt | heq | hgt
  · exact .inr (.inl (before_of_rank_lt hi hj hlt))
  · exact .inl (rank_inj hi hj heq)
  · exact .inr (.inr (before_of_rank_lt hj hi hgt))

theorem Integer.before_of_lt (hi : Integer i) (hj : Integer j) (hne : i ≠ j) (h : i ++ f < j ++ g) : Before i j := by
  rcases hi.trichotomy hj with heq | hij | hji
  · exact absurd heq hne
  · exact hij
  · exact absurd h (lt_asymm (hji g f))

theorem integer_ne_smallest (hi : Integer i) (h : rank i ≠ 0) : i ≠ SMALLEST_INTEGER := by
  rintro rfl
  exact h rank_smallest

/-- The least integer part that is a key. -/
def lowest : Key := 'A' :: (List.replicate 25 '0' ++ ['1'])

theorem parts_lowest : Parts lowest lowest [] :=
  ⟨(List.append_nil _).symm, ⟨by decide, 'A', List.replicate 25 '0' ++ ['1'], rfl, by decide +kernel,
    by decide⟩, fraction_nil, fun h => absurd h (by decide +kernel)⟩

theorem rank_lowest : rank lowest = 1 := by decide

theorem Parts.unique (h : Parts k i f) (h' : Parts k j g) : i = j ∧ f = g := by
  obtain rfl := Except.ok.inj (h.integerPart.symm.trans h'.integerPart)
  exact ⟨rfl, h.drop.symm.trans h'.drop⟩

/-- A fraction put after an integer part that is there. -/
theorem Parts.after (hi : Integer i) {m : Key} (hm : Fraction m) (hne : m ≠ []) : Parts (i ++ m) i m :=
  ⟨rfl, hi, hm, fun _ => hne⟩

theorem Parts.alone (hi : Integer i) (h : rank i ≠ 0) : Parts i i [] :=
  ⟨(List.append_nil i).symm, hi, fraction_nil, fun heq => absurd heq (integer_ne_smallest hi h)⟩

/-- Below a key: a fraction of the smallest integer, the key's integer part, or the one before it. -/
inductive Below (k i f : Key) : Prop
  | fraction {m : Key} (hi : i = SMALLEST_INTEGER) (hk : Parts k i m)
  | integer (hi : i ≠ SMALLEST_INTEGER) (hf : f ≠ []) (hk : k = i)
  | before (hi : i ≠ SMALLEST_INTEGER) (hf : f = []) (hk : Integer k) (hrank : rank k + 1 = rank i)

theorem keyBetween_below (hb : Parts b i f) : ∃ k, keyBetween none (some b) = .ok k ∧ k < b ∧ Below k i f := by
  have hassert : assertKey b = .ok () := hb.isPositionKey
  simp only [keyBetween, Option.elim_none, Option.elim_some, hassert, hb.integerPart, hb.drop, Bind.bind, Except.bind]
  split
  · next hi =>
    subst hi
    have hne := hb.range rfl
    obtain ⟨c, f, rfl⟩ := List.exists_cons_of_ne_nil hne
    obtain ⟨m, hm, hfraction, hm0, -, hlt⟩ := midpoint_between fraction_nil hb.fraction (.inr (List.nil_lt_cons c f))
    refine ⟨SMALLEST_INTEGER ++ m, by rw [hm]; rfl, ?_, .fraction rfl (.after hb.integer hfraction hm0)⟩
    rw [hb.eq]
    exact List.append_left_lt (hlt.resolve_left hne)
  next hi =>
  have hlt : i < b ↔ f ≠ [] := by
    rw [hb.eq]
    constructor
    · rintro h rfl
      rw [List.append_nil] at h
      exact lt_irrefl _ h
    · intro hne
      obtain ⟨c, f, rfl⟩ := List.exists_cons_of_ne_nil hne
      have h : i ++ [] < i ++ c :: f := List.append_left_lt (List.nil_lt_cons c f)
      rwa [List.append_nil] at h
  split
  · next h => exact ⟨i, rfl, h, .integer hi (hlt.mp h) rfl⟩
  · next h =>
    have hf : f = [] := not_not.mp (hlt.not.mp h)
    obtain ⟨hbelow, hnone⟩ := decrementInteger_rank hb.integer
    cases hdec : decrementInteger i with
    | none => exact absurd (rank_inj hb.integer integer_smallest ((hnone hdec).trans rank_smallest.symm)) hi
    | some below =>
      obtain ⟨hint, hrank⟩ := hbelow below hdec
      refine ⟨below, rfl, ?_, .before hi hf hint hrank⟩
      have hbefore := before_of_rank_lt hint hb.integer (Nat.lt_of_succ_le (Nat.le_of_eq hrank)) [] f
      rwa [List.append_nil, ← hb.eq] at hbefore

/-- Above a key there is one. -/
theorem keyBetween_above (ha : Parts a i f) : ∃ k, keyBetween (some a) none = .ok k ∧ isPositionKey k ∧ a < k := by
  have hassert : assertKey a = .ok () := ha.isPositionKey
  simp only [keyBetween, Option.elim_none, Option.elim_some, hassert, ha.integerPart, ha.drop, Bind.bind, Except.bind]
  obtain ⟨habove, -⟩ := incrementInteger_rank ha.integer
  cases hinc : incrementInteger i with
  | none =>
    obtain ⟨m, hm, hfraction, hm0, hlt, -⟩ := midpoint_between ha.fraction fraction_nil (.inl rfl)
    refine ⟨i ++ m, by rw [hm]; rfl, (Parts.after ha.integer hfraction hm0).isPositionKey, ?_⟩
    rw [ha.eq]
    exact List.append_left_lt hlt
  | some above =>
    obtain ⟨hint, hrank⟩ := habove above hinc
    refine ⟨above, rfl, (Parts.alone hint (by omega)).isPositionKey, ?_⟩
    have hbefore := before_of_rank_lt ha.integer hint (by omega) f []
    rwa [List.append_nil, ← ha.eq] at hbefore

/-- Between two keys there is one. -/
theorem keyBetween_between (ha : isPositionKey a) (hb : isPositionKey b) (h : a < b) :
    ∃ k, keyBetween (some a) (some b) = .ok k ∧ isPositionKey k ∧ a < k ∧ k < b := by
  obtain ⟨i, f, hpa⟩ := exists_parts ha
  obtain ⟨j, g, hpb⟩ := exists_parts hb
  have hassertA : assertKey a = .ok () := ha
  have hassertB : assertKey b = .ok () := hb
  simp only [keyBetween, Option.elim_some, hassertA, hassertB, hpa.integerPart, hpa.drop, hpb.integerPart, hpb.drop,
    Bind.bind, Except.bind, not_not.mpr h, if_false]
  rw [hpa.eq, hpb.eq] at h ⊢
  split
  · next heq =>
    subst heq
    have hlt : f < g := by
      by_contra hle
      rcases eq_or_lt_of_le (not_lt.mp hle) with heq | hgt
      · exact lt_irrefl _ (heq ▸ h)
      · exact lt_asymm h (List.append_left_lt hgt)
    have hne : g ≠ [] := by
      rintro rfl
      exact List.not_lt_nil f hlt
    obtain ⟨m, hm, hfraction, hm0, hlow, hhigh⟩ := midpoint_between hpa.fraction hpb.fraction (.inr hlt)
    exact ⟨i ++ m, by rw [hm]; rfl, (Parts.after hpa.integer hfraction hm0).isPositionKey, List.append_left_lt hlow,
      List.append_left_lt (hhigh.resolve_left hne)⟩
  · next hne =>
    have hbefore := hpa.integer.before_of_lt hpb.integer hne h
    obtain ⟨habove, hnone⟩ := incrementInteger_rank hpa.integer
    cases hinc : incrementInteger i with
    | none =>
      -- no integer part is past the last
      have hle := hnone hinc j hpb.integer
      have hge : ¬ rank j < rank i := fun hlt =>
        lt_asymm (before_of_rank_lt hpb.integer hpa.integer hlt [] []) (hbefore [] [])
      exact absurd (rank_inj hpa.integer hpb.integer (by omega)) hne
    | some above =>
      obtain ⟨hint, hrank⟩ := habove above hinc
      dsimp only
      split
      · next hlt =>
        refine ⟨above, rfl, (Parts.alone hint (by omega)).isPositionKey, ?_, hlt⟩
        have habove := before_of_rank_lt hpa.integer hint (by omega) f []
        rwa [List.append_nil] at habove
      · obtain ⟨m, hm, hfraction, hm0, hlow, -⟩ := midpoint_between hpa.fraction fraction_nil (.inl rfl)
        exact ⟨i ++ m, by rw [hm]; rfl, (Parts.after hpa.integer hfraction hm0).isPositionKey,
          List.append_left_lt hlow, hbefore m g⟩

/-- Whether a key is one, strictly between two. -/
structure Fits (a b : Option Key) (k : Key) : Prop where
  key : isPositionKey k
  low : ∀ x ∈ a, x < k
  high : ∀ y ∈ b, k < y

/-- Whether so many keys in order, all between two, are what is handed out. -/
def Fill (a b : Option Key) (n : ℕ) (found : Except Fault (List Key)) : Prop :=
  ∃ ks, found = .ok ks ∧ ks.length = n ∧ ks.Pairwise (· < ·) ∧ ∀ k ∈ ks, Fits a b k

/-- Whether so many keys fit below one without a fraction of the smallest integer: its integer part is that, or
there are so many integer parts above the smallest and below the key. -/
def RoomBelow (b : Key) (n : ℕ) : Prop :=
  ∀ i, integerPart b = .ok i → i = SMALLEST_INTEGER ∨ n < rank i ∨ n = rank i ∧ i ≠ b

/-- The one place there may be no room: below a key, with no bound. -/
def Roomy (a b : Option Key) (n : ℕ) : Prop := a = none → ∀ y ∈ b, RoomBelow y n

theorem roomBelow_iff (hb : Parts b i f) {n : ℕ} :
    RoomBelow b n ↔ i = SMALLEST_INTEGER ∨ n < rank i ∨ n = rank i ∧ f ≠ [] := by
  have hne : i ≠ b ↔ f ≠ [] := by
    rw [hb.eq, ne_eq, List.self_eq_append_right]
  rw [← hne]
  constructor
  · intro h
    exact h i hb.integerPart
  · intro h j hj
    obtain rfl := Except.ok.inj (hb.integerPart.symm.trans hj)
    exact h

theorem fill_after (ha : ∀ x ∈ a', isPositionKey x) (n : ℕ) : Fill a' none n (keysAfter a' n) := by
  induction n generalizing a' with
  | zero => exact ⟨[], rfl, rfl, .nil, by simp⟩
  | succ n ih =>
    have hone : ∃ k, keyBetween a' none = .ok k ∧ Fits a' none k := by
      cases a' with
      | none => exact ⟨ZERO, rfl, (Parts.alone integer_zero (by decide)).isPositionKey, nofun, nofun⟩
      | some x =>
        obtain ⟨i, f, hx⟩ := exists_parts (ha x rfl)
        obtain ⟨k, hk, hkey, hlt⟩ := keyBetween_above hx
        exact ⟨k, hk, hkey, fun y hy => Option.some.inj hy ▸ hlt, nofun⟩
    obtain ⟨k, hk, hfits⟩ := hone
    obtain ⟨ks, hks, hlength, hsorted, hall⟩ := ih fun x hx => Option.some.inj hx ▸ hfits.key
    refine ⟨k :: ks, ?_, congrArg Nat.succ hlength, List.pairwise_cons.mpr ⟨fun x hx => (hall x hx).low k rfl, hsorted⟩,
      List.forall_mem_cons.mpr ⟨hfits, fun x hx => ⟨(hall x hx).key, fun y hy => ?_, nofun⟩⟩⟩
    · simp only [keysAfter, hk, hks, Bind.bind, Except.bind]
    · exact (hfits.low y hy).trans ((hall x hx).low k rfl)

/-- Keys counted down below one: as many as there is room for. -/
theorem fill_before (hb : Parts b i f) (n : ℕ) :
    (∃ ks, keysBefore (some b) n = .ok ks ∧ ks.length = n ∧ ks.Pairwise (· > ·) ∧ ∀ k ∈ ks, isPositionKey k ∧ k < b) ↔
      RoomBelow b n := by
  induction n generalizing b i f with
  | zero =>
    rw [roomBelow_iff hb]
    refine iff_of_true ⟨[], rfl, rfl, .nil, by simp⟩ ?_
    by_cases hi : i = SMALLEST_INTEGER
    · exact .inl hi
    · refine .inr (.inl (Nat.pos_of_ne_zero fun hzero => hi ?_))
      exact rank_inj hb.integer integer_smallest (hzero.trans rank_smallest.symm)
  | succ n ih =>
    obtain ⟨k, hk, hlt, hbelow⟩ := keyBetween_below hb
    -- the first key, then as many as there is room for below it
    have hstep : (∃ ks, keysBefore (some b) (n + 1) = .ok ks ∧ ks.length = n + 1 ∧ ks.Pairwise (· > ·) ∧
        ∀ x ∈ ks, isPositionKey x ∧ x < b) ↔ isPositionKey k ∧ RoomBelow k n := by
      simp only [keysBefore, hk, Bind.bind, Except.bind]
      constructor
      · rintro ⟨ks, heq, hlength, hsorted, hall⟩
        cases hrest : keysBefore (some k) n with
        | error e => simp [hrest] at heq
        | ok rest =>
          rw [hrest] at heq
          obtain rfl := Except.ok.inj heq
          obtain ⟨hfirst, hsorted⟩ := List.pairwise_cons.mp hsorted
          obtain ⟨hkey, hall⟩ := List.forall_mem_cons.mp hall
          obtain ⟨j, g, hparts⟩ := exists_parts hkey.1
          exact ⟨hkey.1, (ih hparts).mp ⟨rest, hrest, Nat.succ.inj hlength, hsorted,
            fun x hx => ⟨(hall x hx).1, hfirst x hx⟩⟩⟩
      · rintro ⟨hkey, hroom⟩
        obtain ⟨j, g, hparts⟩ := exists_parts hkey
        obtain ⟨rest, hrest, hlength, hsorted, hall⟩ := (ih hparts).mpr hroom
        rw [hrest]
        refine ⟨k :: rest, rfl, congrArg Nat.succ hlength, List.pairwise_cons.mpr ⟨fun x hx => (hall x hx).2, hsorted⟩,
          List.forall_mem_cons.mpr ⟨⟨hkey, hlt⟩, fun x hx => ⟨(hall x hx).1, (hall x hx).2.trans hlt⟩⟩⟩
    rw [hstep, roomBelow_iff hb]
    cases hbelow with
    | fraction hi hparts =>
      refine iff_of_true ⟨hparts.isPositionKey, ?_⟩ (.inl hi)
      rw [roomBelow_iff hparts]
      exact .inl hi
    | integer hi hf heq =>
      subst heq
      have hrank : rank k ≠ 0 := fun hzero => hi (rank_inj hb.integer integer_smallest (hzero.trans rank_smallest.symm))
      have hparts := Parts.alone hb.integer hrank
      rw [roomBelow_iff hparts]
      simp only [hparts.isPositionKey, hi, hf, ne_eq, not_true, not_false_eq_true, true_and, false_or, and_false, or_false,
        and_true]
      omega
    | before hi hf hint hrank =>
      by_cases hzero : rank k = 0
      · have hsmall : k = SMALLEST_INTEGER := rank_inj hint integer_smallest (hzero.trans rank_smallest.symm)
        refine iff_of_false (fun h => ?_) ?_
        · have hbad : ¬ isPositionKey SMALLEST_INTEGER := by decide
          exact hbad (hsmall ▸ h.1)
        · simp only [hi, hf, ne_eq, not_true, and_false, or_false, false_or]
          omega
      · have hparts := Parts.alone hint hzero
        have hk0 := integer_ne_smallest hint hzero
        rw [roomBelow_iff hparts]
        simp only [hparts.isPositionKey, hi, hf, hk0, ne_eq, not_true, true_and, false_or, and_false, or_false]
        omega

theorem keysBetween_before (hb : Parts b i f) (n : ℕ) :
    Fill none (some b) n (keysBetween none (some b) n) ↔ RoomBelow b n := by
  have hreverse : Fill none (some b) n ((keysBefore (some b) n).map List.reverse) ↔ RoomBelow b n := by
    rw [← fill_before hb n]
    constructor
    · rintro ⟨ks, heq, hlength, hsorted, hall⟩
      cases hrest : keysBefore (some b) n with
      | error e => simp [hrest, Except.map] at heq
      | ok rest =>
        rw [hrest] at heq
        obtain rfl := Except.ok.inj heq
        exact ⟨rest, rfl, by simpa using hlength, List.pairwise_reverse.mp hsorted,
          fun k hk => ⟨(hall k (List.mem_reverse.mpr hk)).key, (hall k (List.mem_reverse.mpr hk)).high b rfl⟩⟩
    · rintro ⟨ks, heq, hlength, hsorted, hall⟩
      refine ⟨ks.reverse, by rw [heq]; rfl, by simpa using hlength, List.pairwise_reverse.mpr hsorted, fun k hk => ?_⟩
      obtain ⟨hkey, hlt⟩ := hall k (List.mem_reverse.mp hk)
      exact ⟨hkey, nofun, fun y hy => Option.some.inj hy ▸ hlt⟩
  rw [← hreverse]
  match n with
  | 0 => rw [keysBetween]; rfl
  | 1 =>
    rw [keysBetween, keysBefore]
    cases keyBetween none (some b) <;> rfl
  | n + 2 => rw [keysBetween]

/-- Between two keys, as many as are asked for. -/
theorem fill_between (ha : isPositionKey a) (hb : isPositionKey b) (h : a < b) (n : ℕ) :
    Fill (some a) (some b) n (keysBetween (some a) (some b) n) := by
  induction n using Nat.strong_induction_on generalizing a b with
  | _ n ih =>
    obtain ⟨m, hm, hkey, hlow, hhigh⟩ := keyBetween_between ha hb h
    have hfits : Fits (some a) (some b) m :=
      ⟨hkey, fun x hx => Option.some.inj hx ▸ hlow, fun y hy => Option.some.inj hy ▸ hhigh⟩
    match n with
    | 0 => exact ⟨[], by rw [keysBetween], rfl, .nil, by simp⟩
    | 1 => exact ⟨[m], by rw [keysBetween, hm]; rfl, rfl, List.pairwise_singleton .., by simpa using hfits⟩
    | n + 2 =>
      obtain ⟨ls, hls, hlength, hsorted, hall⟩ := ih ((n + 2) / 2) (by omega) ha hkey hlow
      obtain ⟨hs, hhs, hlength', hsorted', hall'⟩ := ih (n + 2 - (n + 2) / 2 - 1) (by omega) hkey hb hhigh
      refine ⟨ls ++ m :: hs, ?_, ?_, ?_, ?_⟩
      · rw [keysBetween, hm]
        simp only [Bind.bind, Except.bind, hls, hhs]
      · rw [List.length_append, List.length_cons, hlength, hlength']
        omega
      · have hleft : ∀ x ∈ ls, x < m := fun x hx => (hall x hx).high m rfl
        have hright : ∀ x ∈ hs, m < x := fun x hx => (hall' x hx).low m rfl
        refine List.pairwise_append.mpr ⟨hsorted, List.pairwise_cons.mpr ⟨hright, hsorted'⟩, fun x hx y hy => ?_⟩
        rcases List.mem_cons.mp hy with rfl | hy
        · exact hleft x hx
        · exact (hleft x hx).trans (hright y hy)
      · intro k hk
        rcases List.mem_append.mp hk with hk | hk
        · exact ⟨(hall k hk).key, (hall k hk).low, fun y hy => Option.some.inj hy ▸ ((hall k hk).high m rfl).trans hhigh⟩
        rcases List.mem_cons.mp hk with rfl | hk
        · exact hfits
        · exact ⟨(hall' k hk).key, fun x hx => Option.some.inj hx ▸ hlow.trans ((hall' k hk).low m rfl), (hall' k hk).high⟩

theorem keysBetween_after (ha : ∀ x ∈ a', isPositionKey x) (n : ℕ) : Fill a' none n (keysBetween a' none n) := by
  have hfill := fill_after ha n
  match n with
  | 0 => rwa [keysBetween]
  | 1 =>
    rw [keysBetween]
    rw [keysAfter] at hfill
    exact hfill
  | n + 2 => cases a' <;> rwa [keysBetween]

/-- One key is a row of one. -/
theorem fill_one {b' : Option Key} : Fill a' b' 1 (keysBetween a' b' 1) ↔ ∃ k, keyBetween a' b' = .ok k ∧ Fits a' b' k := by
  rw [keysBetween]
  constructor
  · rintro ⟨ks, heq, hlength, -, hall⟩
    cases hk : keyBetween a' b' with
    | error e => simp [hk, Bind.bind, Except.bind] at heq
    | ok k =>
      rw [hk] at heq
      obtain rfl := Except.ok.inj heq
      exact ⟨k, rfl, hall k (List.mem_singleton_self k)⟩
  · rintro ⟨k, hk, hfits⟩
    exact ⟨[k], by rw [hk]; rfl, rfl, List.pairwise_singleton .., by simpa using hfits⟩

/-- Between any two keys, or past one, there is a key, and any number of them in order; below a key there are as
many as there is room for. -/
theorem always_a_key_between {b' : Option Key} (ha : ∀ x ∈ a', isPositionKey x) (hb : ∀ y ∈ b', isPositionKey y)
    (h : ∀ x ∈ a', ∀ y ∈ b', x < y) :
    ((∃ k, keyBetween a' b' = .ok k ∧ Fits a' b' k) ↔ Roomy a' b' 1) ∧
      ∀ n, Fill a' b' n (keysBetween a' b' n) ↔ Roomy a' b' n := by
  have hfill : ∀ n, Fill a' b' n (keysBetween a' b' n) ↔ Roomy a' b' n := by
    intro n
    cases b' with
    | none => exact iff_of_true (keysBetween_after ha n) nofun
    | some y =>
      cases a' with
      | none =>
        obtain ⟨i, f, hy⟩ := exists_parts (hb y rfl)
        rw [keysBetween_before hy]
        exact ⟨fun hroom _ z hz => Option.some.inj hz ▸ hroom, fun hroom => hroom rfl y rfl⟩
      | some x => exact iff_of_true (fill_between (ha x rfl) (hb y rfl) (h x rfl y rfl) n) nofun
  exact ⟨fill_one.symm.trans (hfill 1), hfill⟩

theorem always_a_key_between_neighbours : ∃ k, keyBetween (some ['a', '0']) (some ['a', '1']) = .ok k ∧
    Fits (some ['a', '0']) (some ['a', '1']) k :=
  (always_a_key_between (by decide) (by decide +kernel) (by decide +kernel)).1.mpr nofun

/-- Below the least integer part that is a key, what is handed out is no key. -/
theorem no_key_below_lowest : ¬ ∀ a b : Option Key, (∀ x ∈ a, isPositionKey x) → (∀ y ∈ b, isPositionKey y) →
    (∀ x ∈ a, ∀ y ∈ b, x < y) → ∃ k, keyBetween a b = .ok k ∧ Fits a b k := by
  intro h
  obtain ⟨k, hk, hfits⟩ := h none (some lowest) nofun (by decide) nofun
  have hsmall : keyBetween none (some lowest) = .ok SMALLEST_INTEGER := by decide
  obtain rfl := Except.ok.inj (hsmall.symm.trans hk)
  exact absurd hfits.key (by decide)

end LazyStorage.Core
