import Mathlib.Data.List.Basic
import Mathlib.Order.Lattice

/-! # The longest increasing run, by patience

Over a list of keys, some missing, `tails` holds for each length the index of the
smallest tail of an increasing run of that length so far, and `previous` for each
index the one before it in its run. Each key goes where a binary search puts it; the
run that ends at the last tail is a longest one, and of these the one that starts last.
-/
namespace LazyStorage.Client

variable {α : Type*} [LinearOrder α]

def keyAt (keys : List (Option α)) (i : ℕ) : Option α := (keys[i]?).join

/-- The first length from `low` on, below `high`, whose smallest tail is not less than the key. -/
def search (keys : List (Option α)) (tails : List ℕ) (key : α) (low high : ℕ) : ℕ :=
  if low < high then
    let mid := (low + high) / 2
    if (keyAt keys (tails.getD mid 0)).any (· < key) then search keys tails key (mid + 1) high
    else search keys tails key low mid
  else low
termination_by high - low

structure Piles where
  tails : List ℕ
  previous : List (Option ℕ)

def put (keys : List (Option α)) (s : Piles) (i : ℕ) : Piles :=
  match keyAt keys i with
  | none => s
  | some key =>
    let low := search keys s.tails key 0 s.tails.length
    { previous := s.previous.set i (if 0 < low then s.tails[low - 1]? else none)
      tails := if low < s.tails.length then s.tails.set low i else s.tails ++ [i] }

def deal (keys : List (Option α)) : Piles :=
  (List.range keys.length).foldl (put keys) ⟨[], List.replicate keys.length none⟩

/-- The run that ends at an index, its last first. -/
def trace (previous : List (Option ℕ)) : ℕ → Option ℕ → List ℕ
  | 0, _ | _ + 1, none => []
  | fuel + 1, some i => i :: trace previous fuel (previous.getD i none)

/-- Indices of a longest strictly increasing run of keys, its last first. -/
def longestIncreasing (keys : List (Option α)) : List ℕ :=
  trace (deal keys).previous keys.length (deal keys).tails.getLast?

variable {keys : List (Option α)} {l : List ℕ} {s : Piles} {i j : ℕ} {key : α}

/-- An index before another, with a smaller key. -/
def Rises (keys : List (Option α)) (i j : ℕ) : Prop :=
  i < j ∧ ∃ x y, keyAt keys i = some x ∧ keyAt keys j = some y ∧ x < y

theorem Rises.trans {k : ℕ} (h : Rises keys i j) (h' : Rises keys j k) : Rises keys i k := by
  obtain ⟨hij, x, y, hx, hy, hxy⟩ := h
  obtain ⟨hjk, y', z, hy', hz, hyz⟩ := h'
  obtain rfl := Option.some.inj (hy.symm.trans hy')
  exact ⟨Nat.lt_trans hij hjk, x, z, hx, hz, lt_trans hxy hyz⟩

/-- A strictly increasing run, its last first. -/
structure Run (keys : List (Option α)) (l : List ℕ) : Prop where
  rises : l.Pairwise fun j i => Rises keys i j
  keyed : ∀ i ∈ l, (keyAt keys i).isSome = true

theorem Run.tail (h : Run keys (i :: l)) : Run keys l :=
  ⟨(List.pairwise_cons.mp h.rises).2, fun j hj => h.keyed j (List.mem_cons_of_mem _ hj)⟩

theorem Run.single (h : keyAt keys i = some key) : Run keys [i] :=
  ⟨List.pairwise_singleton .., by simp [h]⟩

theorem Run.cons (h : Run keys (j :: l)) (hi : Rises keys j i) : Run keys (i :: j :: l) := by
  refine ⟨List.pairwise_cons.mpr ⟨fun k hk => ?_, h.rises⟩, List.forall_mem_cons.mpr ⟨?_, h.keyed⟩⟩
  · rcases List.mem_cons.mp hk with rfl | hk
    · exact hi
    · exact ((List.pairwise_cons.mp h.rises).1 k hk).trans hi
  · obtain ⟨-, x, y, -, hy, -⟩ := hi
    rw [hy]
    rfl

theorem Run.le_head (h : Run keys (i :: l)) (hj : j ∈ i :: l) : j ≤ i := by
  rcases List.mem_cons.mp hj with rfl | hj
  · exact Nat.le_refl _
  · exact Nat.le_of_lt ((List.pairwise_cons.mp h.rises).1 j hj).1

theorem Run.rises_of_lt (h : Run keys l) (hi : i ∈ l) (hj : j ∈ l) (hij : i < j) : Rises keys i j := by
  induction l with
  | nil => exact nomatch hi
  | cons k l ih =>
    have hrise := (List.pairwise_cons.mp h.rises).1
    rcases List.mem_cons.mp hi with rfl | hi'
    · exact absurd (h.le_head hj) (Nat.not_le_of_lt hij)
    · rcases List.mem_cons.mp hj with rfl | hj'
      · exact hrise i hi'
      · exact ih h.tail hi' hj'

/-- A run starts at its least index. -/
theorem Run.start_le (h : Run keys l) (hi : l.getLast? = some i) (hj : j ∈ l) : i ≤ j := by
  obtain ⟨m, rfl⟩ := List.getLast?_eq_some_iff.mp hi
  rcases List.mem_append.mp hj with hj | hj
  · exact Nat.le_of_lt ((List.pairwise_append.mp h.rises).2.2 j hj i (List.mem_singleton_self i)).1
  · exact Nat.le_of_eq (List.mem_singleton.mp hj).symm

theorem Run.nodup (h : Run keys l) : l.Nodup := h.rises.imp fun hrise => (Nat.ne_of_lt hrise.1).symm

/-- Each index of a list leads to the one after it. -/
def Linked (previous : List (Option ℕ)) : List ℕ → Prop
  | [] => True
  | i :: l => previous.getD i none = l.head? ∧ Linked previous l

theorem trace_of_linked {previous : List (Option ℕ)} (h : Linked previous l) {fuel : ℕ}
    (hfuel : l.length ≤ fuel) : trace previous fuel l.head? = l := by
  induction l generalizing fuel with
  | nil => cases fuel <;> rfl
  | cons i l ih =>
    cases fuel with
    | zero => simp at hfuel
    | succ fuel => rw [List.head?_cons, trace, h.1, ih h.2 (Nat.le_of_succ_le_succ hfuel)]

theorem Linked.set {previous : List (Option ℕ)} (h : Linked previous l) (hi : i ∉ l) (x : Option ℕ) :
    Linked (previous.set i x) l := by
  induction l with
  | nil => trivial
  | cons j l ih =>
    rw [List.mem_cons, not_or] at hi
    obtain ⟨hij, hi⟩ := hi
    refine ⟨?_, ih h.2 hi⟩
    rw [List.getD_eq_getElem?_getD, List.getElem?_set_ne hij, ← List.getD_eq_getElem?_getD]
    exact h.1

/-- A binary search finds where what holds of the first lengths ends. -/
theorem search_spec (tails : List ℕ) {n : ℕ}
    (hmono : ∀ p q, p ≤ q → q < n → (keyAt keys (tails.getD q 0)).any (· < key) = true →
      (keyAt keys (tails.getD p 0)).any (· < key) = true) {low high : ℕ} (hle : low ≤ high) (hhigh : high ≤ n)
    (hlow : ∀ p, p < low → (keyAt keys (tails.getD p 0)).any (· < key) = true)
    (habove : ∀ p, high ≤ p → p < n → (keyAt keys (tails.getD p 0)).any (· < key) = false) :
    search keys tails key low high ≤ n ∧
      (∀ p, p < search keys tails key low high → (keyAt keys (tails.getD p 0)).any (· < key) = true) ∧
      ∀ p, search keys tails key low high ≤ p → p < n → (keyAt keys (tails.getD p 0)).any (· < key) = false := by
  induction low, high using search.induct keys tails key with
  | case1 low high hlt mid hbelow ih =>
    rw [search, if_pos hlt, if_pos hbelow]
    have hmid : mid < high := by omega
    refine ih (by omega) hhigh (fun p hp => ?_) habove
    exact hmono p mid (by omega) (by omega) hbelow
  | case2 low high hlt mid hbelow ih =>
    rw [search, if_pos hlt, if_neg hbelow]
    have hmid : mid < high := by omega
    refine ih (by omega) (by omega) hlow fun p hp hpn => ?_
    by_contra hp'
    exact hbelow (hmono mid p hp hpn (by simpa using hp'))
  | case3 low high hge =>
    rw [search, if_neg hge]
    have heq : low = high := by omega
    subst heq
    exact ⟨hhigh, hlow, habove⟩

/-- A run that no longer one ends with. -/
structure Peak (keys : List (Option α)) (i : ℕ) (l : List ℕ) : Prop where
  run : Run keys (i :: l)
  longest : ∀ l', Run keys (i :: l') → l'.length ≤ l.length

theorem Peak.tail (h : Peak keys i (j :: l)) : Peak keys j l := by
  refine ⟨h.run.tail, fun l' hl' => ?_⟩
  have hrise := (List.pairwise_cons.mp h.run.rises).1 j List.mem_cons_self
  exact Nat.le_of_succ_le_succ (h.longest (j :: l') (hl'.cons hrise))

/-- Of the runs of one length that no longer one ends with, none before an index ends or starts after this one. -/
def Latest (keys : List (Option α)) (n i : ℕ) (l : List ℕ) : Prop :=
  ∀ j l', Peak keys j l' → l'.length = l.length → j < n → j ≤ i ∧ l'.getLastD j ≤ l.getLastD i

/-- What holds of the piles once the indices before one are dealt: the tail at each length ends a linked run of
that length, the latest, and no run that ends before has a smaller key. -/
structure Dealt (keys : List (Option α)) (n : ℕ) (s : Piles) : Prop where
  size : s.previous.length = keys.length
  runs : ∀ p t, s.tails[p]? = some t → t < n ∧ ∃ l, Run keys (t :: l) ∧ l.length = p ∧ Linked s.previous (t :: l) ∧
    Latest keys n t l
  best : ∀ j l, Run keys (j :: l) → j < n → ∃ t x y, s.tails[l.length]? = some t ∧ keyAt keys t = some x ∧
    keyAt keys j = some y ∧ x ≤ y

/-- A run cut after some of its last. -/
theorem Run.cut (h : Run keys (i :: l)) {p : ℕ} (hp : p < l.length) :
    ∃ j l', Run keys (j :: l') ∧ l'.length = p ∧ Rises keys j i := by
  have hlength : (l.drop (l.length - 1 - p)).length = p + 1 := by
    rw [List.length_drop]
    omega
  obtain ⟨j, l', heq⟩ := List.exists_cons_of_length_eq_add_one hlength
  have hsub : (j :: l').Sublist l := heq ▸ List.drop_sublist _ _
  refine ⟨j, l', ⟨h.tail.rises.sublist hsub, fun k hk => h.tail.keyed k (hsub.subset hk)⟩, ?_, ?_⟩
  · rw [heq] at hlength
    exact Nat.succ.inj hlength
  · exact (List.pairwise_cons.mp h.rises).1 j (hsub.subset List.mem_cons_self)

/-- The tails rise with the length. -/
theorem Dealt.mono {n : ℕ} (h : Dealt keys n s) {p q : ℕ} (hpq : p ≤ q) (hq : q < s.tails.length)
    (hbelow : (keyAt keys (s.tails.getD q 0)).any (· < key) = true) :
    (keyAt keys (s.tails.getD p 0)).any (· < key) = true := by
  rcases Nat.eq_or_lt_of_le hpq with rfl | hlt
  · exact hbelow
  obtain ⟨u, hu⟩ : ∃ u, s.tails[q]? = some u := ⟨_, List.getElem?_eq_getElem hq⟩
  obtain ⟨hun, l, hrun, hlength, -⟩ := h.runs q u hu
  obtain ⟨j, l', hrun', hlength', hjn, y, z, hy, hz, hyz⟩ := hrun.cut (hlength ▸ hlt)
  obtain ⟨t, x, y', ht, hx, hy', hxy⟩ := h.best j l' hrun' (Nat.lt_trans hjn hun)
  obtain rfl := Option.some.inj (hy.symm.trans hy')
  rw [hlength'] at ht
  rw [List.getD_eq_getElem?_getD, hu, Option.getD_some, hz, Option.any_some, decide_eq_true_eq] at hbelow
  rw [List.getD_eq_getElem?_getD, ht, Option.getD_some, hx, Option.any_some, decide_eq_true_eq]
  exact lt_of_le_of_lt hxy (lt_trans hyz hbelow)

theorem Dealt.search {n : ℕ} (h : Dealt keys n s) (key : α) : ∃ low, search keys s.tails key 0 s.tails.length = low ∧
    low ≤ s.tails.length ∧ (∀ p t, p < low → s.tails[p]? = some t → ∃ x, keyAt keys t = some x ∧ x < key) ∧
    ∀ p t x, low ≤ p → s.tails[p]? = some t → keyAt keys t = some x → key ≤ x := by
  obtain ⟨hle, hlow, hhigh⟩ := search_spec s.tails (fun p q => @mono _ _ keys s key n h p q) (Nat.zero_le _)
    (Nat.le_refl s.tails.length) (fun p hp => absurd hp (Nat.not_lt_zero p))
    (fun p hp hp' => absurd hp' (Nat.not_lt_of_le hp))
  refine ⟨_, rfl, hle, fun p t hp ht => ?_, fun p t x hp ht hx => ?_⟩
  · have hbelow := hlow p hp
    rw [List.getD_eq_getElem?_getD, ht, Option.getD_some, Option.any_eq_true] at hbelow
    obtain ⟨x, hx, hlt⟩ := hbelow
    exact ⟨x, hx, of_decide_eq_true hlt⟩
  · have habove := hhigh p hp (List.getElem?_eq_some_iff.mp ht).1
    rw [List.getD_eq_getElem?_getD, ht, Option.getD_some, hx, Option.any_some, decide_eq_false_iff_not] at habove
    exact not_lt.mp habove

/-- The tails after an index is put at a length. -/
theorem tails_put {tails : List ℕ} {low : ℕ} (hlow : low ≤ tails.length) (i p : ℕ) :
    (if low < tails.length then tails.set low i else tails ++ [i])[p]? = if p = low then some i else tails[p]? := by
  split
  · next hlt =>
    rw [List.getElem?_set]
    by_cases hp : low = p
    · rw [if_pos hp, if_pos (hp ▸ hlt), if_pos hp.symm]
    · rw [if_neg hp, if_neg (Ne.symm hp)]
  · next hge =>
    obtain rfl : low = tails.length := by omega
    by_cases hp : p = tails.length
    · rw [if_pos hp, hp, List.getElem?_concat_length]
    · rw [if_neg hp, List.getElem?_append]
      split
      · rfl
      · rw [List.getElem?_eq_none (l := [i]) (by simp; omega), List.getElem?_eq_none (by omega)]

/-- A run before an index is no longer than where the index is put. -/
theorem Dealt.length_le {n low : ℕ} (h : Dealt keys n s) (hkey : keyAt keys n = some key)
    (hhigh : ∀ p t x, low ≤ p → s.tails[p]? = some t → keyAt keys t = some x → key ≤ x)
    (hrun : Run keys (n :: l)) : l.length ≤ low := by
  cases l with
  | nil => exact Nat.zero_le low
  | cons k l =>
    obtain ⟨hkn, y, z, hy, hz, hyz⟩ := (List.pairwise_cons.mp hrun.rises).1 k List.mem_cons_self
    obtain ⟨t, x, y', ht, hx, hy', hxy⟩ := h.best k l hrun.tail hkn
    obtain rfl := Option.some.inj (hy.symm.trans hy')
    obtain rfl := Option.some.inj (hkey.symm.trans hz)
    by_contra hge
    rw [List.length_cons] at hge
    exact absurd (lt_of_le_of_lt hxy hyz) (not_lt.mpr (hhigh _ t x (by omega) ht hx))

/-- An index without a key changes nothing. -/
theorem Dealt.skip {n : ℕ} (h : Dealt keys n s) (hkey : keyAt keys n = none) : Dealt keys (n + 1) s := by
  have hlt : ∀ j l, Run keys (j :: l) → j < n + 1 → j < n := by
    intro j l hrun hj
    have hne : j ≠ n := by
      rintro rfl
      have := hrun.keyed j List.mem_cons_self
      rw [hkey] at this
      exact nomatch this
    omega
  refine ⟨h.size, fun p t ht => ?_, fun j l hrun hj => h.best j l hrun (hlt j l hrun hj)⟩
  obtain ⟨htn, l, hrun, hlength, hlinked, hlatest⟩ := h.runs p t ht
  exact ⟨Nat.lt_succ_of_lt htn, l, hrun, hlength, hlinked, fun j l' hpeak heq hj =>
    hlatest j l' hpeak heq (hlt j l' hpeak.run hj)⟩

theorem Dealt.put {n : ℕ} (h : Dealt keys n s) (hn : n < keys.length) : Dealt keys (n + 1) (put keys s n) := by
  rw [Client.put]
  cases hkey : keyAt keys n with
  | none => exact h.skip hkey
  | some key =>
    obtain ⟨low, hsearch, hle, hlow, hhigh⟩ := h.search key
    dsimp only
    rw [hsearch]
    have hset : ∀ x, (s.previous.set n x).getD n none = x := fun x => by
      rw [List.getD_eq_getElem?_getD, List.getElem?_set_self (h.size ▸ hn), Option.getD_some]
    have hkept : ∀ t l x, t < n → Run keys (t :: l) → Linked s.previous (t :: l) →
        Linked (s.previous.set n x) (t :: l) := fun t l x htn hrun hlinked =>
      hlinked.set (fun hmem => absurd (hrun.le_head hmem) (Nat.not_le_of_lt htn)) x
    -- the index ends a run one longer than the one it is put after, the latest of them
    have hends : ∃ l, Run keys (n :: l) ∧ l.length = low ∧
        Linked (s.previous.set n (if 0 < low then s.tails[low - 1]? else none)) (n :: l) ∧ Latest keys (n + 1) n l := by
      cases low with
      | zero =>
        refine ⟨[], .single hkey, rfl, ⟨hset _, trivial⟩, fun j l' hpeak heq hj => ⟨Nat.le_of_lt_succ hj, ?_⟩⟩
        rw [List.length_eq_zero_iff.mp heq]
        exact Nat.le_of_lt_succ hj
      | succ p =>
        obtain ⟨t, ht⟩ : ∃ t, s.tails[p]? = some t := ⟨_, List.getElem?_eq_getElem hle⟩
        obtain ⟨htn, l, hrun, hlength, hlinked, hlatest⟩ := h.runs p t ht
        obtain ⟨x, hx, hlt⟩ := hlow p t (Nat.lt_succ_self p) ht
        refine ⟨t :: l, hrun.cons ⟨htn, x, key, hx, hkey, hlt⟩, congrArg Nat.succ hlength, ⟨?_, hkept t l _ htn hrun hlinked⟩,
          fun j l' hpeak heq hj => ⟨Nat.le_of_lt_succ hj, ?_⟩⟩
        · rw [hset, if_pos (Nat.succ_pos p), Nat.add_sub_cancel, ht, List.head?_cons]
        · obtain ⟨k, l', rfl⟩ := List.exists_cons_of_length_eq_add_one heq
          have hkj := ((List.pairwise_cons.mp hpeak.run.rises).1 k List.mem_cons_self).1
          rw [List.getLastD_cons, List.getLastD_cons]
          exact (hlatest k l' hpeak.tail (Nat.succ.inj heq) (by omega)).2
    refine ⟨(List.length_set ..).trans h.size, fun p t ht => ?_, fun j l hrun hj => ?_⟩
    · rw [tails_put hle] at ht
      by_cases hp : p = low
      · rw [if_pos hp] at ht
        obtain rfl := Option.some.inj ht
        subst hp
        exact ⟨Nat.lt_succ_self _, hends⟩
      · rw [if_neg hp] at ht
        obtain ⟨htn, l, hrun, hlength, hlinked, hlatest⟩ := h.runs p t ht
        refine ⟨Nat.lt_succ_of_lt htn, l, hrun, hlength, hkept t l _ htn hrun hlinked, fun j l' hpeak heq hj => ?_⟩
        rcases Nat.lt_succ_iff_lt_or_eq.mp hj with hj | rfl
        · exact hlatest j l' hpeak heq hj
        · obtain ⟨m, hm, hlow', -⟩ := hends
          have hge := hpeak.longest m hm
          have hle' := h.length_le hkey hhigh hpeak.run
          omega
    · rw [tails_put hle]
      by_cases hp : l.length = low
      · rw [if_pos hp]
        rcases Nat.lt_succ_iff_lt_or_eq.mp hj with hj | rfl
        · obtain ⟨t, x, y, ht, hx, hy, hxy⟩ := h.best j l hrun hj
          exact ⟨n, key, y, rfl, hkey, hy, le_trans (hhigh _ t x (Nat.le_of_eq hp.symm) ht hx) hxy⟩
        · exact ⟨j, key, key, rfl, hkey, hkey, le_refl key⟩
      · rw [if_neg hp]
        rcases Nat.lt_succ_iff_lt_or_eq.mp hj with hj | rfl
        · exact h.best j l hrun hj
        · have hshort : l.length < low := Nat.lt_of_le_of_ne (h.length_le hkey hhigh hrun) hp
          obtain ⟨t, ht⟩ : ∃ t, s.tails[l.length]? = some t :=
            ⟨_, List.getElem?_eq_getElem (Nat.lt_of_lt_of_le hshort hle)⟩
          obtain ⟨x, hx, hlt⟩ := hlow _ t hshort ht
          exact ⟨t, x, key, ht, hx, hkey, le_of_lt hlt⟩

theorem dealt_deal (keys : List (Option α)) : Dealt keys keys.length (deal keys) := by
  have hrange : ∀ n ≤ keys.length,
      Dealt keys n ((List.range n).foldl (put keys) ⟨[], List.replicate keys.length none⟩) := by
    intro n
    induction n with
    | zero => exact fun _ => ⟨List.length_replicate, nofun, fun j l _ hj => absurd hj (Nat.not_lt_zero j)⟩
    | succ n ih =>
      intro hn
      rw [List.range_succ, List.foldl_append]
      exact (ih (Nat.le_of_succ_le hn)).put hn
  exact hrange keys.length (Nat.le_refl _)

/-- A run is no longer than the index it ends at allows. -/
theorem Run.length_le (h : Run keys (i :: l)) : l.length ≤ i := by
  induction l generalizing i with
  | nil => exact Nat.zero_le i
  | cons j l ih =>
    have hlt := ((List.pairwise_cons.mp h.rises).1 j List.mem_cons_self).1
    have hle := ih h.tail
    rw [List.length_cons]
    omega

omit [LinearOrder α] in
theorem lt_of_keyAt (h : keyAt keys i = some key) : i < keys.length := by
  rw [keyAt, Option.join_eq_some_iff] at h
  exact (List.getElem?_eq_some_iff.mp h).1

/-- A run none is longer than. -/
structure Longest (keys : List (Option α)) (l : List ℕ) : Prop where
  run : Run keys l
  longest : ∀ l', Run keys l' → l'.length ≤ l.length

/-- The last index that a longest run starts at. -/
structure StartsLast (keys : List (Option α)) (i : ℕ) : Prop where
  starts : ∃ l, Longest keys l ∧ l.getLast? = some i
  last : ∀ l j, Longest keys l → l.getLast? = some j → j ≤ i

/-- What is traced: nothing when no index has a key, else a longest run, the latest. -/
theorem longestIncreasing_cases (keys : List (Option α)) :
    longestIncreasing keys = [] ∧ (∀ l, Run keys l → l = []) ∨
      ∃ t l, longestIncreasing keys = t :: l ∧ Longest keys (t :: l) ∧ Latest keys keys.length t l := by
  have h := dealt_deal keys
  have hbest : ∀ j l, Run keys (j :: l) → l.length < (deal keys).tails.length := by
    intro j l hl
    obtain ⟨y, hy⟩ := Option.isSome_iff_exists.mp (hl.keyed j List.mem_cons_self)
    obtain ⟨t, x, y', ht, -⟩ := h.best j l hl (lt_of_keyAt hy)
    exact (List.getElem?_eq_some_iff.mp ht).1
  rw [longestIncreasing]
  cases hlast : (deal keys).tails.getLast? with
  | none =>
    refine .inl ⟨by cases keys.length <;> rfl, fun l hl => ?_⟩
    cases l with
    | nil => rfl
    | cons j l =>
      have hlt := hbest j l hl
      rw [List.getLast?_eq_none_iff.mp hlast] at hlt
      exact absurd hlt (Nat.not_lt_zero _)
  | some t =>
    rw [List.getLast?_eq_getElem?] at hlast
    obtain ⟨htn, l, hrun, hlength, hlinked, hlatest⟩ := h.runs _ t hlast
    have hfuel : (t :: l).length ≤ keys.length := by
      have := hrun.length_le
      rw [List.length_cons]
      omega
    refine .inr ⟨t, l, trace_of_linked hlinked hfuel, ⟨hrun, fun l' hl' => ?_⟩, hlatest⟩
    cases l' with
    | nil => exact Nat.zero_le _
    | cons j l' =>
      have hlt := hbest j l' hl'
      rw [List.length_cons, List.length_cons]
      omega

theorem longest_longestIncreasing (keys : List (Option α)) : Longest keys (longestIncreasing keys) := by
  rcases longestIncreasing_cases keys with ⟨hnil, hnone⟩ | ⟨t, l, hcons, hlongest, -⟩
  · rw [hnil]
    exact ⟨⟨.nil, nofun⟩, fun l hl => Nat.le_of_eq (congrArg List.length (hnone l hl))⟩
  · rw [hcons]
    exact hlongest

theorem Longest.peak (h : Longest keys (i :: l)) : Peak keys i l :=
  ⟨h.run, fun l' hl' => Nat.le_of_succ_le_succ (h.longest (i :: l') hl')⟩

theorem longestIncreasing_starts (keys : List (Option α)) (i : ℕ) :
    (longestIncreasing keys).getLast? = some i ↔ StartsLast keys i := by
  have hlongest := longest_longestIncreasing keys
  -- no longest run starts after the one that is traced
  have hlast : ∀ l j, Longest keys l → l.getLast? = some j →
      ∃ i, (longestIncreasing keys).getLast? = some i ∧ j ≤ i := by
    intro l j hl hj
    cases l with
    | nil => exact nomatch hj
    | cons k l =>
      rcases longestIncreasing_cases keys with ⟨-, hnone⟩ | ⟨t, m, hcons, hm, hlatest⟩
      · exact nomatch hnone _ hl.run
      have hlength : l.length = m.length := Nat.le_antisymm
        (Nat.le_of_succ_le_succ (hm.longest _ hl.run)) (Nat.le_of_succ_le_succ (hl.longest _ hm.run))
      obtain ⟨y, hy⟩ := Option.isSome_iff_exists.mp (hl.run.keyed k List.mem_cons_self)
      refine ⟨m.getLastD t, ?_, ?_⟩
      · rw [hcons, List.getLast?_cons, List.getLastD_eq_getLast?]
      · rw [List.getLast?_cons, ← List.getLastD_eq_getLast?] at hj
        obtain rfl := Option.some.inj hj
        exact (hlatest k l hl.peak hlength (lt_of_keyAt hy)).2
  constructor
  · intro hi
    refine ⟨⟨_, hlongest, hi⟩, fun l j hl hj => ?_⟩
    obtain ⟨i', hi', hle⟩ := hlast l j hl hj
    obtain rfl := Option.some.inj (hi.symm.trans hi')
    exact hle
  · rintro ⟨⟨l, hl, hli⟩, hmax⟩
    obtain ⟨i', hi', hle⟩ := hlast l i hl hli
    rw [hi', Nat.le_antisymm (hmax _ i' hlongest hi') hle]

end LazyStorage.Client
