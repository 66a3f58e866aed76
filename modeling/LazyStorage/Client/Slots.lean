import LazyStorage.Client.RecordList
import Mathlib.Data.List.Sort
import Mathlib.Data.Prod.Lex
import Mathlib.Order.WithBot

/-! # The keys around a place

The order of a list is that of key and id. Where every record has a key of its own, the
two keys around a place are those of the records before and after it, and a key between
them is handed out, except right below the least integer part that is a key.
-/
namespace LazyStorage.Client.RecordList
open Core Lib

variable {I D : Type}

/-- What the order compares: the key, a missing one last, then the id. -/
def rank (a : Placed I) : WithTop Key ×ₗ I := toLex ((a.2 : WithTop Key), a.1)

theorem rank_injective : Function.Injective (rank (I := I)) := by
  intro a b h
  have hpair := Prod.mk.inj (toLex.injective h)
  exact Prod.ext hpair.2 hpair.1

variable [LinearOrder I] {c c' : Container I D} {id x : I} {key : Key} {pos : Option Key} {rest : D}
  {w : Where I} {a b : Placed I} {n : ℕ} {l : List (Placed I)} {exclude : Option I}

theorem inOrder_iff : inOrder a b = true ↔ rank a ≤ rank b := by
  obtain ⟨ida, posa⟩ := a
  obtain ⟨idb, posb⟩ := b
  have hcompare : compare ida idb ≠ .gt ↔ ida ≤ idb := compare_le_iff_le
  rw [inOrder, decide_eq_true_eq, rank, rank, Prod.Lex.le_iff]
  cases posa with
  | none =>
    cases posb with
    | none =>
      rw [comparePositions, hcompare]
      exact ⟨fun h => .inr ⟨rfl, h⟩, fun h => h.elim (fun h => absurd h (lt_irrefl _)) And.right⟩
    | some y =>
      refine iff_of_false (by simp [comparePositions]) ?_
      rintro (h | ⟨h, -⟩)
      · exact not_top_lt h
      · cases h
  | some x =>
    cases posb with
    | none => exact iff_of_true (by simp [comparePositions]) (.inl (WithTop.coe_lt_top x))
    | some y =>
      rw [comparePositions]
      rcases lt_trichotomy x y with hlt | rfl | hgt
      · rw [if_pos hlt]
        exact iff_of_true nofun (.inl (WithTop.coe_lt_coe.mpr hlt))
      · rw [if_neg (lt_irrefl x), if_neg (lt_irrefl x), hcompare]
        exact ⟨fun h => .inr ⟨rfl, h⟩, fun h => h.elim (fun h => absurd h (lt_irrefl _)) And.right⟩
      · rw [if_neg (lt_asymm hgt), if_pos hgt]
        refine iff_of_false (fun h => h rfl) ?_
        rintro (h | ⟨h, -⟩)
        · exact lt_asymm hgt (WithTop.coe_lt_coe.mp h)
        · exact absurd (WithTop.coe_injective h) (ne_of_gt hgt)

theorem mem_records : (id, pos) ∈ records c ↔ ∃ rest, find c id = some (pos, rest) := by
  cases c with
  | none => simp [records, find]
  | some m =>
    rw [records, find, List.mem_filterMap]
    simp only [Option.elim_some, Option.bind_some]
    constructor
    · rintro ⟨⟨x, item⟩, hmem, hkeyed⟩
      cases item with
      | other => cases hkeyed
      | record pos' rest =>
        obtain ⟨rfl, rfl⟩ := Prod.mk.inj (Option.some.inj hkeyed)
        rw [OrderedMap.mem_entries] at hmem
        exact ⟨rest, by rw [hmem]⟩
    · rintro ⟨rest, h⟩
      split at h
      · next heq =>
        obtain ⟨rfl, rfl⟩ := Prod.mk.inj (Option.some.inj h)
        exact ⟨_, OrderedMap.mem_entries.mpr heq, rfl⟩
      · cases h

theorem records_nodup (c : Container I D) : ((records c).map Prod.fst).Nodup := by
  cases c with
  | none => exact List.nodup_nil
  | some m =>
    refine m.nodup.sublist ?_
    rw [records, Option.elim_some]
    induction m.entries with
    | nil => exact .slnil
    | cons e l ih =>
      obtain ⟨x, item⟩ := e
      cases item with
      | record pos rest => exact ih.cons_cons x
      | other => exact ih.cons x

theorem mem_sorted : a ∈ sorted c exclude ↔ a ∈ records c ∧ some a.1 ≠ exclude := by
  rw [sorted, List.mem_mergeSort, List.mem_filter, decide_eq_true_eq]

theorem sorted_nodup (c : Container I D) (exclude : Option I) : ((sorted c exclude).map Prod.fst).Nodup := by
  have hfilter := (records_nodup c).sublist ((List.filter_sublist (p := fun e => decide (some e.1 ≠ exclude))).map Prod.fst)
  exact ((List.mergeSort_perm _ _).map Prod.fst).nodup_iff.mpr hfilter

theorem sorted_rank (c : Container I D) (exclude : Option I) :
    (sorted c exclude).Pairwise fun a b => rank a ≤ rank b := by
  have hsort := @List.pairwise_mergeSort _ (inOrder (I := I))
    (fun a b d hab hbd => inOrder_iff.mpr (le_trans (inOrder_iff.mp hab) (inOrder_iff.mp hbd)))
    (fun a b => by
      rw [Bool.or_eq_true, inOrder_iff, inOrder_iff]
      exact le_total _ _) ((records c).filter fun e => some e.1 ≠ exclude)
  exact hsort.imp inOrder_iff.mp

/-- What is in order and holds the same is the list in order. -/
theorem sorted_eq (hsort : l.Pairwise fun a b => rank a ≤ rank b) (hnodup : l.Nodup)
    (hmem : ∀ a, a ∈ l ↔ a ∈ records c ∧ some a.1 ≠ exclude) : sorted c exclude = l := by
  have hperm : (sorted c exclude).Perm l :=
    (List.perm_ext_iff_of_nodup (sorted_nodup c exclude).of_map hnodup).mpr fun a => by rw [mem_sorted, hmem]
  exact hperm.eq_of_pairwise (fun a b _ _ hab hba => rank_injective (le_antisymm hab hba)) (sorted_rank c exclude) hsort

theorem keyOf_eq (h : find c id = some (pos, rest)) : keyOf c id = pos := by
  rw [keyOf, h, Option.bind_some]

/-- The list is told by its ids. -/
theorem sorted_eq_map (c : Container I D) (exclude : Option I) :
    sorted c exclude = ((sorted c exclude).map Prod.fst).map fun x => (x, keyOf c x) := by
  have hself : ∀ a ∈ sorted c exclude, ((fun x => (x, keyOf c x)) ∘ Prod.fst) a = id a := by
    intro a ha
    obtain ⟨rest, hfind⟩ := mem_records.mp (mem_sorted.mp ha).1
    exact Prod.ext rfl (keyOf_eq hfind)
  rw [List.map_map, List.map_congr_left hself, List.map_id]

/-- The ids of the other records, in order. -/
def others (c : Container I D) (id : I) : List I := (ids c).filter (· ≠ id)

theorem mem_ids : x ∈ ids c ↔ (find c x).isSome = true := by
  rw [ids, List.mem_map, Option.isSome_iff_exists]
  constructor
  · rintro ⟨a, ha, rfl⟩
    obtain ⟨rest, hfind⟩ := mem_records.mp (mem_sorted.mp ha).1
    exact ⟨_, hfind⟩
  · rintro ⟨⟨pos, rest⟩, hfind⟩
    exact ⟨(x, pos), mem_sorted.mpr ⟨mem_records.mpr ⟨rest, hfind⟩, nofun⟩, rfl⟩

theorem sorted_others (c : Container I D) (id : I) : (sorted c (some id)).map Prod.fst = others c id := by
  have hfilter : sorted c (some id) = (sorted c none).filter (·.1 ≠ id) := by
    refine sorted_eq ((sorted_rank c none).filter _) ((sorted_nodup c none).of_map.filter _) fun a => ?_
    rw [List.mem_filter, mem_sorted]
    simp
  rw [hfilter, others, ids, List.filter_map]
  rfl

/-- Every key is a position key, and no two records have one. -/
structure Valid (c : Container I D) : Prop where
  valid : ∀ x key, keyOf c x = some key → isPositionKey key
  distinct : ∀ x y key, keyOf c x = some key → keyOf c y = some key → x = y

/-- Every record has a key. -/
def AllKeyed (c : Container I D) : Prop := ∀ x, (find c x).isSome = true → (keyOf c x).isSome = true

/-- A smaller key than another's, where both have one. -/
def Climbs (a b : Placed I) : Prop := ∀ x ∈ a.2, ∀ y ∈ b.2, x < y

theorem keyOf_of_mem (h : a ∈ sorted c exclude) : keyOf c a.1 = a.2 := by
  obtain ⟨rest, hfind⟩ := mem_records.mp (mem_sorted.mp h).1
  exact keyOf_eq hfind

theorem AllKeyed.sorted (h : AllKeyed c) (ha : a ∈ sorted c exclude) : ∃ x, a.2 = some x := by
  obtain ⟨rest, hfind⟩ := mem_records.mp (mem_sorted.mp ha).1
  have hkey := h a.1 (by rw [hfind]; rfl)
  rw [keyOf_of_mem ha] at hkey
  exact Option.isSome_iff_exists.mp hkey

theorem Valid.climbs (h : Valid c) (exclude : Option I) : (sorted c exclude).Pairwise Climbs := by
  have hne : (sorted c exclude).Pairwise fun a b => a.1 ≠ b.1 := List.pairwise_map.mp (sorted_nodup c exclude)
  refine ((sorted_rank c exclude).and hne).imp_of_mem fun {a b} ha hb hab x hx y hy => ?_
  rw [Option.mem_def] at hx hy
  rcases Prod.Lex.le_iff.mp hab.1 with hlt | ⟨heq, -⟩
  · change @LT.lt (WithTop Key) _ a.2 b.2 at hlt
    rw [hx, hy] at hlt
    exact WithTop.coe_lt_coe.mp hlt
  · change a.2 = b.2 at heq
    have hkey := keyOf_of_mem ha
    have hkey' := keyOf_of_mem hb
    rw [← heq] at hkey'
    exact absurd (h.distinct _ _ x (hkey.trans hx) (hkey'.trans hx)) hab.2

omit [LinearOrder I] in
theorem mem_lowerKey {low : Key} (h : low ∈ lowerKey l n) : ∃ a ∈ l.take n, a.2 = some low := by
  obtain ⟨a, ha, heq⟩ := List.exists_of_findSome?_eq_some h
  exact ⟨a, List.mem_reverse.mp ha, heq⟩

omit [LinearOrder I] in
theorem mem_upperKey {low : Option Key} {up : Key} (h : up ∈ upperKey l n low) :
    (∃ a ∈ l.drop n, a.2 = some up) ∧ ∀ x ∈ low, x < up := by
  obtain ⟨a, ha, heq⟩ := List.exists_of_findSome?_eq_some h
  obtain ⟨hkey, hlow⟩ := Option.filter_eq_some_iff.mp heq
  refine ⟨⟨a, ha, hkey⟩, fun x hx => ?_⟩
  rw [Option.mem_def] at hx
  rw [hx] at hlow
  exact of_decide_eq_true hlow

omit [LinearOrder I] in
/-- Above the key before the place is above every key before it. -/
theorem lowerKey_iff (hkeyed : ∀ a ∈ l, ∃ x, a.2 = some x) (hclimb : l.Pairwise Climbs) :
    (∀ x ∈ lowerKey l n, x < key) ↔ ∀ a ∈ l.take n, ∀ x ∈ a.2, x < key := by
  refine ⟨fun h a ha x hx => ?_, fun h x hx => ?_⟩
  · have hclimb := hclimb.sublist (List.take_sublist n l)
    rw [lowerKey] at h
    rcases List.eq_nil_or_concat (l.take n) with hnil | ⟨m, b, hconcat⟩
    · rw [hnil] at ha
      exact nomatch ha
    rw [List.concat_eq_append] at hconcat
    obtain ⟨y, hy⟩ := hkeyed b (List.mem_of_mem_take (hconcat ▸ List.mem_append_right m (List.mem_singleton_self b)))
    rw [hconcat, List.reverse_append, List.reverse_singleton, List.singleton_append, List.findSome?_cons, hy] at h
    rw [hconcat] at ha hclimb
    rcases List.mem_append.mp ha with ha | ha
    · have hlt := (List.pairwise_append.mp hclimb).2.2 a ha b (List.mem_singleton_self b) x hx y hy
      exact lt_trans hlt (h y rfl)
    · obtain rfl := List.mem_singleton.mp ha
      obtain rfl := Option.some.inj (hy.symm.trans hx)
      exact h y rfl
  · obtain ⟨a, ha, hkey⟩ := mem_lowerKey hx
    exact h a ha x hkey

omit [LinearOrder I] in
/-- The key after the place is that of the record there. -/
theorem upperKey_eq (hkeyed : ∀ a ∈ l, ∃ x, a.2 = some x) (hclimb : l.Pairwise Climbs) :
    upperKey l n (lowerKey l n) = (l.drop n).head?.bind Prod.snd := by
  rw [upperKey]
  cases hdrop : l.drop n with
  | nil => rfl
  | cons b m =>
    have hb : b ∈ l.drop n := hdrop ▸ List.mem_cons_self
    obtain ⟨y, hy⟩ := hkeyed b (List.mem_of_mem_drop hb)
    have hlow : (lowerKey l n).all (· < y) = true := by
      rw [Option.all_eq_true]
      intro x hx
      obtain ⟨a, ha, hkey⟩ := mem_lowerKey hx
      have hsplit := hclimb
      rw [← List.take_append_drop n l] at hsplit
      exact decide_eq_true ((List.pairwise_append.mp hsplit).2.2 a ha b hb x hkey y hy)
    rw [List.findSome?_cons, hy, Option.filter_some, if_pos hlow, List.head?_cons, Option.bind_some, hy]

omit [LinearOrder I] in
/-- Below the key after the place is below every key after it. -/
theorem upperKey_iff (hkeyed : ∀ a ∈ l, ∃ x, a.2 = some x) (hclimb : l.Pairwise Climbs) :
    (∀ y ∈ upperKey l n (lowerKey l n), key < y) ↔ ∀ a ∈ l.drop n, ∀ y ∈ a.2, key < y := by
  refine ⟨fun h a ha y hy => ?_, fun h y hy => ?_⟩
  · have hclimb' := hclimb.sublist (List.drop_sublist n l)
    rw [upperKey_eq hkeyed hclimb] at h
    cases hdrop : l.drop n with
    | nil =>
      rw [hdrop] at ha
      exact nomatch ha
    | cons b m =>
      obtain ⟨z, hz⟩ := hkeyed b (List.mem_of_mem_drop (hdrop ▸ List.mem_cons_self))
      rw [hdrop] at h ha hclimb'
      have hlt := h z hz
      rcases List.mem_cons.mp ha with rfl | ha
      · obtain rfl := Option.some.inj (hz.symm.trans hy)
        exact hlt
      · exact lt_trans hlt ((List.pairwise_cons.mp hclimb').1 a ha z hz y hy)
  · obtain ⟨⟨a, ha, hkey⟩, -⟩ := mem_upperKey hy
    exact h a ha y hkey

/-- The keys a record goes between at a place: either none, or keys that rise. -/
theorem bounds_between (hv : Valid c) (hl : l = sorted c exclude) :
    (∀ x ∈ lowerKey l n, isPositionKey x) ∧ (∀ y ∈ upperKey l n (lowerKey l n), isPositionKey y) ∧
      ∀ x ∈ lowerKey l n, ∀ y ∈ upperKey l n (lowerKey l n), x < y := by
  subst hl
  refine ⟨fun x hx => ?_, fun y hy => ?_, fun x hx y hy => (mem_upperKey hy).2 x hx⟩
  · obtain ⟨a, ha, hkey⟩ := mem_lowerKey hx
    exact hv.valid a.1 x ((keyOf_of_mem (List.mem_of_mem_take ha)).trans hkey)
  · obtain ⟨⟨a, ha, hkey⟩, -⟩ := mem_upperKey hy
    exact hv.valid a.1 y ((keyOf_of_mem (List.mem_of_mem_drop ha)).trans hkey)

theorem not_isPositionKey_smallest : ¬ isPositionKey SMALLEST_INTEGER := by decide +kernel

/-- There is room for one key below any but the lowest. -/
theorem roomBelow_one {y : Key} (hy : isPositionKey y) : RoomBelow y 1 ↔ y ≠ lowest := by
  obtain ⟨i, f, hparts⟩ := exists_parts hy
  rw [roomBelow_iff hparts]
  constructor
  · rintro h rfl
    obtain ⟨rfl, rfl⟩ := hparts.unique parts_lowest
    rcases h with h | h | h
    · exact absurd h (by decide +kernel)
    · exact absurd h (Nat.not_lt_of_le (Nat.le_of_eq rank_lowest))
    · exact h.2 rfl
  · intro hne
    by_contra hnone
    simp only [not_or, not_and, not_not, Nat.not_lt] at hnone
    obtain ⟨hsmall, hle, hone⟩ := hnone
    have hpos : Core.rank i ≠ 0 := fun hzero =>
      hsmall (rank_inj hparts.integer integer_smallest (hzero.trans rank_smallest.symm))
    have heq : Core.rank i = 1 := by omega
    have hi : i = lowest := rank_inj hparts.integer parts_lowest.integer (heq.trans rank_lowest.symm)
    exact hne (by rw [hparts.eq, hone heq.symm, List.append_nil, hi])

/-- Whether a place is first, right below the lowest key. -/
def BelowLowest (c : Container I D) (id : I) (n : ℕ) : Prop :=
  n = 0 ∧ ∃ x, (others c id).head? = some x ∧ keyOf c x = some lowest

theorem BelowLowest.bounds (hv : Valid c) (hk : AllKeyed c) (h : BelowLowest c id n) :
    lowerKey (sorted c (some id)) n = none ∧
      upperKey (sorted c (some id)) n (lowerKey (sorted c (some id)) n) = some lowest := by
  obtain ⟨rfl, x, hx, hkey⟩ := h
  have hhead : (sorted c (some id)).head? = some (x, keyOf c x) := by
    rw [sorted_eq_map, sorted_others, List.head?_map, hx, Option.map_some]
  have hupper := upperKey_eq (n := 0) (fun a ha => hk.sorted ha) (hv.climbs (some id))
  rw [List.drop_zero, hhead, Option.bind_some, hkey] at hupper
  exact ⟨rfl, hupper⟩

/-- A key that fits is what is handed out, but not right below the lowest. -/
theorem between_fits (hv : Valid c) (hk : AllKeyed c) (hl : l = sorted c (some id)) :
    (∃ k, keyBetween (lowerKey l n) (upperKey l n (lowerKey l n)) = .ok k ∧
      Fits (lowerKey l n) (upperKey l n (lowerKey l n)) k) ↔ ¬ BelowLowest c id n := by
  obtain ⟨hlow, hup, hlt⟩ := bounds_between hv (n := n) hl
  rw [(always_a_key_between hlow hup hlt).1]
  subst hl
  have hkeyed : ∀ a ∈ sorted c (some id), ∃ x, a.2 = some x := fun a ha => hk.sorted ha
  constructor
  · intro hroomy hbelow
    obtain ⟨hlower, hupper⟩ := hbelow.bounds hv hk
    exact (roomBelow_one parts_lowest.isPositionKey).mp (hroomy hlower lowest hupper) rfl
  · intro hnot hnone y hy
    rw [roomBelow_one (hup y hy)]
    rintro rfl
    rw [upperKey_eq hkeyed (hv.climbs _)] at hy
    have hzero : n = 0 := by
      by_contra hpos
      obtain ⟨a, m, htake⟩ : ∃ a m, (sorted c (some id)).take n = m ++ [a] := by
        have hne : (sorted c (some id)).take n ≠ [] := by
          intro hnil
          rw [List.take_eq_nil_iff] at hnil
          rcases hnil with hzero | hnil
          · exact hpos hzero
          · rw [hnil, List.drop_nil] at hy
            exact nomatch hy
        exact ⟨_, _, (List.dropLast_append_getLast hne).symm⟩
      obtain ⟨x, hx⟩ := hkeyed a (List.mem_of_mem_take (htake ▸ List.mem_append_right m (List.mem_singleton_self a)))
      rw [lowerKey, htake, List.reverse_append, List.reverse_singleton, List.singleton_append, List.findSome?_cons,
        hx] at hnone
      exact nomatch hnone
    subst hzero
    rw [List.drop_zero] at hy
    cases hsorted : sorted c (some id) with
    | nil =>
      rw [hsorted] at hy
      exact nomatch hy
    | cons a m =>
      rw [hsorted, List.head?_cons, Option.bind_some] at hy
      have hothers := sorted_others c id
      rw [hsorted, List.map_cons] at hothers
      have ha : a ∈ sorted c (some id) := hsorted ▸ List.mem_cons_self
      exact hnot ⟨rfl, a.1, by rw [← hothers, List.head?_cons], (keyOf_of_mem ha).trans hy⟩

/-- A list of one record. -/
def one (key : Key) : Container ℕ Unit := some ⟨[(1, .record (some key) ())], List.nodup_singleton 1⟩

theorem find_one (key : Key) (x : ℕ) : find (one key) x = if 1 = x then some (some key, ()) else none := by
  by_cases hx : 1 = x <;> simp [find, one, OrderedMap.get, Assoc.get, hx]

theorem keyOf_one {x : ℕ} {k : Key} (h : keyOf (one key) x = some k) : k = key ∧ x = 1 := by
  rw [keyOf, find_one] at h
  split at h
  · next hx => exact ⟨(Option.some.inj h).symm, hx.symm⟩
  · exact nomatch h

theorem one_valid (h : isPositionKey key) : Valid (one key) ∧ AllKeyed (one key) := by
  refine ⟨⟨fun x k hk => (keyOf_one hk).1 ▸ h, fun x y k hx hy => (keyOf_one hx).2.trans (keyOf_one hy).2.symm⟩, ?_⟩
  intro x hx
  rw [find_one] at hx
  split at hx
  · next heq => rw [keyOf, find_one, if_pos heq]; rfl
  · exact nomatch hx

end LazyStorage.Client.RecordList
