import LazyStorage.Client.Slots
import Mathlib.Data.List.InsertIdx

/-! # A record goes where it is asked for

A record that is added or moved gets a key between those around the place, and so stands
there; one that stands there already is not written. Right below the lowest key there is
none to write.
-/
namespace LazyStorage.Client.RecordList
open Core Lib

variable {I D : Type} [LinearOrder I] {c c' : Container I D} {id x : I} {key : Key} {pos : Option Key} {rest : D}
  {w : Where I} {n : ℕ} {l : List (Placed I)} {exclude : Option I}

/-- The place that is asked for among the others: before or after one of them, at an index clamped to the list, or
the end. -/
def Where.Asks (w : Where I) (others : List I) (n : ℕ) : Prop :=
  match w.before, w.after, w.index with
  | some x, _, _ => others[n]? = some x
  | none, some x, _ => ∃ m, others[m]? = some x ∧ n = m + 1
  | none, none, some q => (n : ℤ) = max 0 (min (others.length : ℤ) (trunc q))
  | none, none, none => n = others.length

theorem indexOf_eq (hnodup : (l.map Prod.fst).Nodup) (h : (l.map Prod.fst)[n]? = some x) : indexOf l x = .ok n := by
  rw [List.getElem?_map] at h
  obtain ⟨a, ha, hax⟩ := Option.map_eq_some_iff.mp h
  obtain ⟨hn, hget⟩ := List.getElem?_eq_some_iff.mp ha
  have hfind : l.findIdx? (fun a => a.1 = x) = some n := by
    rw [List.findIdx?_eq_some_iff_getElem]
    refine ⟨hn, by rw [hget]; exact decide_eq_true hax, fun j hj heq => ?_⟩
    have hpair := List.pairwise_iff_getElem.mp (List.pairwise_map.mp hnodup) j n (Nat.lt_trans hj hn) hn hj
    rw [hget, hax] at hpair
    exact hpair (of_decide_eq_true heq)
  rw [indexOf, hfind]

theorem indexOf_error (h : x ∉ l.map Prod.fst) : indexOf l x = .error (.noRecord x) := by
  have hfind : l.findIdx? (fun a => a.1 = x) = none := by
    rw [List.findIdx?_eq_none_iff]
    intro a ha
    exact decide_eq_false fun heq => h (heq ▸ List.mem_map_of_mem ha)
  rw [indexOf, hfind]

/-- The place that is found is the one asked for. -/
theorem Where.Asks.place (hnodup : (l.map Prod.fst).Nodup) (h : w.Asks (l.map Prod.fst) n) :
    w.place l = .ok n ∧ n ≤ l.length := by
  have hlt : ∀ {m x}, (l.map Prod.fst)[m]? = some x → m < l.length := fun hm => by
    have := (List.getElem?_eq_some_iff.mp hm).1
    rwa [List.length_map] at this
  obtain ⟨before, after, index⟩ := w
  cases before with
  | some x => exact ⟨indexOf_eq hnodup h, Nat.le_of_lt (hlt h)⟩
  | none =>
    cases after with
    | some x =>
      obtain ⟨m, hm, rfl⟩ := h
      exact ⟨congrArg (Except.map (· + 1)) (indexOf_eq hnodup hm), hlt hm⟩
    | none =>
      cases index with
      | some q =>
        change (n : ℤ) = max 0 (min ((l.map Prod.fst).length : ℤ) (trunc q)) at h
        rw [List.length_map] at h
        refine ⟨congrArg Except.ok ?_, ?_⟩ <;> omega
      | none =>
        change n = (l.map Prod.fst).length at h
        rw [List.length_map] at h
        exact ⟨congrArg Except.ok h.symm, Nat.le_of_eq h⟩

/-- What is not in the list is not found. -/
theorem Where.place_error (h : ∀ n, ¬ w.Asks (l.map Prod.fst) n) : ∃ x, w.place l = .error (.noRecord x) := by
  have hnone : ∀ {x}, (∀ n, (l.map Prod.fst)[n]? ≠ some x) → x ∉ l.map Prod.fst := fun hn hmem =>
    let ⟨n, hx⟩ := List.mem_iff_getElem?.mp hmem
    hn n hx
  obtain ⟨before, after, index⟩ := w
  cases before with
  | some x => exact ⟨x, indexOf_error (hnone h)⟩
  | none =>
    cases after with
    | some x => exact ⟨x, congrArg (Except.map (· + 1)) (indexOf_error (hnone fun n hn => h (n + 1) ⟨n, hn, rfl⟩))⟩
    | none =>
      cases index with
      | some q => exact absurd (Int.toNat_of_nonneg (le_max_left _ _)) (h _)
      | none => exact absurd rfl (h _)

theorem insertIdx_eq {α : Type} (l : List α) (a : α) (hn : n ≤ l.length) : l.insertIdx n a = l.take n ++ a :: l.drop n := by
  induction l generalizing n with
  | nil =>
    obtain rfl := Nat.le_zero.mp hn
    rfl
  | cons b l ih =>
    cases n with
    | zero => rfl
    | succ n => rw [List.insertIdx_succ_cons, ih (Nat.le_of_succ_le_succ hn), List.take_succ_cons, List.drop_succ_cons,
        List.cons_append]

/-- A record whose key is between those of its neighbours stands between them. -/
theorem ids_slot (hfind : find c' id = some (some key, rest)) (hother : ∀ x, x ≠ id → find c' x = find c x)
    (hn : n ≤ (sorted c (some id)).length) (hkeyed : ∀ a ∈ sorted c (some id), ∃ x, a.2 = some x)
    (hlow : ∀ a ∈ (sorted c (some id)).take n, ∀ x ∈ a.2, x < key)
    (hhigh : ∀ a ∈ (sorted c (some id)).drop n, ∀ y ∈ a.2, key < y) : ids c' = (others c id).insertIdx n id := by
  have hmem : ∀ a, a ∈ sorted c (some id) ↔ a ∈ records c' ∧ a.1 ≠ id := by
    intro a
    rw [mem_sorted, mem_records, mem_records]
    constructor
    · rintro ⟨hfind, hne⟩
      have hne : a.1 ≠ id := fun heq => hne (congrArg some heq)
      rw [hother _ hne]
      exact ⟨hfind, hne⟩
    · rintro ⟨hfind, hne⟩
      rw [hother _ hne] at hfind
      exact ⟨hfind, fun heq => hne (Option.some.inj heq)⟩
  have hsorted : sorted c' none = (sorted c (some id)).take n ++ (id, some key) :: (sorted c (some id)).drop n := by
    have hsplit := sorted_rank c (some id)
    rw [← List.take_append_drop n (sorted c (some id))] at hsplit
    obtain ⟨htake, hdrop, hcross⟩ := List.pairwise_append.mp hsplit
    have hbefore : ∀ a ∈ (sorted c (some id)).take n, rank a ≤ rank (id, some key) := by
      intro a ha
      obtain ⟨x, hx⟩ := hkeyed a (List.mem_of_mem_take ha)
      refine Prod.Lex.le_iff.mpr (.inl ?_)
      change @LT.lt (WithTop Key) _ a.2 (some key)
      rw [hx]
      exact WithTop.coe_lt_coe.mpr (hlow a ha x hx)
    have hafter : ∀ a ∈ (sorted c (some id)).drop n, rank (id, some key) ≤ rank a := by
      intro a ha
      obtain ⟨y, hy⟩ := hkeyed a (List.mem_of_mem_drop ha)
      refine Prod.Lex.le_iff.mpr (.inl ?_)
      change @LT.lt (WithTop Key) _ (some key) a.2
      rw [hy]
      exact WithTop.coe_lt_coe.mpr (hhigh a ha y hy)
    have hnot : (id, some key) ∉ sorted c (some id) := fun h => ((hmem _).mp h).2 rfl
    refine sorted_eq (List.pairwise_append.mpr ⟨htake, List.pairwise_cons.mpr ⟨hafter, hdrop⟩, fun a ha b hb => ?_⟩)
      ?_ fun a => ?_
    · rcases List.mem_cons.mp hb with rfl | hb
      · exact hbefore a ha
      · exact hcross a ha b hb
    · rw [List.nodup_middle, List.take_append_drop]
      exact List.nodup_cons.mpr ⟨hnot, (sorted_nodup c _).of_map⟩
    · rw [List.mem_append, List.mem_cons, or_left_comm, ← List.mem_append, List.take_append_drop, hmem]
      constructor
      · rintro (rfl | ⟨ha, -⟩)
        · exact ⟨mem_records.mpr ⟨rest, hfind⟩, nofun⟩
        · exact ⟨ha, nofun⟩
      · rintro ⟨ha, -⟩
        by_cases hid : a.1 = id
        · obtain ⟨rest', hfind'⟩ := mem_records.mp ha
          rw [hid, hfind] at hfind'
          exact .inl (Prod.ext hid (Prod.mk.inj (Option.some.inj hfind')).1.symm)
        · exact .inr ⟨ha, hid⟩
  have hothers := sorted_others c id
  rw [ids, hsorted, List.map_append, List.map_cons, List.map_take, List.map_drop, hothers,
    insertIdx_eq _ _ (by rwa [← hothers, List.length_map])]

/-- A record that stands at a place has a key between those of its neighbours. -/
theorem slot_of_ids (hv : Valid c) (hkey : keyOf c id = some key) (hn : n ≤ (sorted c (some id)).length)
    (h : ids c = (others c id).insertIdx n id) : (∀ a ∈ (sorted c (some id)).take n, ∀ x ∈ a.2, x < key) ∧
      ∀ a ∈ (sorted c (some id)).drop n, ∀ y ∈ a.2, key < y := by
  have hothers := sorted_others c id
  have hsorted : sorted c none = (sorted c (some id)).take n ++ (id, some key) :: (sorted c (some id)).drop n := by
    conv_lhs => rw [sorted_eq_map]
    rw [insertIdx_eq _ _ (by rwa [← hothers, List.length_map]), ids] at h
    rw [h, sorted_eq_map c (some id), hothers, ← List.map_take, ← List.map_drop, List.map_append, List.map_cons, hkey]
  have hclimb := hv.climbs none
  rw [hsorted] at hclimb
  obtain ⟨-, hafter, hcross⟩ := List.pairwise_append.mp hclimb
  exact ⟨fun a ha x hx => hcross a ha _ List.mem_cons_self x hx key rfl,
    fun a ha y hy => (List.pairwise_cons.mp hafter).1 a ha key rfl y hy⟩

/-- What stands under an id. -/
def itemAt (c : Container I D) (id : I) : Option (Item D) := c.bind (·.get id)

/-- Whether a record stands at a place among the others, under a key of its own, with nothing else written. -/
structure StandsAt (c c' : Container I D) (id : I) (rest : D) (n : ℕ) : Prop where
  ids : ids c' = (others c id).insertIdx n id
  key : ∃ key, find c' id = some (some key, rest) ∧ isPositionKey key ∧ ∀ x, x ≠ id → keyOf c' x ≠ some key
  same : ∀ x, x ≠ id → itemAt c' x = itemAt c x

theorem find_congr (h : itemAt c' x = itemAt c x) : find c' x = find c x := by
  unfold itemAt at h
  simp only [find, h]

/-- A key that is written between those of the neighbours puts the record at the place. -/
theorem standsAt_of_fits (hv : Valid c) (hk : AllKeyed c) (hn : n ≤ (sorted c (some id)).length)
    (hfind : find c' id = some (some key, rest)) (hsame : ∀ x, x ≠ id → itemAt c' x = itemAt c x)
    (hkey : isPositionKey key) (hlow : ∀ x ∈ lowerKey (sorted c (some id)) n, x < key)
    (hhigh : ∀ y ∈ upperKey (sorted c (some id)) n (lowerKey (sorted c (some id)) n), key < y) :
    StandsAt c c' id rest n := by
  have hkeyed : ∀ a ∈ sorted c (some id), ∃ x, a.2 = some x := fun a ha => hk.sorted ha
  have hlow := (lowerKey_iff hkeyed (hv.climbs _)).mp hlow
  have hhigh := (upperKey_iff hkeyed (hv.climbs _)).mp hhigh
  refine ⟨ids_slot hfind (fun x hx => find_congr (hsame x hx)) hn hkeyed hlow hhigh, ⟨key, hfind, hkey, ?_⟩, hsame⟩
  intro x hx heq
  rw [keyOf, find_congr (hsame x hx)] at heq
  obtain ⟨⟨pos, rest'⟩, hfind', hpos⟩ := Option.bind_eq_some_iff.mp heq
  change pos = some key at hpos
  have hmem : (x, some key) ∈ sorted c (some id) :=
    mem_sorted.mpr ⟨mem_records.mpr ⟨rest', hpos ▸ hfind'⟩, fun heq => hx (Option.some.inj heq)⟩
  rw [← List.take_append_drop n (sorted c (some id))] at hmem
  rcases List.mem_append.mp hmem with hmem | hmem
  · exact lt_irrefl _ (hlow _ hmem key rfl)
  · exact lt_irrefl _ (hhigh _ hmem key rfl)

/-- What is handed out right below the lowest is no position key. -/
theorem BelowLowest.keyBetween (hv : Valid c) (hk : AllKeyed c) (h : BelowLowest c id n) :
    keyBetween (lowerKey (sorted c (some id)) n) (upperKey (sorted c (some id)) n (lowerKey (sorted c (some id)) n)) =
      .ok SMALLEST_INTEGER := by
  obtain ⟨hlower, hupper⟩ := h.bounds hv hk
  rw [hupper, hlower]
  decide +kernel

theorem bounds_eq (hplace : w.place (sorted c exclude) = .ok n) : bounds c w exclude =
    .ok (lowerKey (sorted c exclude) n, upperKey (sorted c exclude) n (lowerKey (sorted c exclude) n)) := by
  rw [bounds, hplace]
  rfl

theorem Where.Asks.sorted (h : w.Asks (others c id) n) :
    w.place (sorted c (some id)) = .ok n ∧ n ≤ (sorted c (some id)).length :=
  (sorted_others c id ▸ h).place (sorted_nodup c _)

theorem add_stands (hv : Valid c) (hk : AllKeyed c) (h : w.Asks (others c id) n) (rest : D) :
    (∃ c', add c id rest w = .ok c' ∧ StandsAt c c' id rest n) ↔ ¬ BelowLowest c id n := by
  obtain ⟨hplace, hn⟩ := h.sorted
  have hwritten : ∀ {key c'}, c' = some ((c.getD .empty).set id (.record (some key) rest)) →
      find c' id = some (some key, rest) ∧ ∀ x, x ≠ id → itemAt c' x = itemAt c x := by
    rintro key c' rfl
    refine ⟨?_, fun x hx => ?_⟩
    · rw [find, Option.bind_some, OrderedMap.get_set_self]
    · rw [itemAt, Option.bind_some, OrderedMap.get_set_of_ne _ _ (Ne.symm hx)]
      cases c <;> rfl
  simp only [add, bounds_eq hplace, between, Bind.bind, Except.bind]
  constructor
  · rintro ⟨c', hadd, hstands⟩ hbelow
    rw [hbelow.keyBetween hv hk] at hadd
    obtain ⟨hfind, -⟩ := hwritten (Except.ok.inj hadd).symm
    obtain ⟨key, hfind', hkey, -⟩ := hstands.key
    rw [hfind] at hfind'
    obtain rfl := Option.some.inj (Prod.mk.inj (Option.some.inj hfind')).1
    exact not_isPositionKey_smallest hkey
  · intro hnot
    obtain ⟨key, hbetween, hfits⟩ := (between_fits hv hk rfl).mpr hnot
    obtain ⟨hfind, hsame⟩ := hwritten (Eq.refl (some ((c.getD .empty).set id (.record (some key) rest))))
    refine ⟨_, ?_, standsAt_of_fits hv hk hn hfind hsame hfits.key hfits.low hfits.high⟩
    rw [hbetween]
    rfl

/-- Where a record stands already. -/
theorem standsAt_self (hv : Valid c) (hfind : find c id = some (some key, rest))
    (h : ids c = (others c id).insertIdx n id) : StandsAt c c id rest n :=
  ⟨h, ⟨key, hfind, hv.valid id key (keyOf_eq hfind), fun x hx heq => hx (hv.distinct x id key heq (keyOf_eq hfind))⟩,
    fun _ _ => rfl⟩

theorem write_one (hfind : find c id = some (pos, rest)) (key : Key) :
    find (write c (id, key)) id = some (some key, rest) ∧ ∀ x, x ≠ id → itemAt (write c (id, key)) x = itemAt c x := by
  cases c with
  | none => exact nomatch hfind
  | some m =>
    have hwrite : write (some m) (id, key) = some (m.set id (.record (some key) rest)) := by
      rw [write, hfind]
      rfl
    rw [hwrite]
    refine ⟨?_, fun x hx => ?_⟩
    · rw [find, Option.bind_some, OrderedMap.get_set_self]
    · rw [itemAt, Option.bind_some, OrderedMap.get_set_of_ne _ _ (Ne.symm hx)]
      rfl

theorem move_stands (hv : Valid c) (hk : AllKeyed c) (h : w.Asks (others c id) n) (hfind : find c id = some (pos, rest)) :
    (∃ writes, move c id w = .ok ⟨true, writes⟩ ∧ StandsAt c (writeAll c writes) id rest n ∧
      (ids c = (others c id).insertIdx n id → writes = [])) ↔
      (BelowLowest c id n → ids c = (others c id).insertIdx n id) := by
  obtain ⟨hplace, hn⟩ := h.sorted
  obtain ⟨key, rfl⟩ : ∃ key, pos = some key := by
    have hkey := hk id (by rw [hfind]; rfl)
    rw [keyOf_eq hfind] at hkey
    exact Option.isSome_iff_exists.mp hkey
  have hkeyed : ∀ a ∈ sorted c (some id), ∃ x, a.2 = some x := fun a ha => hk.sorted ha
  simp only [move, hfind, bounds_eq hplace, between, Bind.bind, Except.bind, Option.any_some, Bool.and_eq_true,
    Option.all_eq_true, decide_eq_true_eq]
  -- whether the key is already between the two is whether the record stands there
  have hthere : ((∀ x, lowerKey (sorted c (some id)) n = some x → x < key) ∧
      ∀ y, upperKey (sorted c (some id)) n (lowerKey (sorted c (some id)) n) = some y → key < y) ↔
        ids c = (others c id).insertIdx n id := by
    constructor
    · rintro ⟨hlow, hhigh⟩
      exact (standsAt_of_fits hv hk hn hfind (fun _ _ => rfl) (hv.valid id key (keyOf_eq hfind)) hlow hhigh).ids
    · intro heq
      obtain ⟨hlow, hhigh⟩ := slot_of_ids hv (keyOf_eq hfind) hn heq
      exact ⟨(lowerKey_iff hkeyed (hv.climbs _)).mpr hlow, (upperKey_iff hkeyed (hv.climbs _)).mpr hhigh⟩
  by_cases heq : ids c = (others c id).insertIdx n id
  · rw [if_pos (hthere.mpr heq)]
    exact iff_of_true ⟨[], rfl, standsAt_self hv hfind heq, fun _ => rfl⟩ fun _ => heq
  · rw [if_neg fun h => heq (hthere.mp h)]
    constructor
    · rintro ⟨writes, hmove, hstands, -⟩ hbelow
      rw [hbelow.keyBetween hv hk] at hmove
      obtain rfl := (Moved.mk.inj (Except.ok.inj hmove)).2
      obtain ⟨key', hfind', hkey, -⟩ := hstands.key
      rw [writeAll, List.foldl_cons, List.foldl_nil, (write_one hfind _).1] at hfind'
      obtain rfl := Option.some.inj (Prod.mk.inj (Option.some.inj hfind')).1
      exact absurd hkey not_isPositionKey_smallest
    · intro hnot
      obtain ⟨key', hbetween, hfits⟩ := (between_fits hv hk rfl).mpr fun hbelow => heq (hnot hbelow)
      obtain ⟨hfind', hsame⟩ := write_one hfind key'
      refine ⟨[(id, key')], ?_, standsAt_of_fits hv hk hn hfind' hsame hfits.key hfits.low hfits.high,
        fun h => absurd h heq⟩
      rw [hbetween]
      rfl

/-- A record that is added or moved stands where it is asked for, and one that stands there is not written; only
right below the lowest key is there none to write. What is asked for beside a record that is not another of the
list is refused. -/
theorem put_where_asked (hv : Valid c) (hk : AllKeyed c) (id : I) (rest : D) (w : Where I) :
    (∀ n, w.Asks (others c id) n →
      ((∃ c', add c id rest w = .ok c' ∧ StandsAt c c' id rest n) ↔ ¬ BelowLowest c id n) ∧
      ∀ pos data, find c id = some (pos, data) →
        ((∃ writes, move c id w = .ok ⟨true, writes⟩ ∧ StandsAt c (writeAll c writes) id data n ∧
          (ids c = (others c id).insertIdx n id → writes = [])) ↔
          (BelowLowest c id n → ids c = (others c id).insertIdx n id))) ∧
      ((∀ n, ¬ w.Asks (others c id) n) → ∃ x, add c id rest w = .error (.noRecord x) ∧
        ∀ pos data, find c id = some (pos, data) → move c id w = .error (.noRecord x)) := by
  refine ⟨fun n h => ⟨add_stands hv hk h rest, fun pos data hfind => move_stands hv hk h hfind⟩, fun h => ?_⟩
  rw [← sorted_others] at h
  obtain ⟨x, hx⟩ := Where.place_error h
  refine ⟨x, ?_, fun pos data hfind => ?_⟩
  · simp only [add, bounds, hx, Bind.bind, Except.bind]
  · simp only [move, hfind, bounds, hx, Bind.bind, Except.bind]

theorem put_before_first : ∃ c', add (one ZERO) 2 () ⟨some 1, none, none⟩ = .ok c' ∧ StandsAt (one ZERO) c' 2 () 0 :=
  ((put_where_asked (one_valid (by decide +kernel)).1 (one_valid (by decide +kernel)).2 2 () ⟨some 1, none, none⟩).1 0
    (by change (others (one ZERO) 2)[0]? = some 1; decide +kernel)).1.mpr fun h => by
      obtain ⟨-, x, hx, hkey⟩ := h
      exact absurd (keyOf_one hkey).1 (by decide +kernel)

/-- A record added before one that carries the lowest key gets what is no key. -/
theorem no_place_below_lowest : ¬ ∀ (c : Container ℕ Unit), Valid c → AllKeyed c → ∀ (id : ℕ) (w : Where ℕ) (n : ℕ),
    w.Asks (others c id) n → ∃ c', add c id () w = .ok c' ∧ StandsAt c c' id () n := by
  intro h
  obtain ⟨hv, hk⟩ := one_valid parts_lowest.isPositionKey
  have hasks : (⟨some 1, none, none⟩ : Where ℕ).Asks (others (one lowest) 2) 0 := by
    change (others (one lowest) 2)[0]? = some 1
    decide +kernel
  exact (add_stands hv hk hasks ()).mp (h _ hv hk 2 _ 0 hasks) ⟨rfl, 1, by decide +kernel, by decide +kernel⟩

end LazyStorage.Client.RecordList
