import LazyStorage.Client.Slots

/-! # Reconciling writes the fewest positions

The ids given are put first, the other records after them in the order they are in. The
longest run of records whose keys rise already keeps them; each other record gets a key
between the last and the next that is kept. No assignment of keys with that order writes
fewer, when every record has a key.
-/
namespace LazyStorage.Client.RecordList
open Core Lib

/-- Rows with the keys they have at last: those kept, and those that are written. -/
inductive Spaced {I : Type} : List (Row I) → List Key → List (I × Key) → Prop
  | nil : Spaced [] [] []
  | kept {row rows key ks writes} (hkept : row.kept = true) (hkey : row.key = some key) (h : Spaced rows ks writes) :
    Spaced (row :: rows) (key :: ks) writes
  | written {row rows key ks writes} (hkept : row.kept = false) (h : Spaced rows ks writes) :
    Spaced (row :: rows) (key :: ks) ((row.id, key) :: writes)

section Spacing

variable {I D : Type} {rows : List (Row I)} {row : Row I} {lower : Option Key} {ks : List Key} {writes : List (I × Key)}
  {key : Key}

/-- The rows that are kept have keys, which rise. -/
structure Rising (rows : List (Row I)) : Prop where
  key : ∀ row ∈ rows, row.kept = true → ∃ x, row.key = some x ∧ isPositionKey x
  climbs : rows.Pairwise fun a b => a.kept = true → b.kept = true → ∀ x ∈ a.key, ∀ y ∈ b.key, x < y

theorem Rising.tail (h : Rising (row :: rows)) : Rising rows :=
  ⟨fun r hr => h.key r (List.mem_cons_of_mem _ hr), (List.pairwise_cons.mp h.climbs).2⟩

/-- The next key that is kept is the least of them. -/
theorem Rising.nextKept (h : Rising rows) : (∀ x ∈ nextKept rows, ∃ row ∈ rows, row.kept = true ∧ row.key = some x) ∧
    ∀ row ∈ rows, row.kept = true → ∀ y ∈ row.key, ∃ x, nextKept rows = some x ∧ x ≤ y := by
  induction rows with
  | nil => exact ⟨nofun, nofun⟩
  | cons row rows ih =>
    rw [RecordList.nextKept]
    cases hkept : row.kept with
    | true =>
      rw [if_pos rfl]
      refine ⟨fun x hx => ⟨row, List.mem_cons_self, hkept, hx⟩, fun r hr hrk y hy => ?_⟩
      obtain ⟨x, hx, -⟩ := h.key row List.mem_cons_self hkept
      refine ⟨x, hx, ?_⟩
      rcases List.mem_cons.mp hr with rfl | hr
      · exact le_of_eq (Option.some.inj (hx.symm.trans hy))
      · exact le_of_lt ((List.pairwise_cons.mp h.climbs).1 r hr hkept hrk x hx y hy)
    | false =>
      rw [if_neg nofun]
      obtain ⟨hmem, hleast⟩ := ih h.tail
      refine ⟨fun x hx => ?_, fun r hr hrk y hy => ?_⟩
      · obtain ⟨r, hr, hrest⟩ := hmem x hx
        exact ⟨r, List.mem_cons_of_mem _ hr, hrest⟩
      · rcases List.mem_cons.mp hr with rfl | hr
        · exact nomatch hkept.symm.trans hrk
        · exact hleast r hr hrk y hy

/-- Whether the first row goes right below the lowest key. -/
def FirstBelowLowest (rows : List (Row I)) : Prop :=
  (∃ row ∈ rows.head?, row.kept = false) ∧ nextKept rows = some lowest

/-- Every row gets a key above the last, those that are kept their own. -/
theorem respace_spaced (h : Rising rows) (hlower : ∀ x ∈ lower, isPositionKey x)
    (habove : ∀ row ∈ rows, row.kept = true → ∀ x ∈ lower, ∀ y ∈ row.key, x < y)
    (hroom : lower = none → ¬ FirstBelowLowest rows) : (respace lower rows).thrown = none ∧
      ∃ ks, Spaced rows ks (respace lower rows).writes ∧ ks.Pairwise (· < ·) ∧ ∀ k ∈ ks, Fits lower none k := by
  induction rows generalizing lower with
  | nil => exact ⟨rfl, [], .nil, .nil, nofun⟩
  | cons row rows ih =>
    rw [respace]
    cases hkept : row.kept with
    | true =>
      rw [if_pos rfl]
      obtain ⟨x, hx, hkey⟩ := h.key row List.mem_cons_self hkept
      have hlow : ∀ y ∈ lower, y < x := fun y hy => habove row List.mem_cons_self hkept y hy x hx
      obtain ⟨hthrown, ks, hspaced, hsorted, hall⟩ := @ih row.key h.tail
        (fun y hy => Option.some.inj (hx.symm.trans hy) ▸ hkey)
        (fun r hr hrk => (List.pairwise_cons.mp h.climbs).1 r hr hkept hrk) (fun hnone => nomatch hx.symm.trans hnone)
      refine ⟨hthrown, x :: ks, .kept hkept hx hspaced, List.pairwise_cons.mpr ⟨fun k hk => (hall k hk).low x hx, hsorted⟩,
        List.forall_mem_cons.mpr ⟨⟨hkey, hlow, nofun⟩, fun k hk => ⟨(hall k hk).key, fun y hy => ?_, nofun⟩⟩⟩
      exact lt_trans (hlow y hy) ((hall k hk).low x hx)
    | false =>
      rw [if_neg nofun]
      obtain ⟨hmem, hleast⟩ := h.tail.nextKept
      have hnext : ∀ y ∈ nextKept rows, isPositionKey y ∧ ∀ x ∈ lower, x < y := by
        intro y hy
        obtain ⟨r, hr, hrk, hry⟩ := hmem y hy
        obtain ⟨x, hx, hkey⟩ := h.tail.key r hr hrk
        obtain rfl := Option.some.inj (hry.symm.trans hx)
        exact ⟨hkey, fun z hz => habove r (List.mem_cons_of_mem _ hr) hrk z hz y hry⟩
      have hroomy : Roomy lower (nextKept rows) 1 := by
        intro hnone y hy
        rw [roomBelow_one (hnext y hy).1]
        rintro rfl
        refine hroom hnone ⟨⟨row, rfl, hkept⟩, ?_⟩
        rw [RecordList.nextKept, hkept]
        exact hy
      obtain ⟨key, hbetween, hfits⟩ := (always_a_key_between hlower (fun y hy => (hnext y hy).1)
        (fun x hx y hy => (hnext y hy).2 x hx)).1.mpr hroomy
      rw [hbetween]
      dsimp only
      obtain ⟨hthrown, ks, hspaced, hsorted, hall⟩ := @ih (some key) h.tail
        (fun y hy => Option.some.inj hy ▸ hfits.key)
        (fun r hr hrk x hx y hy => by
          obtain ⟨z, hz, hle⟩ := hleast r hr hrk y hy
          obtain rfl := Option.some.inj hx
          exact lt_of_lt_of_le (hfits.high z hz) hle) nofun
      refine ⟨hthrown, key :: ks, .written hkept hspaced,
        List.pairwise_cons.mpr ⟨fun k hk => (hall k hk).low key rfl, hsorted⟩,
        List.forall_mem_cons.mpr ⟨⟨hfits.key, hfits.low, nofun⟩, fun k hk => ⟨(hall k hk).key, fun y hy => ?_, nofun⟩⟩⟩
      exact lt_trans (hfits.low y hy) ((hall k hk).low key rfl)

/-- Right below the lowest, what is written first is no key. -/
theorem FirstBelowLowest.written (h : FirstBelowLowest rows) :
    ∃ id, (id, SMALLEST_INTEGER) ∈ (respace none rows).writes := by
  obtain ⟨⟨row, hrow, hkept⟩, hnext⟩ := h
  cases rows with
  | nil => exact nomatch hrow
  | cons r rows =>
    obtain rfl := Option.some.inj hrow
    rw [nextKept, hkept, if_neg nofun] at hnext
    have hsmall : keyBetween none (some lowest) = .ok SMALLEST_INTEGER := by decide +kernel
    rw [respace, hkept, if_neg nofun, hnext, hsmall]
    exact ⟨r.id, List.mem_cons_self⟩

theorem Spaced.length (h : Spaced rows ks writes) : ks.length = rows.length := by
  induction h with
  | nil => rfl
  | kept _ _ _ ih => exact congrArg Nat.succ ih
  | written _ _ ih => exact congrArg Nat.succ ih

theorem Spaced.writes_keys (h : Spaced rows ks writes) {e : I × Key} (he : e ∈ writes) : e.2 ∈ ks := by
  induction h with
  | nil => exact nomatch he
  | kept _ _ _ ih => exact List.mem_cons_of_mem _ (ih he)
  | written _ _ ih =>
    rcases List.mem_cons.mp he with rfl | he
    · exact List.mem_cons_self
    · exact List.mem_cons_of_mem _ (ih he)

theorem Spaced.writes_ids (h : Spaced rows ks writes) : writes.map Prod.fst = (rows.filter (!·.kept)).map Row.id := by
  induction h with
  | nil => rfl
  | kept hkept _ _ ih => rw [List.filter_cons_of_neg (by simp [hkept]), ih]
  | written hkept _ ih => rw [List.filter_cons_of_pos (by simp [hkept]), List.map_cons, List.map_cons, ih]

variable [LinearOrder I] {c c' : Container I D} {order : List I} {x : I}

theorem Spaced.get (h : Spaced rows ks writes) (hnodup : (rows.map Row.id).Nodup) :
    ∀ p ∈ rows.zip ks, (Assoc.get writes p.1.id).or p.1.key = some p.2 := by
  induction h with
  | nil => exact nofun
  | @kept row rows key ks writes hkept hkey h ih =>
    obtain ⟨hnot, hnodup⟩ := List.nodup_cons.mp hnodup
    rw [List.zip_cons_cons, List.forall_mem_cons]
    refine ⟨?_, ih hnodup⟩
    have hnone : Assoc.get writes row.id = none := by
      rw [Assoc.get_eq_none_iff, h.writes_ids]
      exact fun hmem => hnot ((List.filter_sublist.map Row.id).subset hmem)
    rw [hnone, hkey]
    rfl
  | @written row rows key ks writes hkept h ih =>
    obtain ⟨hnot, hnodup⟩ := List.nodup_cons.mp hnodup
    rw [List.zip_cons_cons, List.forall_mem_cons]
    refine ⟨by rw [Assoc.get_cons, if_pos rfl]; rfl, fun p hp => ?_⟩
    have hne : row.id ≠ p.1.id := fun heq => hnot (heq ▸ List.mem_map_of_mem (List.of_mem_zip hp).1)
    rw [Assoc.get_cons, if_neg hne]
    exact ih hnodup p hp

theorem find_write (c : Container I D) (e : I × Key) (x : I) :
    find (write c e) x = (find c x).map fun r => if e.1 = x then (some e.2, r.2) else r := by
  obtain ⟨id, key⟩ := e
  cases c with
  | none => rfl
  | some m =>
    rw [write]
    cases hfind : find (some m) id with
    | none =>
      dsimp only
      by_cases hx : id = x
      · subst hx
        rw [hfind]
        rfl
      · simp [hx]
    | some r =>
      dsimp only [Option.map_some]
      rw [find, Option.bind_some, OrderedMap.get_set]
      by_cases hx : id = x
      · subst hx
        simp [hfind]
      · simp only [hx, if_false]
        rw [find, Option.bind_some, Option.map_id']

/-- Each record has the key written on it, or the one it had. -/
theorem find_writeAll (c : Container I D) (hnodup : (writes.map Prod.fst).Nodup) (x : I) :
    find (writeAll c writes) x = (find c x).map fun r => ((Assoc.get writes x).or r.1, r.2) := by
  induction writes generalizing c with
  | nil =>
    rw [writeAll, List.foldl_nil]
    simp
  | cons e writes ih =>
    obtain ⟨hnot, hnodup⟩ := List.nodup_cons.mp hnodup
    rw [writeAll, List.foldl_cons]
    refine (ih (write c e) hnodup).trans ?_
    rw [find_write, Option.map_map]
    congr 1
    funext r
    rw [Function.comp, Assoc.get_cons]
    by_cases hx : e.1 = x
    · subst hx
      rw [if_pos rfl, if_pos rfl, Assoc.get_eq_none_iff.mpr hnot]
      rfl
    · rw [if_neg hx, if_neg hx]

theorem keyOf_writeAll (c : Container I D) (hnodup : (writes.map Prod.fst).Nodup) (hx : (find c x).isSome = true) :
    keyOf (writeAll c writes) x = (Assoc.get writes x).or (keyOf c x) := by
  obtain ⟨r, hr⟩ := Option.isSome_iff_exists.mp hx
  rw [keyOf, find_writeAll c hnodup, keyOf, hr]
  rfl

end Spacing

variable {I D : Type} [LinearOrder I] {c c' : Container I D} {order : List I} {row : Row I} {x : I}
  {writes : List (I × Key)}

/-- The keys of records in an order. -/
def keysIn (c : Container I D) (order : List I) : List (Option Key) := order.map (keyOf c)

theorem keyAt_keysIn (i : ℕ) : keyAt (keysIn c order) i = order[i]?.bind (keyOf c) := by
  rw [keyAt, keysIn, List.getElem?_map]
  cases order[i]? <;> rfl

theorem rows_length : (rows c order).length = order.length := by
  rw [rows, List.length_map, List.length_zipIdx]

theorem rows_getElem {i : ℕ} (hi : i < (rows c order).length) : ∃ x, order[i]? = some x ∧
    (rows c order)[i] = ⟨x, keyOf c x, (longestIncreasing (keysIn c order)).contains i⟩ := by
  refine ⟨_, List.getElem?_eq_getElem (Nat.lt_of_lt_of_eq hi rows_length), ?_⟩
  simp only [rows, List.getElem_map, List.getElem_zipIdx, Nat.zero_add]
  rfl

theorem rows_ids (c : Container I D) (order : List I) : (rows c order).map Row.id = order := by
  rw [rows, List.map_map]
  exact List.zipIdx_map_fst 0 order

/-- A row that is kept is one of the run. -/
theorem mem_rows : row ∈ rows c order ↔ ∃ i x, order[i]? = some x ∧
    row = ⟨x, keyOf c x, (longestIncreasing (keysIn c order)).contains i⟩ := by
  constructor
  · intro h
    obtain ⟨i, hi, rfl⟩ := List.mem_iff_getElem.mp h
    obtain ⟨x, hx, hrow⟩ := rows_getElem hi
    exact ⟨i, x, hx, hrow⟩
  · rintro ⟨i, x, hx, rfl⟩
    have hi : i < (rows c order).length := Nat.lt_of_lt_of_eq (List.getElem?_eq_some_iff.mp hx).1 rows_length.symm
    obtain ⟨y, hy, hrow⟩ := rows_getElem hi
    obtain rfl := Option.some.inj (hx.symm.trans hy)
    exact hrow ▸ List.getElem_mem hi

theorem rows_rising (hv : Valid c) (order : List I) : Rising (rows c order) := by
  have hrun := (longest_longestIncreasing (keysIn c order)).run
  refine ⟨fun row hrow hkept => ?_, List.pairwise_iff_getElem.mpr fun i j hi hj hij => ?_⟩
  · obtain ⟨i, x, hx, rfl⟩ := mem_rows.mp hrow
    obtain ⟨k, hk⟩ := Option.isSome_iff_exists.mp (hrun.keyed i (List.contains_iff_mem.mp hkept))
    rw [keyAt_keysIn, hx, Option.bind_some] at hk
    exact ⟨k, hk, hv.valid x k hk⟩
  · obtain ⟨x, hx, hrow⟩ := rows_getElem hi
    obtain ⟨y, hy, hrow'⟩ := rows_getElem hj
    rw [hrow, hrow']
    intro hik hjk a ha b hb
    obtain ⟨-, a', b', ha', hb', hlt⟩ :=
      hrun.rises_of_lt (List.contains_iff_mem.mp hik) (List.contains_iff_mem.mp hjk) hij
    rw [keyAt_keysIn, hx, Option.bind_some] at ha'
    rw [keyAt_keysIn, hy, Option.bind_some] at hb'
    obtain rfl := Option.some.inj (ha'.symm.trans ha)
    obtain rfl := Option.some.inj (hb'.symm.trans hb)
    exact hlt

/-- The first key that is kept is that of the run's start. -/
theorem nextKept_rows (hv : Valid c) (order : List I) : nextKept (rows c order) =
    (longestIncreasing (keysIn c order)).getLast?.bind (keyAt (keysIn c order)) := by
  have hrun := (longest_longestIncreasing (keysIn c order)).run
  obtain ⟨hmem, hleast⟩ := (rows_rising hv order).nextKept
  cases hlast : (longestIncreasing (keysIn c order)).getLast? with
  | none =>
    have hnil := List.getLast?_eq_none_iff.mp hlast
    rw [Option.bind_none, Option.eq_none_iff_forall_ne_some]
    intro x hx
    obtain ⟨row, hrow, hkept, -⟩ := hmem x hx
    obtain ⟨i, y, -, rfl⟩ := mem_rows.mp hrow
    rw [hnil] at hkept
    exact nomatch hkept
  | some i =>
    have hi := List.mem_of_getLast? hlast
    obtain ⟨y, hy⟩ := Option.isSome_iff_exists.mp (hrun.keyed i hi)
    rw [Option.bind_some, hy]
    rw [keyAt_keysIn] at hy
    obtain ⟨id, hid, hkey⟩ := Option.bind_eq_some_iff.mp hy
    obtain ⟨x, hx, hle⟩ := hleast _ (mem_rows.mpr ⟨i, id, hid, rfl⟩) (List.contains_iff_mem.mpr hi) y hkey
    obtain ⟨row, hrow, hkept, hrowkey⟩ := hmem x hx
    obtain ⟨j, id', hid', rfl⟩ := mem_rows.mp hrow
    have hj := List.contains_iff_mem.mp hkept
    rcases Nat.eq_or_lt_of_le (hrun.start_le hlast hj) with rfl | hlt
    · obtain rfl := Option.some.inj (hid.symm.trans hid')
      rw [hx, ← hrowkey]
      exact hkey
    · obtain ⟨-, a, b, ha, hb, hab⟩ := hrun.rises_of_lt hi hj hlt
      rw [keyAt_keysIn, hid, Option.bind_some, hkey] at ha
      rw [keyAt_keysIn, hid', Option.bind_some] at hb
      obtain rfl := Option.some.inj ha
      obtain rfl := Option.some.inj (hrowkey.symm.trans hb)
      exact absurd hab (not_lt.mpr hle)

/-- The first record goes right below the lowest key when the last longest run starts there, and not first. -/
theorem firstBelowLowest_iff (hv : Valid c) (order : List I) : FirstBelowLowest (rows c order) ↔
    ∃ i, 0 < i ∧ keyAt (keysIn c order) i = some lowest ∧ StartsLast (keysIn c order) i := by
  have hrun := (longest_longestIncreasing (keysIn c order)).run
  have hhead : ∀ row ∈ (rows c order).head?, (row.kept = true ↔ 0 ∈ longestIncreasing (keysIn c order)) := by
    intro row hrow
    rw [List.head?_eq_getElem?] at hrow
    obtain ⟨hlt, rfl⟩ := List.getElem?_eq_some_iff.mp hrow
    obtain ⟨x, -, hrow⟩ := rows_getElem hlt
    rw [hrow]
    exact List.contains_iff_mem
  rw [FirstBelowLowest, nextKept_rows hv]
  constructor
  · rintro ⟨⟨row, hrow, hkept⟩, hnext⟩
    obtain ⟨i, hlast, hkey⟩ := Option.bind_eq_some_iff.mp hnext
    refine ⟨i, Nat.pos_of_ne_zero ?_, hkey, (longestIncreasing_starts _ i).mp hlast⟩
    rintro rfl
    exact nomatch hkept.symm.trans ((hhead row hrow).mpr (List.mem_of_getLast? hlast))
  · rintro ⟨i, hpos, hkey, hstarts⟩
    have hlast := (longestIncreasing_starts _ i).mpr hstarts
    refine ⟨?_, by rw [hlast, Option.bind_some, hkey]⟩
    have hlength : 0 < (rows c order).length := by
      have := lt_of_keyAt hkey
      rw [keysIn, List.length_map] at this
      rw [rows_length]
      omega
    refine ⟨_, List.head?_eq_getElem? ▸ List.getElem?_eq_getElem hlength, ?_⟩
    rw [Bool.eq_false_iff]
    intro hkept
    have hzero := (hhead _ (List.head?_eq_getElem? ▸ List.getElem?_eq_getElem hlength)).mp hkept
    have := hrun.start_le hlast hzero
    omega

/-- As many rows are kept as the run is long. -/
theorem rows_kept (c : Container I D) (order : List I) :
    ((rows c order).filter (·.kept)).length = (longestIncreasing (keysIn c order)).length := by
  have hrun := (longest_longestIncreasing (keysIn c order)).run
  have hindices : ((rows c order).filter (·.kept)).length =
      ((List.range order.length).filter (longestIncreasing (keysIn c order)).contains).length := by
    rw [List.range_eq_range', ← List.zipIdx_map_snd 0 order, List.filter_map, List.length_map, rows, List.filter_map,
      List.length_map]
    rfl
  have hperm : ((List.range order.length).filter (longestIncreasing (keysIn c order)).contains).Perm
      (longestIncreasing (keysIn c order)) := by
    refine (List.perm_ext_iff_of_nodup (List.nodup_range.filter _) hrun.nodup).mpr fun i => ?_
    rw [List.mem_filter, List.contains_iff_mem, List.mem_range]
    refine and_iff_right_of_imp fun hi => ?_
    obtain ⟨y, hy⟩ := Option.isSome_iff_exists.mp (hrun.keyed i hi)
    have := lt_of_keyAt hy
    rwa [keysIn, List.length_map] at this
  rw [hindices, hperm.length_eq]

/-- An order of all the records. -/
structure Whole (c : Container I D) (order : List I) : Prop where
  nodup : order.Nodup
  mem : ∀ x, x ∈ order ↔ (find c x).isSome = true

theorem ids_whole (c : Container I D) : Whole c (ids c) := ⟨sorted_nodup c none, fun _ => mem_ids⟩

/-- A list whose keys rise along an order is in that order. -/
theorem ids_eq (h : Whole c order)
    (hclimb : order.Pairwise fun x y => ∃ a b, keyOf c x = some a ∧ keyOf c y = some b ∧ a < b) : ids c = order := by
  have hsorted : sorted c none = order.map fun x => (x, keyOf c x) := by
    refine sorted_eq (List.pairwise_map.mpr (hclimb.imp ?_)) (h.nodup.map fun x y heq => (Prod.mk.inj heq).1) fun a => ?_
    · rintro x y ⟨a, b, ha, hb, hlt⟩
      refine Prod.Lex.le_iff.mpr (.inl ?_)
      change @LT.lt (WithTop Key) _ (keyOf c x) (keyOf c y)
      rw [ha, hb]
      exact WithTop.coe_lt_coe.mpr hlt
    · obtain ⟨x, pos⟩ := a
      rw [List.mem_map, mem_records]
      constructor
      · rintro ⟨y, hy, heq⟩
        obtain ⟨rfl, rfl⟩ := Prod.mk.inj heq
        obtain ⟨⟨pos, rest⟩, hr⟩ := Option.isSome_iff_exists.mp ((h.mem y).mp hy)
        exact ⟨⟨rest, by rw [keyOf_eq hr]; exact hr⟩, nofun⟩
      · rintro ⟨⟨rest, hr⟩, -⟩
        exact ⟨x, (h.mem x).mpr (by rw [hr]; rfl), by rw [keyOf_eq hr]⟩
  rw [ids, hsorted, List.map_map]
  exact List.map_id _

theorem Whole.length (h : Whole c order) : order.length = (records c).length := by
  have hperm : order.Perm ((records c).map Prod.fst) := by
    refine (List.perm_ext_iff_of_nodup h.nodup (records_nodup c)).mpr fun x => ?_
    rw [h.mem, List.mem_map, Option.isSome_iff_exists]
    constructor
    · rintro ⟨⟨pos, rest⟩, hr⟩
      exact ⟨(x, pos), mem_records.mpr ⟨rest, hr⟩, rfl⟩
    · rintro ⟨⟨y, pos⟩, hmem, rfl⟩
      obtain ⟨rest, hr⟩ := mem_records.mp hmem
      exact ⟨_, hr⟩
  rw [hperm.length_eq, List.length_map]

/-- Rows that are spaced out put the list in their order. -/
theorem Spaced.puts {ks : List Key} (h : Spaced (rows c order) ks writes) (hwhole : Whole c order)
    (hsorted : ks.Pairwise (· < ·)) : (writes.map Prod.fst).Nodup ∧ ids (writeAll c writes) = order ∧
      writes.length + (longestIncreasing (keysIn c order)).length = (records c).length := by
  have hids := rows_ids c order
  have hrows : ((rows c order).map Row.id).Nodup := hids.symm ▸ hwhole.nodup
  have hnodup : (writes.map Prod.fst).Nodup := h.writes_ids.symm ▸ hrows.sublist (List.filter_sublist.map Row.id)
  refine ⟨hnodup, ids_eq ⟨hwhole.nodup, fun x => ?_⟩ (List.pairwise_iff_getElem.mpr fun i j hi hj hij => ?_), ?_⟩
  · rw [hwhole.mem, find_writeAll c hnodup]
    cases find c x <;> rfl
  · have hkey : ∀ i (hi : i < order.length) (hk : i < ks.length), keyOf (writeAll c writes) order[i] = some ks[i] := by
      intro i hi hk
      have hir : i < (rows c order).length := Nat.lt_of_lt_of_eq hi rows_length.symm
      obtain ⟨x, hx, hrow⟩ := rows_getElem hir
      obtain rfl := Option.some.inj ((List.getElem?_eq_getElem hi).symm.trans hx)
      have hget := h.get hrows ((rows c order)[i], ks[i]) (List.mem_iff_getElem.mpr
        ⟨i, by rw [List.length_zip]; omega, List.getElem_zip⟩)
      rw [hrow] at hget
      rw [keyOf_writeAll c hnodup ((hwhole.mem _).mp (List.getElem_mem hi))]
      exact hget
    have hlength : ks.length = order.length := h.length.trans rows_length
    exact ⟨_, _, hkey i hi (hlength ▸ hi), hkey j hj (hlength ▸ hj),
      List.pairwise_iff_getElem.mp hsorted i j (hlength ▸ hi) (hlength ▸ hj) hij⟩
  · have hlength := congrArg List.length h.writes_ids
    rw [List.length_map, List.length_map] at hlength
    rw [← hwhole.length, ← rows_kept, hlength, ← rows_length (c := c), ← List.countP_eq_length_filter,
      ← List.countP_eq_length_filter, Nat.add_comm, List.length_eq_countP_add_countP (·.kept)]
    simp

/-- Along the order of a list the keys do not fall. -/
theorem ids_le (c : Container I D) : (ids c).Pairwise fun x y => ∀ a ∈ keyOf c x, ∀ b ∈ keyOf c y, a ≤ b := by
  have hsort := sorted_rank c none
  rw [sorted_eq_map] at hsort
  refine (List.pairwise_map.mp hsort).imp fun {x y} hle a ha b hb => ?_
  rw [Option.mem_def] at ha hb
  rcases Prod.Lex.le_iff.mp hle with hlt | ⟨heq, -⟩
  · change @LT.lt (WithTop Key) _ (keyOf c x) (keyOf c y) at hlt
    rw [ha, hb] at hlt
    exact le_of_lt (WithTop.coe_lt_coe.mp hlt)
  · change keyOf c x = keyOf c y at heq
    rw [ha, hb] at heq
    exact le_of_eq (Option.some.inj heq)

theorem countP_range {α : Type} (p : α → Bool) (l : List α) :
    (List.range l.length).countP (fun i => l[i]?.any p) = l.countP p := by
  induction l with
  | nil => rfl
  | cons a l ih =>
    rw [List.length_cons, List.range_succ_eq_map, List.countP_cons, List.countP_map, List.countP_cons, ← ih]
    simp [Function.comp_def]

/-- Whatever keys put a list whose records all have one in an order, as many change as are not in a longest run. -/
theorem fewest (hv : Valid c) (hk : AllKeyed c) (hsame : ∀ x, (find c' x).isSome = (find c x).isSome) :
    (records c).length ≤ ((ids c).filter fun x => keyOf c' x ≠ keyOf c x).length +
      (longestIncreasing (keysIn c (ids c'))).length := by
  have hwhole : Whole c (ids c') := ⟨sorted_nodup c' none, fun x => by rw [mem_ids, hsame]⟩
  have hchanged : ((ids c).filter fun x => keyOf c' x ≠ keyOf c x).length =
      (ids c').countP fun x => keyOf c' x ≠ keyOf c x := by
    rw [List.countP_eq_length_filter]
    refine (List.Perm.filter _ ?_).length_eq
    exact (List.perm_ext_iff_of_nodup (ids_whole c).nodup hwhole.nodup).mpr fun x => by rw [mem_ids, hwhole.mem]
  -- the records whose keys are as before make a run
  have hrun : Run (keysIn c (ids c')) ((List.range (ids c').length).filter fun i =>
      ((ids c')[i]?.any fun x => keyOf c' x = keyOf c x)).reverse := by
    have hkeyed : ∀ {i x}, (ids c')[i]? = some x → ∃ a, keyOf c x = some a := fun {i x} hx =>
      Option.isSome_iff_exists.mp (hk x ((hwhole.mem x).mp (List.mem_of_getElem? hx)))
    refine ⟨List.pairwise_reverse.mpr ((List.pairwise_lt_range.filter _).imp_of_mem fun {i j} hi hj hij => ⟨hij, ?_⟩),
      fun i hi => ?_⟩
    · obtain ⟨x, hx, hxk⟩ := (Option.any_eq_true _ _).mp (List.mem_filter.mp hi).2
      obtain ⟨y, hy, hyk⟩ := (Option.any_eq_true _ _).mp (List.mem_filter.mp hj).2
      obtain ⟨a, ha⟩ := hkeyed hx
      obtain ⟨b, hb⟩ := hkeyed hy
      refine ⟨a, b, by rw [keyAt_keysIn, hx]; exact ha, by rw [keyAt_keysIn, hy]; exact hb, ?_⟩
      obtain ⟨hilt, rfl⟩ := List.getElem?_eq_some_iff.mp hx
      obtain ⟨hjlt, rfl⟩ := List.getElem?_eq_some_iff.mp hy
      have hle := List.pairwise_iff_getElem.mp (ids_le c') i j hilt hjlt hij a ((of_decide_eq_true hxk).trans ha) b
        ((of_decide_eq_true hyk).trans hb)
      refine lt_of_le_of_ne hle ?_
      rintro rfl
      exact List.pairwise_iff_getElem.mp hwhole.nodup i j hilt hjlt hij (hv.distinct _ _ a ha hb)
    · obtain ⟨x, hx, -⟩ := (Option.any_eq_true _ _).mp (List.mem_filter.mp (List.mem_reverse.mp hi)).2
      obtain ⟨a, ha⟩ := hkeyed hx
      rw [keyAt_keysIn, hx, Option.bind_some, ha]
      rfl
  have hle := (longest_longestIncreasing (keysIn c (ids c'))).longest _ hrun
  rw [List.length_reverse, ← List.countP_eq_length_filter, countP_range] at hle
  have hsplit := List.length_eq_countP_add_countP (fun x => decide (keyOf c' x = keyOf c x)) (l := ids c')
  have hnot : (ids c').countP (fun x => ¬ (decide (keyOf c' x = keyOf c x)) = true) =
      (ids c').countP fun x => keyOf c' x ≠ keyOf c x := by
    congr 1
    funext x
    simp
  rw [hnot] at hsplit
  rw [← hwhole.length, hchanged]
  omega

/-- The ids given that have records, each where it is given first. -/
def known (c : Container I D) (given : List I) : List I := (given.filter fun x => (find c x).isSome).eraseDups

section Asked

local instance lawfulOfOrder : LawfulBEq I := inferInstance

/-- The ids given, then the other records in the order they are in. -/
def asked (c : Container I D) (given : List I) : List I :=
  known c given ++ (ids c).filter (· ∉ known c given)

end Asked

theorem mem_known {given : List I} : x ∈ known c given ↔ x ∈ given ∧ (find c x).isSome = true := by
  rw [known, List.mem_eraseDups, List.mem_filter]

theorem listed_spec (c : Container I D) (given : List I) : listed c given = known c given ∧ (known c given).Nodup := by
  induction given using List.reverseRecOn with
  | nil => exact ⟨rfl, List.nodup_nil⟩
  | append_singleton given x ih =>
    obtain ⟨hlisted, hnodup⟩ := ih
    have hstep : listed c (given ++ [x]) =
        if x ∉ listed c given ∧ (find c x).isSome then listed c given ++ [x] else listed c given := by
      rw [listed, List.foldl_append]
      rfl
    have hknown : known c (given ++ [x]) =
        if x ∉ known c given ∧ (find c x).isSome then known c given ++ [x] else known c given := by
      rw [known, List.filter_append, List.eraseDups_append]
      change known c given ++ _ = _
      simp only [show x ∈ known c given ↔ x ∈ given.filter fun x => (find c x).isSome from List.mem_eraseDups]
      cases hx : (find c x).isSome with
      | false => simp [hx, List.removeAll]
      | true =>
        by_cases hin : x ∈ given
        · simp [hx, List.removeAll, hin, Option.isSome_iff_ne_none.mp hx]
        · simp [hx, List.removeAll, hin, List.eraseDups_cons]
    rw [hstep, hknown, hlisted]
    refine ⟨rfl, ?_⟩
    split
    · next h => exact hnodup.append (List.nodup_singleton x) (by simpa using h.1)
    · exact hnodup

theorem asked_whole (c : Container I D) (given : List I) : Whole c (asked c given) := by
  refine ⟨(listed_spec c given).2.append ((ids_whole c).nodup.filter _) fun x hx hx' => ?_, fun x => ?_⟩
  · exact of_decide_eq_true (List.mem_filter.mp hx').2 hx
  · rw [asked, List.mem_append, List.mem_filter, mem_ids, decide_eq_true_eq]
    by_cases hx : x ∈ known c given
    · exact iff_of_true (.inl hx) (mem_known.mp hx).2
    · simp [hx]

theorem wanted_eq (c : Container I D) (given : List I) : wanted c given = asked c given := by
  obtain ⟨hlisted, hnodup⟩ := listed_spec c given
  rw [wanted, hlisted, asked]
  split
  · next hlength =>
    -- as many as there are: none is left
    have hwhole := asked_whole c given
    have htotal := hwhole.length
    rw [asked, List.length_append, hlength] at htotal
    have hnil : (ids c).filter (· ∉ known c given) = [] := List.length_eq_zero_iff.mp (by omega)
    rw [hnil, List.append_nil]
  · rfl

/-- What a call leaves: the order that was asked for, under keys, each record written once, and no more of them than
a longest run of the keys there were leaves out; when every record has a key, no others put it so with fewer. -/
structure Reconciles (c : Container I D) (given : List I) (r : Respaced I) : Prop where
  thrown : r.thrown = none
  order : ids (writeAll c r.writes) = asked c given
  valid : ∀ e ∈ r.writes, isPositionKey e.2
  once : (r.writes.map Prod.fst).Nodup
  count : ∃ run, Longest (keysIn c (asked c given)) run ∧ r.writes.length + run.length = (records c).length
  fewest : AllKeyed c → ∀ c' : Container I D, (∀ x, (find c' x).isSome = (find c x).isSome) → ids c' = asked c given →
    r.writes.length ≤ ((ids c).filter fun x => keyOf c' x ≠ keyOf c x).length

/-- A list is reconciled with any ids, but when the last longest run of its keys, in the order asked for, starts
with the lowest key and not with the first record. -/
theorem reconcile_fewest (hv : Valid c) (given : List I) : Reconciles c given (reconcile c given) ↔
    ¬ ∃ i, 0 < i ∧ keyAt (keysIn c (asked c given)) i = some lowest ∧ StartsLast (keysIn c (asked c given)) i := by
  rw [← firstBelowLowest_iff hv, reconcile, wanted_eq]
  constructor
  · intro h hbelow
    obtain ⟨id, hmem⟩ := hbelow.written
    exact not_isPositionKey_smallest (h.valid _ hmem)
  · intro hnot
    obtain ⟨hthrown, ks, hspaced, hsorted, hall⟩ := @respace_spaced _ _ none (rows_rising hv (asked c given)) nofun
      (fun _ _ _ _ h => nomatch h) fun _ => hnot
    obtain ⟨hnodup, horder, hcount⟩ := hspaced.puts (asked_whole c given) hsorted
    refine ⟨hthrown, horder, fun e he => ?_, hnodup, ⟨_, longest_longestIncreasing _, hcount⟩, fun hk c' hsame hids => ?_⟩
    · exact (hall e.2 (hspaced.writes_keys he)).key
    · have hfewest := fewest hv hk hsame
      rw [hids] at hfewest
      omega

theorem reconcile_one : Reconciles (one ZERO) [1, 2, 1] (reconcile (one ZERO) [1, 2, 1]) :=
  (reconcile_fewest (one_valid (by decide +kernel)).1 [1, 2, 1]).mpr (by
    rintro ⟨i, -, hkey, -⟩
    rw [keyAt_keysIn] at hkey
    obtain ⟨x, -, hx⟩ := Option.bind_eq_some_iff.mp hkey
    exact absurd (keyOf_one hx).1 (by decide +kernel))

/-- A record put before the one that carries the lowest key. -/
theorem reconcile_below_lowest : ¬ ∀ (c : Container ℕ Unit) (given : List ℕ), Valid c →
    Reconciles c given (reconcile c given) := by
  intro h
  let two : Container ℕ Unit := some ⟨[(1, .record (some lowest) ()), (2, .record (some ZERO) ())], by decide⟩
  have hfind : ∀ x, find two x =
      if 1 = x then some (some lowest, ()) else if 2 = x then some (some ZERO, ()) else none := by
    intro x
    by_cases hx : 1 = x
    · simp [two, find, OrderedMap.get, Assoc.get, hx]
    · by_cases hx' : 2 = x <;> simp [two, find, OrderedMap.get, Assoc.get, hx, hx']
  have hkey : ∀ x k, keyOf two x = some k → k = lowest ∧ x = 1 ∨ k = ZERO ∧ x = 2 := by
    intro x k hk
    rw [keyOf, hfind] at hk
    split at hk
    · next hx => exact .inl ⟨(Option.some.inj hk).symm, hx.symm⟩
    · split at hk
      · next hx => exact .inr ⟨(Option.some.inj hk).symm, hx.symm⟩
      · cases hk
  have hne : ZERO ≠ lowest := by decide +kernel
  have hvalid : Valid two := by
    refine ⟨fun x k hk => ?_, fun x y k hx hy => ?_⟩
    · rcases hkey x k hk with ⟨rfl, -⟩ | ⟨rfl, -⟩
      · exact parts_lowest.isPositionKey
      · decide +kernel
    · rcases hkey x k hx with ⟨hl, hx⟩ | ⟨hz, hx⟩ <;> rcases hkey y k hy with ⟨hl', hy⟩ | ⟨hz', hy⟩
      · exact hx.trans hy.symm
      · exact absurd (hz'.symm.trans hl) hne
      · exact absurd (hz.symm.trans hl') hne
      · exact hx.trans hy.symm
  have hwrites : (2, SMALLEST_INTEGER) ∈ (reconcile two [2, 1]).writes := by decide +kernel
  exact not_isPositionKey_smallest ((h two [2, 1] hvalid).valid _ hwrites)

end LazyStorage.Client.RecordList
