import Mathlib.Data.List.Basic
import Mathlib.Data.List.Nodup
import Mathlib.Data.List.Perm.Basic

/-! # Insertion-ordered maps

A map is the list of its entries in the order the keys were first inserted,
as a JavaScript `Map` or object keeps them: a key set again keeps its place, a
key erased and set again goes to the end. `Assoc` is the raw list, for trees
that nest their entries; `OrderedMap` carries the proof that no key repeats.
-/
namespace LazyStorage.Lib

variable {α β γ : Type*} [DecidableEq α]

namespace Assoc

/-- The value under a key: its first entry. -/
def get : List (α × β) → α → Option β
  | [], _ => none
  | (k, b) :: l, a => if k = a then some b else get l a

/-- Replace the value in place, or append a new entry. -/
def set : List (α × β) → α → β → List (α × β)
  | [], a, b => [(a, b)]
  | (k, c) :: l, a, b => if k = a then (k, b) :: l else (k, c) :: set l a b

def erase (l : List (α × β)) (a : α) : List (α × β) := l.filter (fun e => e.1 ≠ a)

@[simp] theorem get_nil (a : α) : get ([] : List (α × β)) a = none := rfl

theorem get_cons (k : α) (b : β) (l : List (α × β)) (a : α) :
    get ((k, b) :: l) a = if k = a then some b else get l a := rfl

theorem get_set (l : List (α × β)) (a : α) (b : β) (x : α) :
    get (set l a b) x = if a = x then some b else get l x := by
  induction l with
  | nil => simp [set, get]
  | cons e l ih =>
    obtain ⟨k, c⟩ := e
    by_cases hk : k = a
    · subst hk
      by_cases hx : k = x <;> simp [set, get, hx]
    · by_cases hx : k = x
      · subst hx
        simp [set, get, hk, Ne.symm hk]
      · simp [set, get, hk, hx, ih]

@[simp] theorem get_set_self (l : List (α × β)) (a : α) (b : β) : get (set l a b) a = some b := by
  simp [get_set]

theorem get_set_of_ne (l : List (α × β)) {a x : α} (b : β) (h : a ≠ x) :
    get (set l a b) x = get l x := by simp [get_set, h]

/-- Setting what is there already changes nothing. -/
theorem set_of_get {l : List (α × β)} {a : α} {b : β} (h : get l a = some b) : set l a b = l := by
  induction l with
  | nil => simp at h
  | cons e l ih =>
    obtain ⟨k, c⟩ := e
    by_cases hk : k = a
    · rw [get_cons, if_pos hk] at h
      simp [set, hk, Option.some.inj h]
    · rw [get_cons, if_neg hk] at h
      simp [set, hk, ih h]

theorem set_set (l : List (α × β)) (a : α) (b c : β) : set (set l a b) a c = set l a c := by
  induction l with
  | nil => simp [set]
  | cons e l ih =>
    obtain ⟨k, d⟩ := e
    by_cases hk : k = a <;> simp [set, hk, ih]

theorem map_set (f : β → γ) (l : List (α × β)) (a : α) (b : β) :
    (set l a b).map (fun e => (e.1, f e.2)) = set (l.map fun e => (e.1, f e.2)) a (f b) := by
  induction l with
  | nil => rfl
  | cons e l ih =>
    obtain ⟨k, d⟩ := e
    by_cases hk : k = a
    · simp [set, hk]
    · simp only [set, if_neg hk, List.map_cons, ih]

theorem get_erase (l : List (α × β)) (a x : α) :
    get (erase l a) x = if a = x then none else get l x := by
  induction l with
  | nil => simp [erase]
  | cons e l ih =>
    obtain ⟨k, c⟩ := e
    by_cases hk : k = a
    · subst hk
      have : erase ((k, c) :: l) k = erase l k := by simp [erase]
      rw [this, ih, get_cons]
      split_ifs <;> rfl
    · have : erase ((k, c) :: l) a = (k, c) :: erase l a := by simp [erase, hk]
      rw [this, get_cons, get_cons, ih]
      by_cases hx : k = x
      · subst hx; simp [Ne.symm hk]
      · simp [hx]

theorem get_eq_none_iff {l : List (α × β)} {a : α} : get l a = none ↔ a ∉ l.map Prod.fst := by
  induction l with
  | nil => simp
  | cons e l ih =>
    obtain ⟨k, c⟩ := e
    by_cases hk : k = a
    · subst hk; simp [get_cons]
    · simp [get_cons, hk, ih, Ne.symm hk]

theorem mem_of_get {l : List (α × β)} {a : α} {b : β} (h : get l a = some b) : (a, b) ∈ l := by
  induction l with
  | nil => simp at h
  | cons e l ih =>
    obtain ⟨k, c⟩ := e
    rw [get_cons] at h
    split_ifs at h with hk
    · subst hk; simp_all
    · exact List.mem_cons_of_mem _ (ih h)

theorem get_of_mem {l : List (α × β)} (hl : (l.map Prod.fst).Nodup) {a : α} {b : β}
    (h : (a, b) ∈ l) : get l a = some b := by
  induction l with
  | nil => simp at h
  | cons e l ih =>
    obtain ⟨k, c⟩ := e
    simp only [List.map_cons, List.nodup_cons] at hl
    rcases List.mem_cons.mp h with h | h
    · obtain ⟨rfl, rfl⟩ := Prod.mk.inj h
      simp [get_cons]
    · have hk : k ≠ a := fun hk => hl.1 (hk ▸ List.mem_map_of_mem h)
      rw [get_cons, if_neg hk]
      exact ih hl.2 h

theorem keys_set (l : List (α × β)) (a : α) (b : β) :
    (set l a b).map Prod.fst =
      if a ∈ l.map Prod.fst then l.map Prod.fst else l.map Prod.fst ++ [a] := by
  induction l with
  | nil => simp [set]
  | cons e l ih =>
    obtain ⟨k, c⟩ := e
    by_cases hk : k = a
    · subst hk; simp [set]
    · simp only [set, if_neg hk, List.map_cons, ih, List.mem_cons, Ne.symm hk, false_or]
      split_ifs <;> simp

theorem nodup_set {l : List (α × β)} (hl : (l.map Prod.fst).Nodup) (a : α) (b : β) :
    ((set l a b).map Prod.fst).Nodup := by
  rw [keys_set]
  split_ifs with h
  · exact hl
  · exact hl.append (List.nodup_singleton a) (by simpa using h)

omit [DecidableEq α] in
theorem nodup_filter {l : List (α × β)} (hl : (l.map Prod.fst).Nodup) (p : α × β → Bool) :
    ((l.filter p).map Prod.fst).Nodup :=
  hl.sublist (List.filter_sublist.map Prod.fst)

end Assoc

/-- An insertion-ordered map: its entries, no key twice. -/
structure OrderedMap (α β : Type*) where
  entries : List (α × β)
  nodup : (entries.map Prod.fst).Nodup

namespace OrderedMap

def empty : OrderedMap α β := ⟨[], List.nodup_nil⟩

instance : Inhabited (OrderedMap α β) := ⟨empty⟩

def get (m : OrderedMap α β) (a : α) : Option β := Assoc.get m.entries a

def has (m : OrderedMap α β) (a : α) : Bool := (m.get a).isSome

def set (m : OrderedMap α β) (a : α) (b : β) : OrderedMap α β :=
  ⟨Assoc.set m.entries a b, Assoc.nodup_set m.nodup a b⟩

def erase (m : OrderedMap α β) (a : α) : OrderedMap α β :=
  ⟨Assoc.erase m.entries a, Assoc.nodup_filter m.nodup _⟩

/-- The entries a test keeps. -/
def filter (m : OrderedMap α β) (p : α → β → Bool) : OrderedMap α β :=
  ⟨m.entries.filter (fun e => p e.1 e.2), Assoc.nodup_filter m.nodup _⟩

/-- Every value mapped, under its own key. -/
def mapVal (m : OrderedMap α β) (f : α → β → γ) : OrderedMap α γ :=
  ⟨m.entries.map (fun e => (e.1, f e.1 e.2)), by simpa [Function.comp_def] using m.nodup⟩

def keys (m : OrderedMap α β) : List α := m.entries.map Prod.fst

def values (m : OrderedMap α β) : List β := m.entries.map Prod.snd

def size (m : OrderedMap α β) : ℕ := m.entries.length

def ofList (l : List (α × β)) : OrderedMap α β := l.foldl (fun m e => m.set e.1 e.2) empty

variable (m : OrderedMap α β)

@[simp] theorem get_empty (a : α) : (empty : OrderedMap α β).get a = none := rfl

theorem get_set (a : α) (b : β) (x : α) :
    (m.set a b).get x = if a = x then some b else m.get x := Assoc.get_set _ a b x

@[simp] theorem get_set_self (a : α) (b : β) : (m.set a b).get a = some b := by simp [get_set]

theorem get_set_of_ne {a x : α} (b : β) (h : a ≠ x) : (m.set a b).get x = m.get x := by
  simp [get_set, h]

theorem set_of_get {a : α} {b : β} (h : m.get a = some b) : m.set a b = m := by
  obtain ⟨entries, nodup⟩ := m
  simp only [set, mk.injEq]
  exact Assoc.set_of_get h

theorem get_erase (a x : α) : (m.erase a).get x = if a = x then none else m.get x :=
  Assoc.get_erase _ a x

@[simp] theorem get_erase_self (a : α) : (m.erase a).get a = none := by simp [get_erase]

theorem get_erase_of_ne {a x : α} (h : a ≠ x) : (m.erase a).get x = m.get x := by
  simp [get_erase, h]

variable {m}

theorem mem_entries {a : α} {b : β} : (a, b) ∈ m.entries ↔ m.get a = some b :=
  ⟨Assoc.get_of_mem m.nodup, Assoc.mem_of_get⟩

theorem mem_keys {a : α} : a ∈ m.keys ↔ (m.get a).isSome := by
  rw [keys, ← not_iff_not, ← Assoc.get_eq_none_iff, Option.not_isSome_iff_eq_none]
  rfl

theorem mem_values {b : β} : b ∈ m.values ↔ ∃ a, m.get a = some b := by
  simp only [values, List.mem_map, Prod.exists]
  constructor
  · rintro ⟨a, c, h, rfl⟩
    exact ⟨a, mem_entries.mp h⟩
  · rintro ⟨a, h⟩
    exact ⟨a, b, mem_entries.mpr h, rfl⟩

theorem get_filter (p : α → β → Bool) (a : α) :
    (m.filter p).get a = (m.get a).filter (p a) := by
  ext b
  rw [← mem_entries, Option.filter_eq_some_iff, ← mem_entries]
  simp [filter]

theorem filter_eq_self {p : α → β → Bool} (h : ∀ a b, m.get a = some b → p a b = true) :
    m.filter p = m := by
  obtain ⟨entries, nodup⟩ := m
  simp only [filter, mk.injEq]
  exact List.filter_eq_self.mpr fun e he => h e.1 e.2 (mem_entries.mp he)

omit [DecidableEq α] in
theorem ext_entries {m n : OrderedMap α β} (h : m.entries = n.entries) : m = n := by
  obtain ⟨entries, nodup⟩ := m
  obtain ⟨entries', nodup'⟩ := n
  obtain rfl : entries = entries' := h
  rfl

theorem set_set (m : OrderedMap α β) (a : α) (b c : β) : (m.set a b).set a c = m.set a c :=
  ext_entries (Assoc.set_set m.entries a b c)

theorem mapVal_set (f : β → γ) (m : OrderedMap α β) (a : α) (b : β) :
    (m.set a b).mapVal (fun _ => f) = (m.mapVal fun _ => f).set a (f b) :=
  ext_entries (Assoc.map_set f m.entries a b)

omit [DecidableEq α] in
theorem mapVal_filter (f : β → γ) (p : β → Bool) (q : γ → Bool) (h : ∀ b, q (f b) = p b) (m : OrderedMap α β) :
    (m.filter fun _ => p).mapVal (fun _ => f) = (m.mapVal fun _ => f).filter fun _ => q := by
  refine ext_entries ?_
  simp only [filter, mapVal, List.filter_map, Function.comp_def, h]

omit [DecidableEq α] in
@[simp] theorem size_mapVal (f : β → γ) (m : OrderedMap α β) : (m.mapVal fun _ => f).size = m.size :=
  List.length_map ..

theorem size_set_of_get_none {a : α} (h : m.get a = none) (b : β) : (m.set a b).size = m.size + 1 := by
  have hkeys := Assoc.keys_set m.entries a b
  rw [if_neg (Assoc.get_eq_none_iff.mp h)] at hkeys
  have hlength := congrArg List.length hkeys
  simpa [size, set] using hlength

theorem get_mapVal (f : α → β → γ) (a : α) : (m.mapVal f).get a = (m.get a).map (f a) := by
  ext c
  rw [← mem_entries]
  simp only [mapVal, List.mem_map, Prod.mk.injEq, Prod.exists, Option.map_eq_some_iff]
  constructor
  · rintro ⟨x, b, h, rfl, rfl⟩
    exact ⟨b, mem_entries.mp h, rfl⟩
  · rintro ⟨b, h, rfl⟩
    exact ⟨a, b, mem_entries.mpr h, rfl, rfl⟩

/-- Maps with the same keys hold equally many entries. -/
theorem size_congr {m : OrderedMap α β} {n : OrderedMap α γ}
    (h : ∀ a, (m.get a).isSome = (n.get a).isSome) : m.size = n.size := by
  have hk : ∀ a, a ∈ m.keys ↔ a ∈ n.keys := fun a => by simp [mem_keys, h a]
  have hp : m.keys.Perm n.keys := (List.perm_ext_iff_of_nodup m.nodup n.nodup).mpr hk
  simpa [keys, size] using hp.length_eq

/-- A map with fewer keys holds no more entries. -/
theorem size_le {n : OrderedMap α γ} (h : ∀ a, (m.get a).isSome → (n.get a).isSome) :
    m.size ≤ n.size := by
  have hk : m.keys ⊆ n.keys := fun a ha => mem_keys.mpr (h a (mem_keys.mp ha))
  have hp : m.keys.Subperm n.keys := List.subperm_of_subset m.nodup hk
  simpa [keys, size] using hp.length_le

theorem size_erase_lt {a : α} (h : (m.get a).isSome) : (m.erase a).size < m.size := by
  obtain ⟨b, hb⟩ := Option.isSome_iff_exists.mp h
  have hm := mem_entries.mpr hb
  exact List.length_filter_lt_length_iff_exists.mpr ⟨(a, b), hm, by simp⟩

theorem size_eq_zero {m : OrderedMap α β} (h : m.size = 0) (a : α) : m.get a = none := by
  have : m.entries = [] := List.length_eq_zero_iff.mp h
  simp [get, this]

theorem get_foldl_set {l : List (α × β)} {m : OrderedMap α β} (hl : (l.map Prod.fst).Nodup) (a : α) :
    (l.foldl (fun m e => m.set e.1 e.2) m).get a = (Assoc.get l a).or (m.get a) := by
  induction l generalizing m with
  | nil => simp
  | cons e l ih =>
    obtain ⟨k, b⟩ := e
    simp only [List.map_cons, List.nodup_cons] at hl
    rw [List.foldl_cons, ih hl.2, get_set, Assoc.get_cons]
    by_cases hk : k = a
    · subst hk
      simp [Assoc.get_eq_none_iff.mpr hl.1]
    · simp [hk]

theorem get_ofList {l : List (α × β)} (hl : (l.map Prod.fst).Nodup) (a : α) :
    (ofList l).get a = Assoc.get l a := by
  simp [ofList, get_foldl_set hl]

theorem get_foldl_erase (l : List α) (m : OrderedMap α β) (a : α) :
    (l.foldl (fun m x => m.erase x) m).get a = if a ∈ l then none else m.get a := by
  induction l generalizing m with
  | nil => simp
  | cons x l ih =>
    rw [List.foldl_cons, ih, get_erase]
    by_cases hl : a ∈ l
    · rw [if_pos hl, if_pos (List.mem_cons_of_mem x hl)]
    · by_cases hx : x = a
      · simp [hx]
      · simp [hl, hx, Ne.symm hx]

/-- The last of many things put under a key is what is there. -/
theorem get_foldl_put (f : γ → α) (g : γ → β) (l : List γ) (m : OrderedMap α β) (a : α) :
    (((l.foldl (fun m c => m.set (f c) (g c)) m).get a).isSome = true ↔ (m.get a).isSome = true ∨ ∃ c ∈ l, f c = a) ∧
      ∀ b, (l.foldl (fun m c => m.set (f c) (g c)) m).get a = some b →
        (∃ c ∈ l, f c = a ∧ g c = b) ∨ m.get a = some b ∧ ∀ c ∈ l, f c ≠ a := by
  induction l generalizing m with
  | nil => simp
  | cons c l ih =>
    obtain ⟨hsome, hcases⟩ := ih (m.set (f c) (g c))
    rw [List.foldl_cons]
    refine ⟨?_, fun b hb => ?_⟩
    · rw [hsome, get_set]
      by_cases hc : f c = a <;> simp [hc]
    · rcases hcases b hb with ⟨d, hd, hrest⟩ | ⟨hnow, hnone⟩
      · exact .inl ⟨d, List.mem_cons_of_mem _ hd, hrest⟩
      · rw [get_set] at hnow
        split at hnow
        · next hc => exact .inl ⟨c, List.mem_cons_self, hc, Option.some.inj hnow⟩
        · next hc => exact .inr ⟨hnow, List.forall_mem_cons.mpr ⟨hc, hnone⟩⟩

end OrderedMap

end LazyStorage.Lib
