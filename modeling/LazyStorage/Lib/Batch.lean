import LazyStorage.Lib.OrderedMap
import Mathlib.Data.List.Induction

/-! # Rows written once

What is asked of the rows of a table, act by act, may be done as it is asked, or be
collected first so that each row is written once, as it was last asked. Acts that
say what a row is to be leave the same either way; others where the last of a
row's acts does by itself what they all do in turn.
-/
namespace LazyStorage.Lib

variable {K A R : Type*} [DecidableEq K]

/-- A table with one row as it is to be: there, or gone. -/
def OrderedMap.put (t : OrderedMap K R) (k : K) : Option R → OrderedMap K R
  | none => t.erase k
  | some r => t.set k r

@[simp] theorem OrderedMap.get_put (t : OrderedMap K R) (k : K) (row : Option R) (x : K) :
    (t.put k row).get x = if k = x then row else t.get x := by
  cases row with
  | none => exact t.get_erase k x
  | some r => exact t.get_set k r x

namespace Batch

/-- What is asked of a row, in order. -/
def asked (acts : List (K × A)) (k : K) : List A := (acts.filter (·.1 = k)).map Prod.snd

@[simp] theorem asked_nil (k : K) : asked ([] : List (K × A)) k = [] := rfl

@[simp] theorem asked_cons (e : K × A) (acts : List (K × A)) (k : K) :
    asked (e :: acts) k = if e.1 = k then e.2 :: asked acts k else asked acts k := by
  by_cases h : e.1 = k <;> simp [asked, h]

@[simp] theorem asked_append (acts more : List (K × A)) (k : K) :
    asked (acts ++ more) k = asked acts k ++ asked more k := by
  simp [asked]

theorem mem_asked {acts : List (K × A)} {k : K} {a : A} : a ∈ asked acts k ↔ (k, a) ∈ acts := by
  simp [asked]

/-- What is asked of a row that the acts name in one way. -/
theorem asked_map {B : Type*} (f : B → K) (g : B → A) (l : List B) (k : K) :
    asked (l.map fun b => (f b, g b)) k = (l.filter (f · = k)).map g := by
  simp [asked, List.filter_map, Function.comp_def]

/-- A map asks of each row what it holds for it. -/
theorem asked_entries (m : OrderedMap K A) (k : K) : asked m.entries k = (m.get k).toList := by
  obtain ⟨entries, hnodup⟩ := m
  change asked entries k = (Assoc.get entries k).toList
  induction entries with
  | nil => rfl
  | cons e l ih =>
    rw [List.map_cons, List.nodup_cons] at hnodup
    rw [asked_cons, Assoc.get_cons, ih hnodup.2]
    by_cases hk : e.1 = k
    · rw [if_pos hk, if_pos hk, Assoc.get_eq_none_iff.mpr (hk ▸ hnodup.1)]
      rfl
    · rw [if_neg hk, if_neg hk]

/-- A list of acts as a map keeps the last of each row's. -/
theorem get_ofList (acts : List (K × A)) (k : K) : (OrderedMap.ofList acts).get k = (asked acts k).getLast? := by
  induction acts using List.reverseRecOn with
  | nil => rfl
  | append_singleton acts e ih =>
    rw [OrderedMap.ofList, List.foldl_append, List.foldl_cons, List.foldl_nil, OrderedMap.get_set]
    by_cases hk : e.1 = k
    · simp [hk]
    · rw [if_neg hk, asked_append, asked_cons, if_neg hk, asked_nil, List.append_nil]
      exact ih

variable (act : A → Option R → Option R)

/-- Every act done, in order. -/
def perform (acts : List (K × A)) (t : OrderedMap K R) : OrderedMap K R :=
  acts.foldl (fun t e => t.put e.1 (act e.2 (t.get e.1))) t

/-- Each row written once, as it was last asked. -/
def performLast (acts : List (K × A)) (t : OrderedMap K R) : OrderedMap K R :=
  perform act (OrderedMap.ofList acts).entries t

theorem get_perform (acts : List (K × A)) (t : OrderedMap K R) (k : K) :
    (perform act acts t).get k = (asked acts k).foldl (fun row a => act a row) (t.get k) := by
  induction acts generalizing t with
  | nil => rfl
  | cons e acts ih =>
    rw [perform, List.foldl_cons]
    refine (ih _).trans ?_
    by_cases hk : e.1 = k
    · subst hk
      simp
    · simp [hk]

theorem get_performLast (acts : List (K × A)) (t : OrderedMap K R) (k : K) :
    (performLast act acts t).get k = (asked acts k).getLast?.elim (t.get k) fun a => act a (t.get k) := by
  rw [performLast, get_perform, asked_entries, get_ofList]
  cases (asked acts k).getLast? <;> rfl

/-- The last that each of some lists of acts asks of a row. -/
def lasts (groups : List (List (K × A))) (k : K) : List A := groups.filterMap fun acts => (asked acts k).getLast?

/-- The last of all is the last of the lasts. -/
theorem getLast?_asked_flatten (groups : List (List (K × A))) (k : K) :
    (asked groups.flatten k).getLast? = (lasts groups k).getLast? := by
  induction groups using List.reverseRecOn with
  | nil => rfl
  | append_singleton groups acts ih =>
    rw [List.flatten_append, List.flatten_singleton, asked_append, lasts, List.filterMap_append, List.getLast?_append,
      List.getLast?_append, ih]
    cases hlast : (asked acts k).getLast? <;> simp [lasts, hlast]

/-- Lists of acts one after the other, each row written once a list. -/
theorem get_foldl_performLast (groups : List (List (K × A))) (t : OrderedMap K R) (k : K) :
    (groups.foldl (fun t acts => performLast act acts t) t).get k =
      (lasts groups k).foldl (fun row a => act a row) (t.get k) := by
  induction groups generalizing t with
  | nil => rfl
  | cons acts groups ih =>
    rw [List.foldl_cons, ih, get_performLast, lasts, lasts]
    cases hlast : (asked acts k).getLast? <;> simp [hlast]

variable {act}

/-- An act that says what the row is to be, done last, leaves what it says. -/
theorem foldl_of_overwrites (h : ∀ a row row', act a row = act a row') (acts : List A) (row : Option R) :
    acts.foldl (fun row a => act a row) row = acts.getLast?.elim row fun a => act a row := by
  induction acts using List.reverseRecOn with
  | nil => rfl
  | append_singleton acts a ih =>
    rw [List.foldl_append, List.getLast?_append]
    exact h a _ _

/-- Where acts say what a row is to be, lists of them may be done as one. -/
theorem get_performLast_flatten (h : ∀ a row row', act a row = act a row') (groups : List (List (K × A)))
    (t : OrderedMap K R) (k : K) : (performLast act groups.flatten t).get k =
      (groups.foldl (fun t acts => performLast act acts t) t).get k := by
  rw [get_performLast, get_foldl_performLast, getLast?_asked_flatten, foldl_of_overwrites h]

end Batch

end LazyStorage.Lib
