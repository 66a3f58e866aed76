import LazyStorage.Lib.OrderedMap
import Mathlib.Data.Rat.Defs

/-! # JSON values and paths inside them

A value is a JSON tree; an object keeps its keys in the order they were set.
A path is a list of segments. Reading walks own properties, so a segment can
step into an array by an index, or end at its `length`; building containers on
the way goes through objects only.
-/
namespace LazyStorage.Core

open Lib

abbrev Path := List String

/-- A JSON value. Numbers are exact. -/
inductive Value
  | null
  | bool (b : Bool)
  | num (n : ℚ)
  | str (s : String)
  | arr (items : List Value)
  | obj (fields : List (String × Value))

namespace Value

instance : Inhabited Value := ⟨null⟩

mutual

/-- Equality of values, as comparing their JSON texts decides it. -/
def decEq : (a b : Value) → Decidable (a = b)
  | null, null => isTrue rfl
  | bool a, bool b =>
    if h : a = b then isTrue (congrArg bool h) else isFalse (fun e => h (Value.bool.inj e))
  | num a, num b =>
    if h : a = b then isTrue (congrArg num h) else isFalse (fun e => h (Value.num.inj e))
  | str a, str b =>
    if h : a = b then isTrue (congrArg str h) else isFalse (fun e => h (Value.str.inj e))
  | arr a, arr b =>
    match decEqItems a b with
    | isTrue h => isTrue (congrArg arr h)
    | isFalse h => isFalse (fun e => h (Value.arr.inj e))
  | obj a, obj b =>
    match decEqFields a b with
    | isTrue h => isTrue (congrArg obj h)
    | isFalse h => isFalse (fun e => h (Value.obj.inj e))
  | null, bool _ | null, num _ | null, str _ | null, arr _ | null, obj _
  | bool _, null | bool _, num _ | bool _, str _ | bool _, arr _ | bool _, obj _
  | num _, null | num _, bool _ | num _, str _ | num _, arr _ | num _, obj _
  | str _, null | str _, bool _ | str _, num _ | str _, arr _ | str _, obj _
  | arr _, null | arr _, bool _ | arr _, num _ | arr _, str _ | arr _, obj _
  | obj _, null | obj _, bool _ | obj _, num _ | obj _, str _ | obj _, arr _ =>
    isFalse (fun e => Value.noConfusion e)

def decEqItems : (a b : List Value) → Decidable (a = b)
  | [], [] => isTrue rfl
  | [], _ :: _ => isFalse (by simp)
  | _ :: _, [] => isFalse (by simp)
  | x :: xs, y :: ys =>
    match decEq x y, decEqItems xs ys with
    | isTrue h, isTrue t => isTrue (by rw [h, t])
    | isFalse h, _ => isFalse (fun e => h (List.cons.inj e).1)
    | _, isFalse t => isFalse (fun e => t (List.cons.inj e).2)

def decEqFields : (a b : List (String × Value)) → Decidable (a = b)
  | [], [] => isTrue rfl
  | [], _ :: _ => isFalse (by simp)
  | _ :: _, [] => isFalse (by simp)
  | (k, x) :: xs, (l, y) :: ys =>
    if hk : k = l then
      match decEq x y, decEqFields xs ys with
      | isTrue h, isTrue t => isTrue (by rw [hk, h, t])
      | isFalse h, _ => isFalse (fun e => h (Prod.mk.inj (List.cons.inj e).1).2)
      | _, isFalse t => isFalse (fun e => t (List.cons.inj e).2)
    else isFalse (fun e => hk (Prod.mk.inj (List.cons.inj e).1).1)

end

instance : DecidableEq Value := decEq

/-- The fields of a plain object. -/
def fields? : Value → Option (List (String × Value))
  | obj fs => some fs
  | _ => none

def isObj (v : Value) : Bool := v.fields?.isSome

@[simp] theorem isObj_obj (fs : List (String × Value)) : (obj fs).isObj = true := rfl

theorem isObj_iff {v : Value} : v.isObj = true ↔ ∃ fs, v = obj fs := by
  cases v <;> simp [isObj, fields?]

theorem fields?_eq_some {v : Value} {fs : List (String × Value)} :
    v.fields? = some fs ↔ v = obj fs := by
  cases v <;> simp [fields?]

/-- Induction along the merges of a put: a plain object from its fields' values, and anything
else, arrays included, as a leaf. -/
theorem merging_induction {P : Value → Prop} (leaf : ∀ v, v.isObj = false → P v)
    (fields : ∀ fs : List (String × Value), (∀ e ∈ fs, P e.2) → P (obj fs)) : ∀ v, P v
  | null => leaf _ rfl
  | bool _ => leaf _ rfl
  | num _ => leaf _ rfl
  | str _ => leaf _ rfl
  | arr _ => leaf _ rfl
  | obj fs => fields fs (go fs)
where
  go : ∀ fs : List (String × Value), ∀ e ∈ fs, P e.2
    | [], _, h => absurd h (by simp)
    | (_, v) :: fs, e, h => by
      rcases List.mem_cons.mp h with rfl | h
      · exact merging_induction leaf fields v
      · exact go fs e h

/-- The index a segment names in an array: its canonical decimal form. -/
def arrayIndex (items : List Value) (seg : String) : Option ℕ :=
  (List.range items.length).find? (fun i => toString i = seg)

/-- `value[seg]`, own properties only. -/
def prop : Value → String → Option Value
  | obj fs, seg => Assoc.get fs seg
  | arr items, seg =>
    if seg = "length" then some (num items.length)
    else (arrayIndex items seg).bind (items[·]?)
  | _, _ => none

/-- `value[seg] = x`, for a property that is there. -/
def withProp : Value → String → Value → Value
  | obj fs, seg, x => obj (Assoc.set fs seg x)
  | arr items, seg, x =>
    match arrayIndex items seg with
    | some i => arr (items.set i x)
    | none => arr items
  | v, _, _ => v

/-- `parent[last] = x`, the parent a plain object. -/
def setField (last : String) (x : Value) : Value → Value
  | obj fs => obj (Assoc.set fs last x)
  | v => v

/-- `delete parent[last]`. -/
def eraseField (last : String) : Value → Value
  | obj fs => obj (Assoc.erase fs last)
  | v => v

end Value

/-- Own-property walk; `none` where the path does not resolve. -/
def valueAt : Value → Path → Option Value
  | node, [] => some node
  | node, seg :: path => (node.prop seg).bind (valueAt · path)

/-- A change made in place to what a path leads to. -/
def modifyAt (f : Value → Value) : Path → Value → Value
  | [], node => f node
  | seg :: path, node =>
    match node.prop seg with
    | some child => node.withProp seg (modifyAt f path child)
    | none => node

/-- What the loop over a parent path leaves: every segment a container, what is in the way
replaced. -/
def makeContainers : Path → Value → Value
  | [], node => node
  | seg :: path, node =>
    match node.fields? with
    | none => node
    | some fs =>
      match (Assoc.get fs seg).filter Value.isObj with
      | some child => .obj (Assoc.set fs seg (makeContainers path child))
      | none => .obj (Assoc.set fs seg (makeContainers path (.obj [])))

/-- The containers that loop has to make, outermost first, `done` being the way so far. -/
def containersMade (done : Path) : Path → Value → List Path
  | [], _ => []
  | seg :: path, node =>
    match node.fields? with
    | none => []
    | some fs =>
      match (Assoc.get fs seg).filter Value.isObj with
      | some child => containersMade (done ++ [seg]) path child
      | none => (done ++ [seg]) :: containersMade (done ++ [seg]) path (.obj [])

@[simp] theorem valueAt_nil (v : Value) : valueAt v [] = some v := rfl

theorem valueAt_cons (v : Value) (seg : String) (path : Path) :
    valueAt v (seg :: path) = (v.prop seg).bind (valueAt · path) := rfl

theorem valueAt_append (v : Value) (p q : Path) :
    valueAt v (p ++ q) = (valueAt v p).bind (valueAt · q) := by
  induction p generalizing v with
  | nil => rfl
  | cons seg p ih =>
    rw [List.cons_append, valueAt_cons, valueAt_cons]
    cases v.prop seg with
    | none => rfl
    | some w => exact ih w

theorem arrayIndex_lt {items : List Value} {seg : String} {i : ℕ}
    (h : Value.arrayIndex items seg = some i) : i < items.length := by
  simpa using List.mem_of_find?_eq_some h

theorem arrayIndex_set (items : List Value) (i : ℕ) (x : Value) (seg : String) :
    Value.arrayIndex (items.set i x) seg = Value.arrayIndex items seg := by
  simp [Value.arrayIndex]

/-- A property written is what is read back, the length of an array apart. -/
theorem prop_withProp {v x y : Value} {seg : String} (h : v.prop seg = some x)
    (hx : ∀ n, x ≠ .num n) : (v.withProp seg y).prop seg = some y := by
  cases v with
  | obj fs => simp [Value.withProp, Value.prop]
  | arr items =>
    simp only [Value.prop] at h
    split_ifs at h with hl
    · exact absurd (Option.some.inj h).symm (hx _)
    · obtain ⟨i, hi, hg⟩ := Option.bind_eq_some_iff.mp h
      have hlt := arrayIndex_lt hi
      simp [Value.withProp, hi, Value.prop, hl, arrayIndex_set, hlt]
  | _ => simp [Value.prop] at h

theorem not_num_of_valueAt {x : Value} {path : Path} {fs : List (String × Value)}
    (h : valueAt x path = some (.obj fs)) (n : ℚ) : x ≠ .num n := by
  rintro rfl
  cases path <;> simp [valueAt, Value.prop] at h

/-- What leaves objects objects. -/
def KeepsObj (f : Value → Value) : Prop := ∀ fs, ∃ gs, f (.obj fs) = .obj gs

theorem keepsObj_setField (last : String) (x : Value) : KeepsObj (Value.setField last x) :=
  fun _ => ⟨_, rfl⟩

theorem keepsObj_eraseField (last : String) : KeepsObj (Value.eraseField last) :=
  fun _ => ⟨_, rfl⟩

/-- A container above a change made in place stays one. -/
theorem objAt_modifyAt {f : Value → Value} (hf : KeepsObj f) (q r : Path) {v : Value}
    {fs : List (String × Value)} (h : valueAt v q = some (.obj fs)) :
    ∃ gs, valueAt (modifyAt f (q ++ r) v) q = some (.obj gs) := by
  induction q generalizing v with
  | nil =>
    obtain rfl := Option.some.inj h
    cases r with
    | nil =>
      obtain ⟨gs, hg⟩ := hf fs
      exact ⟨gs, by simp [modifyAt, hg]⟩
    | cons seg r =>
      simp only [List.nil_append, modifyAt]
      split
      · exact ⟨_, rfl⟩
      · exact ⟨_, rfl⟩
  | cons seg q ih =>
    rw [valueAt_cons] at h
    obtain ⟨x, hx, h⟩ := Option.bind_eq_some_iff.mp h
    obtain ⟨gs, hg⟩ := ih h
    refine ⟨gs, ?_⟩
    simp only [List.cons_append, modifyAt, hx, valueAt_cons,
      prop_withProp hx (not_num_of_valueAt h), Option.bind_some, hg]

/-- Where the path led to no container, the loop ends at a new and empty one. -/
theorem valueAt_makeContainers {path : Path} {fs : List (String × Value)}
    (h : (valueAt (.obj fs) path).any Value.isObj = false) :
    valueAt (makeContainers path (.obj fs)) path = some (.obj []) := by
  have hempty : ∀ p : Path, valueAt (makeContainers p (.obj [])) p = some (.obj []) := by
    intro p
    induction p with
    | nil => rfl
    | cons seg p ih => simpa [makeContainers, Value.fields?, valueAt_cons, Value.prop] using ih
  induction path generalizing fs with
  | nil => simp at h
  | cons seg path ih =>
    simp only [makeContainers, Value.fields?]
    rcases hc : (Assoc.get fs seg).filter Value.isObj with _ | child
    · simpa [valueAt_cons, Value.prop] using hempty path
    · obtain ⟨hget, hchild⟩ := Option.filter_eq_some_iff.mp hc
      obtain ⟨cs, rfl⟩ := Value.isObj_iff.mp hchild
      have hrest : (valueAt (.obj cs) path).any Value.isObj = false := by
        simpa [valueAt_cons, Value.prop, hget] using h
      simpa [valueAt_cons, Value.prop] using ih hrest

end LazyStorage.Core
