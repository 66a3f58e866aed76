import LazyStorage.Client.Patience
import LazyStorage.Core.Between
import LazyStorage.Lib.OrderedMap
import Mathlib.Data.Rat.Defs

/-! # Ordered lists of records

A list is an object of records by id, each with a position key in one field; its order
is the keys', ties by id, a record without a key last. Adding or moving a record writes
one field on that record, and reconciling writes those the longest run leaves out.
-/
namespace LazyStorage.Client.RecordList
open Core Lib

/-- What stands under an id: a record, with its position key if it has one, or no plain object. -/
inductive Item (D : Type)
  | record (pos : Option Key) (rest : D)
  | other

variable {I D : Type} [LinearOrder I]

/-- A list's object, none until there is one. -/
abbrev Container (I D : Type) [LinearOrder I] := Option (OrderedMap I (Item D))

/-- An id in the list, with the record's key. -/
abbrev Placed (I : Type) := I × Option Key

inductive Refusal (I : Type)
  | noRecord (id : I)
  | key (fault : Fault)

def keyed (id : I) : Item D → Option (Placed I)
  | .record pos _ => some (id, pos)
  | .other => none

def records (c : Container I D) : List (Placed I) :=
  (c.elim [] (·.entries)).filterMap fun e => keyed e.1 e.2

/-- Whether one is not after another in list order. -/
def inOrder (a b : Placed I) : Bool := comparePositions a.2 a.1 b.2 b.1 ≠ .gt

/-- Ids and keys in list order, one id left out. -/
def sorted (c : Container I D) (exclude : Option I) : List (Placed I) :=
  ((records c).filter fun e => some e.1 ≠ exclude).mergeSort inOrder

def ids (c : Container I D) : List I := (sorted c none).map Prod.fst

/-- The record under an id. -/
def find (c : Container I D) (id : I) : Option (Option Key × D) :=
  match c.bind (·.get id) with
  | some (.record pos rest) => some (pos, rest)
  | _ => none

def keyOf (c : Container I D) (id : I) : Option Key := (find c id).bind Prod.fst

/-- Where a record is asked for: the end, when nothing is said. -/
structure Where (I : Type) where
  before : Option I
  after : Option I
  index : Option ℚ

def trunc (q : ℚ) : ℤ := q.num.tdiv q.den

def indexOf (entries : List (Placed I)) (id : I) : Except (Refusal I) ℕ :=
  match entries.findIdx? (·.1 = id) with
  | none => .error (.noRecord id)
  | some i => .ok i

def Where.place (w : Where I) (entries : List (Placed I)) : Except (Refusal I) ℕ :=
  match w.before, w.after, w.index with
  | some id, _, _ => indexOf entries id
  | none, some id, _ => (indexOf entries id).map (· + 1)
  | none, none, some q => .ok (max 0 (min (entries.length : ℤ) (trunc q))).toNat
  | none, none, none => .ok entries.length

def lowerKey (entries : List (Placed I)) (index : ℕ) : Option Key :=
  (entries.take index).reverse.findSome? Prod.snd

def upperKey (entries : List (Placed I)) (index : ℕ) (lower : Option Key) : Option Key :=
  (entries.drop index).findSome? fun e => e.2.filter fun key => lower.all (· < key)

/-- The keys a record goes between, leaving out the record itself. -/
def bounds (c : Container I D) (w : Where I) (exclude : Option I) : Except (Refusal I) (Option Key × Option Key) := do
  let entries := sorted c exclude
  let index ← w.place entries
  let lower := lowerKey entries index
  .ok (lower, upperKey entries index lower)

def between (lower upper : Option Key) : Except (Refusal I) Key :=
  (keyBetween lower upper).mapError .key

/-- A record written under its id, over what is there. -/
def add (c : Container I D) (id : I) (rest : D) (w : Where I) : Except (Refusal I) (Container I D) := do
  let (lower, upper) ← bounds c w (some id)
  let key ← between lower upper
  .ok (some ((c.getD .empty).set id (.record (some key) rest)))

/-- A position written on a record. -/
def write (c : Container I D) (e : I × Key) : Container I D :=
  match find c e.1 with
  | none => c
  | some (_, rest) => c.map (·.set e.1 (.record (some e.2) rest))

/-- Whether the record is there, and the positions written. -/
structure Moved (I : Type) where
  found : Bool
  writes : List (I × Key)

def move (c : Container I D) (id : I) (w : Where I) : Except (Refusal I) (Moved I) :=
  match find c id with
  | none => .ok ⟨false, []⟩
  | some (current, _) => do
    let (lower, upper) ← bounds c w (some id)
    -- already there: nothing to write
    if current.any fun key => lower.all (· < key) && upper.all (key < ·) then .ok ⟨true, []⟩
    else
      let key ← between lower upper
      .ok ⟨true, [(id, key)]⟩

/-- The ids given that have records, each once. -/
def listed (c : Container I D) (given : List I) : List I :=
  given.foldl (fun seen id => if id ∉ seen ∧ (find c id).isSome then seen ++ [id] else seen) []

/-- The ids given, then the rest in the order they are in. -/
def wanted (c : Container I D) (given : List I) : List I :=
  if (records c).length = (listed c given).length then listed c given
  else listed c given ++ (ids c).filter (· ∉ listed c given)

/-- A record in the order asked for, with its key and whether it keeps it. -/
structure Row (I : Type) where
  id : I
  key : Option Key
  kept : Bool

def rows (c : Container I D) (order : List I) : List (Row I) :=
  let keep := longestIncreasing (order.map (keyOf c))
  order.zipIdx.map fun e => ⟨e.1, keyOf c e.1, keep.contains e.2⟩

/-- The key of the next record that keeps its own. -/
def nextKept : List (Row I) → Option Key
  | [] => none
  | row :: rows => if row.kept then row.key else nextKept rows

/-- The positions written on the way, and what was thrown. -/
structure Respaced (I : Type) where
  writes : List (I × Key)
  thrown : Option Fault

/-- Each record that keeps no key gets one between the last and the next that is kept. -/
def respace (lower : Option Key) : List (Row I) → Respaced I
  | [] => ⟨[], none⟩
  | row :: rows =>
    if row.kept then respace row.key rows
    else match keyBetween lower (nextKept rows) with
      | .error fault => ⟨[], some fault⟩
      | .ok key =>
        let rest := respace (some key) rows
        ⟨(row.id, key) :: rest.writes, rest.thrown⟩

def reconcile (c : Container I D) (given : List I) : Respaced I := respace none (rows c (wanted c given))

def writeAll (c : Container I D) (writes : List (I × Key)) : Container I D := writes.foldl write c

end LazyStorage.Client.RecordList
