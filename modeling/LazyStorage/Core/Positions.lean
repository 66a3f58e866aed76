import Mathlib.Data.Char
import Mathlib.Data.List.GetD
import Mathlib.Data.List.Lex

/-! # Position keys

A record in a list carries a position key, a string over the digits 0-9A-Za-z: an
integer part, whose first character says its length and sign, and an optional
fraction, which never ends in `0`. A string is the list of its characters here, and
its order the order of lists.
-/
namespace LazyStorage.Core

abbrev Key := List Char

-- what holds of the characters of a string is decided along the string, not over all characters there are
instance (priority := 2000) decidableForallMem (p : Char → Prop) [DecidablePred p] (l : List Char) : Decidable (∀ c ∈ l, p c) :=
  List.decidableBAll p l

def DIGITS : List Char :=
  ['0', '1', '2', '3', '4', '5', '6', '7', '8', '9', 'A', 'B', 'C', 'D', 'E', 'F',
   'G', 'H', 'I', 'J', 'K', 'L', 'M', 'N', 'O', 'P', 'Q', 'R', 'S', 'T', 'U', 'V',
   'W', 'X', 'Y', 'Z', 'a', 'b', 'c', 'd', 'e', 'f', 'g', 'h', 'i', 'j', 'k', 'l',
   'm', 'n', 'o', 'p', 'q', 'r', 's', 't', 'u', 'v', 'w', 'x', 'y', 'z']

def BASE : ℕ := DIGITS.length

def SMALLEST_INTEGER : Key := 'A' :: List.replicate 26 '0'

def ZERO : Key := ['a', '0']

/-- The digit of an index. -/
def digit (i : ℕ) : Char := DIGITS.getD i '0'

/-- What is thrown. -/
inductive Fault
  | empty
  | notDigit
  | cannotStart
  | cutShort
  | endsInZero
  | belowRange
  | notBelow
  | noneBelow
  | noneAbove
deriving DecidableEq

def integerLength (head : Char) : Except Fault ℕ :=
  if 'a' ≤ head ∧ head ≤ 'z' then .ok (head.toNat - 'a'.toNat + 2)
  else if 'A' ≤ head ∧ head ≤ 'Z' then .ok ('Z'.toNat - head.toNat + 2)
  else .error .cannotStart

def integerPart (key : Key) : Except Fault Key :=
  match key with
  | [] => .error .cannotStart
  | head :: _ => do
    let length ← integerLength head
    if length > key.length then .error .cutShort else .ok (key.take length)

def assertKey (key : Key) : Except Fault Unit :=
  if key = [] then .error .empty
  else if ¬ ∀ ch ∈ key, ch ∈ DIGITS then .error .notDigit
  else do
    let integer ← integerPart key
    let fraction := key.drop integer.length
    if fraction.getLast? = some '0' then .error .endsInZero
    else if integer = SMALLEST_INTEGER ∧ fraction = [] then .error .belowRange
    else .ok ()

/-- Whether a key is well formed. -/
def isPositionKey (key : Key) : Prop := assertKey key = .ok ()

instance (key : Key) : Decidable (isPositionKey key) := inferInstanceAs (Decidable (assertKey key = .ok ()))

/-- One more, from the last digit on, with whether it is carried past the first. -/
def carryUp : List Char → List Char × Bool
  | [] => ([], true)
  | c :: digits =>
    match carryUp digits with
    | (up, false) => (c :: up, false)
    | (up, true) =>
      let d := DIGITS.idxOf c + 1
      if d = BASE then ('0' :: up, true) else (digit d :: up, false)

def incrementInteger : Key → Option Key
  | [] => none
  | head :: digits =>
    match carryUp digits with
    | (up, false) => some (head :: up)
    | (up, true) =>
      if head = 'Z' then some ZERO
      else if head = 'z' then none
      else
        let next := Char.ofNat (head.toNat + 1)
        -- a longer positive integer gains a digit; a shorter negative one loses one
        some (if 'a' < next then next :: (up ++ ['0']) else next :: up.drop 1)

/-- One less, from the last digit on, with whether it is borrowed past the first. -/
def borrowDown : List Char → List Char × Bool
  | [] => ([], true)
  | c :: digits =>
    match borrowDown digits with
    | (down, false) => (c :: down, false)
    | (down, true) =>
      if DIGITS.idxOf c = 0 then (digit (BASE - 1) :: down, true)
      else (digit (DIGITS.idxOf c - 1) :: down, false)

def decrementInteger : Key → Option Key
  | [] => none
  | head :: digits =>
    match borrowDown digits with
    | (down, false) => some (head :: down)
    | (down, true) =>
      if head = 'a' then some ['Z', 'z']
      else if head = 'A' then none
      else
        let prev := Char.ofNat (head.toNat - 1)
        some (if prev < 'Z' then prev :: (down ++ ['z']) else prev :: down.drop 1)

/-- How many digits two fractions share, the first of them followed by zeros. -/
def shared : Key → Key → ℕ
  | _, [] => 0
  | [], y :: b => if '0' = y then shared [] b + 1 else 0
  | x :: a, y :: b => if x = y then shared a b + 1 else 0

def firstDigit (a : Key) (otherwise : ℕ) : ℕ :=
  match a with
  | [] => otherwise
  | c :: _ => DIGITS.idxOf c

/-- A fraction strictly between two, the second with none for no bound. -/
def midpoint (a b : Key) : Except Fault Key :=
  if b ≠ [] ∧ ¬ a < b then .error .notBelow
  else if 0 < shared a b then
    (midpoint (a.drop (shared a b)) (b.drop (shared a b))).map (b.take (shared a b) ++ ·)
  else if firstDigit a 0 + 1 < firstDigit b BASE then
    .ok [digit ((firstDigit a 0 + firstDigit b BASE + 1) / 2)]
  else if 1 < b.length then .ok (b.take 1)
  else (midpoint (a.drop 1) []).map (digit (firstDigit a 0) :: ·)
termination_by (b.length, a.length)
decreasing_by
  · have hb : b ≠ [] := by
      rintro rfl
      rename_i h
      simp [shared] at h
    have := List.length_pos_of_ne_nil hb
    rw [Prod.lex_def, List.length_drop]
    left
    dsimp only
    omega
  · rename_i hthrow hshared hwide hlong
    rw [Prod.lex_def]
    cases b with
    | cons y b =>
      left
      exact Nat.succ_pos _
    | nil =>
      -- with no bound above, only a digit next to the last goes on
      cases a with
      | nil => exact absurd (by decide) hwide
      | cons x a => exact .inr ⟨rfl, Nat.lt_succ_self _⟩

/-- A key strictly between two, none for no bound. -/
def keyBetween (a b : Option Key) : Except Fault Key := do
  a.elim (.ok ()) assertKey
  b.elim (.ok ()) assertKey
  match a, b with
  | none, none => .ok ZERO
  | none, some b =>
    let ib ← integerPart b
    let fb := b.drop ib.length
    if ib = SMALLEST_INTEGER then (midpoint [] fb).map (ib ++ ·)
    else if ib < b then .ok ib
    else match decrementInteger ib with
      | none => .error .noneBelow
      | some below => .ok below
  | some a, none =>
    let ia ← integerPart a
    let fa := a.drop ia.length
    match incrementInteger ia with
    | none => (midpoint fa []).map (ia ++ ·)
    | some above => .ok above
  | some a, some b =>
    if ¬ a < b then .error .notBelow else
    let ia ← integerPart a
    let fa := a.drop ia.length
    let ib ← integerPart b
    let fb := b.drop ib.length
    if ia = ib then (midpoint fa fb).map (ia ++ ·)
    else match incrementInteger ia with
      | none => .error .noneAbove
      | some above => if above < b then .ok above else (midpoint fa []).map (ia ++ ·)

/-- Keys counted up after one. -/
def keysAfter (a : Option Key) : ℕ → Except Fault (List Key)
  | 0 => .ok []
  | n + 1 => do
    let key ← keyBetween a none
    let keys ← keysAfter (some key) n
    .ok (key :: keys)

/-- Keys counted down before one, the last first. -/
def keysBefore (b : Option Key) : ℕ → Except Fault (List Key)
  | 0 => .ok []
  | n + 1 => do
    let key ← keyBetween none b
    let keys ← keysBefore (some key) n
    .ok (key :: keys)

/-- So many keys in order, all strictly between two: counted up or down at an open end, bisected between
bounds. -/
def keysBetween (a b : Option Key) (n : ℕ) : Except Fault (List Key) :=
  match n with
  | 0 => .ok []
  | 1 => do
    let key ← keyBetween a b
    .ok [key]
  | n + 2 =>
    match a, b with
    | a, none => keysAfter a (n + 2)
    | none, some b => (keysBefore (some b) (n + 2)).map List.reverse
    | some a, some b => do
      let half := (n + 2) / 2
      let middle ← keyBetween (some a) (some b)
      let low ← keysBetween (some a) (some middle) half
      let high ← keysBetween (some middle) (some b) (n + 2 - half - 1)
      .ok (low ++ middle :: high)
termination_by n

/-- The order of two records: by position key, a missing key last, ties by id. -/
def comparePositions {I : Type} [LinearOrder I] (keyA : Option Key) (idA : I) (keyB : Option Key) (idB : I) :
    Ordering :=
  match keyA, keyB with
  | some a, some b => if a < b then .lt else if b < a then .gt else compare idA idB
  | some _, none => .lt
  | none, some _ => .gt
  | none, none => compare idA idB

example : keyBetween (some "az".toList) none = .ok "b00".toList := by decide +kernel

end LazyStorage.Core
