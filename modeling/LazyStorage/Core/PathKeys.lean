import LazyStorage.Core.RecordClock
import LazyStorage.Lib.PrefixCode

/-! # Path keys as text

A path's key is its JSON text, and whether a key is beneath a path is read off the
text: it starts with the path's key, a comma in the place of the closing bracket.
Strings are their UTF-16 code units, lone surrogates among them.
-/
namespace LazyStorage.Core

open Lib

abbrev CodeUnit := UInt16

/-- A string of JavaScript. -/
abbrev Text := List CodeUnit

namespace Text

def isHigh (u : CodeUnit) : Bool := 0xD800 ≤ u && u ≤ 0xDBFF

def isLow (u : CodeUnit) : Bool := 0xDC00 ≤ u && u ≤ 0xDFFF

/-- A code point of a string: a pair of surrogates, or a unit by itself. -/
inductive CodePoint
  | unit (u : CodeUnit)
  | pair (hi lo : CodeUnit) (paired : (isHigh hi && isLow lo) = true)

def codePoints : Text → List CodePoint
  | [] => []
  | [u] => [.unit u]
  | u :: w :: rest =>
    if h : (isHigh u && isLow w) = true then .pair u w h :: codePoints rest
    else .unit u :: codePoints (w :: rest)

namespace CodePoint

def units : CodePoint → Text
  | unit u => [u]
  | pair hi lo _ => [hi, lo]

end CodePoint

/-- The code units with an escape of two characters: `\b \t \n \f \r \" \\`. -/
def shortEscapes : List (CodeUnit × CodeUnit) :=
  [(8, 98), (9, 116), (10, 110), (12, 102), (13, 114), (34, 34), (92, 92)]

def hexDigit (n : ℕ) : CodeUnit := if n < 10 then .ofNat (48 + n) else .ofNat (87 + n)

/-- Four hexadecimal digits, in lower case. -/
def hex (u : CodeUnit) : Text :=
  [hexDigit (u.toNat / 4096), hexDigit (u.toNat / 256 % 16), hexDigit (u.toNat / 16 % 16),
    hexDigit (u.toNat % 16)]

/-- A code point inside a JSON string: escaped where it is a quote, a backslash, a control character
or a lone surrogate. -/
def quoteOne : CodePoint → Text
  | .unit u =>
    match Assoc.get shortEscapes u with
    | some letter => [92, letter]
    | none => if u < 32 || isHigh u || isLow u then 92 :: 117 :: hex u else [u]
  | .pair hi lo _ => [hi, lo]

/-- `JSON.stringify` of a string. -/
def quote (s : Text) : Text := 34 :: ((codePoints s).flatMap quoteOne ++ [34])

end Text

open Text

/-- `JSON.stringify` of a path. -/
def pathKey (path : List Text) : Text := [91] ++ [44].intercalate (path.map quote) ++ [93]

/-- The test `beneath` builds: the path's key worked out once. -/
def beneathKey (path : List Text) (inclusive : Bool) : Text → Bool :=
  if path.isEmpty then fun key => inclusive || key ≠ pathKey []
  else
    let own := pathKey path
    let start := own.dropLast ++ [44]
    fun key => (inclusive && key = own) || start.isPrefixOf key

namespace Text

/-- Read back, a string's code points are its units. -/
theorem units_codePoints (s : Text) : (codePoints s).flatMap CodePoint.units = s := by
  induction s using codePoints.induct with
  | case1 => rfl
  | case2 u => rfl
  | case3 u w rest h ih => rw [codePoints, dif_pos h, List.flatMap_cons, ih]; rfl
  | case4 u w rest h ih => rw [codePoints, dif_neg h, List.flatMap_cons, ih]; rfl

theorem codePoints_injective : Function.Injective codePoints := fun a b h => by
  rw [← units_codePoints a, h, units_codePoints]

theorem hexDigit_injective : ∀ a < 16, ∀ b < 16, hexDigit a = hexDigit b → a = b := by decide

theorem hex_injective {u v : CodeUnit} (h : hex u = hex v) : u = v := by
  simp only [hex, List.cons.injEq, and_true] at h
  have hu := u.toNat_lt
  have hv := v.toNat_lt
  have h₁ := hexDigit_injective _ (by omega) _ (by omega) h.1
  have h₂ := hexDigit_injective _ (by omega) _ (by omega) h.2.1
  have h₃ := hexDigit_injective _ (by omega) _ (by omega) h.2.2.1
  have h₄ := hexDigit_injective _ (by omega) _ (by omega) h.2.2.2
  exact UInt16.toNat_inj.mp (by omega)

theorem letter_injective : ∀ e ∈ shortEscapes, ∀ e' ∈ shortEscapes, e.2 = e'.2 → e = e' := by
  simp [shortEscapes]

/-- How a code point is written: by a letter, by its digits, or as it is. -/
inductive Quoted : CodePoint → Text → Prop
  | letter {u l : CodeUnit} (short : (u, l) ∈ shortEscapes) : Quoted (.unit u) [92, l]
  | digits (u : CodeUnit) : Quoted (.unit u) (92 :: 117 :: hex u)
  | plain {u : CodeUnit} (quote : u ≠ 34) (backslash : u ≠ 92) (high : isHigh u = false) :
      Quoted (.unit u) [u]
  | pair {hi lo : CodeUnit} (paired : (isHigh hi && isLow lo) = true) :
      Quoted (.pair hi lo paired) [hi, lo]

theorem quoted (c : CodePoint) : Quoted c (quoteOne c) := by
  cases c with
  | pair hi lo h => exact .pair h
  | unit u =>
    rw [quoteOne]
    cases hget : Assoc.get shortEscapes u with
    | some l => exact .letter (Assoc.mem_of_get hget)
    | none =>
      have hnot := Assoc.get_eq_none_iff.mp hget
      dsimp only
      split_ifs with hesc
      · exact .digits u
      · simp only [Bool.or_eq_true, not_or, Bool.not_eq_true] at hesc
        refine .plain ?_ ?_ hesc.1.2
        · rintro rfl
          exact hnot (by decide)
        · rintro rfl
          exact hnot (by decide)

/-- An escape starts with a backslash, and its second character says which kind it is. -/
theorem letter_ne_u : ∀ e ∈ shortEscapes, e.2 ≠ 117 := by
  simp [shortEscapes]

theorem ne_of_high {u v : CodeUnit} (hu : isHigh u = true) (hv : isHigh v = false) : u ≠ v := fun h => by
  rw [h, hv] at hu
  cases hu

theorem separates_quoteOne : Separates quoteOne := by
  intro a b r s h
  have ha := quoted a
  have hb := quoted b
  revert h ha hb
  generalize quoteOne a = x, quoteOne b = y
  intro h ha hb
  have hpaired : ∀ {hi lo : CodeUnit}, (isHigh hi && isLow lo) = true → isHigh hi = true :=
    fun h => (Bool.and_eq_true_iff.mp h).1
  have hback : ∀ {hi lo : CodeUnit}, (isHigh hi && isLow lo) = true → hi ≠ 92 := fun h =>
    ne_of_high (hpaired h) (by decide)
  cases ha with
  | @letter u l hu =>
    cases hb with
    | @letter v m hv =>
      simp only [List.cons_append, List.nil_append, List.cons.injEq, true_and] at h
      obtain ⟨rfl, -⟩ := Prod.mk.inj (letter_injective _ hu _ hv h.1)
      exact ⟨rfl, h.2⟩
    | digits v => exact absurd (List.cons.inj (List.cons.inj h).2).1 (letter_ne_u _ hu)
    | plain _ hv => exact absurd (List.cons.inj h).1.symm hv
    | pair hv => exact absurd (List.cons.inj h).1.symm (hback hv)
  | digits u =>
    cases hb with
    | letter hv => exact absurd (List.cons.inj (List.cons.inj h).2).1.symm (letter_ne_u _ hv)
    | digits v =>
      obtain ⟨heq, hrest⟩ := List.append_inj (List.cons.inj (List.cons.inj h).2).2 rfl
      rw [hex_injective heq]
      exact ⟨rfl, hrest⟩
    | plain _ hv => exact absurd (List.cons.inj h).1.symm hv
    | pair hv => exact absurd (List.cons.inj h).1.symm (hback hv)
  | plain _ hu hlow =>
    cases hb with
    | letter => exact absurd (List.cons.inj h).1 hu
    | digits => exact absurd (List.cons.inj h).1 hu
    | plain =>
      obtain ⟨rfl, hrest⟩ := List.cons.inj h
      exact ⟨rfl, hrest⟩
    | pair hv => exact absurd (List.cons.inj h).1.symm (ne_of_high (hpaired hv) hlow)
  | pair hu =>
    cases hb with
    | letter => exact absurd (List.cons.inj h).1 (hback hu)
    | digits => exact absurd (List.cons.inj h).1 (hback hu)
    | plain _ _ hlow => exact absurd (List.cons.inj h).1 (ne_of_high (hpaired hu) hlow)
    | pair =>
      simp only [List.cons_append, List.nil_append, List.cons.injEq] at h
      obtain ⟨rfl, rfl, hrest⟩ := h
      exact ⟨rfl, hrest⟩

/-- A code point inside a string is not written with a quote first. -/
theorem quoteOne_start (c : CodePoint) : ∃ u w, quoteOne c = u :: w ∧ u ≠ 34 := by
  have hc := quoted c
  revert hc
  generalize quoteOne c = x
  intro hc
  cases hc with
  | letter => exact ⟨_, _, rfl, by decide⟩
  | digits => exact ⟨_, _, rfl, by decide⟩
  | plain hquote => exact ⟨_, _, rfl, hquote⟩
  | pair h => exact ⟨_, _, rfl, ne_of_high (Bool.and_eq_true_iff.mp h).1 (by decide)⟩

/-- A string's JSON text tells the string, and where it ends. -/
theorem separates_quote : Separates quote :=
  ((separates_quoteOne.terminated quoteOne_start).comp codePoints_injective).cons 34

end Text

/-- A segment as it stands in a key after another. -/
def nextSegment (s : Text) : Text := 44 :: quote s

theorem separates_nextSegment : Separates nextSegment := separates_quote.cons 44

theorem nextSegment_start (s : Text) : ∃ w, nextSegment s = 44 :: w := ⟨_, rfl⟩

theorem pathKey_cons (s : Text) (path : List Text) :
    pathKey (s :: path) = 91 :: (quote s ++ (path.flatMap nextSegment ++ [93])) := by
  have hrest : ∀ (s : Text) (path : List Text), [44].intercalate ((s :: path).map quote) =
      quote s ++ path.flatMap nextSegment := by
    intro s path
    induction path generalizing s with
    | nil => simp [List.intercalate]
    | cons s' path ih =>
      rw [List.map_cons, List.map_cons, List.intercalate_cons_cons, ← List.map_cons, ih]
      simp [nextSegment]
  rw [pathKey, hrest]
  simp

theorem separates_rest : Separates fun path : List Text => path.flatMap nextSegment ++ [93] :=
  separates_nextSegment.terminated fun s => ⟨_, _, rfl, by decide⟩

theorem pathKey_injective : Function.Injective pathKey := by
  intro p q h
  cases p with
  | nil =>
    cases q with
    | nil => rfl
    | cons s q =>
      rw [pathKey_cons] at h
      exact absurd (List.cons.inj (List.cons.inj h).2).1 (by decide)
  | cons s p =>
    cases q with
    | nil =>
      rw [pathKey_cons] at h
      exact absurd (List.cons.inj (List.cons.inj h).2).1 (by decide)
    | cons s' q =>
      rw [pathKey_cons, pathKey_cons] at h
      obtain ⟨rfl, hrest⟩ := separates_quote _ _ _ _ (List.cons.inj h).2
      rw [separates_rest.injective hrest]

/-- A key starts with a path's own, but for a comma in the place of its bracket, where its path goes on. -/
theorem start_prefix_iff {s : Text} {p q : List Text} :
    (pathKey (s :: p)).dropLast ++ [44] <+: pathKey q ↔ s :: p <+: q ∧ s :: p ≠ q := by
  have hstart : (pathKey (s :: p)).dropLast ++ [44] = 91 :: (quote s ++ (p.flatMap nextSegment ++ [44])) := by
    rw [pathKey_cons, ← List.append_assoc, ← List.cons_append, List.dropLast_concat]
    simp
  rw [hstart]
  cases q with
  | nil =>
    have hnil : pathKey [] = [91, 93] := rfl
    rw [hnil]
    simp [quote]
  | cons s' q =>
    rw [pathKey_cons, List.cons_prefix_cons, separates_quote.append_prefix_iff,
      separates_nextSegment.open_prefix_iff (by decide) nextSegment_start, List.cons_prefix_cons, and_assoc]
    refine ⟨fun ⟨_, hs, hle, hne⟩ => ⟨hs, hle, fun h => hne (List.cons.inj h).2⟩, fun ⟨hs, hle, hne⟩ => ?_⟩
    exact ⟨rfl, hs, hle, fun h => hne (by rw [hs, h])⟩

/-- A key is at or beneath a path's where its path is, and at it only where that is meant. -/
theorem beneathKey_iff (p q : List Text) (inclusive : Bool) : beneathKey p inclusive (pathKey q) = true ↔
    (p <+: q ∧ p ≠ q) ∨ (p = q ∧ inclusive = true) := by
  cases p with
  | nil =>
    have hroot : pathKey q = pathKey [] ↔ [] = q := pathKey_injective.eq_iff.trans eq_comm
    simp only [beneathKey, List.isEmpty_nil, if_true, Bool.or_eq_true, decide_eq_true_eq, ne_eq, hroot,
      List.nil_prefix, true_and]
    by_cases hq : [] = q <;> simp [hq]
  | cons s p =>
    have hown : pathKey q = pathKey (s :: p) ↔ s :: p = q := pathKey_injective.eq_iff.trans eq_comm
    simp only [beneathKey, List.isEmpty_cons, Bool.false_eq_true, if_false, Bool.or_eq_true, Bool.and_eq_true,
      decide_eq_true_eq, hown, List.isPrefixOf_iff_prefix, start_prefix_iff]
    rw [or_comm, and_comm (b := s :: p = q)]

/-- Path keys tell ancestry: no two paths have one key, and the test built for a path takes the keys of
those strictly beneath it, its own where it is meant, and no others. -/
theorem path_keys_tell_ancestry : Function.Injective pathKey ∧ ∀ (p q : List Text) (inclusive : Bool),
    beneathKey p inclusive (pathKey q) = true ↔ (p <+: q ∧ p ≠ q) ∨ (p = q ∧ inclusive = true) :=
  ⟨pathKey_injective, beneathKey_iff⟩

/-! ## The paths of the model -/

/-- The code units of a character. -/
def charUnits (c : Char) : Text :=
  let v := c.toNat
  if v < 0x10000 then [.ofNat v]
  else [.ofNat (0xD800 + (v - 0x10000) / 0x400), .ofNat (0xDC00 + (v - 0x10000) % 0x400)]

/-- A string as JavaScript has it. -/
def utf16 (s : String) : Text := s.toList.flatMap charUnits

example : pathKey [utf16 "a,\"b", []] = utf16 "[\"a,\\\"b\",\"\"]" := by decide +kernel

theorem ofNat_inj {m n : ℕ} (hm : m < 65536) (hn : n < 65536) (h : UInt16.ofNat m = UInt16.ofNat n) : m = n := by
  have h := congrArg UInt16.toNat h
  rwa [UInt16.toNat_ofNat', UInt16.toNat_ofNat', Nat.mod_eq_of_lt hm, Nat.mod_eq_of_lt hn] at h

/-- A character's first unit is a surrogate where there are two. -/
theorem separates_charUnits : Separates charUnits := by
  intro a b r s h
  have ha : a.toNat < 0xD800 ∨ 0xDFFF < a.toNat ∧ a.toNat < 0x110000 := a.valid
  have hb : b.toNat < 0xD800 ∨ 0xDFFF < b.toNat ∧ b.toNat < 0x110000 := b.valid
  have heq : a.toNat = b.toNat → a = b := Char.toNat_inj.mp
  simp only [charUnits] at h
  split_ifs at h with hsmall hsmall' hsmall'
  · obtain ⟨hunit, hrest⟩ := List.cons.inj h
    exact ⟨heq (ofNat_inj (by omega) (by omega) hunit), hrest⟩
  · have hunit := ofNat_inj (by omega) (by omega) (List.cons.inj h).1
    omega
  · have hunit := ofNat_inj (by omega) (by omega) (List.cons.inj h).1
    omega
  · obtain ⟨hhi, h⟩ := List.cons.inj h
    obtain ⟨hlo, hrest⟩ := List.cons.inj h
    have hhi := ofNat_inj (by omega) (by omega) hhi
    have hlo := ofNat_inj (by omega) (by omega) hlo
    exact ⟨heq (by omega), hrest⟩

theorem utf16_injective : Function.Injective utf16 := by
  have hflat := separates_charUnits.flatMap_injective fun c => by
    unfold charUnits
    dsimp only
    split_ifs <;> simp
  exact fun a b h => String.toList_inj.mp (hflat h)

/-- What the text of a key says of ancestry is what clocks here read off the path itself. -/
theorem beneathKey_pathKey (path key : Path) (inclusive : Bool) :
    beneathKey (path.map utf16) inclusive (pathKey (key.map utf16)) = beneath path inclusive key := by
  have hmap : Function.Injective (List.map utf16) := List.map_injective_iff.mpr utf16_injective
  have hprefix : path.map utf16 <+: key.map utf16 ↔ path <+: key := by
    refine ⟨fun h => ?_, fun h => h.map utf16⟩
    obtain ⟨p, hp, heq⟩ := List.prefix_map_iff.mp h
    exact hmap heq ▸ hp
  rw [Bool.eq_iff_iff, beneathKey_iff, hprefix, ne_eq, hmap.eq_iff]
  simp only [beneath, Bool.and_eq_true, List.isPrefixOf_iff_prefix, Bool.or_eq_true, decide_eq_true_eq]
  by_cases heq : path = key
  · simp [heq]
  · simp [heq, Ne.symm heq]

end LazyStorage.Core
