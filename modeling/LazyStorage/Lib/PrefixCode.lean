import Mathlib.Data.List.Infix
import Mathlib.Logic.Function.Basic

/-! # Codes whose words tell where they end

A code separates its words when text that starts with one tells which it is and what
follows it. A sequence of words that ends in a mark none of them starts with is such a
word again, and of two sequences whose words all start alike one continues the other
where, and only where, its text does.
-/
namespace LazyStorage.Lib

variable {α β γ : Type*}

/-- Text that starts with a word tells the word, and what follows. -/
def Separates (f : α → List β) : Prop := ∀ a b r s, f a ++ r = f b ++ s → a = b ∧ r = s

namespace Separates

variable {f : α → List β}

theorem injective (hf : Separates f) : Function.Injective f := fun a b h =>
  (hf a b [] [] (by rw [h])).1

theorem append_prefix_iff (hf : Separates f) {a b : α} {r s : List β} :
    f a ++ r <+: f b ++ s ↔ a = b ∧ r <+: s := by
  constructor
  · rintro ⟨t, ht⟩
    rw [List.append_assoc] at ht
    obtain ⟨hab, hrest⟩ := hf a b _ _ ht
    exact ⟨hab, t, hrest⟩
  · rintro ⟨rfl, h⟩
    exact (List.prefix_append_right_inj _).mpr h

theorem comp (hf : Separates f) {g : γ → α} (hg : Function.Injective g) : Separates fun c => f (g c) :=
  fun _ _ r s h => ⟨hg (hf _ _ r s h).1, (hf _ _ r s h).2⟩

/-- Words that all start with one mark. -/
theorem cons (hf : Separates f) (x : β) : Separates fun a => x :: f a :=
  fun _ _ _ _ h => hf _ _ _ _ (List.cons.inj h).2

/-- Words in a row, up to a mark that none of them starts with. -/
theorem terminated (hf : Separates f) {x : β} (hx : ∀ a, ∃ y w, f a = y :: w ∧ y ≠ x) :
    Separates fun as : List α => as.flatMap f ++ [x] := by
  have hmark : ∀ a r s, f a ++ r ≠ x :: s := by
    intro a r s h
    obtain ⟨y, w, hword, hne⟩ := hx a
    rw [hword] at h
    exact hne (List.cons.inj h).1
  have hcons : ∀ a as r, (a :: as).flatMap f ++ [x] ++ r = f a ++ (as.flatMap f ++ [x] ++ r) := by
    simp
  intro as
  induction as with
  | nil =>
    intro bs r s h
    cases bs with
    | nil => exact ⟨rfl, by simpa using h⟩
    | cons b bs => exact absurd (h.trans (hcons b bs s)).symm (hmark b _ r)
  | cons a as ih =>
    intro bs r s h
    have h := (hcons a as r).symm.trans h
    cases bs with
    | nil => exact absurd h (hmark a _ s)
    | cons b bs =>
      obtain ⟨rfl, hrest⟩ := hf a b _ _ (h.trans (hcons b bs s))
      obtain ⟨rfl, hend⟩ := ih bs r s hrest
      exact ⟨rfl, hend⟩

/-- Words in a row, none of them empty. -/
theorem flatMap_injective (hf : Separates f) (hne : ∀ a, f a ≠ []) :
    Function.Injective fun as : List α => as.flatMap f := by
  intro as
  induction as with
  | nil =>
    intro bs h
    cases bs with
    | nil => rfl
    | cons b bs => exact absurd (List.append_eq_nil_iff.mp h.symm).1 (hne b)
  | cons a as ih =>
    intro bs h
    cases bs with
    | nil => exact absurd (List.append_eq_nil_iff.mp h).1 (hne a)
    | cons b bs =>
      obtain ⟨rfl, hrest⟩ := hf a b _ _ h
      rw [ih hrest]

/-- Where every word starts with `x`, the text of some words and one more `x` starts the text of others,
ended by another mark, where these are the same words and more. -/
theorem open_prefix_iff (hf : Separates f) {x y : β} (hxy : x ≠ y) (hx : ∀ a, ∃ w, f a = x :: w)
    {as bs : List α} : as.flatMap f ++ [x] <+: bs.flatMap f ++ [y] ↔ as <+: bs ∧ as ≠ bs := by
  induction as generalizing bs with
  | nil =>
    cases bs with
    | nil => simp [hxy]
    | cons b bs =>
      obtain ⟨w, hw⟩ := hx b
      simp [hw]
  | cons a as ih =>
    cases bs with
    | nil =>
      obtain ⟨w, hw⟩ := hx a
      simp [hw, hxy]
    | cons b bs =>
      rw [List.flatMap_cons, List.flatMap_cons, List.append_assoc, List.append_assoc,
        hf.append_prefix_iff, ih, List.cons_prefix_cons, and_assoc]
      refine and_congr_right fun hab => and_congr_right fun _ => ?_
      simp [hab]

end Separates

end LazyStorage.Lib
