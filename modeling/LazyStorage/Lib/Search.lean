import Mathlib.Data.List.Basic
import Mathlib.Logic.Relation

/-! # Depth-first search with a seen list

`visit` walks a successor function from a node, leaving out what it has seen,
as a recursion with a shared `seen` set does. With fuel for every node there
is, what it has seen at the end is exactly what can be reached.
-/
namespace LazyStorage.Lib.Search

variable {α : Type*} [DecidableEq α] (succ : α → List α)

/-- The nodes seen, in order, after walking everything beneath `x` not seen yet. -/
def visit : ℕ → List α → α → List α
  | 0, seen, _ => seen
  | n + 1, seen, x => if x ∈ seen then seen else (succ x).foldl (visit n) (seen ++ [x])

/-- The same from several nodes, one after the other. -/
def visitAll (n : ℕ) (xs : List α) : List α := xs.foldl (visit succ n) []

/-- `y` lies at or beneath `x`. -/
abbrev Beneath (x y : α) : Prop := Relation.ReflTransGen (fun a b => b ∈ succ a) x y

/-- How many of the nodes of `U` are still unseen: what the fuel has to cover. -/
def unseen (U seen : List α) : ℕ := (U.filter (· ∉ seen)).length

theorem unseen_mono (U : List α) {s t : List α} (h : s ⊆ t) : unseen U t ≤ unseen U s := by
  apply List.Sublist.length_le
  apply List.monotone_filter_right
  intro a ha
  simp only [decide_eq_true_eq] at ha ⊢
  exact fun hs => ha (h hs)

theorem unseen_append_lt {U seen : List α} {x : α} (hx : x ∈ U) (hs : x ∉ seen) :
    unseen U (seen ++ [x]) < unseen U seen := by
  have hsplit : U.filter (· ∉ seen ++ [x]) = (U.filter (· ∉ seen)).filter (· ≠ x) := by
    rw [List.filter_filter]
    apply List.filter_congr
    intro a _
    by_cases h1 : a ∈ seen <;> by_cases h2 : a = x <;> simp [h1, h2]
  rw [unseen, hsplit]
  exact List.length_filter_lt_length_iff_exists.mpr
    ⟨x, List.mem_filter.mpr ⟨hx, by simpa using hs⟩, by simp⟩

/-- What a walk must leave behind: nothing forgotten, and everything new closed under `succ`. -/
structure Closes (seen out : List α) : Prop where
  mono : seen ⊆ out
  closed : ∀ y ∈ out, y ∉ seen → ∀ z ∈ succ y, z ∈ out

omit [DecidableEq α] in
theorem Closes.refl (seen : List α) : Closes succ seen seen :=
  ⟨fun _ h => h, fun _ h h' => absurd h h'⟩

variable {succ}

theorem Closes.trans {s t u : List α} (h₁ : Closes succ s t) (h₂ : Closes succ t u) :
    Closes succ s u := by
  refine ⟨fun _ h => h₂.mono (h₁.mono h), fun y hy hs z hz => ?_⟩
  by_cases ht : y ∈ t
  · exact h₂.mono (h₁.closed y ht hs z hz)
  · exact h₂.closed y hy ht z hz

/-- A fold of walks over nodes of `U` closes, and sees each of them. -/
theorem closes_foldl {U : List α} {n : ℕ}
    (ih : ∀ seen x, x ∈ U → unseen U seen ≤ n →
      Closes succ seen (visit succ n seen x) ∧ x ∈ visit succ n seen x)
    {xs : List α} (hU : ∀ x ∈ xs, x ∈ U) {seen : List α} (hn : unseen U seen ≤ n) :
    Closes succ seen (xs.foldl (visit succ n) seen) ∧
      ∀ x ∈ xs, x ∈ xs.foldl (visit succ n) seen := by
  induction xs generalizing seen with
  | nil => exact ⟨Closes.refl succ seen, by simp⟩
  | cons x xs ihx =>
    obtain ⟨hc, hx⟩ := ih seen x (hU x (by simp)) hn
    have hn' := Nat.le_trans (unseen_mono U hc.mono) hn
    obtain ⟨hc', hxs⟩ := ihx (fun y hy => hU y (by simp [hy])) hn'
    refine ⟨hc.trans hc', fun y hy => ?_⟩
    rcases List.mem_cons.mp hy with rfl | hy
    · exact hc'.mono hx
    · exact hxs y hy

/-- With fuel for every unseen node, a walk closes what it adds. -/
theorem closes_visit {U : List α} (hU : ∀ x ∈ U, ∀ y ∈ succ x, y ∈ U) (n : ℕ) :
    ∀ seen x, x ∈ U → unseen U seen ≤ n →
      Closes succ seen (visit succ n seen x) ∧ x ∈ visit succ n seen x := by
  induction n with
  | zero =>
    intro seen x hx hn
    have hs : x ∈ seen := by
      by_contra hs
      have := unseen_append_lt hx hs
      omega
    exact ⟨Closes.refl succ seen, hs⟩
  | succ n ih =>
    intro seen x hx hn
    by_cases hs : x ∈ seen
    · simp only [visit, if_pos hs]
      exact ⟨Closes.refl succ seen, hs⟩
    · simp only [visit, if_neg hs]
      have hn' : unseen U (seen ++ [x]) ≤ n := by
        have := unseen_append_lt hx hs
        omega
      obtain ⟨hc, hxs⟩ := closes_foldl ih (fun y hy => hU x hx y hy) hn'
      have hx' : x ∈ (succ x).foldl (visit succ n) (seen ++ [x]) := hc.mono (by simp)
      refine ⟨⟨fun y hy => hc.mono (by simp [hy]), fun y hy hys z hz => ?_⟩, hx'⟩
      by_cases hyx : y = x
      · subst hyx
        exact hxs z hz
      · exact hc.closed y hy (by simp [hys, hyx]) z hz

/-- Whatever the fuel, a walk only adds what lies beneath its start. -/
theorem beneath_of_mem_visit (n : ℕ) {seen : List α} {x y : α} (h : y ∈ visit succ n seen x) :
    y ∈ seen ∨ Beneath succ x y := by
  induction n generalizing seen x with
  | zero => exact Or.inl h
  | succ n ih =>
    by_cases hs : x ∈ seen
    · exact Or.inl (by simpa [visit, hs] using h)
    simp only [visit, if_neg hs] at h
    have hfold : ∀ (xs acc : List α), (∀ z ∈ xs, z ∈ succ x) →
        y ∈ xs.foldl (visit succ n) acc → y ∈ acc ∨ Beneath succ x y := by
      intro xs
      induction xs with
      | nil => exact fun acc _ hy => Or.inl hy
      | cons z zs ihz =>
        intro acc hz hy
        rcases ihz _ (fun w hw => hz w (by simp [hw])) hy with hy | hy
        · rcases ih hy with hy | hy
          · exact Or.inl hy
          · exact Or.inr (Relation.ReflTransGen.head (hz z (by simp)) hy)
        · exact Or.inr hy
    rcases hfold _ _ (fun _ hz => hz) h with hy | hy
    · rcases List.mem_append.mp hy with hy | hy
      · exact Or.inl hy
      · rw [List.mem_singleton.mp hy]
        exact Or.inr Relation.ReflTransGen.refl
    · exact Or.inr hy

/-- A search from several nodes with enough fuel sees exactly what lies beneath one of them. -/
theorem mem_visitAll {U xs : List α} (hU : ∀ x ∈ U, ∀ y ∈ succ x, y ∈ U) (hx : ∀ x ∈ xs, x ∈ U)
    {n : ℕ} (hn : U.length ≤ n) {y : α} :
    y ∈ visitAll succ n xs ↔ ∃ x ∈ xs, Beneath succ x y := by
  have hn' : unseen U [] ≤ n := Nat.le_trans (List.length_filter_le _ _) hn
  obtain ⟨hc, hxs⟩ := closes_foldl (closes_visit hU n) hx hn'
  constructor
  · intro hy
    have hfold : ∀ (zs acc : List α), y ∈ zs.foldl (visit succ n) acc →
        y ∈ acc ∨ ∃ x ∈ zs, Beneath succ x y := by
      intro zs
      induction zs with
      | nil => exact fun acc hy => Or.inl hy
      | cons z zs ihz =>
        intro acc hy
        rcases ihz _ hy with hy | ⟨x, hx, hy⟩
        · rcases beneath_of_mem_visit n hy with hy | hy
          · exact Or.inl hy
          · exact Or.inr ⟨z, by simp, hy⟩
        · exact Or.inr ⟨x, by simp [hx], hy⟩
    simpa using hfold xs [] hy
  · rintro ⟨x, hx, hy⟩
    induction hy with
    | refl => exact hxs x hx
    | tail _ hz ih => exact hc.closed _ ih (by simp) _ hz

end LazyStorage.Lib.Search
