import Mathlib.Data.List.Nodup
import Mathlib.Order.Nat

/-! # Once each, within a window

A receiver takes numbered items from many senders, remembers the last number of
each and when it heard it, and forgets a sender it has not heard for longer than
the window. An item carries its own stamp, and one stamped before the window is
not taken. If no item is stamped later than it is taken, none is taken twice:
what is forgotten is too old to be taken again.
-/
namespace LazyStorage.Lib

variable {K : Type*}

/-- What is remembered of a sender: the last number taken, and when. -/
structure Heard where
  last : ℕ
  seen : ℕ

/-- Each item is done once, and what is done is still covered: by the memory of its sender, or by
its age. -/
structure Once (stamp : K → ℕ → ℕ) (window now : ℕ) (done : List (K × ℕ))
    (memory : K → Option Heard) : Prop where
  once : done.Nodup
  past : ∀ k e, memory k = some e → e.seen ≤ now
  covered : ∀ k n, (k, n) ∈ done →
    (∃ e, memory k = some e ∧ n ≤ e.last ∧ stamp k n ≤ e.seen) ∨ stamp k n + window < now

namespace Once

variable {stamp : K → ℕ → ℕ} {window now : ℕ} {done : List (K × ℕ)} {memory memory' : K → Option Heard}

theorem start : Once stamp window now [] (fun _ => none) where
  once := List.nodup_nil
  past := by simp
  covered := by simp

theorem later (h : Once stamp window now done memory) {now' : ℕ} (hle : now ≤ now') :
    Once stamp window now' done memory where
  once := h.once
  past k e he := (h.past k e he).trans hle
  covered k n hn := (h.covered k n hn).imp_right fun hold => by omega

/-- A done item that the memory of its sender does not cover is older than the window. -/
theorem expired (h : Once stamp window now done memory) {k : K} {n : ℕ} (hn : (k, n) ∈ done)
    (hnew : ∀ e, memory k = some e → e.last < n) : stamp k n + window < now := by
  rcases h.covered k n hn with ⟨e, he, hle, -⟩ | hold
  · have hlt := hnew e he
    omega
  · exact hold

/-- The memory may move on, and lose the senders not heard within the window. -/
theorem remember (h : Once stamp window now done memory)
    (hpast : ∀ k e, memory' k = some e → e.seen ≤ now)
    (hkept : ∀ k e, memory k = some e →
      (∃ e', memory' k = some e' ∧ e.last ≤ e'.last ∧ e.seen ≤ e'.seen) ∨ e.seen + window < now) :
    Once stamp window now done memory' where
  once := h.once
  past := hpast
  covered k n hn := by
    rcases h.covered k n hn with ⟨e, he, hle, hstamp⟩ | hold
    · rcases hkept k e he with ⟨e', he', hlast, hseen⟩ | hgone
      · exact .inl ⟨e', he', hle.trans hlast, hstamp.trans hseen⟩
      · right
        omega
    · exact .inr hold

/-- An item taken: above the last remembered of its sender, and stamped within the window. -/
theorem take [DecidableEq K] (h : Once stamp window now done memory) {k : K} {n : ℕ}
    (hnew : ∀ e, memory k = some e → e.last < n) (hwindow : now ≤ stamp k n + window)
    (hstamp : stamp k n ≤ now) (hself : memory' k = some ⟨n, now⟩)
    (hother : ∀ x, x ≠ k → memory' x = memory x) :
    Once stamp window now (done ++ [(k, n)]) memory' where
  once := by
    refine h.once.append (List.nodup_singleton _) ?_
    rw [List.disjoint_singleton]
    intro hn
    have hold := h.expired hn hnew
    omega
  past x e he := by
    by_cases hx : x = k
    · subst hx
      obtain rfl := Option.some.inj (hself.symm.trans he)
      exact le_rfl
    · exact h.past x e (hother x hx ▸ he)
  covered x m hm := by
    rcases List.mem_append.mp hm with hm | hm
    · rcases h.covered x m hm with ⟨e, he, hle, hst⟩ | hold
      · by_cases hx : x = k
        · subst hx
          have hlast := hnew e he
          have hseen := h.past x e he
          left
          exact ⟨_, hself, by dsimp only; omega, by dsimp only; omega⟩
        · left
          exact ⟨e, (hother x hx).trans he, hle, hst⟩
      · exact .inr hold
    · obtain ⟨rfl, rfl⟩ := Prod.mk.inj (List.mem_singleton.mp hm)
      exact .inl ⟨_, hself, le_rfl, hstamp⟩

end Once

end LazyStorage.Lib
