import Mathlib.Data.List.Basic

/-! # Runs of a guarded step function

A model here is a step function: `step e s` is the state after the event `e`
where `e` can happen in `s`, and `none` where it cannot. `Reaches` collects
the states of every run whose events meet a condition on the event and on the
state before it; `replay` runs a list of events.
-/
namespace LazyStorage.Lib

variable {S E : Type*}

/-- The states of runs from `s₀` whose steps are enabled and meet `ok`. -/
inductive Reaches (step : E → S → Option S) (ok : E → S → Prop) (s₀ : S) : S → Prop
  | start : Reaches step ok s₀ s₀
  | next {s s' : S} (e : E) : Reaches step ok s₀ s → ok e s → step e s = some s' →
      Reaches step ok s₀ s'

/-- The state after a list of events, if each can happen in its turn. -/
def replay (step : E → S → Option S) : List E → S → Option S
  | [], s => some s
  | e :: es, s => (step e s).bind (replay step es)

variable {step : E → S → Option S} {ok : E → S → Prop} {s₀ s s' : S}

theorem replay_append (es fs : List E) (s : S) :
    replay step (es ++ fs) s = (replay step es s).bind (replay step fs) := by
  induction es generalizing s with
  | nil => rfl
  | cons e es ih =>
    rw [List.cons_append, replay, replay, Option.bind_assoc]
    exact Option.bind_congr fun t _ => ih t

/-- What holds at the start, and is kept by each step that meets the condition, holds of every
state of every run. -/
theorem Reaches.invariant {P : S → Prop} (h₀ : P s₀)
    (hstep : ∀ e s s', P s → ok e s → step e s = some s' → P s')
    (h : Reaches step ok s₀ s) : P s := by
  induction h with
  | start => exact h₀
  | next e _ hok hs ih => exact hstep e _ _ ih hok hs

theorem Reaches.mono {ok' : E → S → Prop} (h : Reaches step ok s₀ s) (hok : ∀ e s, ok e s → ok' e s) :
    Reaches step ok' s₀ s := by
  induction h with
  | start => exact .start
  | next e _ he hs ih => exact ih.next e (hok e _ he) hs

/-- A list of events that can happen in their turn, each where a test of the condition passes, is a
run. -/
theorem Reaches.of_replay {test : E → S → Bool} (htest : ∀ e s, test e s = true → ok e s)
    {es : List E} (h : Reaches step ok s₀ s)
    (hr : replay (fun e s => if test e s then step e s else none) es s = some s') :
    Reaches step ok s₀ s' := by
  induction es generalizing s with
  | nil => exact (Option.some.inj hr) ▸ h
  | cons e es ih =>
    obtain ⟨t, ht, hr⟩ := Option.bind_eq_some_iff.mp hr
    obtain ⟨hpass, ht⟩ := Option.ite_none_right_eq_some.mp ht
    exact ih (h.next e (htest e s hpass) ht) hr

/-- A list of events that comes to a state that passes a test shows that such a state is reached. -/
theorem Reaches.exists_of_replay (test : E → S → Bool) (htest : ∀ e s, test e s = true → ok e s)
    (es : List E) {P : S → Prop} [DecidablePred P]
    (hr : (replay (fun e s => if test e s then step e s else none) es s₀).any (P ·) = true) :
    ∃ s, Reaches step ok s₀ s ∧ P s := by
  obtain ⟨s, hs, hP⟩ := (Option.any_eq_true _ _).mp hr
  exact ⟨s, Reaches.start.of_replay htest hs, of_decide_eq_true hP⟩

end LazyStorage.Lib
