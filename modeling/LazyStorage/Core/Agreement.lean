import LazyStorage.Core.Faithful
import LazyStorage.Core.Forgetting

/-! # Who hears only the reports ends with what was decided

Two docs hold the same when every record has the same state and the same stored
clock. Trusting what a judged run reported keeps them so.
-/
namespace LazyStorage.Core

open Lib

variable {sh : Shape} {ts : ℕ} {mode : Mode} {key : RecordKey}

/-- The same record, and the same clock as it is stored. -/
structure Clock.Same (c c' : Clock) : Prop where
  birth : c.birth = c'.birth
  live : ∀ p, c.live.get p = c'.live.get p
  gone : ∀ p, c.gone.get p = c'.gone.get p

/-- The same state, and the same stored clock for every record. -/
structure Doc.Holds (d d' : Doc sh) : Prop where
  state : ∀ k, d.get k = d'.get k
  clocks : ∀ k, (d.clockOf k).Same (d'.clockOf k)

theorem old_zero {a : Option ℕ} : Old 0 a ↔ a = none := by
  refine ⟨fun h => ?_, fun h t ht => by rw [h] at ht; cases ht⟩
  cases a with
  | none => rfl
  | some t => exact absurd (h t rfl) (by omega)

/-- To agree from the start of time is to be the same. -/
theorem agreeFrom_zero {c c' : Clock} : Clock.AgreeFrom 0 c c' ↔ c.Same c' := by
  constructor
  · rintro ⟨hb, hl, hg⟩
    simp only [SameFrom, old_zero] at hb hl hg
    exact ⟨by grind, fun p => by grind, fun p => by grind⟩
  · rintro ⟨hb, hl, hg⟩
    exact ⟨Or.inl hb, fun p => Or.inl (hl p), fun p => Or.inl (hg p)⟩

theorem holds_iff {d d' : Doc sh} : d.Holds d' ↔ d.Alike (Clock.AgreeFrom 0) False d' := by
  constructor
  · rintro ⟨hs, hc⟩
    refine ⟨fun k => ?_, False.elim⟩
    have h₁ := hs k
    have h₂ := hc k
    simp only [Doc.get, Doc.clockOf] at h₁ h₂
    revert h₁ h₂
    generalize d.records.get k = a
    generalize d'.records.get k = b
    intro h₁ h₂
    cases a <;> cases b
    · exact .none
    · cases h₁
    · cases h₁
    · exact .some ⟨Option.some.inj h₁, agreeFrom_zero.mpr h₂⟩
  · intro h
    refine ⟨h.get, fun k => ?_⟩
    rcases h.clockOf k with hk | hk
    · exact agreeFrom_zero.mp hk
    · exact hk ▸ ⟨rfl, fun _ => rfl, fun _ => rfl⟩

theorem Doc.Holds.refl (d : Doc sh) : d.Holds d :=
  ⟨fun _ => rfl, fun _ => ⟨rfl, fun _ => rfl, fun _ => rfl⟩⟩

/-- What replays on a doc gives the same on any that holds the same. -/
theorem Replays.holds {changes : List Change} {d d₁ d' : Doc sh} (h : Replays ts changes d d₁)
    (hd : d.Holds d') : ∃ out', applyAll ts .trust changes d' = .ok out' ∧ d₁.Holds out'.doc := by
  obtain ⟨mid, hmid, hsame⟩ := h
  have hblind : Blind .trust ts (Clock.AgreeFrom 0) :=
    Clock.AgreeFrom.blind .trust (Int.natCast_nonneg ts)
  rcases hblind.applyAll sh trust_looks changes (holds_iff.mp hd) with
    ⟨err, h₁, -⟩ | ⟨mid', out', h₁, h₂, hend⟩
  · rw [hmid] at h₁
    cases h₁
  · rw [hmid] at h₁
    cases h₁
    refine ⟨out', h₂, holds_iff.mpr ?_⟩
    exact (hsame.imp fun h => h ▸ Clock.AgreeFrom.refl _).trans (fun h h' => h.trans h') hend.doc

/-- Changes judged on one doc, and what was reported trusted on another that held the same: both
hold the same in the end, state and stored clocks. -/
theorem trusted_reports_agree (ts : ℕ) {changes : List Change}
    (hc : ∀ ch ∈ changes, sh.assertChange ch = .ok ()) {d d' : Doc sh} (h : d.Holds d') :
    ∃ out out', applyAll ts .judge changes d = .ok out ∧
      applyAll ts .trust out.applied d' = .ok out' ∧ out.doc.Holds out'.doc := by
  obtain ⟨out, hout⟩ := applyAll_accepted ts .judge
    (fun ch hch => Shape.accepts_of_assertChange (hc ch hch)) d
  obtain ⟨out', hout', hend⟩ := (applyAll_replays (fun hm => absurd hm (by decide)) hout).holds h
  exact ⟨out, out', hout, hout', hend⟩

/-- A task put and one of its fields deleted, heard by a doc that started as empty. -/
theorem trusted_reports_agree_on_board :
    let changes : List Change := [⟨"tasks", some "t1", [], .put (.obj [("done", .bool false)])⟩,
      ⟨"tasks", some "t1", ["done"], .del⟩]
    (∀ ch ∈ changes, board.assertChange ch = .ok ()) ∧
      ∃ out out' : Outcome board, applyAll 5 .judge changes (Doc.load board []) = .ok out ∧
        applyAll 5 .trust out.applied (Doc.load board []) = .ok out' ∧ out.doc.Holds out'.doc := by
  intro changes
  have hc : ∀ ch ∈ changes, board.assertChange ch = .ok () := by
    simp only [changes, List.forall_mem_cons, List.not_mem_nil, false_imp_iff, implies_true, and_true]
    exact ⟨rfl, rfl⟩
  exact ⟨hc, trusted_reports_agree 5 hc (.refl _)⟩

end LazyStorage.Core
