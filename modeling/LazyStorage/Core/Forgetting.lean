import LazyStorage.Core.Alike

/-! # Forgetting times changes no later decision

Two clocks agree from a bound when they differ only in times below it, and a
birth that hides a live entry is below it wherever the entries differ. Nothing a
run at the bound or later asks tells such clocks apart, and pruning below the
bound keeps them so.
-/
namespace LazyStorage.Core

open Lib

/-- Not there, or before the bound. -/
def Old (bound : ℤ) (time : Option ℕ) : Prop := ∀ t, time = some t → (t : ℤ) < bound

/-- The same time, or both old. -/
def SameFrom (bound : ℤ) (a b : Option ℕ) : Prop := a = b ∨ (Old bound a ∧ Old bound b)

variable {bound : ℤ} {a b c : Option ℕ} {ts : ℕ}

theorem Old.mono {later : ℤ} (h : Old bound a) (hb : bound ≤ later) : Old later a :=
  fun t ht => lt_of_lt_of_le (h t ht) hb

theorem SameFrom.symm (h : SameFrom bound a b) : SameFrom bound b a :=
  h.elim (fun h => Or.inl h.symm) (fun h => Or.inr ⟨h.2, h.1⟩)

theorem SameFrom.trans (h : SameFrom bound a b) (h' : SameFrom bound b c) :
    SameFrom bound a c := by
  rcases h with rfl | h
  · exact h'
  · rcases h' with rfl | h'
    · exact Or.inr h
    · exact Or.inr ⟨h.1, h'.2⟩

theorem SameFrom.mono {later : ℤ} (h : SameFrom bound a b) (hb : bound ≤ later) :
    SameFrom later a b :=
  h.imp_right fun h => ⟨h.1.mono hb, h.2.mono hb⟩

theorem SameFrom.old (h : SameFrom bound a b) (ha : Old bound a) : Old bound b := by
  rcases h with rfl | h
  · exact ha
  · exact h.2

theorem Old.not_newer (h : Old bound a) (hb : bound ≤ ts) : newer a ts = false := by
  cases a with
  | none => rfl
  | some t =>
    have := h t rfl
    simp only [newer, Option.any_some, decide_eq_false_iff_not, not_lt]
    omega

theorem SameFrom.newer_eq (h : SameFrom bound a b) (hb : bound ≤ ts) : newer a ts = newer b ts := by
  rcases h with rfl | h
  · rfl
  · rw [h.1.not_newer hb, h.2.not_newer hb]

/-- Whether an old time is forgotten or kept, it reads as old. -/
theorem SameFrom.filter {cutoff : ℤ} (a : Option ℕ) (hc : cutoff ≤ bound) :
    SameFrom bound a (a.filter fun t : ℕ => !decide ((t : ℤ) < cutoff)) := by
  cases a with
  | none => exact Or.inl rfl
  | some t =>
    by_cases ht : (t : ℤ) < cutoff
    · refine Or.inr ⟨fun s hs => ?_, fun s hs => ?_⟩
      · rw [← Option.some.inj hs]
        omega
      · simp [Option.filter, ht] at hs
    · exact Or.inl (by simp [Option.filter, ht])

namespace Clock

/-- Clocks that differ only in times below the bound. -/
structure AgreeFrom (bound : ℤ) (c c' : Clock) : Prop where
  birth : SameFrom bound c.birth c'.birth
  live : ∀ p, c.live.get p = c'.live.get p ∨
    (Old bound c.birth ∧ Old bound c'.birth ∧ Old bound (c.live.get p) ∧ Old bound (c'.live.get p))
  gone : ∀ p, SameFrom bound (c.gone.get p) (c'.gone.get p)

namespace AgreeFrom

variable {x y z : Clock}

theorem refl (x : Clock) : AgreeFrom bound x x :=
  ⟨Or.inl rfl, fun _ => Or.inl rfl, fun _ => Or.inl rfl⟩

theorem symm (h : AgreeFrom bound x y) : AgreeFrom bound y x :=
  ⟨h.birth.symm, fun p => (h.live p).imp Eq.symm fun ⟨h₁, h₂, h₃, h₄⟩ => ⟨h₂, h₁, h₄, h₃⟩,
    fun p => (h.gone p).symm⟩

theorem trans (h : AgreeFrom bound x y) (h' : AgreeFrom bound y z) : AgreeFrom bound x z := by
  refine ⟨h.birth.trans h'.birth, fun p => ?_, fun p => (h.gone p).trans (h'.gone p)⟩
  rcases h.live p with hp | ⟨h₁, h₂, h₃, h₄⟩ <;> rcases h'.live p with hp' | ⟨h₁', h₂', h₃', h₄'⟩
  · exact Or.inl (hp.trans hp')
  · exact Or.inr ⟨h.birth.symm.old h₁', h₂', hp ▸ h₃', h₄'⟩
  · exact Or.inr ⟨h₁, h'.birth.old h₂, h₃, hp' ▸ h₄⟩
  · exact Or.inr ⟨h₁, h₂', h₃, h₄'⟩

theorem mono {later : ℤ} (h : AgreeFrom bound x y) (hb : bound ≤ later) : AgreeFrom later x y :=
  ⟨h.birth.mono hb, fun p => (h.live p).imp_right fun ⟨h₁, h₂, h₃, h₄⟩ =>
    ⟨h₁.mono hb, h₂.mono hb, h₃.mono hb, h₄.mono hb⟩, fun p => (h.gone p).mono hb⟩

theorem liveSame (h : AgreeFrom bound x y) (p : Path) :
    SameFrom bound (x.live.get p) (y.live.get p) :=
  (h.live p).imp_right fun h => ⟨h.2.2.1, h.2.2.2⟩

theorem liveAt (h : AgreeFrom bound x y) (p : Path) :
    SameFrom bound (x.liveAt p) (y.liveAt p) := by
  unfold Clock.liveAt
  rcases h.live p with hp | ⟨h₁, h₂, h₃, h₄⟩
  · rw [hp]
    cases y.live.get p with
    | none => exact h.birth
    | some t => exact Or.inl rfl
  · refine Or.inr ⟨?_, ?_⟩
    · cases hx : x.live.get p with
      | none => exact h₁
      | some t => simpa [hx] using h₃
    · cases hy : y.live.get p with
      | none => exact h₂
      | some t => simpa [hy] using h₄

/-- A birth at the bound or later is the same in both. -/
theorem birth_eq_iff (h : AgreeFrom bound x y) (hb : bound ≤ ts) :
    x.birth = some ts ↔ y.birth = some ts := by
  rcases h.birth with he | ⟨h₁, h₂⟩
  · rw [he]
  · refine ⟨fun e => ?_, fun e => ?_⟩
    · exact absurd (h₁ ts e) (by omega)
    · exact absurd (h₂ ts e) (by omega)

theorem setLive (h : AgreeFrom bound x y) (hb : bound ≤ ts) (p : Path) :
    AgreeFrom bound (x.setLive p ts) (y.setLive p ts) := by
  refine ⟨by simpa using h.birth, fun q => ?_, fun q => by simpa using h.gone q⟩
  simp only [setLive_live, setLive_birth, h.birth_eq_iff hb]
  by_cases hp : p = q
  · simp [hp]
  · simpa [hp] using h.live q

theorem dropBeneath (h : AgreeFrom bound x y) (p : Path) (i b : Bool) :
    AgreeFrom bound (x.dropBeneath p i b) (y.dropBeneath p i b) := by
  refine ⟨by simpa using h.birth, fun q => ?_, fun q => ?_⟩
  · simp only [dropBeneath_live, dropBeneath_birth]
    by_cases hq : drops p i b q = true
    · simp [hq]
    · simpa [hq] using h.live q
  · simp only [dropBeneath_gone]
    by_cases hq : drops p i b q = true
    · simp only [hq, if_true]
      exact Or.inl rfl
    · simpa [hq] using h.gone q

theorem setGone (h : AgreeFrom bound x y) (p : Path) :
    AgreeFrom bound (x.setGone p ts) (y.setGone p ts) := by
  refine ⟨h.birth, h.live, fun q => ?_⟩
  simp only [Clock.setGone, OrderedMap.get_set]
  split_ifs
  · exact Or.inl rfl
  · exact h.gone q

private theorem maxOf_of (h : AgreeFrom bound x y) (hb : bound ≤ ts)
    (hx : (ts : ℤ) < x.maxOf) : (ts : ℤ) < y.maxOf := by
  have hold : ∀ o : Option ℕ, ∀ t, o = some t → ts < t → ¬ Old bound o := by
    intro o t ho hts h
    have := h t ho
    omega
  obtain ⟨t, ht, hts⟩ := (x.lt_maxOf ts).mp hx
  refine (y.lt_maxOf ts).mpr ⟨t, ?_, hts⟩
  rw [mem_times] at ht ⊢
  rcases ht with ht | ⟨p, ht⟩ | ⟨p, ht⟩
  · exact Or.inl ((h.birth.resolve_right fun h => hold _ t ht hts h.1) ▸ ht)
  · exact Or.inr (Or.inl ⟨p, ((h.live p).resolve_right fun h => hold _ t ht hts h.2.2.1) ▸ ht⟩)
  · exact Or.inr (Or.inr ⟨p, ((h.gone p).resolve_right fun h => hold _ t ht hts h.1) ▸ ht⟩)

/-- What a run at the bound or later reads and writes keeps clocks that agree from it so. -/
theorem blind (mode : Mode) (hb : bound ≤ ts) : Blind mode ts (AgreeFrom bound) where
  born := refl _
  setLive h p := h.setLive hb p
  setGone h p := h.setGone p
  dropBeneath h p i b := h.dropBeneath p i b
  liveAt _ _ _ h p := (h.liveAt p).newer_eq hb
  gone _ _ _ h p := (h.gone p).newer_eq hb
  beneath _ c c' h p := by
    have hiff : c.newerBeneath p ts = true ↔ c'.newerBeneath p ts = true := by
      simp only [newerBeneath_iff, h.birth.newer_eq hb, (h.liveSame _).newer_eq hb,
        (h.gone _).newer_eq hb]
    exact Bool.eq_iff_iff.mpr hiff
  maxOf _ _ _ h := ⟨maxOf_of h hb, maxOf_of h.symm hb⟩

theorem prune {cutoff : ℤ} (x : Clock) (hc : cutoff ≤ bound) :
    AgreeFrom bound x (x.prune cutoff) := by
  refine ⟨SameFrom.filter _ hc, fun p => ?_, fun p => ?_⟩
  · simp only [Clock.prune]
    split_ifs with hbirth
    · exact Or.inl rfl
    · have hnone : (x.birth.filter fun t : ℕ => !decide ((t : ℤ) < cutoff)) = none := by
        simpa only [Option.not_isSome_iff_eq_none] using hbirth
      have hold : Old bound x.birth :=
        (SameFrom.filter x.birth hc).symm.old (by rw [hnone]; exact fun t ht => by cases ht)
      rw [OrderedMap.get_filter]
      refine (SameFrom.filter (x.live.get p) hc).imp_right fun h => ⟨hold, ?_, h⟩
      rw [hnone]
      exact fun t ht => by cases ht
  · simp only [Clock.prune, OrderedMap.get_filter]
    exact SameFrom.filter _ hc

end AgreeFrom

end Clock

variable {sh : Shape}

theorem Doc.Alike.trans {R : Clock → Clock → Prop} {indexed : Prop} {x y z : Doc sh}
    (hR : ∀ {a b c}, R a b → R b c → R a c) (h : x.Alike R indexed y) (h' : y.Alike R indexed z) :
    x.Alike R indexed z := by
  refine ⟨fun key => ?_, fun hi => (h.index hi).trans (h'.index hi)⟩
  have h₁ := h.records key
  have h₂ := h'.records key
  revert h₁ h₂
  generalize x.records.get key = a
  generalize y.records.get key = b
  generalize z.records.get key = c
  intro h₁ h₂
  cases h₁ with
  | none => exact h₂
  | some h₁ =>
    cases h₂ with
    | some h₂ => exact .some ⟨h₁.data.trans h₂.data, hR h₁.clock h₂.clock⟩

theorem Doc.Alike.imp {R S : Clock → Clock → Prop} {indexed : Prop} {x y : Doc sh}
    (hRS : ∀ {a b}, R a b → S a b) (h : x.Alike R indexed y) : x.Alike S indexed y := by
  refine ⟨fun key => ?_, h.index⟩
  have h₁ := h.records key
  revert h₁
  generalize x.records.get key = a
  generalize y.records.get key = b
  intro h₁
  cases h₁ with
  | none => exact .none
  | some h₁ => exact .some ⟨h₁.data, hRS h₁.clock⟩

theorem Doc.prune_alike (d : Doc sh) {cutoff : ℤ} (hc : cutoff ≤ bound) :
    d.Alike (Clock.AgreeFrom bound) True (d.prune cutoff) := by
  refine ⟨fun key => ?_, fun _ => rfl⟩
  simp only [Doc.prune, OrderedMap.get_mapVal]
  cases d.records.get key with
  | none => exact .none
  | some e => exact .some ⟨rfl, .prune e.clock hc⟩

/-- What happens to a doc in turn: a change decided, or times forgotten. -/
inductive Turn
  | decide (ts : ℕ) (change : Change)
  | forget (cutoff : ℤ)

/-- What a turn reports, and the state it leaves. -/
structure Report where
  decided : Except ModelError (List Change × List Lost)
  state : RecordKey → Option Value

namespace Turn

/-- The times of the changes still to come. -/
def stamps (turns : List Turn) : List ℕ :=
  turns.filterMap fun
    | decide ts _ => some ts
    | forget _ => none

/-- No cutoff is above a time still to come. -/
def Timely : List Turn → Prop
  | [] => True
  | decide _ _ :: turns => Timely turns
  | forget cutoff :: turns => (∀ ts ∈ stamps turns, cutoff ≤ (ts : ℤ)) ∧ Timely turns

/-- One turn, `forgets` saying whether times are forgotten at all. -/
def take (forgets : Bool) (turn : Turn) (d : Doc sh) : Doc sh × Report :=
  match turn with
  | decide ts change =>
    match apply ts .judge change d with
    | .ok out => (out.doc, ⟨.ok (out.applied, out.lost), out.doc.get⟩)
    | .error err => (d, ⟨.error err, d.get⟩)
  | forget cutoff =>
    let d := if forgets then d.prune cutoff else d
    (d, ⟨.ok ([], []), d.get⟩)

/-- What a doc reports, turn by turn. -/
def reports (forgets : Bool) : List Turn → Doc sh → List Report
  | [], _ => []
  | turn :: turns, d =>
    let taken := turn.take forgets d
    taken.2 :: reports forgets turns taken.1

/-- A turn taken by docs that agree from a bound not above its time reports the same. -/
theorem take_alike {turn : Turn} (hb : ∀ ts ∈ stamps [turn], bound ≤ (ts : ℤ)) {d d' : Doc sh}
    (h : d.Alike (Clock.AgreeFrom bound) True d') :
    (turn.take false d).2 = (turn.take true d').2 ∧
      ∃ later, (turn.take false d).1.Alike (Clock.AgreeFrom later) True (turn.take true d').1 ∧
        ∀ t, bound ≤ t → (∀ cutoff, turn = forget cutoff → cutoff ≤ t) → later ≤ t := by
  cases turn with
  | decide ts change =>
    have hrun := (Clock.AgreeFrom.blind .judge (hb ts (by simp [stamps]))).run sh
      (sh.recordKey change.c change.id) (fun _ => trivial) change.write.value change.write.kind
      change.path h
    by_cases hsingle : change.path.isEmpty && change.write = .del && sh.isSingleton change.c
    · simp only [take, apply, if_pos hsingle, funext h.get, true_and]
      exact ⟨bound, h, fun t ht _ => ht⟩
    · simp only [take, apply, if_neg hsingle, hrun.applied, hrun.lost, funext hrun.doc.get,
        true_and]
      exact ⟨bound, hrun.doc, fun t ht _ => ht⟩
  | forget cutoff =>
    have hp : d.Alike (Clock.AgreeFrom (max bound cutoff)) True (d'.prune cutoff) :=
      (h.imp fun h => h.mono (le_max_left bound cutoff)).trans (fun h h' => h.trans h')
        (d'.prune_alike (le_max_right bound cutoff))
    refine ⟨?_, max bound cutoff, hp, fun t ht hc => max_le ht (hc cutoff rfl)⟩
    exact congrArg (Report.mk (.ok ([], []))) (funext hp.get)

theorem reports_alike {turns : List Turn} (ht : Timely turns)
    (hb : ∀ ts ∈ stamps turns, bound ≤ (ts : ℤ)) {d d' : Doc sh}
    (h : d.Alike (Clock.AgreeFrom bound) True d') : reports false turns d = reports true turns d' := by
  induction turns generalizing bound d d' with
  | nil => rfl
  | cons turn turns ih =>
    have hsub : ∀ ts ∈ stamps turns, ts ∈ stamps (turn :: turns) := by
      intro ts hts
      cases turn <;> simp_all [stamps]
    have hone : ∀ ts ∈ stamps [turn], ts ∈ stamps (turn :: turns) := by
      intro ts hts
      cases turn <;> simp_all [stamps]
    obtain ⟨hrep, later, hl, hle⟩ := take_alike (fun ts h => hb ts (hone ts h)) h
    have htail : Timely turns ∧ ∀ ts ∈ stamps turns, ∀ cutoff, turn = forget cutoff →
        cutoff ≤ (ts : ℤ) := by
      cases turn with
      | decide ts change => exact ⟨ht, fun _ _ _ h => by cases h⟩
      | forget cutoff => exact ⟨ht.2, fun ts hts _ h => by cases h; exact ht.1 ts hts⟩
    simp only [reports, hrep]
    rw [ih htail.1 (fun ts hts => hle ts (hb ts (hsub ts hts)) (htail.2 ts hts)) hl]

/-- A doc pruned at a cutoff not above any time still to come, and pruned again along the way,
reports what the unpruned one does, and holds the same state after every turn. -/
theorem reports_prune {turns : List Turn} {cutoff : ℤ} (d : Doc sh) (ht : Timely turns)
    (hc : ∀ ts ∈ stamps turns, cutoff ≤ (ts : ℤ)) :
    reports true turns (d.prune cutoff) = reports false turns d :=
  (reports_alike ht hc (d.prune_alike le_rfl)).symm

/-- Times forgotten before an edit of a task, and before its deletion. -/
theorem reports_prune_on_board :
    let turns : List Turn := [decide 10 ⟨"tasks", some "t1", ["done"], .set (.bool true)⟩,
      forget 20, decide 20 ⟨"tasks", some "t1", [], .del⟩]
    let d : Doc board := Doc.load board [(("tasks", some "t1"), ⟨.obj [], .born 4⟩)]
    Timely turns ∧ (∀ ts ∈ stamps turns, (9 : ℤ) ≤ ts) ∧
      reports true turns (d.prune 9) = reports false turns d := by
  intro turns d
  have ht : Timely turns := by simp [turns, Timely, stamps]
  have hs : ∀ ts ∈ stamps turns, (9 : ℤ) ≤ ts := by simp [turns, stamps]
  exact ⟨ht, hs, reports_prune d ht hs⟩

end Turn

end LazyStorage.Core
