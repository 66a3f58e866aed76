import LazyStorage.Core.Agreement
import LazyStorage.Core.Inside
import LazyStorage.Core.Orphans
import Mathlib.Data.Set.Finite.Lemmas

/-! # The later edit wins

Values set at places apart from each other, at distinct times: each is decided by
what was at its place before any of them and by those that landed there since. So
the newest of those the doc takes wins at its place, in whatever order they come.
-/
namespace LazyStorage.Core

open Lib

variable {sh : Shape} {ts : ℕ} {key : RecordKey}

/-- What a value is at its place, its fields and its items apart. -/
inductive Face
  | object
  | array (length : ℕ)
  | leaf (v : Value)

namespace Value

def face : Value → Face
  | obj _ => .object
  | arr items => .array items.length
  | v => .leaf v

/-- The same value, the order of fields apart. -/
def Like (v w : Value) : Prop := ∀ p, (valueAt v p).map face = (valueAt w p).map face

theorem face_eq_object {v : Value} : v.face = .object ↔ v.isObj = true := by
  cases v <;> simp [face, isObj, fields?]

theorem face_withProp (v : Value) (seg : String) (y : Value) : (v.withProp seg y).face = v.face := by
  cases v with
  | arr items =>
    simp only [withProp]
    split <;> simp [face]
  | _ => rfl

/-- A change in place leaves what is on the way there what it was. -/
theorem face_modifyAt {f : Value → Value} (hf : KeepsObj f) {q r : Path} {v : Value}
    {fs : List (String × Value)} (h : valueAt v q = some (obj fs)) (hr : r <+: q) :
    (valueAt (modifyAt f q v) r).map face = (valueAt v r).map face := by
  induction q generalizing v r with
  | nil =>
    obtain rfl := List.prefix_nil.mp hr
    obtain rfl := Option.some.inj h
    obtain ⟨gs, hgs⟩ := hf fs
    simp [modifyAt, hgs, face]
  | cons seg q ih =>
    rw [valueAt_cons] at h
    obtain ⟨x, hx, hrest⟩ := Option.bind_eq_some_iff.mp h
    simp only [modifyAt, hx]
    cases r with
    | nil => simp [face_withProp]
    | cons k r =>
      obtain ⟨rfl, hle⟩ := List.cons_prefix_cons.mp hr
      rw [valueAt_cons, valueAt_cons, prop_withProp hx (not_num_of_valueAt hrest), hx,
        Option.bind_some, Option.bind_some]
      exact ih hrest hle

end Value

/-- A change at a place. -/
def At (sh : Shape) (key : RecordKey) (path : Path) (c : ℕ × Change) : Prop :=
  sh.recordKey c.2.c c.2.id = key ∧ c.2.path = path

namespace Doc

/-- Plain values set at distinct times where parents are, and no containers, none beneath another. -/
structure Sets (d : Doc sh) (l : List (ℕ × Change)) : Prop where
  written : ∀ c ∈ l, ∃ v, c.2.write = .set v ∧ v.isObj = false
  placed : ∀ c ∈ l, c.2.path ≠ [] ∧ ∃ e, d.records.get (sh.recordKey c.2.c c.2.id) = some e ∧
    e.hasParent sh (sh.recordKey c.2.c c.2.id) c.2.path = true ∧ (e.current c.2.path).any Value.isObj = false
  apart : ∀ c ∈ l, ∀ c' ∈ l, sh.recordKey c.2.c c.2.id = sh.recordKey c'.2.c c'.2.id →
    c.2.path <+: c'.2.path → c.2.path = c'.2.path
  times : (l.map Prod.fst).Nodup

/-- Whether a value set at a time is no older than what is there or the containers above, and names no
parent that is not there. -/
def takes (d : Doc sh) (c : ℕ × Change) : Bool :=
  let key := sh.recordKey c.2.c c.2.id
  match d.records.get key with
  | some e => !e.stale c.2.path c.1 && !strands .judge key c.2.write.value .set c.2.path d &&
      !e.outlives c.1 c.2.path false
  | none => false

/-- The newest at a place of those that are taken. -/
structure Wins (d : Doc sh) (l : List (ℕ × Change)) (key : RecordKey) (path : Path) (c : ℕ × Change) :
    Prop where
  mem : c ∈ l
  here : At sh key path c
  taken : d.takes c = true
  newest : ∀ c' ∈ l, At sh key path c' → d.takes c' = true → c'.1 ≤ c.1

/-- Whether none is taken at a place. -/
def Unclaimed (d : Doc sh) (l : List (ℕ × Change)) (key : RecordKey) (path : Path) : Prop :=
  ∀ c ∈ l, At sh key path c → d.takes c = false

theorem wins_or_unclaimed (d : Doc sh) (l : List (ℕ × Change)) (key : RecordKey) (path : Path) :
    (∃ c, d.Wins l key path c) ∨ d.Unclaimed l key path := by
  by_cases hsome : ∃ c ∈ l, At sh key path c ∧ d.takes c = true
  · left
    let taken : Set (ℕ × Change) := {c | c ∈ l ∧ At sh key path c ∧ d.takes c = true}
    have hfinite : taken.Finite := (List.finite_toSet l).subset fun c hc => hc.1
    obtain ⟨c, ⟨hmem, hat, htaken⟩, hmax⟩ := Set.exists_max_image taken Prod.fst hfinite hsome
    exact ⟨c, hmem, hat, htaken, fun c' hc' hat' htaken' => hmax c' ⟨hc', hat', htaken'⟩⟩
  · right
    intro c hc hat
    by_contra htaken
    exact hsome ⟨c, hc, hat, by simpa using htaken⟩

end Doc

/-- An entry once changes were decided: what won is at its place, and the rest is as it was. -/
structure Entry.Settled (d : Doc sh) (l : List (ℕ × Change)) (key : RecordKey) (e e' : Entry) : Prop where
  birth : e'.clock.birth = e.clock.birth
  won : ∀ path c, d.Wins l key path c →
    e'.clock.live.get path = (if e.clock.birth = some c.1 then none else some c.1) ∧
      e'.clock.gone.get path = none ∧ ∀ r, valueAt e'.data (path ++ r) = valueAt c.2.write.value r
  times : ∀ path, d.Unclaimed l key path → e'.clock.live.get path = e.clock.live.get path ∧
    e'.clock.gone.get path = e.clock.gone.get path
  kept : ∀ r, (∀ path, path <+: r → d.Unclaimed l key path) →
    (valueAt e'.data r).map Value.face = (valueAt e.data r).map Value.face

/-- A doc once changes were decided. -/
structure Doc.Settled (d : Doc sh) (l : List (ℕ × Change)) (d' : Doc sh) : Prop where
  there : ∀ key, (d'.records.get key).isSome = (d.records.get key).isSome
  entries : ∀ key e e', d.records.get key = some e → d'.records.get key = some e' → e.Settled d l key e'

section Judged

variable {d d' : Doc sh} {l : List (ℕ × Change)} {c : ℕ × Change} {v : Value} {e e' : Entry}

/-- What a value set at a plain place comes to. -/
theorem judgeAt_set (hwrite : c.2.write = .set v) (hplain : v.isObj = false) (hpath : c.2.path ≠ [])
    (he : d.records.get (sh.recordKey c.2.c c.2.id) = some e)
    (hparent : e.hasParent sh (sh.recordKey c.2.c c.2.id) c.2.path = true)
    (hcurrent : (e.current c.2.path).any Value.isObj = false) :
    ∃ d', judgeAt c d = some d' ∧ ∀ k, d'.records.get k =
      if d.takes c = true ∧ sh.recordKey c.2.c c.2.id = k then
        some ⟨e.place c.2.path v, (e.clock.dropBeneath c.2.path true false).setLive c.2.path c.1⟩
      else d.records.get k := by
  obtain ⟨ts, ⟨name, id, path, write⟩⟩ := c
  obtain rfl : write = .set v := hwrite
  have hkind : settledKind sh (sh.recordKey name id) path .set v = .set := by simp [settledKind, hplain]
  have he' : (d.note (sh.recordKey name id)).records.get (sh.recordKey name id) = some e := by simpa using he
  have hstrands : strands .judge (sh.recordKey name id) v .set path (d.note (sh.recordKey name id)) =
      strands .judge (sh.recordKey name id) v .set path d := by
    simp [strands, Doc.orphaned, Doc.get]
  have hrun : apply ts .judge ⟨name, id, path, .set v⟩ d =
      .ok (step ts .judge (sh.recordKey name id) v .set path d).outcome := by
    rw [apply, if_neg (by simp)]
    cases v <;> first | rfl | exact absurd hplain (by simp)
  have htakes : d.takes (ts, ⟨name, id, path, .set v⟩) = (!e.stale path ts &&
      !strands .judge (sh.recordKey name id) v .set path d && !e.outlives ts path false) := by
    simp [Doc.takes, he, Write.value]
  simp only [judgeAt, hrun]
  refine ⟨_, rfl, fun k => ?_⟩
  simp only [step, List.isEmpty_iff, hpath, if_false, he', hkind, within]
  cases hstale : e.stale path ts with
  | true => simp [Entry.arrive, hstale, Mode.judging, htakes, Step.outcome, Outcome.nothing, Outcome.lose]
  | false =>
    have harrive : e.arrive sh .judge ts (sh.recordKey name id) path = .ok e := by
      simp [Entry.arrive, hstale, hparent]
    simp only [harrive, Outcome.nothing, Doc.write_there he', hstrands]
    cases hmissing : strands .judge (sh.recordKey name id) v .set path d with
    | true => simp [htakes, hmissing, Step.outcome, Outcome.lose]
    | false =>
      simp only [Entry.settle, Entry.overwrite, hcurrent, Mode.judging]
      cases hnewer : e.outlives ts path false with
      | true => simp [htakes, hnewer, Step.outcome, Outcome.lose]
      | false =>
        rw [htakes, hstale, hmissing, hnewer]
        simp [Step.outcome, get_landed]

/-- No other of the changes is on the way to one. -/
theorem Doc.Sets.unclaimed_above (h : d.Sets (l ++ [c])) {q : Path} (hq : q <+: c.2.path)
    (hne : q ≠ c.2.path) : d.Unclaimed l (sh.recordKey c.2.c c.2.id) q := by
  intro c' hc' hat
  obtain ⟨hkey, rfl⟩ := hat
  exact absurd (h.apart c' (by simp [hc']) c (by simp) hkey hq) hne

theorem Doc.Unclaimed.not_wins {path : Path} (h : d.Unclaimed l key path) : ¬ d.Wins l key path c := by
  intro hwins
  have hnot := h c hwins.mem hwins.here
  rw [hwins.taken] at hnot
  cases hnot

theorem Entry.Settled.liveAt_above (h : e.Settled d l key e') {q : Path} (hq : d.Unclaimed l key q) :
    e'.clock.liveAt q = e.clock.liveAt q := by
  rw [Clock.liveAt, Clock.liveAt, (h.times q hq).1, h.birth]

/-- What wins at a place is the time there. -/
theorem Entry.Settled.liveAt_won (h : e.Settled d l key e') {path : Path} (hwins : d.Wins l key path c) :
    e'.clock.liveAt path = some c.1 := by
  rw [Clock.liveAt, (h.won path c hwins).1, h.birth]
  split_ifs with hbirth
  · simp [hbirth]
  · rfl

theorem Entry.Settled.stale (h : e.Settled d l (sh.recordKey c.2.c c.2.id) e') (hsets : d.Sets (l ++ [c]))
    (ts : ℕ) : e'.stale c.2.path ts = e.stale c.2.path ts := by
  rw [Bool.eq_iff_iff, Entry.stale, Entry.stale, List.any_eq_true, List.any_eq_true]
  refine exists_congr fun i => and_congr_right fun hi => ?_
  have hne : c.2.path.take i ≠ c.2.path := fun heq => by
    have hlen := congrArg List.length heq
    rw [List.length_take] at hlen
    have := List.mem_range.mp hi
    omega
  rw [h.liveAt_above (hsets.unclaimed_above (List.take_prefix i _) hne)]

theorem newer_mono {t : Option ℕ} {a b : ℕ} (h : newer t a = false) (hab : a ≤ b) : newer t b = false := by
  cases t with
  | none => rfl
  | some t =>
    simp only [newer, Option.any_some, decide_eq_false_iff_not] at h ⊢
    omega

/-- A change is taken over what the others left, if it is taken at all and is the newest at its place. -/
theorem Doc.Settled.takes_iff (h : d.Settled l d') (hsets : d.Sets (l ++ [c])) :
    d'.takes c = true ↔ d.takes c = true ∧
      ∀ c₀, d.Wins l (sh.recordKey c.2.c c.2.id) c.2.path c₀ → c₀.1 < c.1 := by
  obtain ⟨hpath, e, he, hparent, hcurrent⟩ := hsets.placed c (by simp)
  have hthere : (d'.records.get (sh.recordKey c.2.c c.2.id)).isSome = true := by rw [h.there, he]; rfl
  obtain ⟨e', he'⟩ := Option.isSome_iff_exists.mp hthere
  have hentry := h.entries _ e e' he he'
  have hstale := hentry.stale hsets c.1
  have hstrands : strands .judge (sh.recordKey c.2.c c.2.id) c.2.write.value .set c.2.path d' =
      strands .judge (sh.recordKey c.2.c c.2.id) c.2.write.value .set c.2.path d := by
    have hnone : ∀ k, (d'.get k).isNone = (d.get k).isNone := by
      intro k
      have hk := h.there k
      simp only [Doc.get, Option.isNone_map]
      cases h₁ : d'.records.get k <;> cases h₂ : d.records.get k <;> simp_all
    simp only [strands, Doc.orphaned, hnone]
  have hnewer : e'.outlives c.1 c.2.path false = false ↔ e.outlives c.1 c.2.path false = false ∧
      ∀ c₀, d.Wins l (sh.recordKey c.2.c c.2.id) c.2.path c₀ → c₀.1 < c.1 := by
    rcases d.wins_or_unclaimed l (sh.recordKey c.2.c c.2.id) c.2.path with ⟨c₀, hwins⟩ | hnone
    · have hne : c₀.1 ≠ c.1 := by
        have htimes := hsets.times
        rw [List.map_append, List.nodup_append] at htimes
        exact htimes.2.2 c₀.1 (List.mem_map_of_mem hwins.mem) c.1 (by simp)
      have hbefore : e'.outlives c.1 c.2.path false = false ↔ ¬ c.1 < c₀.1 := by
        simp [Entry.outlives, hentry.liveAt_won hwins, (hentry.won _ _ hwins).2.1, newer]
      have holder : c₀.1 < c.1 → e.outlives c.1 c.2.path false = false := by
        intro hlt
        have htaken := hwins.taken
        simp only [Doc.takes, hwins.here.1, he, hwins.here.2, Bool.and_eq_true, Bool.not_eq_true',
          Entry.outlives, Bool.or_eq_false_iff] at htaken ⊢
        exact ⟨⟨newer_mono htaken.2.1.1 hlt.le, newer_mono htaken.2.1.2 hlt.le⟩, by simp⟩
      rw [hbefore]
      constructor
      · intro hlt
        have hlt' : c₀.1 < c.1 := by omega
        exact ⟨holder hlt', fun c₁ hwins₁ => (hwins.newest c₁ hwins₁.mem hwins₁.here hwins₁.taken).trans_lt hlt'⟩
      · rintro ⟨-, hall⟩
        have := hall c₀ hwins
        omega
    · have hsame : e'.outlives c.1 c.2.path false = e.outlives c.1 c.2.path false := by
        simp only [Entry.outlives, hentry.liveAt_above hnone, (hentry.times _ hnone).2, Bool.false_and]
      rw [hsame]
      exact ⟨fun hold => ⟨hold, fun c₀ hwins => absurd hwins hnone.not_wins⟩, And.left⟩
  simp only [Doc.takes, he, he', hstale, hstrands, Bool.and_eq_true, Bool.not_eq_true', hnewer, and_assoc]

theorem Doc.Wins.of_concat {path : Path} {c₁ : ℕ × Change} (h : d.Wins (l ++ [c]) key path c₁)
    (hmem : c₁ ∈ l) : d.Wins l key path c₁ :=
  ⟨hmem, h.here, h.taken, fun c' hc' => h.newest c' (by simp [hc'])⟩

theorem Doc.Unclaimed.of_concat {path : Path} (h : d.Unclaimed (l ++ [c]) key path) :
    d.Unclaimed l key path := fun c' hc' => h c' (by simp [hc'])

/-- A change that wins nowhere leaves what is settled. -/
theorem Entry.Settled.concat (h : e.Settled d l key e')
    (hloses : ∀ path, ¬ d.Wins (l ++ [c]) key path c) : e.Settled d (l ++ [c]) key e' where
  birth := h.birth
  won path c₁ hwins := by
    rcases List.mem_append.mp hwins.mem with hmem | hmem
    · exact h.won path c₁ (hwins.of_concat hmem)
    · rw [List.mem_singleton.mp hmem] at hwins
      exact absurd hwins (hloses path)
  times path hnone := h.times path hnone.of_concat
  kept r hnone := h.kept r fun path hle => (hnone path hle).of_concat

section Placed

variable (hsets : d.Sets (l ++ [c])) (h : e.Settled d l (sh.recordKey c.2.c c.2.id) e')

include hsets h in
/-- The way to a place stays open. -/
theorem Entry.Settled.way {q : Path} (hq : q <+: c.2.path.dropLast) :
    (valueAt e'.data q).map Value.face = (valueAt e.data q).map Value.face := by
  obtain ⟨hpath, -⟩ := hsets.placed c (by simp)
  refine h.kept q fun p hp => hsets.unclaimed_above ?_ fun heq => ?_
  · exact (hp.trans hq).trans (List.dropLast_prefix _)
  · have hlen := (hp.trans hq).length_le
    have hpos := List.length_pos_iff.mpr hpath
    rw [heq, List.length_dropLast] at hlen
    omega

include hsets h in
theorem Entry.Settled.parent (he : d.records.get (sh.recordKey c.2.c c.2.id) = some e) :
    ∃ fs, valueAt e'.data c.2.path.dropLast = some (.obj fs) := by
  obtain ⟨hpath, e₀, he₀, hparent, -⟩ := hsets.placed c (by simp)
  obtain rfl : e = e₀ := Option.some.inj (he.symm.trans he₀)
  obtain ⟨⟨fs, hfs⟩, -⟩ := Entry.hasParent_iff.mp hparent
  have hface := h.way hsets List.prefix_rfl
  rw [hfs, Option.map_some] at hface
  obtain ⟨v, hv, hobj⟩ := Option.map_eq_some_iff.mp hface
  obtain ⟨gs, rfl⟩ := Value.isObj_iff.mp (Value.face_eq_object.mp hobj)
  exact ⟨gs, hv⟩

include hsets h in
/-- What is at a place stays plain. -/
theorem Entry.Settled.plain (he : d.records.get (sh.recordKey c.2.c c.2.id) = some e) :
    e'.hasParent sh (sh.recordKey c.2.c c.2.id) c.2.path = true ∧
      (e'.current c.2.path).any Value.isObj = false := by
  obtain ⟨hpath, e₀, he₀, hparent, hcurrent⟩ := hsets.placed c (by simp)
  obtain rfl : e = e₀ := Option.some.inj (he.symm.trans he₀)
  obtain ⟨⟨fs, hfs⟩, hregister⟩ := Entry.hasParent_iff.mp hparent
  obtain ⟨gs, hgs⟩ := h.parent hsets he
  refine ⟨Entry.hasParent_iff.mpr ⟨⟨gs, hgs⟩, hregister⟩, ?_⟩
  rw [Entry.current_eq hpath hfs] at hcurrent
  rw [Entry.current_eq hpath hgs]
  rcases d.wins_or_unclaimed l (sh.recordKey c.2.c c.2.id) c.2.path with ⟨c₀, hwins⟩ | hnone
  · have hvalue := (h.won _ _ hwins).2.2 []
    obtain ⟨v, hwrite, hplain⟩ := hsets.written c₀ (by simp [hwins.mem])
    rw [List.append_nil] at hvalue
    simp [hvalue, hwrite, Write.value, hplain]
  · have hface : (valueAt e'.data c.2.path).map Value.face = (valueAt e.data c.2.path).map Value.face := by
      refine h.kept _ fun p hp => ?_
      by_cases heq : p = c.2.path
      · exact heq ▸ hnone
      · exact hsets.unclaimed_above hp heq
    have hobj : ∀ x : Option Value, x.any Value.isObj = true ↔ x.map Value.face = some .object := by
      intro x
      cases x <;> simp [Value.face_eq_object]
    rw [← Bool.not_eq_true, hobj, hface, ← hobj, Bool.not_eq_true]
    exact hcurrent

include hsets h in
/-- A change that lands and is the newest at its place wins it. -/
theorem Entry.Settled.landed (he : d.records.get (sh.recordKey c.2.c c.2.id) = some e)
    (hwrite : c.2.write = .set v) (htaken : d.takes c = true)
    (hnewest : ∀ c₀, d.Wins l (sh.recordKey c.2.c c.2.id) c.2.path c₀ → c₀.1 < c.1) :
    e.Settled d (l ++ [c]) (sh.recordKey c.2.c c.2.id)
      ⟨e'.place c.2.path v, (e'.clock.dropBeneath c.2.path true false).setLive c.2.path c.1⟩ := by
  obtain ⟨hpath, -⟩ := hsets.placed c (by simp)
  obtain ⟨fs, hparent⟩ := h.parent hsets he
  have hother : ∀ p, p ≠ c.2.path →
      ((e'.clock.dropBeneath c.2.path true false).setLive c.2.path c.1).live.get p = e'.clock.live.get p ∧
      ((e'.clock.dropBeneath c.2.path true false).setLive c.2.path c.1).gone.get p =
        e'.clock.gone.get p := by
    intro p hp
    rw [Clock.setLive_live, if_neg (Ne.symm hp), Clock.setLive_gone, Clock.dropBeneath_live,
      Clock.dropBeneath_gone]
    simp [Clock.drops, hp]
  refine ⟨by simp [h.birth], fun path c₁ hwins => ?_, fun path hnone => ?_, fun r hnone => ?_⟩
  · rcases List.mem_append.mp hwins.mem with hmem | hmem
    · have hold := hwins.of_concat hmem
      have hne : path ≠ c.2.path := by
        rintro rfl
        have hlt := hnewest c₁ hold
        have hle := hwins.newest c (by simp) ⟨rfl, rfl⟩ htaken
        omega
      obtain ⟨hlive, hgone, hdata⟩ := h.won path c₁ hold
      refine ⟨(hother path hne).1.trans hlive, (hother path hne).2.trans hgone, fun r => ?_⟩
      have hapart : ¬ c.2.path <+: path ∧ ¬ path <+: c.2.path := by
        obtain ⟨hkey, rfl⟩ := hwins.here
        exact ⟨fun hle => hne (hsets.apart c (by simp) c₁ (by simp [hmem]) hkey.symm hle).symm,
          fun hle => hne (hsets.apart c₁ (by simp [hmem]) c (by simp) hkey hle)⟩
      have hoff : ¬ c.2.path <+: path ++ r := fun hle =>
        (List.prefix_or_prefix_of_prefix hle (List.prefix_append path r)).elim hapart.1 hapart.2
      have habove : ¬ path ++ r <+: c.2.path.dropLast := fun hle =>
        hapart.2 ((List.prefix_append path r).trans (hle.trans (List.dropLast_prefix _)))
      exact (Entry.valueAt_place_off hpath hparent v hoff habove).trans (hdata r)
    · obtain rfl := List.mem_singleton.mp hmem
      obtain ⟨-, rfl⟩ := hwins.here
      refine ⟨?_, ?_, fun r => ?_⟩
      · rw [Clock.setLive_live, if_pos rfl, Clock.dropBeneath_birth, h.birth]
      · rw [Clock.setLive_gone, Clock.dropBeneath_gone]
        simp [Clock.drops]
      · rw [hwrite]
        exact Entry.valueAt_place hpath hparent v r
  · have hne : path ≠ c.2.path := by
      rintro rfl
      have hnot := hnone c (by simp) ⟨rfl, rfl⟩
      rw [htaken] at hnot
      cases hnot
    obtain ⟨hlive, hgone⟩ := h.times path hnone.of_concat
    exact ⟨(hother path hne).1.trans hlive, (hother path hne).2.trans hgone⟩
  · have hoff : ¬ c.2.path <+: r := fun hle => by
      have hnot := hnone _ hle c (by simp) ⟨rfl, rfl⟩
      rw [htaken] at hnot
      cases hnot
    refine Eq.trans ?_ (h.kept r fun path hle => (hnone path hle).of_concat)
    by_cases habove : r <+: c.2.path.dropLast
    · exact Value.face_modifyAt (keepsObj_setField _ _) hparent habove
    · rw [Entry.valueAt_place_off hpath hparent v hoff habove]

end Placed

/-- One change more. -/
theorem Doc.Settled.next (h : d.Settled l d') (hsets : d.Sets (l ++ [c])) :
    ∃ d'', judgeAt c d' = some d'' ∧ d.Settled (l ++ [c]) d'' := by
  obtain ⟨v, hwrite, hplain⟩ := hsets.written c (by simp)
  obtain ⟨hpath, e, he, -⟩ := hsets.placed c (by simp)
  have hthere : (d'.records.get (sh.recordKey c.2.c c.2.id)).isSome = true := by rw [h.there, he]; rfl
  obtain ⟨e', he'⟩ := Option.isSome_iff_exists.mp hthere
  have hentry := h.entries _ e e' he he'
  obtain ⟨hparent, hcurrent⟩ := hentry.plain hsets he
  obtain ⟨d'', hd'', hget⟩ := judgeAt_set hwrite hplain hpath he' hparent hcurrent
  refine ⟨d'', hd'', fun k => ?_, fun k x x' hx hx' => ?_⟩
  · rw [hget, ← h.there]
    split_ifs with hk
    · rw [← hk.2, hthere]
      rfl
    · rfl
  rw [hget] at hx'
  split_ifs at hx' with hk
  · obtain ⟨htakes, rfl⟩ := hk
    obtain rfl : e = x := Option.some.inj (he.symm.trans hx)
    obtain ⟨htaken, hnewest⟩ := (h.takes_iff hsets).mp htakes
    exact Option.some.inj hx' ▸ hentry.landed hsets he hwrite htaken hnewest
  · refine (h.entries k x x' hx hx').concat fun path hwins => hk ⟨(h.takes_iff hsets).mpr ?_, hwins.here.1⟩
    obtain ⟨hkey, rfl⟩ := hwins.here
    refine ⟨hwins.taken, fun c₀ hold => lt_of_le_of_ne ?_ ?_⟩
    · exact hwins.newest c₀ (by simp [hold.mem]) ⟨hold.here.1.trans hkey, hold.here.2⟩ hold.taken
    · have htimes := hsets.times
      rw [List.map_append, List.nodup_append] at htimes
      exact htimes.2.2 c₀.1 (List.mem_map_of_mem hold.mem) c.1 (by simp)

theorem Doc.settled_nil (d : Doc sh) : d.Settled [] d := by
  refine ⟨fun _ => rfl, fun key e e' he he' => ?_⟩
  obtain rfl := Option.some.inj (he.symm.trans he')
  exact {
    birth := rfl
    won := fun _ _ hwins => absurd hwins.mem (by simp)
    times := fun _ _ => ⟨rfl, rfl⟩
    kept := fun _ _ => rfl }

theorem Doc.Sets.of_append {m : List (ℕ × Change)} (h : d.Sets (l ++ m)) : d.Sets l where
  written c hc := h.written c (by simp [hc])
  placed c hc := h.placed c (by simp [hc])
  apart c hc c' hc' := h.apart c (by simp [hc]) c' (by simp [hc'])
  times := by
    have htimes := h.times
    rw [List.map_append, List.nodup_append] at htimes
    exact htimes.1

/-- Values set in any order are decided, each place going to the newest that is taken there. -/
theorem Doc.Sets.settled (h : d.Sets l) : ∃ d', replay judgeAt l d = some d' ∧ d.Settled l d' := by
  induction l using List.reverseRecOn with
  | nil => exact ⟨d, rfl, d.settled_nil⟩
  | append_singleton l c ih =>
    obtain ⟨d', hd', hsettled⟩ := ih h.of_append
    obtain ⟨d'', hd'', hnext⟩ := hsettled.next h
    refine ⟨d'', ?_, hnext⟩
    rw [replay_append, hd', Option.bind_some, replay, hd'', Option.bind_some, replay]

theorem Doc.Sets.perm (h : d.Sets l) {l' : List (ℕ × Change)} (hperm : l.Perm l') : d.Sets l' where
  written c hc := h.written c (hperm.mem_iff.mpr hc)
  placed c hc := h.placed c (hperm.mem_iff.mpr hc)
  apart c hc c' hc' := h.apart c (hperm.mem_iff.mpr hc) c' (hperm.mem_iff.mpr hc')
  times := (hperm.map Prod.fst).nodup_iff.mp h.times

theorem Doc.Settled.perm (h : d.Settled l d') {l' : List (ℕ × Change)} (hperm : l.Perm l') :
    d.Settled l' d' := by
  have hwins : ∀ {key path c}, d.Wins l' key path c → d.Wins l key path c := fun hwins =>
    ⟨hperm.mem_iff.mpr hwins.mem, hwins.here, hwins.taken,
      fun c' hc' => hwins.newest c' (hperm.mem_iff.mp hc')⟩
  have hnone : ∀ {key path}, d.Unclaimed l' key path → d.Unclaimed l key path := fun hnone c hc =>
    hnone c (hperm.mem_iff.mp hc)
  refine ⟨h.there, fun key e e' he he' => ?_⟩
  have hentry := h.entries key e e' he he'
  exact ⟨hentry.birth, fun path c hw => hentry.won path c (hwins hw),
    fun path hn => hentry.times path (hnone hn),
    fun r hn => hentry.kept r fun path hle => hnone (hn path hle)⟩

/-- What is settled is settled one way. -/
theorem Entry.Settled.unique {e₁ e₂ : Entry} (h₁ : e.Settled d l key e₁) (h₂ : e.Settled d l key e₂) :
    e₁.data.Like e₂.data ∧ e₁.clock.Same e₂.clock := by
  refine ⟨fun r => ?_, h₁.birth.trans h₂.birth.symm, fun p => ?_, fun p => ?_⟩
  · by_cases hwon : ∃ path, path <+: r ∧ ∃ c, d.Wins l key path c
    · obtain ⟨path, ⟨s, rfl⟩, c, hwins⟩ := hwon
      rw [(h₁.won path c hwins).2.2, (h₂.won path c hwins).2.2]
    · have hnone : ∀ path, path <+: r → d.Unclaimed l key path := fun path hle =>
        (d.wins_or_unclaimed l key path).resolve_left fun ⟨c, hwins⟩ => hwon ⟨path, hle, c, hwins⟩
      exact (h₁.kept r hnone).trans (h₂.kept r hnone).symm
  · rcases d.wins_or_unclaimed l key p with ⟨c, hwins⟩ | hnone
    · rw [(h₁.won p c hwins).1, (h₂.won p c hwins).1]
    · rw [(h₁.times p hnone).1, (h₂.times p hnone).1]
  · rcases d.wins_or_unclaimed l key p with ⟨c, hwins⟩ | hnone
    · rw [(h₁.won p c hwins).2.1, (h₂.won p c hwins).2.1]
    · rw [(h₁.times p hnone).2, (h₂.times p hnone).2]

end Judged

/-- The same records there, each with the same value, the order of fields apart, and the same clock as
it is stored. -/
structure Doc.Like (d d' : Doc sh) : Prop where
  there : ∀ k, (d.records.get k).isSome = (d'.records.get k).isSome
  entries : ∀ k e e', d.records.get k = some e → d'.records.get k = some e' →
    e.data.Like e'.data ∧ e.clock.Same e'.clock

/-- Plain values set at distinct times, at places apart, end the same in any two orders: each place goes
to the newest of those the doc takes there, and is left where it takes none. -/
theorem later_edit_wins {d : Doc sh} {l l' : List (ℕ × Change)} (hsets : d.Sets l) (hperm : l.Perm l') :
    ∃ d₁ d₂, replay judgeAt l d = some d₁ ∧ replay judgeAt l' d = some d₂ ∧
      d.Settled l d₁ ∧ d.Settled l d₂ ∧ d₁.Like d₂ := by
  obtain ⟨d₁, hd₁, hsettled₁⟩ := hsets.settled
  obtain ⟨d₂, hd₂, hsettled₂⟩ := (hsets.perm hperm).settled
  have hsettled₂ := hsettled₂.perm hperm.symm
  refine ⟨d₁, d₂, hd₁, hd₂, hsettled₁, hsettled₂, fun k => ?_, fun k e₁ e₂ he₁ he₂ => ?_⟩
  · rw [hsettled₁.there, hsettled₂.there]
  · have hthere : (d.records.get k).isSome = true := by rw [← hsettled₁.there, he₁]; rfl
    obtain ⟨e, he⟩ := Option.isSome_iff_exists.mp hthere
    exact (hsettled₁.entries k e e₁ he he₁).unique (hsettled₂.entries k e e₂ he he₂)

/-- A task's name, twice, and a comment's text. -/
def renames : List (ℕ × Change) :=
  [(30, ⟨"tasks", some "t1", ["name"], .set (.str "b")⟩), (20, ⟨"tasks", some "t1", ["name"], .set (.str "a")⟩),
    (25, ⟨"comments", some "k1", ["text"], .set (.num 1)⟩)]

theorem later_edit_wins_on_board : ∃ d₁ d₂,
    replay judgeAt renames (commented board) = some d₁ ∧
      replay judgeAt renames.reverse (commented board) = some d₂ ∧
      (commented board).Settled renames d₁ ∧ (commented board).Settled renames d₂ ∧ d₁.Like d₂ := by
  refine later_edit_wins ⟨?_, ?_, ?_, by decide⟩ renames.reverse_perm.symm
  · simp [renames, Value.isObj, Value.fields?]
  · simp only [renames, List.forall_mem_cons]
    refine ⟨⟨by simp, _, rfl, rfl, rfl⟩, ⟨by simp, _, rfl, rfl, rfl⟩, ⟨by simp, _, rfl, rfl, rfl⟩, by simp⟩
  · decide

/-- A comment moved to a task that is there, and then to one that is not: the later is newer than all
there was, and is not taken. -/
def moves : List (ℕ × Change) :=
  [(20, ⟨"comments", some "k1", ["task"], .set (.str "t2")⟩),
    (50, ⟨"comments", some "k1", ["task"], .set (.str "t9")⟩)]

theorem later_move_loses :
    let d : Doc board := Doc.load board
      [(("tasks", some "t1"), ⟨.obj [], .born 1⟩), (("tasks", some "t2"), ⟨.obj [], .born 1⟩),
        (("comments", some "k1"), ⟨.obj [("task", .str "t1")], .born 1⟩)]
    d.Sets moves ∧ (d.records.get ("comments", some "k1")).any (fun e =>
        !e.stale ["task"] 50 && !e.outlives 50 ["task"] false) = true ∧
      ∃ d', replay judgeAt moves d = some d' ∧
        (d'.get ("comments", some "k1")).bind (valueAt · ["task"]) = some (.str "t2") := by
  intro d
  refine ⟨⟨?_, ?_, ?_, by decide⟩, by decide +kernel, _, rfl, by decide +kernel⟩
  · simp [moves, Value.isObj, Value.fields?]
  · simp only [moves, List.forall_mem_cons]
    refine ⟨⟨by simp, _, rfl, rfl, rfl⟩, ⟨by simp, _, rfl, rfl, rfl⟩, by simp⟩
  · decide

end LazyStorage.Core
