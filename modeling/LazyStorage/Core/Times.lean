import LazyStorage.Core.Apart
import LazyStorage.Core.Arrays
import LazyStorage.Lib.Runs

/-! # No newer time is forgotten

A clock keeps few times: a birth, what differs from it, and nothing beneath a
container that was replaced. For what landed at a place since its record was made,
it still holds at the place, or on the way there, a time no older. So what lands
over a place, or takes it away, is no older than anything that landed there.
-/
namespace LazyStorage.Core

open Lib

variable {sh : Shape} {ts : ℕ} {key : RecordKey}

/-- Whether a clock holds, at a place or on the way there, a time no older than one. -/
def Clock.Keeps (c : Clock) (q : Path) (t : ℕ) : Prop :=
  (∃ b, c.birth = some b ∧ t ≤ b) ∨
    ∃ r s, r <+: q ∧ t ≤ s ∧ (c.live.get r = some s ∨ c.gone.get r = some s)

theorem Clock.Keeps.mono {c : Clock} {p q : Path} {s t : ℕ} (h : c.Keeps p s) (hq : p <+: q) (ht : t ≤ s) :
    c.Keeps q t := by
  rcases h with ⟨b, hb, hle⟩ | ⟨r, s', hr, hle, htime⟩
  · exact .inl ⟨b, hb, ht.trans hle⟩
  · exact .inr ⟨r, s', hr.trans hq, ht.trans hle, htime⟩

theorem Clock.Keeps.off {c c' : Clock} {path q : Path} {t : ℕ} (h : c.Keeps q t) (hoff : c.Off path c')
    (hq : ¬ path <+: q) : c'.Keeps q t := by
  rcases h with ⟨b, hb, hle⟩ | ⟨r, s, hr, hle, htime⟩
  · exact .inl ⟨b, hoff.birth.trans hb, hle⟩
  · have hr' : ¬ path <+: r := fun hle => hq (hle.trans hr)
    rw [← hoff.live r hr', ← hoff.gone r hr'] at htime
    exact .inr ⟨r, s, hr, hle, htime⟩

theorem Clock.keeps_setLive (c : Clock) (path : Path) (ts : ℕ) : (c.setLive path ts).Keeps path ts := by
  by_cases hbirth : c.birth = some ts
  · exact .inl ⟨ts, by simp [hbirth], le_rfl⟩
  · exact .inr ⟨path, ts, List.prefix_rfl, le_rfl, .inl (by simp [Clock.setLive_live, hbirth])⟩

/-- Whether something is at a place of a value, led to by containers. -/
def Value.HoldsAt (v : Value) (s : Path) : Prop :=
  valueAt v s ≠ none ∧ ∀ q, q <+: s → q ≠ s → ∃ fs, valueAt v q = some (.obj fs)

theorem Value.holdsAt_nil (v : Value) : v.HoldsAt [] :=
  ⟨by simp, fun _ hq hne => absurd (List.prefix_nil.mp hq) hne⟩

theorem Value.HoldsAt.cons {fs : List (String × Value)} {k : String} {v : Value} {s : Path}
    (hk : Assoc.get fs k = some v) (h : v.HoldsAt s) : (Value.obj fs).HoldsAt (k :: s) := by
  have hstep : ∀ r, valueAt (.obj fs) (k :: r) = valueAt v r := fun r => by
    simp [valueAt_cons, Value.prop, hk]
  refine ⟨by rw [hstep]; exact h.1, fun q hq hne => ?_⟩
  cases q with
  | nil => exact ⟨fs, rfl⟩
  | cons k' q =>
    obtain ⟨rfl, hle⟩ := List.cons_prefix_cons.mp hq
    rw [hstep]
    exact h.2 q hle fun heq => hne (by rw [heq])

/-- A value written at a path has its times where it has its places. -/
theorem stampInside_spec (value : Value) : ∀ (path : Path) (c : Clock), distinct value = true →
    (Clock.stampInside sh key ts value path c).gone = c.gone ∧
      (∀ r, (Clock.stampInside sh key ts value path c).live.get r ≠ none →
        c.live.get r ≠ none ∨ ∃ s, r = path ++ s ∧ value.HoldsAt s) ∧
      (Clock.stampInside sh key ts value path c).Keeps path ts := by
  have hset : ∀ (value : Value) (path : Path) (c : Clock), (c.setLive path ts).gone = c.gone ∧
      (∀ r, (c.setLive path ts).live.get r ≠ none →
        c.live.get r ≠ none ∨ ∃ s, r = path ++ s ∧ value.HoldsAt s) ∧
      (c.setLive path ts).Keeps path ts := by
    refine fun value path c => ⟨by simp, fun r hr => ?_, c.keeps_setLive path ts⟩
    rw [Clock.setLive_live] at hr
    split_ifs at hr with heq
    · exact absurd rfl hr
    · exact .inr ⟨[], by simp [heq], value.holdsAt_nil⟩
    · exact .inl hr
  induction value using Value.merging_induction with
  | leaf v hv =>
    intro path c _
    have hleaf := hset v path c
    cases v <;> first | exact hleaf | exact absurd hv (by simp)
  | fields fs ih =>
    intro path c hdistinct
    simp only [distinct, Bool.and_eq_true, decide_eq_true_eq, distinctFields_iff] at hdistinct
    have hall : ∀ gs : List (String × Value), (∀ g ∈ gs, g ∈ fs) → ∀ c : Clock,
        c.Keeps path ts → (Clock.stampFields sh key ts gs path c).gone = c.gone ∧
          (∀ r, (Clock.stampFields sh key ts gs path c).live.get r ≠ none →
            c.live.get r ≠ none ∨ ∃ s, r = path ++ s ∧ (Value.obj fs).HoldsAt s) ∧
          (Clock.stampFields sh key ts gs path c).Keeps path ts := by
      intro gs hg
      induction gs with
      | nil => exact fun c hc => ⟨rfl, fun r hr => .inl hr, hc⟩
      | cons g gs ihg =>
        intro c hc
        have hin := hg g (by simp)
        obtain ⟨hgone, hlive, -⟩ := ih g hin (path ++ [g.1]) c (hdistinct.2 g hin)
        have hself : ¬ path ++ [g.1] <+: path := fun hle => by
          have hlen := hle.length_le
          rw [List.length_append, List.length_singleton] at hlen
          omega
        have hkept := hc.off (Clock.Off.stampInside sh key ts g.2 (path ++ [g.1]) c) hself
        obtain ⟨hgone', hlive', hkept'⟩ := ihg (fun g hg' => hg g (by simp [hg'])) _ hkept
        refine ⟨hgone'.trans hgone, fun r hr => ?_, hkept'⟩
        rcases hlive' r hr with hr | hr
        · refine (hlive r hr).imp_right ?_
          rintro ⟨s, hs, hholds⟩
          exact ⟨g.1 :: s, by simpa using hs, hholds.cons (Assoc.get_of_mem hdistinct.1 hin)⟩
        · exact .inr hr
    obtain ⟨hgone, hlive, hkeeps⟩ := hset (.obj fs) path c
    simp only [Clock.stampInside]
    split_ifs
    · exact hset (.obj fs) path c
    · obtain ⟨hgone', hlive', hkept⟩ := hall fs (fun _ h => h) _ hkeeps
      exact ⟨hgone'.trans hgone, fun r hr => (hlive' r hr).elim (hlive r) .inr, hkept⟩

/-- An entry whose clock has its times where they belong: inside containers, what was written where
something is, and what was deleted where nothing is. -/
structure Entry.Tidy (e : Entry) : Prop where
  root : e.clock.live.get [] = none ∧ e.clock.gone.get [] = none
  above : ∀ r, e.clock.live.get r ≠ none ∨ e.clock.gone.get r ≠ none → ∀ q, q <+: r → q ≠ r →
    ∃ fs, valueAt e.data q = some (.obj fs)
  live : ∀ r, e.clock.live.get r ≠ none → valueAt e.data r ≠ none
  gone : ∀ r, e.clock.gone.get r ≠ none → valueAt e.data r = none

namespace Entry

variable {path q r : Path} {e e' : Entry} {kind : Kind} {value : Value} {w : Write} {t : ℕ}
  {fs : List (String × Value)}

theorem tidy_of_bare (hlive : e.clock.live = .empty) (hgone : e.clock.gone = .empty) : e.Tidy := by
  constructor <;> simp [hlive, hgone]

/-- A change that is not stale is no older than what is above it. -/
theorem le_of_stale (hstale : e.stale path ts = false) (hr : r <+: path) (hne : r ≠ path) {s : ℕ}
    (hs : e.clock.liveAt r = some s) : s ≤ ts := by
  have hlen : r.length < path.length := by
    refine lt_of_le_of_ne hr.length_le fun heq => hne (hr.eq_of_length heq)
  have hold := List.any_eq_false.mp hstale r.length (List.mem_range.mpr hlen)
  rw [← List.prefix_iff_eq_take.mp hr, hs] at hold
  simpa [newer] using hold

theorem liveAt_of_get {c : Clock} {s : ℕ} (h : c.live.get r = some s) : c.liveAt r = some s := by
  simp [Clock.liveAt, h]

/-- What lands is no older than anything at its place or beneath it. -/
theorem Landing.newest (h : e.Landing sh .judge ts key path kind value e' w) (hpath : path ≠ [])
    (htidy : e.Tidy) (hstale : e.stale path ts = false)
    (hsolid : ∀ q, q <+: path.dropLast → ∃ fs, valueAt e.data q = some (.obj fs))
    (hkeeps : e.clock.Keeps q t) (hq : path <+: q) : t ≤ ts := by
  obtain ⟨fs, hparent⟩ := hsolid path.dropLast List.prefix_rfl
  have hcurrent := current_eq hpath hparent
  rcases hkeeps with ⟨b, hb, hle⟩ | ⟨r, s, hr, hle, htime⟩
  · refine hle.trans (le_of_stale hstale List.nil_prefix (Ne.symm hpath) ?_)
    simp [Clock.liveAt, htidy.root.1, hb]
  refine hle.trans ?_
  by_cases heq : r = path
  · subst heq
    cases h with
    | fresh _ habsent hnewest =>
      rcases htime with hlive | hgone
      · exact absurd (hcurrent ▸ habsent) (htidy.live r (by simp [hlive]))
      · simpa [hgone, newer] using hnewest rfl
    | replaced _ _ hnewest =>
      have hquiet := hnewest rfl
      simp only [outlives, Bool.or_eq_false_iff] at hquiet
      rcases htime with hlive | hgone
      · simpa [liveAt_of_get hlive, newer] using hquiet.1.1
      · simpa [hgone, newer] using hquiet.1.2
    | gone _ hthere hnewest =>
      rcases htime with hlive | hgone
      · simpa [liveAt_of_get hlive, newer] using (hnewest rfl).1
      · have hnone := htidy.gone r (by simp [hgone])
        rw [← hcurrent, hthere] at hnone
        cases hnone
  rcases List.prefix_or_prefix_of_prefix hr hq with hle | hle
  · rcases htime with hlive | hgone
    · exact le_of_stale hstale hle heq (liveAt_of_get hlive)
    · obtain ⟨gs, hgs⟩ := hsolid r (prefix_dropLast hle heq)
      rw [htidy.gone r (by simp [hgone])] at hgs
      cases hgs
  -- the time is beneath the path, where a container is
  obtain ⟨gs, hgs⟩ := htidy.above r (by rcases htime with h | h <;> simp [h]) path hle (Ne.symm heq)
  rw [← hcurrent] at hgs
  have hbeneath : beneath path false r = true := by simp [beneath, hle, heq]
  have hall : e.clock.newerBeneath path ts = false → s ≤ ts := by
    intro hnone
    rw [← Bool.not_eq_true, Clock.newerBeneath_iff] at hnone
    by_contra hlt
    refine hnone (.inr ⟨r, hbeneath, htime.imp (fun h => ?_) fun h => ?_⟩) <;>
      simpa [h, newer] using hlt
  cases h with
  | fresh _ habsent _ => simp [habsent] at hgs
  | replaced _ _ hnewest =>
    have hquiet := hnewest rfl
    simp only [outlives, hgs, Option.any_some, Value.isObj, Value.fields?, Option.isSome_some,
      Bool.true_and, Bool.or_eq_false_iff] at hquiet
    exact hall hquiet.2
  | gone _ hthere hnewest =>
    obtain rfl := Option.some.inj (hthere.symm.trans hgs)
    exact hall ((hnewest rfl).2 rfl)

/-- Nothing is left of the times at and beneath a path. -/
theorem Tidy.dropped (htidy : e.Tidy) (hpath : path ≠ [])
    (hparent : valueAt e.data path.dropLast = some (.obj fs)) {container : Bool}
    (hcontainer : container = (e.current path).any Value.isObj) (hr : path <+: r) :
    (e.clock.dropBeneath path true container).live.get r = none ∧
      (e.clock.dropBeneath path true container).gone.get r = none := by
  have hkept : Clock.drops path true container r = false →
      e.clock.live.get r = none ∧ e.clock.gone.get r = none := by
    intro hdrops
    by_contra hthere
    rw [not_and_or] at hthere
    cases container with
    | true =>
      have hunder := List.isPrefixOf_iff_prefix.mpr hr
      simp [Clock.drops, beneath, hunder] at hdrops
    | false =>
      have hne : r ≠ path := by simpa [Clock.drops] using hdrops
      obtain ⟨gs, hgs⟩ := htidy.above r hthere path hr (Ne.symm hne)
      rw [← current_eq hpath hparent] at hgs
      simp [hgs] at hcontainer
  rw [Clock.dropBeneath_live, Clock.dropBeneath_gone]
  cases hdrops : Clock.drops path true container r with
  | true => exact ⟨rfl, rfl⟩
  | false => exact hkept hdrops

/-- An entry that is tidy off a path, and at and beneath it. -/
theorem Tidy.of_off (htidy : e.Tidy) (hoff : e.Off path e') (hpath : path ≠ [])
    (hway : ∀ q, q <+: path.dropLast → ∃ fs, valueAt e.data q = some (.obj fs))
    (hway' : ∀ q, q <+: path.dropLast → ∃ fs, valueAt e'.data q = some (.obj fs))
    (hlive : ∀ r, path <+: r → e'.clock.live.get r ≠ none →
      ∃ v s, valueAt e'.data path = some v ∧ r = path ++ s ∧ v.HoldsAt s)
    (hgone : ∀ r, path <+: r → e'.clock.gone.get r ≠ none → r = path ∧ valueAt e'.data path = none) :
    e'.Tidy where
  root := by
    have hnil : ¬ path <+: [] := fun hle => hpath (List.prefix_nil.mp hle)
    rw [hoff.clock.live [] hnil, hoff.clock.gone [] hnil]
    exact htidy.root
  above r hr q hq hne := by
    by_cases hle : path <+: r
    swap
    · rw [hoff.clock.live r hle, hoff.clock.gone r hle] at hr
      by_cases hq' : q <+: path.dropLast
      · exact hway' q hq'
      · rw [hoff.data q (fun hle' => hle (hle'.trans hq)) hq']
        exact htidy.above r hr q hq hne
    rcases hr with hr | hr
    · obtain ⟨v, s, hv, rfl, hholds⟩ := hlive r hle hr
      by_cases hq' : path <+: q
      · obtain ⟨q, rfl⟩ := hq'
        rw [valueAt_append, hv, Option.bind_some]
        exact hholds.2 q ((List.prefix_append_right_inj path).mp hq) fun heq => hne (by rw [heq])
      · have hle' := (List.prefix_or_prefix_of_prefix hq (List.prefix_append path s)).resolve_right hq'
        exact hway' q (prefix_dropLast hle' fun heq => hq' (heq ▸ List.prefix_rfl))
    · obtain ⟨rfl, -⟩ := hgone r hle hr
      exact hway' q (prefix_dropLast hq hne)
  live r hr := by
    by_cases hle : path <+: r
    · obtain ⟨v, s, hv, rfl, hholds⟩ := hlive r hle hr
      rw [valueAt_append, hv, Option.bind_some]
      exact hholds.1
    · by_cases hq : r <+: path.dropLast
      · obtain ⟨gs, hgs⟩ := hway' r hq
        simp [hgs]
      · rw [hoff.clock.live r hle] at hr
        rw [hoff.data r hle hq]
        exact htidy.live r hr
  gone r hr := by
    by_cases hle : path <+: r
    · obtain ⟨rfl, hnone⟩ := hgone r hle hr
      exact hnone
    · rw [hoff.clock.gone r hle] at hr
      have hnone := htidy.gone r hr
      rw [hoff.data r hle fun hq => ?_]
      · exact hnone
      · obtain ⟨gs, hgs⟩ := hway r hq
        rw [hnone] at hgs
        cases hgs

/-- What lands leaves a tidy entry, which keeps its time at its path. -/
theorem Landing.tidy {mode : Mode} (h : e.Landing sh mode ts key path kind value e' w) (hpath : path ≠ [])
    (hvalue : distinct value = true) (htidy : e.Tidy)
    (hway : ∀ q, q <+: path.dropLast → ∃ fs, valueAt e.data q = some (.obj fs))
    (hway' : ∀ q, q <+: path.dropLast → ∃ fs, valueAt e'.data q = some (.obj fs)) :
    e'.Tidy ∧ e'.clock.Keeps path ts := by
  obtain ⟨fs, hparent⟩ := hway path.dropLast List.prefix_rfl
  have hoff := h.off hpath hparent
  have hplaced : valueAt (e.place path value) path = some value := by
    simpa using valueAt_place hpath hparent value []
  have herased : valueAt (e.erase path) path = none := by
    simpa using valueAt_erase hpath hparent []
  cases h with
  | fresh _ habsent =>
    have hleaf : false = (e.current path).any Value.isObj := by simp [habsent]
    have hdropped : ∀ r, path <+: r → _ := fun r hr => htidy.dropped hpath hparent hleaf hr
    obtain ⟨hgone, hlive, hkeeps⟩ := @stampInside_spec sh ts key value path
      (e.clock.dropBeneath path true false) hvalue
    refine ⟨htidy.of_off hoff hpath hway hway' (fun r hr hthere => ?_) fun r hr hthere => ?_, hkeeps⟩
    · rcases hlive r hthere with hold | ⟨s, rfl, hholds⟩
      · exact absurd (hdropped r hr).1 hold
      · exact ⟨value, s, hplaced, rfl, hholds⟩
    · simp only [hgone] at hthere
      exact absurd (hdropped r hr).2 hthere
  | replaced =>
    have hdropped : ∀ r, path <+: r → _ := fun r hr => htidy.dropped hpath hparent rfl hr
    refine ⟨htidy.of_off hoff hpath hway hway' (fun r hr hthere => ?_) fun r hr hthere => ?_,
      Clock.keeps_setLive _ _ _⟩
    · simp only [Clock.setLive_live] at hthere
      by_cases heq : path = r
      · exact ⟨value, [], hplaced, by simp [heq], value.holdsAt_nil⟩
      · rw [if_neg heq] at hthere
        exact absurd (hdropped r hr).1 hthere
    · simp only [Clock.setLive_gone] at hthere
      exact absurd (hdropped r hr).2 hthere
  | gone _ hthere =>
    have hdropped : ∀ r, path <+: r → _ := fun r hr => htidy.dropped hpath hparent
      (by rw [hthere, Option.any_some]) hr
    refine ⟨htidy.of_off hoff hpath hway hway' (fun r hr hlive => ?_) fun r hr hgone => ?_,
      .inr ⟨path, ts, List.prefix_rfl, le_rfl, .inr (by simp [Clock.setGone])⟩⟩
    · exact absurd (hdropped r hr).1 hlive
    · refine ⟨?_, herased⟩
      by_contra hne
      simp only [Clock.setGone, OrderedMap.get_set_of_ne _ _ (Ne.symm hne)] at hgone
      exact hgone (hdropped r hr).2

end Entry

/-- What landed in a record since it was last made, each with its time. -/
def remember (sh : Shape) (key : RecordKey) (made : List (Path × ℕ)) (e : ℕ × Change) :
    List (Path × ℕ) :=
  if sh.recordKey e.2.c e.2.id = key then
    if e.2.path = [] ∧ e.2.write = .del then [] else made ++ [(e.2.path, e.1)]
  else made

def sinceMade (sh : Shape) (key : RecordKey) (log : List (ℕ × Change)) : List (Path × ℕ) :=
  log.foldl (remember sh key) []

/-- Whether each change in turn is no older than what landed at its place or beneath it since its record
was last made. -/
def NoneNewer (sh : Shape) (ts : ℕ) : List Change → List (ℕ × Change) → Prop
  | [], _ => True
  | x :: rest, log =>
    (∀ m ∈ sinceMade sh (sh.recordKey x.c x.id) log, x.path <+: m.1 → m.2 ≤ ts) ∧
      NoneNewer sh ts rest (log ++ [(ts, x)])

theorem noneNewer_append {as bs : List Change} {log : List (ℕ × Change)} :
    NoneNewer sh ts (as ++ bs) log ↔
      NoneNewer sh ts as log ∧ NoneNewer sh ts bs (log ++ as.map (ts, ·)) := by
  induction as generalizing log with
  | nil => simp [NoneNewer]
  | cons x as ih => simp [NoneNewer, ih, and_assoc]

theorem sinceMade_concat (log : List (ℕ × Change)) (e : ℕ × Change) :
    sinceMade sh key (log ++ [e]) = remember sh key (sinceMade sh key log) e := by
  simp [sinceMade]

/-- Deletions of whole records clear theirs, and no other. -/
theorem sinceMade_deletions {gone : List RecordKey} (hgone : ∀ k ∈ gone, Normal sh k)
    (log : List (ℕ × Change)) :
    sinceMade sh key (log ++ gone.map fun k => (ts, ⟨k.1, k.2, [], .del⟩)) =
      if key ∈ gone then [] else sinceMade sh key log := by
  induction gone generalizing log with
  | nil => simp
  | cons k gone ih =>
    have hk : sh.recordKey k.1 k.2 = k := hgone k (by simp)
    have hone := ih (fun k hk => hgone k (by simp [hk])) (log ++ [(ts, ⟨k.1, k.2, [], .del⟩)])
    rw [List.append_assoc, List.singleton_append] at hone
    rw [List.map_cons, hone, sinceMade_concat]
    have hcomm : (key = k) = (k = key) := propext eq_comm
    simp only [remember, hk, and_self, if_true, List.mem_cons, hcomm]
    by_cases hmem : key ∈ gone <;> by_cases heq : k = key <;> simp [hmem, heq]

theorem noneNewer_deletions {gone : List RecordKey} {log : List (ℕ × Change)}
    (hgone : ∀ k ∈ gone, Normal sh k) (hall : ∀ k ∈ gone, ∀ m ∈ sinceMade sh k log, m.2 ≤ ts) :
    NoneNewer sh ts (gone.map fun k => ⟨k.1, k.2, [], .del⟩) log := by
  induction gone generalizing log with
  | nil => trivial
  | cons k gone ih =>
    have hk : sh.recordKey k.1 k.2 = k := hgone k (by simp)
    refine ⟨fun m hm _ => hall k (by simp) m (hk ▸ hm), ih (fun x hx => hgone x (by simp [hx])) ?_⟩
    intro x hx m hm
    rw [sinceMade_concat] at hm
    simp only [remember, hk, and_self, if_true] at hm
    split_ifs at hm
    · cases hm
    · exact hall x (by simp [hx]) m hm

namespace Doc

/-- A doc whose clocks hold a time no older for whatever landed in a record since it was made. -/
structure Remembers (d : Doc sh) (log : List (ℕ × Change)) : Prop where
  indexed : d.Indexed
  absent : ∀ key, d.records.get key = none → sinceMade sh key log = []
  tidy : ∀ key e, d.records.get key = some e → e.Tidy
  kept : ∀ key e, d.records.get key = some e → ∀ m ∈ sinceMade sh key log, e.clock.Keeps m.1 m.2

variable {d d' : Doc sh} {log : List (ℕ × Change)}

theorem Remembers.of_same (h : d.Remembers log) (hfollows : d.Follows d')
    (hsame : ∀ k, d'.records.get k = d.records.get k) : d'.Remembers log where
  indexed := hfollows.indexed h.indexed
  absent key hnone := h.absent key (hsame key ▸ hnone)
  tidy key e he := h.tidy key e (hsame key ▸ he)
  kept key e he := h.kept key e (hsame key ▸ he)

/-- One record written, in part or whole. -/
theorem Remembers.landed (h : d.Remembers log) (hfollows : d.Follows d') (hkey : Normal sh key) {path : Path}
    {w : Write} (hw : path = [] → w ≠ .del) {e' : Entry}
    (hget : ∀ k, d'.records.get k = if key = k then some e' else d.records.get k) (htidy : e'.Tidy)
    (hkept : ∀ m ∈ sinceMade sh key log ++ [(path, ts)], e'.clock.Keeps m.1 m.2) :
    d'.Remembers (log ++ [(ts, ⟨key.1, key.2, path, w⟩)]) := by
  have hkey : sh.recordKey key.1 key.2 = key := hkey
  have hmade : ∀ k, sinceMade sh k (log ++ [(ts, ⟨key.1, key.2, path, w⟩)]) =
      if key = k then sinceMade sh k log ++ [(path, ts)] else sinceMade sh k log := by
    intro k
    have hno : ¬ (path = [] ∧ w = .del) := fun h => hw h.1 h.2
    simp only [sinceMade_concat, remember, hkey, if_neg hno]
  refine ⟨hfollows.indexed h.indexed, fun k hnone => ?_, fun k e he => ?_, fun k e he m hm => ?_⟩
  · rw [hget] at hnone
    split_ifs at hnone with hk
    rw [hmade, if_neg hk]
    exact h.absent k hnone
  · rw [hget] at he
    split_ifs at he with hk
    · exact Option.some.inj he ▸ htidy
    · exact h.tidy k e he
  · rw [hget] at he
    rw [hmade] at hm
    split_ifs at he hm with hk
    · subst hk
      exact Option.some.inj he ▸ hkept m hm
    · exact h.kept k e he m hm

end Doc

theorem Clock.Keeps.lt_maxOf {c : Clock} {q : Path} {t : ℕ} (h : c.Keeps q t) (hlt : ts < t) :
    (ts : ℤ) < c.maxOf := by
  rw [Clock.lt_maxOf]
  rcases h with ⟨b, hb, hle⟩ | ⟨r, s, -, hle, htime⟩
  · exact ⟨b, (Clock.mem_times c).mpr (.inl hb), by omega⟩
  · refine ⟨s, (Clock.mem_times c).mpr (.inr ?_), by omega⟩
    exact htime.imp (fun h => ⟨r, h⟩) fun h => ⟨r, h⟩

/-- A cascade, as it reports it: the records that went, each beneath the one it starts from. -/
theorem removeRecord_gone (fuel : ℕ) {d : Doc sh} (hkey : Normal sh key) :
    ∃ gone : List RecordKey,
      (d.removeRecord true fuel key).applied = gone.map (fun k => ⟨k.1, k.2, [], .del⟩) ∧
      (∀ k ∈ gone, Normal sh k ∧ (d.records.get k).isSome = true ∧
        (d.removeRecord true fuel key).doc.records.get k = none) ∧
      ∀ k, k ∉ gone → (d.removeRecord true fuel key).doc.records.get k = d.records.get k := by
  induction fuel generalizing d key with
  | zero => exact ⟨[], rfl, by simp, fun _ _ => rfl⟩
  | succ fuel ih =>
    by_cases hnone : (d.get key).isNone = true
    · simp only [Doc.removeRecord, hnone, if_true]
      exact ⟨[], rfl, by simp, fun _ _ => rfl⟩
    simp only [Doc.removeRecord, hnone, if_true, Bool.false_eq_true, if_false]
    have hthere : (d.records.get key).isSome = true := by
      simpa [Doc.get, Option.isSome_iff_ne_none] using hnone
    refine List.foldlRecOn _ _ (motive := fun out : Outcome sh => ∃ gone : List RecordKey,
      out.applied = gone.map (fun k => ⟨k.1, k.2, [], .del⟩) ∧
      (∀ k ∈ gone, Normal sh k ∧ (d.records.get k).isSome = true ∧ out.doc.records.get k = none) ∧
      ∀ k, k ∉ gone → out.doc.records.get k = d.records.get k) ?_ ?_
    · refine ⟨[key], rfl, fun k hk => ?_, fun k hk => ?_⟩
      · obtain rfl := List.mem_singleton.mp hk
        exact ⟨hkey, hthere, (Doc.records_dropped d k k).trans (if_pos rfl)⟩
      · exact (Doc.records_dropped d key k).trans (if_neg fun heq => hk (by simp [heq]))
    · rintro out ⟨gone, happlied, hgone, hkept⟩ kid hkid
      have hnormal := (normal_of_parentsOf (ChildIndex.parentsOf_of_mem_childrenOf hkid)).1
      obtain ⟨more, happlied', hgone', hkept'⟩ := ih (d := out.doc) hnormal
      refine ⟨gone ++ more, ?_, fun k hk => ?_, fun k hk => ?_⟩
      · simp only [Outcome.andThen, happlied, happlied', List.map_append]
      · rcases List.mem_append.mp hk with hk | hk
        · obtain ⟨hn, hsome, hnone⟩ := hgone k hk
          refine ⟨hn, hsome, ?_⟩
          by_cases hmore : k ∈ more
          · exact (hgone' k hmore).2.2
          · exact (hkept' k hmore).trans hnone
        · obtain ⟨hn, hsome, hnone⟩ := hgone' k hk
          refine ⟨hn, ?_, hnone⟩
          have hleft : k ∉ gone := fun hin => by
            rw [(hgone k hin).2.2] at hsome
            cases hsome
          exact hkept k hleft ▸ hsome
      · rw [List.mem_append, not_or] at hk
        exact (hkept' k hk.2).trans (hkept k hk.1)

/-- What deciding changes does for what a doc remembers. -/
def Carries (ts : ℕ) (d : Doc sh) (out : Outcome sh) : Prop :=
  ∀ log, d.Remembers log →
    out.doc.Remembers (log ++ out.applied.map (ts, ·)) ∧ NoneNewer sh ts out.applied log

namespace Carries

variable {d : Doc sh} {out more : Outcome sh}

theorem andThen (h : Carries ts d out) (h' : Carries ts out.doc more) :
    Carries ts d (out.andThen fun _ => more) := by
  intro log hlog
  obtain ⟨hout, hnewest⟩ := h log hlog
  obtain ⟨hmore, hnewest'⟩ := h' _ hout
  refine ⟨?_, noneNewer_append.mpr ⟨hnewest, hnewest'⟩⟩
  simpa [Outcome.andThen] using hmore

theorem of_quiet (ha : out.applied = []) (hfollows : d.Follows out.doc)
    (hsame : ∀ k, out.doc.records.get k = d.records.get k) : Carries ts d out := by
  intro log hlog
  rw [ha]
  exact ⟨by simpa using hlog.of_same hfollows hsame, trivial⟩

/-- A record written whole where none is, or over one with no newer time. -/
theorem of_write (hkey : Normal sh key) {value : Value} {w : Write} (hw : w ≠ .del)
    (hnewest : ∀ e, d.records.get key = some e → ¬ (ts : ℤ) < e.clock.maxOf) :
    Carries ts d (writeWhole ts key value w d) := by
  intro log hlog
  have hkeys : sh.recordKey key.1 key.2 = key := hkey
  have hall : ∀ m ∈ sinceMade sh key log, m.2 ≤ ts := by
    intro m hm
    cases he : d.records.get key with
    | none => simp [hlog.absent key he] at hm
    | some e =>
      by_contra hlt
      exact hnewest e he ((hlog.kept key e he m hm).lt_maxOf (not_le.mp hlt))
  refine ⟨?_, fun m hm _ => hall m (hkeys ▸ hm), trivial⟩
  have htidy : (⟨value, .born ts⟩ : Entry).Tidy := Entry.tidy_of_bare rfl rfl
  refine hlog.landed (d.follows_write key _) hkey (fun _ => hw) (fun k => ?_) htidy fun m hm => ?_
  · simp [OrderedMap.get_set]
  · refine .inl ⟨ts, rfl, ?_⟩
    rcases List.mem_append.mp hm with hm | hm
    · exact hall m hm
    · rw [List.mem_singleton.mp hm]

/-- A record that no newer time speaks for, deleted with what it takes along. -/
theorem of_remove (hkey : Normal sh key) (fuel : ℕ)
    (hnewest : ¬ (ts : ℤ) < d.subtreeMax key) : Carries ts d (d.removeRecord true fuel key) := by
  intro log hlog
  obtain ⟨gone, happlied, hgone, hkept⟩ := removeRecord_gone fuel (d := d) hkey
  have hfollows : d.Follows (d.removeRecord true fuel key).doc :=
    removeRecord_keeps (P := d.Follows) (fun x k hx _ => hx.trans (x.follows_drop k)) true fuel (.refl d) key
  have hall : ∀ k ∈ gone, ∀ m ∈ sinceMade sh k log, m.2 ≤ ts := by
    intro k hk m hm
    obtain ⟨-, hsome, hnone⟩ := hgone k hk
    obtain ⟨e, he⟩ := Option.isSome_iff_exists.mp hsome
    have hbeneath := beneath_of_removed fuel hlog.indexed.paired (by simp [Doc.get, he])
      (by simp [Doc.get, hnone] : (d.removeRecord true fuel key).doc.get k = none)
    by_contra hlt
    refine hnewest (Doc.lt_subtreeMax_iff.mpr ⟨k, hbeneath, ?_⟩)
    simpa [Doc.clockOf, he] using (hlog.kept k e he m hm).lt_maxOf (not_le.mp hlt)
  have hlogged : ∀ k, sinceMade sh k (log ++ (d.removeRecord true fuel key).applied.map (ts, ·)) =
      if k ∈ gone then [] else sinceMade sh k log := by
    intro k
    rw [happlied, List.map_map]
    exact sinceMade_deletions (fun k hk => (hgone k hk).1) log
  refine ⟨⟨hfollows.indexed hlog.indexed, fun k hnone => ?_, fun k e he => ?_, fun k e he m hm => ?_⟩, ?_⟩
  · rw [hlogged]
    split_ifs with hk
    · rfl
    · exact hlog.absent k (hkept k hk ▸ hnone)
  · by_cases hk : k ∈ gone
    · simp [(hgone k hk).2.2] at he
    · exact hlog.tidy k e (hkept k hk ▸ he)
  · by_cases hk : k ∈ gone
    · simp [(hgone k hk).2.2] at he
    · rw [hlogged, if_neg hk] at hm
      exact hlog.kept k e (hkept k hk ▸ he) m hm
  · rw [happlied]
    exact noneNewer_deletions (fun k hk => (hgone k hk).1) hall

theorem of_note (h : Carries ts (d.note key) out) : Carries ts d out := fun log hlog =>
  h log (hlog.of_same (d.follows_note key) fun k => by simp)

end Carries

/-- A change to a record itself. -/
theorem atRoot_carries (hkey : Normal sh key) (value : Value) (kind : Kind) (d : Doc sh) :
    Carries ts d (atRoot ts .judge key value kind d).outcome := by
  have hquiet : ∀ lost, Carries ts d ⟨d, [], lost⟩ := fun _ => .of_quiet rfl (.refl d) fun _ => rfl
  have hwrite : Carries ts d (writeRoot ts .judge key value kind d) := by
    simp only [writeRoot]
    split_ifs with hnewer
    · exact hquiet _
    · exact hquiet _
    · refine .of_write hkey ?_ fun e he => ?_
      · unfold wholeWrite
        split_ifs <;> simp
      · simpa [he, Mode.judging] using hnewer
  cases kind with
  | set => exact hwrite
  | put =>
    simp only [atRoot]
    split_ifs
    · exact hquiet _
    · exact hwrite
  | del =>
    simp only [atRoot, Step.outcome, deleteRoot]
    split_ifs with hnone hnewer
    · exact hquiet _
    · exact hquiet _
    · exact .of_remove hkey _ (by simpa [Mode.judging] using hnewer)

/-- One step, where its way leads through containers. -/
theorem step_carries (hkey : Normal sh key) {value : Value} {kind : Kind} {path : Path} {d : Doc sh}
    (hvalue : distinct value = true) (hdel : path = [] → kind = .del → sh.isSingleton key.1 = false)
    (hsolid : d.Solid key path) : Carries ts d (step ts .judge key value kind path d).outcome := by
  have hkeys : sh.recordKey key.1 key.2 = key := hkey
  have hnote : ∀ k, (d.note key).records.get k = d.records.get k := fun k => by simp
  have hclear : d.Clear .judge key path := fun hm => absurd hm (by decide)
  have hfollows : d.Follows (step ts .judge key value kind path d).outcome.doc :=
    (d.follows_note key).trans (step_deed ts value d hclear).follows
  by_cases hpath : path = []
  · subst hpath
    simp only [step, List.isEmpty_nil, if_true]
    exact .of_note (atRoot_carries hkey value _ _)
  cases he : d.records.get key with
  | none =>
    refine .of_quiet ?_ hfollows ?_ <;>
      simp [step, hpath, he, Mode.makes, Step.outcome, Outcome.nothing, Outcome.lose]
  | some e =>
    have hdecided : Decided sh ts .judge key value kind path e (d.note key)
        (step ts .judge key value kind path d) := decided rfl hpath he
    have hkeeps := (@step_faithful sh ts .judge key value kind path d hkey hdel hclear).1.keeps
    revert hdecided hfollows hkeeps
    generalize step ts .judge key value kind path d = s
    intro hfollows hdecided hkeeps
    cases hdecided with
    | lost => exact .of_quiet rfl hfollows hnote
    | skip => exact .of_quiet rfl hfollows hnote
    | merge => exact .of_quiet rfl hfollows hnote
    | @land hparent hfresh _ e' w hlands =>
      intro log hlog
      have hthere : ∀ q, q <+: path.dropLast → ∃ fs, valueAt e.data q = some (.obj fs) := by
        intro q hq
        obtain ⟨x, fs, hx, hfs⟩ := hsolid hpath q hq
        obtain rfl : e = x := Option.some.inj (he.symm.trans hx)
        exact ⟨fs, hfs⟩
      have hget : ∀ k, (landed key path e' w (.nothing (d.note key))).doc.records.get k =
          if key = k then some e' else d.records.get k := fun k => by
        rw [get_landed]
        simp [Outcome.nothing]
      have hstays : ∀ q, q <+: path.dropLast → ∃ fs, valueAt e'.data q = some (.obj fs) := by
        intro q hq
        obtain ⟨x, fs, hx, hfs⟩ := hkeeps q hq hpath (hsolid hpath q hq)
        have hx : (landed key path e' w (.nothing (d.note key))).doc.records.get key = some x := hx
        rw [hget, if_pos rfl] at hx
        exact ⟨fs, Option.some.inj hx ▸ hfs⟩
      have hold := hlog.tidy key e he
      have hkept := hlog.kept key e he
      have hnewest : ∀ m ∈ sinceMade sh key log, path <+: m.1 → m.2 ≤ ts := fun m hm hle =>
        hlands.newest hpath hold (hfresh rfl) hthere (hkept m hm) hle
      obtain ⟨htidy, hown⟩ := hlands.tidy hpath hvalue hold hthere hstays
      obtain ⟨fs, hfs⟩ := hthere path.dropLast List.prefix_rfl
      refine ⟨?_, fun m hm hle => hnewest m (hkeys ▸ hm) hle, trivial⟩
      refine hlog.landed hfollows hkey (fun h => absurd h hpath) hget htidy fun m hm => ?_
      rcases List.mem_append.mp hm with hm | hm
      · by_cases hle : path <+: m.1
        · exact hown.mono hle (hnewest m hm hle)
        · exact (hkept m hm).off (hlands.off hpath hfs).clock hle
      · rw [List.mem_singleton.mp hm]
        exact hown

/-- A change whose way leads through no array. -/
theorem run_carries (hkey : Normal sh key) {value : Value} (hvalue : distinct value = true) (kind : Kind)
    {path : Path} {d : Doc sh} (hdel : path = [] → kind = .del → sh.isSingleton key.1 = false)
    (hfree : d.throughArray key path = false) : Carries ts d (run ts .judge key value kind path d) := by
  refine run_solid (V := fun v => distinct v = true) hkey (fun fs hfs field hin => ?_) ?_ ?_ ?_ ?_ hvalue
    kind hdel hfree
  · rw [distinct, Bool.and_eq_true, distinctFields_iff] at hfs
    exact hfs.2 field hin
  · exact fun value kind path d hvalue hdel hsolid => step_carries hkey hvalue hdel hsolid
  · exact fun d => .of_quiet rfl (.refl d) fun _ => rfl
  · exact fun path why d => .of_quiet rfl (d.follows_note key) fun k => by
      simp [Outcome.lose, Outcome.nothing]
  · exact fun d out more h h' => h.andThen h'

/-- A doc, with what has landed in it. -/
structure Logged (sh : Shape) where
  doc : Doc sh
  log : List (ℕ × Change)

/-- A change judged at a time, and what landed of it noted. -/
def judgeLogged (e : ℕ × Change) (s : Logged sh) : Option (Logged sh) :=
  match apply e.1 .judge e.2 s.doc with
  | .ok out => some ⟨out.doc, s.log ++ out.applied.map (e.1, ·)⟩
  | .error _ => none

/-- A change of values as they are, that steps into no array. -/
def offArrays (e : ℕ × Change) (s : Logged sh) : Bool :=
  distinct e.2.write.value && !s.doc.throughArray (sh.recordKey e.2.c e.2.id) e.2.path

theorem apply_carries {ts : ℕ} {change : Change} {s : Logged sh} {out : Outcome sh}
    (hoff : offArrays (ts, change) s = true) (h : apply ts .judge change s.doc = .ok out) :
    Carries ts s.doc out := by
  obtain ⟨hsingle, rfl⟩ := of_apply h
  rw [offArrays, Bool.and_eq_true, Bool.not_eq_true'] at hoff
  exact run_carries (normal_recordKey _ _) hoff.1 _ hsingle hoff.2

theorem remembers_fresh (sh : Shape) : (Doc.load sh []).Remembers [] where
  indexed := Doc.indexed_load []
  absent _ _ := rfl
  tidy key e he := by
    rw [Doc.records_load [] (by simp)] at he
    simp only [List.foldl_nil, OrderedMap.get_empty, Option.none_or, Doc.unset] at he
    split_ifs at he
    obtain rfl := Option.some.inj he
    exact Entry.tidy_of_bare rfl rfl
  kept _ _ _ _ hm := nomatch hm

/-- From a fresh doc on, the clocks remember whatever landed. -/
theorem remembers_of_reaches {s : Logged sh}
    (h : Reaches judgeLogged (fun e s => offArrays e s = true) ⟨Doc.load sh [], []⟩ s) :
    s.doc.Remembers s.log := by
  refine h.invariant (P := fun s => s.doc.Remembers s.log) (remembers_fresh sh) ?_
  intro e s s' hs hoff hstep
  unfold judgeLogged at hstep
  split at hstep
  · next out hout =>
    obtain rfl := Option.some.inj hstep
    exact (apply_carries hoff hout _ hs).1
  · cases hstep

/-- Whether nothing is at a place of a record. -/
def Doc.nothingAt (d : Doc sh) (key : RecordKey) (path : Path) : Prop :=
  (d.get key).bind (valueAt · path) = none

/-- A record that is there is reported gone. -/
theorem removeRecord_reports {d : Doc sh} (hthere : (d.records.get key).isSome = true) :
    (d.removeRecord true d.records.size key).applied ≠ [] := by
  have hsome : (d.get key).isNone = false := by
    simpa [Doc.get, Option.isSome_iff_ne_none] using hthere
  cases hsize : d.records.size with
  | zero => simp [OrderedMap.size_eq_zero hsize key] at hthere
  | succ fuel =>
    simp only [Doc.removeRecord, hsome, Bool.false_eq_true, if_false]
    refine List.foldlRecOn _ _ (motive := fun out : Outcome sh => out.applied ≠ []) (by simp)
      fun out hout kid _ => ?_
    simp [Outcome.andThen, hout]

/-- What a deletion, or a value set, that did not land says: that it was lost, or nothing where nothing is
there to delete. -/
def Refused (key : RecordKey) (kind : Kind) (path : Path) (d : Doc sh) (out : Outcome sh) : Prop :=
  (∀ k, out.doc.records.get k = d.records.get k) ∧
    ((∃ why, out.lost = [⟨key.1, key.2, path, why⟩]) ∨
      (kind = .del ∧ d.nothingAt key path ∧ out.lost = []))

theorem refused_of_lost {kind : Kind} {path : Path} {d d' : Doc sh} (why : Why)
    (hsame : ∀ k, d'.records.get k = d.records.get k) :
    Refused key kind path d ((Outcome.nothing d').lose key path why) :=
  ⟨hsame, .inl ⟨why, by simp [Outcome.nothing, Outcome.lose]⟩⟩

theorem refused_of_note {kind : Kind} {path : Path} {d : Doc sh} {out : Outcome sh}
    (h : Refused key kind path (d.note key) out) : Refused key kind path d out := by
  unfold Refused Doc.nothingAt at h ⊢
  simpa [Doc.get] using h

theorem atRoot_refused {value : Value} {kind : Kind} {d : Doc sh}
    (hput : settledKind sh key [] kind value ≠ .put) : ∃ out,
    atRoot ts .judge key value (settledKind sh key [] kind value) d = .done out ∧
      (out.applied = [] → Refused key kind [] d out) := by
  cases hkind : settledKind sh key [] kind value with
  | put => exact absurd hkind hput
  | set =>
    refine ⟨_, rfl, ?_⟩
    simp only [writeRoot]
    split_ifs
    · exact fun _ => refused_of_lost .newer fun _ => rfl
    · exact fun _ => refused_of_lost .missing fun _ => rfl
    · simp [writeWhole]
  | del =>
    refine ⟨_, rfl, ?_⟩
    simp only [deleteRoot]
    split_ifs with hnone
    · refine fun _ => ⟨fun _ => rfl, .inr ⟨settledKind_eq_del.mp hkind, ?_, rfl⟩⟩
      simp [Doc.nothingAt, Doc.get, Option.isNone_iff_eq_none.mp hnone]
    · exact fun _ => refused_of_lost .newer fun _ => rfl
    · refine fun h => absurd h (removeRecord_reports ?_)
      simpa [Option.isSome_iff_ne_none] using hnone

/-- A deletion, or a value set, lands, or is refused. -/
theorem run_refused {value : Value} {kind : Kind} {path : Path} {d : Doc sh}
    (hput : settledKind sh key path kind value ≠ .put)
    (hnone : (run ts .judge key value kind path d).applied = []) :
    Refused key kind path d (run ts .judge key value kind path d) := by
  have hnote : ∀ k, (d.note key).records.get k = d.records.get k := fun k => by simp
  have hstep : ∃ out, step ts .judge key value kind path d = .done out ∧
      (out.applied = [] → Refused key kind path d out) := by
    by_cases hpath : path = []
    · subst hpath
      obtain ⟨out, hout, hrefused⟩ := @atRoot_refused sh ts key value kind (d.note key) hput
      refine ⟨out, by simpa [step] using hout, fun h => refused_of_note (hrefused h)⟩
    cases he : d.records.get key with
    | none =>
      exact ⟨_, by simp [step, hpath, he, Mode.makes], fun _ => refused_of_lost .missing hnote⟩
    | some e =>
      have hdecided : Decided sh ts .judge key value kind path e (d.note key)
          (step ts .judge key value kind path d) := decided rfl hpath he
      revert hdecided
      generalize step ts .judge key value kind path d = s
      intro hdecided
      cases hdecided with
      | lost why => exact ⟨_, rfl, fun _ => refused_of_lost why hnote⟩
      | skip hparent hasked habsent =>
        obtain ⟨⟨fs, hfs⟩, -⟩ := Entry.hasParent_iff.mp hparent
        rw [Entry.current_eq hpath hfs] at habsent
        exact ⟨_, rfl, fun _ => ⟨hnote, .inr ⟨hasked, by simpa [Doc.nothingAt, Doc.get, he] using habsent, rfl⟩⟩⟩
      | merge _ hmerge => exact absurd hmerge hput
      | land => exact ⟨_, rfl, fun h => by simp [landed, Outcome.report, Outcome.nothing] at h⟩
  obtain ⟨out, hout, hrefused⟩ := hstep
  rw [run_of_done hout] at hnone ⊢
  exact hrefused hnone

/-- The records whose link fields name a record. -/
def Doc.namesParent (d : Doc sh) (parent child : RecordKey) : Prop := parent ∈ d.namedParents child

/-- A record deleted, and every record that names it, through all levels: none holds a newer time. -/
theorem removed_beneath {d : Doc sh} {log : List (ℕ × Change)} (hlog : d.Remembers log) {value : Value}
    (happlied : (run ts .judge key value .del [] d).applied ≠ []) {k : RecordKey}
    (hk : Relation.ReflTransGen d.namesParent key k) : ∀ m ∈ sinceMade sh k log, m.2 ≤ ts := by
  have hrun : run ts .judge key value .del [] d = deleteRoot ts .judge key (d.note key) :=
    run_of_done (by simp [step, settledKind, atRoot])
  rw [hrun, deleteRoot] at happlied
  split_ifs at happlied with hthere hnewer
  · exact absurd rfl happlied
  · exact absurd rfl happlied
  rw [Doc.subtreeMax_note] at hnewer
  have hbeneath : Search.Beneath d.childrenOf key k :=
    Relation.ReflTransGen.mono (fun p c hpc => hlog.indexed.mem_childrenOf.mpr hpc) _ _ hk
  intro m hm
  cases he : d.records.get k with
  | none => simp [hlog.absent k he] at hm
  | some e =>
    by_contra hlt
    refine hnewer ?_
    have hmax : (ts : ℤ) < d.subtreeMax key := by
      refine Doc.lt_subtreeMax_iff.mpr ⟨k, hbeneath, ?_⟩
      simpa [Doc.clockOf, he] using (hlog.kept k e he m hm).lt_maxOf (not_le.mp hlt)
    simpa [Mode.judging] using hmax

/-- A change that takes no newer edit away: what lands of it is no older than what had landed where it
lands or beneath, nor is a deletion of a record older than what had landed in the records beneath that
one; and a deletion, or a value set, that does not land is refused. -/
structure TakesNoNewer (ts : ℕ) (change : Change) (s : Logged sh) (out : Outcome sh) : Prop where
  newest : NoneNewer sh ts out.applied s.log
  beneath : change.path = [] → change.write = .del → out.applied ≠ [] →
    ∀ k, Relation.ReflTransGen s.doc.namesParent (sh.recordKey change.c change.id) k →
      ∀ m ∈ sinceMade sh k s.log, m.2 ≤ ts
  refused : settledKind sh (sh.recordKey change.c change.id) change.path change.write.kind
      change.write.value ≠ .put → out.applied = [] →
    Refused (sh.recordKey change.c change.id) change.write.kind change.path s.doc out

/-- Whatever was judged from a fresh doc on, in whatever order of times, off arrays: the next change takes
no newer edit away. -/
theorem newer_edits_stay {s : Logged sh}
    (h : Reaches judgeLogged (fun e s => offArrays e s = true) ⟨Doc.load sh [], []⟩ s) {change : Change}
    {out : Outcome sh} (hoff : offArrays (ts, change) s = true)
    (hout : apply ts .judge change s.doc = .ok out) : TakesNoNewer ts change s out := by
  have hlog := remembers_of_reaches h
  refine ⟨(apply_carries hoff hout _ hlog).2, fun hpath hdel happlied k hk => ?_, fun hput hnone => ?_⟩
  · obtain ⟨-, rfl⟩ := of_apply hout
    rw [hpath, hdel] at happlied
    exact removed_beneath hlog happlied hk
  · obtain ⟨-, rfl⟩ := of_apply hout
    exact run_refused hput hnone

/-- An older deletion of it is lost. -/
theorem newer_edits_stay_on_board : ∃ (s : Logged board) (out : Outcome board),
    apply 20 .judge ⟨"tasks", some "t1", ["a"], .del⟩ s.doc = .ok out ∧ out.lost.length = 1 ∧
      TakesNoNewer 20 ⟨"tasks", some "t1", ["a"], .del⟩ s out := by
  have hmade : Reaches judgeLogged (fun e s => offArrays e s = true) ⟨Doc.load board [], []⟩ _ :=
    .next (30, ⟨"tasks", some "t1", ["a", "x"], .set (.num 2)⟩)
      (.next (10, ⟨"tasks", some "t1", [], .put (.obj [("a", .obj [("x", .num 1)])])⟩) .start rfl rfl) rfl rfl
  exact ⟨_, _, rfl, rfl, newer_edits_stay hmade rfl rfl⟩

/-- Deleted in time, what was edited is gone: an older deletion then finds nothing, and nothing is said. -/
theorem deletion_of_nothing_unreported : ∃ (s : Logged board) (out : Outcome board),
    Reaches judgeLogged (fun e s => offArrays e s = true) ⟨Doc.load board [], []⟩ s ∧
      offArrays (20, ⟨"tasks", some "t1", ["a"], .del⟩) s = true ∧
      apply 20 .judge ⟨"tasks", some "t1", ["a"], .del⟩ s.doc = .ok out ∧
      (∃ m ∈ sinceMade board ("tasks", some "t1") s.log, ["a"] <+: m.1 ∧ 20 < m.2) ∧
      out.applied = [] ∧ out.lost = [] := by
  have hmade : Reaches judgeLogged (fun e s => offArrays e s = true) ⟨Doc.load board [], []⟩ _ :=
    .next (40, ⟨"tasks", some "t1", ["a"], .del⟩)
      (.next (30, ⟨"tasks", some "t1", ["a", "x"], .set (.num 2)⟩)
        (.next (10, ⟨"tasks", some "t1", [], .put (.obj [("a", .obj [("x", .num 1)])])⟩) .start rfl rfl)
        rfl rfl) rfl rfl
  exact ⟨_, _, hmade, rfl, rfl, ⟨(["a", "x"], 30), by decide +kernel, by decide, by decide⟩, rfl, rfl⟩

end LazyStorage.Core
