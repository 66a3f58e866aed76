import LazyStorage.Core.Deeds
import LazyStorage.Core.Places

/-! # Inside one record

A change that makes nothing on its way is decided inside its record on the entry
alone. What lands writes its place, keeps the record's birth, and leaves every
other place and the times of every other path as they were.
-/
namespace LazyStorage.Core

open Lib

variable {sh : Shape} {ts : ℕ} {mode : Mode} {key : RecordKey}

section Field

variable {f : Value → Value} {q r path : Path} {v : Value} {fs : List (String × Value)}

/-- What a change in place leaves at its place and beneath. -/
theorem valueAt_modifyAt (h : valueAt v q = some (.obj fs)) (r : Path) :
    valueAt (modifyAt f q v) (q ++ r) = valueAt (f (.obj fs)) r := by
  induction q generalizing v with
  | nil =>
    obtain rfl := Option.some.inj h
    rfl
  | cons seg q ih =>
    rw [valueAt_cons] at h
    obtain ⟨x, hx, h⟩ := Option.bind_eq_some_iff.mp h
    simp only [modifyAt, hx, List.cons_append, valueAt_cons,
      prop_withProp hx (not_num_of_valueAt h), Option.bind_some, ih h]

/-- What it leaves apart from its place and the way there. -/
theorem valueAt_modifyAt_off (h : valueAt v q = some (.obj fs)) (hr : ¬ q <+: r) (hq : ¬ r <+: q) :
    valueAt (modifyAt f q v) r = valueAt v r := by
  induction q generalizing v r with
  | nil => exact absurd List.nil_prefix hr
  | cons seg q ih =>
    cases r with
    | nil => exact absurd List.nil_prefix hq
    | cons k r =>
      rw [valueAt_cons] at h
      obtain ⟨x, hx, h⟩ := Option.bind_eq_some_iff.mp h
      simp only [modifyAt, hx, valueAt_cons]
      by_cases hk : seg = k
      · subst hk
        rw [prop_withProp hx (not_num_of_valueAt h), hx, Option.bind_some, Option.bind_some]
        exact ih h (fun hle => hr (by simpa using hle)) fun hle => hq (by simpa using hle)
      · rw [Value.prop_withProp_of_ne hx hk]

theorem path_eq (hpath : path ≠ []) : path.dropLast ++ [path.getLastD ""] = path := by
  rw [List.getLastD_eq_getLast?, List.getLast?_eq_getLast_of_ne_nil hpath, Option.getD_some,
    List.dropLast_append_getLast hpath]

theorem prefix_dropLast (h : r <+: path) (hne : r ≠ path) : r <+: path.dropLast := by
  rcases List.eq_nil_or_concat path with rfl | ⟨q, last, rfl⟩
  · exact absurd (List.prefix_nil.mp h) hne
  · rw [List.concat_eq_append] at h hne ⊢
    rw [List.dropLast_concat]
    exact (List.prefix_concat_iff.mp h).resolve_left hne

/-- A field of the parent, written or erased: the other places are left. -/
theorem valueAt_field_off (hpath : path ≠ []) (h : valueAt v path.dropLast = some (.obj fs))
    {gs : List (String × Value)} (hf : f (.obj fs) = .obj gs)
    (hother : ∀ k, k ≠ path.getLastD "" → Assoc.get gs k = Assoc.get fs k) (hr : ¬ path <+: r)
    (habove : ¬ r <+: path.dropLast) : valueAt (modifyAt f path.dropLast v) r = valueAt v r := by
  by_cases hq : path.dropLast <+: r
  swap
  · exact valueAt_modifyAt_off h hq habove
  obtain ⟨s, rfl⟩ := hq
  rw [valueAt_modifyAt h, valueAt_append, h, Option.bind_some, hf]
  cases s with
  | nil => simp at habove
  | cons k s =>
    have hk : k ≠ path.getLastD "" := by
      rintro rfl
      refine hr ⟨s, ?_⟩
      conv_lhs => rw [← path_eq hpath]
      simp
    rw [valueAt_cons, valueAt_cons]
    simp only [Value.prop, hother k hk]

end Field

namespace Entry

variable {path r : Path} {e e' : Entry} {fs : List (String × Value)} {value : Value} {kind : Kind}
  {w : Write}

/-- What is at a place whose parent is a container. -/
theorem current_eq (hpath : path ≠ []) (h : valueAt e.data path.dropLast = some (.obj fs)) :
    e.current path = valueAt e.data path := by
  conv_rhs => rw [← path_eq hpath]
  rw [current, h, valueAt_append, h]
  cases Assoc.get fs (path.getLastD "") <;> simp [Value.fields?, valueAt, Value.prop]

theorem valueAt_place (hpath : path ≠ []) (h : valueAt e.data path.dropLast = some (.obj fs))
    (value : Value) (r : Path) : valueAt (e.place path value) (path ++ r) = valueAt value r := by
  conv_lhs => rw [← path_eq hpath]
  rw [place, List.append_assoc, path_eq hpath, valueAt_modifyAt h]
  simp [Value.setField, valueAt_cons, Value.prop]

theorem valueAt_place_off (hpath : path ≠ []) (h : valueAt e.data path.dropLast = some (.obj fs))
    (value : Value) (hr : ¬ path <+: r) (habove : ¬ r <+: path.dropLast) :
    valueAt (e.place path value) r = valueAt e.data r :=
  valueAt_field_off hpath h rfl (fun _ hk => Assoc.get_set_of_ne _ _ (Ne.symm hk)) hr habove

/-- A field erased from the parent of a path. -/
def erase (e : Entry) (path : Path) : Value :=
  modifyAt (Value.eraseField (path.getLastD "")) path.dropLast e.data

theorem valueAt_erase (hpath : path ≠ []) (h : valueAt e.data path.dropLast = some (.obj fs))
    (r : Path) : valueAt (e.erase path) (path ++ r) = none := by
  conv_lhs => rw [← path_eq hpath]
  rw [erase, List.append_assoc, path_eq hpath, valueAt_modifyAt h]
  simp [Value.eraseField, valueAt_cons, Value.prop, Assoc.get_erase]

theorem valueAt_erase_off (hpath : path ≠ []) (h : valueAt e.data path.dropLast = some (.obj fs))
    (hr : ¬ path <+: r) (habove : ¬ r <+: path.dropLast) :
    valueAt (e.erase path) r = valueAt e.data r :=
  valueAt_field_off hpath h rfl
    (fun _ hk => (Assoc.get_erase _ _ _).trans (if_neg (Ne.symm hk))) hr habove

theorem hasParent_iff : e.hasParent sh key path = true ↔
    (∃ fs, valueAt e.data path.dropLast = some (.obj fs)) ∧
      (path.dropLast ≠ [] → sh.isRegister key path.dropLast = false) := by
  simp only [hasParent, Bool.and_eq_true, Bool.not_eq_true', Bool.and_eq_false_iff,
    Bool.not_eq_false', List.isEmpty_iff, Option.any_eq_true]
  refine and_congr ⟨?_, ?_⟩ ⟨fun h hne => h.resolve_left hne, fun h => ?_⟩
  · rintro ⟨v, hv, hobj⟩
    obtain ⟨fs, rfl⟩ := Value.isObj_iff.mp hobj
    exact ⟨fs, hv⟩
  · rintro ⟨fs, hv⟩
    exact ⟨_, hv, rfl⟩
  · by_cases hne : path.dropLast = []
    · exact .inl hne
    · exact .inr (h hne)

/-- How a change lands at a path: where nothing is, over what is there, or taking it away. -/
inductive Landing (sh : Shape) (mode : Mode) (ts : ℕ) (key : RecordKey) (path : Path) (kind : Kind)
    (value : Value) (e : Entry) : Entry → Write → Prop
  | fresh (put : kind = .put) (absent : e.current path = none)
      (newest : mode.judging = true → newer (e.clock.gone.get path) ts = false) :
      Landing sh mode ts key path kind value e ⟨e.place path value,
        Clock.stampInside sh key ts value path (e.clock.dropBeneath path true false)⟩ (.put value)
  | replaced (written : kind ≠ .del)
      (leaf : kind = .put → ∃ v, e.current path = some v ∧ v.isObj = false)
      (newest : mode.judging = true →
        e.outlives ts path ((e.current path).any Value.isObj) = false) :
      Landing sh mode ts key path kind value e ⟨e.place path value, (e.clock.dropBeneath path true
        ((e.current path).any Value.isObj)).setLive path ts⟩ (.set value)
  | gone (asked : kind = .del) {current : Value} (there : e.current path = some current)
      (newest : mode.judging = true → newer (e.clock.liveAt path) ts = false ∧
        (current.isObj = true → e.clock.newerBeneath path ts = false)) :
      Landing sh mode ts key path kind value e ⟨e.erase path,
        (e.clock.dropBeneath path true current.isObj).setGone path ts⟩ .del

theorem landing_of_settle (h : e.settle sh mode ts key path kind value = .land e' w) :
    Landing sh mode ts key path kind value e e' w := by
  have hover : kind ≠ .del → (kind = .put → ∃ v, e.current path = some v ∧ v.isObj = false) →
      e.overwrite mode ts path value = .land e' w → Landing sh mode ts key path kind value e e' w := by
    intro hdel hleaf h
    simp only [overwrite] at h
    split_ifs at h with hnewer
    obtain ⟨rfl, rfl⟩ := Ruling.land.inj h
    exact .replaced hdel hleaf fun hj => by simpa [hj] using hnewer
  unfold settle at h
  split at h
  · next hcurrent =>
    simp only [Entry.fresh] at h
    split_ifs at h with hnewer
    obtain ⟨rfl, rfl⟩ := Ruling.land.inj h
    exact .fresh rfl hcurrent fun hj => by simpa [hj] using hnewer
  · cases h
  · next v hobj hcurrent =>
    refine hover (by simp) (fun _ => ⟨v, hcurrent, ?_⟩) h
    cases v <;> first | rfl | exact absurd rfl (hobj _)
  · exact hover (by simp) (by simp) h
  · cases h
  · next current hcurrent =>
    simp only [Entry.delete] at h
    split_ifs at h with hnewer
    obtain ⟨rfl, rfl⟩ := Ruling.land.inj h
    refine .gone rfl hcurrent fun hj => ?_
    simp only [hj, Bool.true_and, Bool.or_eq_true, Bool.and_eq_true, not_or, not_and,
      Bool.not_eq_true] at hnewer
    exact hnewer

end Entry

/-- A clock as it was, but for the times at and beneath a path. -/
structure Clock.Off (path : Path) (c c' : Clock) : Prop where
  birth : c'.birth = c.birth
  live : ∀ r, ¬ path <+: r → c'.live.get r = c.live.get r
  gone : ∀ r, ¬ path <+: r → c'.gone.get r = c.gone.get r

namespace Clock.Off

variable {path : Path} {a b c : Clock}

theorem refl (path : Path) (c : Clock) : Off path c c := ⟨rfl, fun _ _ => rfl, fun _ _ => rfl⟩

theorem trans (h : Off path a b) (h' : Off path b c) : Off path a c where
  birth := h'.birth.trans h.birth
  live r hr := (h'.live r hr).trans (h.live r hr)
  gone r hr := (h'.gone r hr).trans (h.gone r hr)

theorem mono {q : Path} (h : Off path a b) (hq : q <+: path) : Off q a b where
  birth := h.birth
  live r hr := h.live r fun hle => hr (hq.trans hle)
  gone r hr := h.gone r fun hle => hr (hq.trans hle)

theorem setLive (path : Path) (c : Clock) (ts : ℕ) : Off path c (c.setLive path ts) where
  birth := c.setLive_birth path ts
  live r hr := by
    have hne : path ≠ r := fun heq => hr (heq ▸ List.prefix_rfl)
    rw [Clock.setLive_live, if_neg hne]
  gone r _ := by rw [Clock.setLive_gone]

theorem setGone (path : Path) (c : Clock) (ts : ℕ) : Off path c (c.setGone path ts) where
  birth := rfl
  live _ _ := rfl
  gone r hr := by
    have hne : path ≠ r := fun heq => hr (heq ▸ List.prefix_rfl)
    exact OrderedMap.get_set_of_ne _ _ hne

theorem dropBeneath (path : Path) (c : Clock) (inclusive container : Bool) :
    Off path c (c.dropBeneath path inclusive container) := by
  have hkept : ∀ r, ¬ path <+: r → Clock.drops path inclusive container r = false := by
    intro r hr
    unfold Clock.drops beneath
    split_ifs
    · simp [hr]
    · have hne : r ≠ path := fun heq => hr (heq ▸ List.prefix_rfl)
      simp [hne]
  refine ⟨c.dropBeneath_birth path inclusive container, fun r hr => ?_, fun r hr => ?_⟩
  · rw [Clock.dropBeneath_live, hkept r hr]
    rfl
  · rw [Clock.dropBeneath_gone, hkept r hr]
    rfl

theorem stampInside (sh : Shape) (key : RecordKey) (ts : ℕ) (value : Value) :
    ∀ (path : Path) (c : Clock), Off path c (Clock.stampInside sh key ts value path c) := by
  induction value using Value.merging_induction with
  | leaf v hv =>
    intro path c
    cases v <;> first | exact .setLive path c ts | exact absurd hv (by simp)
  | fields fs ih =>
    intro path c
    have hfields : ∀ gs : List (String × Value), (∀ e ∈ gs, e ∈ fs) → ∀ c : Clock,
        Off path c (Clock.stampFields sh key ts gs path c) := by
      intro gs hg
      induction gs with
      | nil => exact fun c => .refl path c
      | cons e gs ihg =>
        intro c
        have hone := (ih e (hg e (by simp)) (path ++ [e.1]) c).mono (List.prefix_append path [e.1])
        exact hone.trans (ihg (fun e he => hg e (by simp [he])) _)
    simp only [Clock.stampInside]
    split_ifs
    · exact .setLive path c ts
    · exact (setLive path c ts).trans (hfields fs (fun _ h => h) _)

theorem liveAt {r : Path} (h : Off path a b) (hr : ¬ path <+: r) : b.liveAt r = a.liveAt r := by
  rw [Clock.liveAt, Clock.liveAt, h.live r hr, h.birth]

theorem newerBeneath {r : Path} (h : Off path a b) (hr : ¬ path <+: r) (hr' : ¬ r <+: path) (ts : ℕ) :
    b.newerBeneath r ts = a.newerBeneath r ts := by
  have hoff : ∀ p, beneath r false p = true → ¬ path <+: p := by
    intro p hp hle
    have hunder : r <+: p := List.isPrefixOf_iff_prefix.mp (Bool.and_eq_true_iff.mp hp).1
    exact (List.prefix_or_prefix_of_prefix hle hunder).elim hr hr'
  rw [Bool.eq_iff_iff, Clock.newerBeneath_iff, Clock.newerBeneath_iff, h.birth]
  refine or_congr Iff.rfl (exists_congr fun p => and_congr_right fun hp => ?_)
  rw [h.live p (hoff p hp), h.gone p (hoff p hp)]

end Clock.Off

/-- An entry as it was, but for what is at and beneath a path and on the way there. -/
structure Entry.Off (path : Path) (e e' : Entry) : Prop where
  data : ∀ r, ¬ path <+: r → ¬ r <+: path.dropLast → valueAt e'.data r = valueAt e.data r
  clock : e.clock.Off path e'.clock

namespace Entry.Off

variable {path : Path} {a b c : Entry}

theorem refl (path : Path) (e : Entry) : Off path e e := ⟨fun _ _ _ => rfl, .refl path _⟩

theorem trans (h : Off path a b) (h' : Off path b c) : Off path a c where
  data r hr hq := (h'.data r hr hq).trans (h.data r hr hq)
  clock := h.clock.trans h'.clock

/-- What is left off a field is left off its container. -/
theorem beneath {last : String} (h : Off (path ++ [last]) a b) : Off path a b where
  data r hr hq := by
    refine h.data r (fun hle => hr ((List.prefix_append _ _).trans hle)) fun hle => hq ?_
    rw [List.dropLast_concat] at hle
    exact prefix_dropLast hle fun heq => hr (heq ▸ List.prefix_rfl)
  clock := h.clock.mono (List.prefix_append _ _)

end Entry.Off

/-- What lands at a place is seen at it, beneath it and on the way there. -/
theorem Entry.Landing.off {path : Path} {kind : Kind} {value : Value} {e e' : Entry} {w : Write}
    (h : e.Landing sh mode ts key path kind value e' w) (hpath : path ≠ [])
    {fs : List (String × Value)} (hparent : valueAt e.data path.dropLast = some (.obj fs)) :
    e.Off path e' := by
  cases h with
  | fresh =>
    exact ⟨fun r hr hq => Entry.valueAt_place_off hpath hparent value hr hq,
      (Clock.Off.dropBeneath path e.clock true false).trans (.stampInside sh key ts value path _)⟩
  | replaced =>
    exact ⟨fun r hr hq => Entry.valueAt_place_off hpath hparent value hr hq,
      (Clock.Off.dropBeneath path e.clock true _).trans (.setLive path _ ts)⟩
  | gone =>
    exact ⟨fun r hr hq => Entry.valueAt_erase_off hpath hparent hr hq,
      (Clock.Off.dropBeneath path e.clock true _).trans (.setGone path _ ts)⟩

/-- A change that gets to its parent, where nothing is made. -/
theorem Entry.of_arrive {path : Path} {e e' : Entry} (hm : mode.makes = false)
    (h : e.arrive sh mode ts key path = .ok e') :
    e' = e ∧ e.hasParent sh key path = true ∧ (mode.judging = true → e.stale path ts = false) := by
  simp only [Entry.arrive, hm, Bool.false_eq_true, if_false] at h
  split_ifs at h with hstale hparent
  refine ⟨(Except.ok.inj h).symm, hparent, fun hj => ?_⟩
  simpa [hj] using hstale

theorem Entry.of_settle_skip {path : Path} {kind : Kind} {value : Value} {e : Entry}
    (h : e.settle sh mode ts key path kind value = .skip) : kind = .del ∧ e.current path = none := by
  unfold settle Entry.fresh overwrite delete at h
  dsimp only at h
  split at h
  · split_ifs at h
  · cases h
  · split_ifs at h
  · split_ifs at h
  · next hcurrent => exact ⟨rfl, hcurrent⟩
  · split_ifs at h

/-- What one step inside a record that is there comes to: it is lost, it finds nothing to do, it is to
be merged in, or it lands. -/
inductive Decided (sh : Shape) (ts : ℕ) (mode : Mode) (key : RecordKey) (value : Value) (kind : Kind)
    (path : Path) (e : Entry) (d : Doc sh) : Step sh → Prop
  | lost (why : Why) : Decided sh ts mode key value kind path e d (.done ((Outcome.nothing d).lose key path why))
  | skip (parent : e.hasParent sh key path = true) (asked : kind = .del)
      (absent : e.current path = none) :
      Decided sh ts mode key value kind path e d (.done (.nothing d))
  | merge (parent : e.hasParent sh key path = true)
      (put : settledKind sh key path kind value = .put) {fs : List (String × Value)}
      (there : valueAt e.data path = some (.obj fs)) : Decided sh ts mode key value kind path e d (.merge (.nothing d))
  | land (parent : e.hasParent sh key path = true)
      (fresh : mode.judging = true → e.stale path ts = false)
      (kept : strands mode key value (settledKind sh key path kind value) path d = false)
      {e' : Entry} {w : Write}
      (lands : e.Landing sh mode ts key path (settledKind sh key path kind value) value e' w) :
      Decided sh ts mode key value kind path e d (.done (landed key path e' w (.nothing d)))

theorem decided {path : Path} {value : Value} {kind : Kind} {e : Entry} {d : Doc sh}
    (hm : mode.makes = false) (hpath : path ≠ []) (he : d.records.get key = some e) :
    Decided sh ts mode key value kind path e (d.note key) (step ts mode key value kind path d) := by
  have he' : (d.note key).records.get key = some e := by rwa [Doc.get_note]
  simp only [step, List.isEmpty_iff, hpath, if_false, he', within]
  cases harrive : e.arrive sh mode ts key path with
  | error why => exact .lost why
  | ok e₁ =>
    obtain ⟨rfl, hparent, hfresh⟩ := Entry.of_arrive hm harrive
    simp only [Outcome.nothing, Doc.write_there he']
    split_ifs with hstrands
    · exact .lost .missing
    cases hsettle : e₁.settle sh mode ts key path (settledKind sh key path kind value) value with
    | lose => exact .lost .newer
    | skip =>
      obtain ⟨hkind, habsent⟩ := Entry.of_settle_skip hsettle
      exact .skip hparent (settledKind_eq_del.mp hkind) habsent
    | merge =>
      obtain ⟨hkind, fs, hthere⟩ := settle_merge hpath hsettle
      exact .merge hparent hkind hthere
    | land e' w => exact .land hparent hfresh (by simpa using hstrands) (Entry.landing_of_settle hsettle)

theorem get_landed (path : Path) (e : Entry) (w : Write) (out : Outcome sh) (k : RecordKey) :
    (landed key path e w out).doc.records.get k =
      if key = k then some e else out.doc.records.get k := by
  simp only [landed, Outcome.report]
  split_ifs <;> simp_all [OrderedMap.get_set]

/-- One step inside a record that is there, as it leaves the record. -/
theorem step_off (hm : mode.makes = false) {value : Value} {kind : Kind} {path : Path} {d : Doc sh}
    {e : Entry} (hpath : path ≠ []) (he : d.records.get key = some e) :
    ∃ e', (step ts mode key value kind path d).outcome.doc.records.get key = some e' ∧ e.Off path e' := by
  have hsame : (d.note key).records.get key = some e := by rwa [Doc.get_note]
  have hdecided : Decided sh ts mode key value kind path e (d.note key)
      (step ts mode key value kind path d) := decided hm hpath he
  revert hdecided
  generalize step ts mode key value kind path d = s
  intro hdecided
  cases hdecided with
  | lost => exact ⟨e, hsame, .refl path e⟩
  | skip => exact ⟨e, hsame, .refl path e⟩
  | merge => exact ⟨e, hsame, .refl path e⟩
  | land hparent _ _ hlands =>
    obtain ⟨⟨fs, hfs⟩, -⟩ := Entry.hasParent_iff.mp hparent
    exact ⟨_, (get_landed _ _ _ _ _).trans (if_pos rfl), hlands.off hpath hfs⟩

/-- What holds of each step, and of what comes after what, holds of a run: `V` is what a value passes on
to its fields, `H` what a step needs, and `P` what it gives at a path. -/
theorem run_rule {V : Value → Prop} {H : Kind → Path → Doc sh → Prop}
    {P : Path → Doc sh → Outcome sh → Prop}
    (hfields : ∀ fs, V (.obj fs) → ∀ field ∈ fs, V field.2)
    (hstep : ∀ value kind path d, V value → H kind path d →
      P path d (step ts mode key value kind path d).outcome)
    (hmerge : ∀ value kind path d out, H kind path d → step ts mode key value kind path d = .merge out →
      ∀ kind k, H kind (path ++ [k]) out.doc)
    (hnext : ∀ path k d out, P (path ++ [k]) d out → (∀ kind k, H kind (path ++ [k]) d) →
      ∀ kind k, H kind (path ++ [k]) out.doc)
    (hnothing : ∀ path d, P path d (.nothing d))
    (handThen : ∀ path d out more, P path d out → P path out.doc more →
      P path d (out.andThen fun _ => more))
    (hbeneath : ∀ path k d out, P (path ++ [k]) d out → P path d out) (value : Value) :
    ∀ (kind : Kind) (path : Path) (d : Doc sh), V value → H kind path d →
      P path d (run ts mode key value kind path d) := by
  induction value using Value.merging_induction with
  | leaf v hv =>
    intro kind path d hvalue hd
    have hs := hstep v kind path d hvalue hd
    cases v <;> first | exact hs | exact absurd hv (by simp)
  | fields fs ih =>
    intro kind path d hvalue hd
    have hmerged : ∀ gs : List (String × Value), (∀ e ∈ gs, e ∈ fs) → ∀ d : Doc sh,
        (∀ kind k, H kind (path ++ [k]) d) → P path d (runFields ts mode key gs path d) := by
      intro gs hg
      induction gs with
      | nil => exact fun d _ => hnothing path d
      | cons field gs ihg =>
        intro d hd
        have hin := hg field (by simp)
        have hone := ih field hin (changeFor field.2).kind (path ++ [field.1]) d
          (hfields fs hvalue field hin) (hd _ _)
        have hrest := ihg (fun e he => hg e (by simp [he])) _ (hnext path field.1 d _ hone hd)
        exact handThen path d _ _ (hbeneath _ _ _ _ hone) hrest
    have hs := hstep (.obj fs) kind path d hvalue hd
    have hm := hmerge (.obj fs) kind path d
    rw [run]
    revert hs hm
    cases step ts mode key (.obj fs) kind path d with
    | done out => exact fun hs _ => hs
    | merge out =>
      intro hs hm
      exact handThen path d _ _ hs (hmerged fs (fun _ h => h) out.doc (hm out hd rfl))

/-- Where its parent is no container, a change is lost. -/
theorem run_parentless (hm : mode.makes = false) (value : Value) (kind : Kind) {path : Path} {d : Doc sh}
    (hpath : path ≠ []) (hnone : ∀ e, d.records.get key = some e → e.hasParent sh key path = false) :
    ∃ why, run ts mode key value kind path d = (Outcome.nothing (d.note key)).lose key path why := by
  have hstep : ∃ why, step ts mode key value kind path d =
      .done ((Outcome.nothing (d.note key)).lose key path why) := by
    cases he : d.records.get key with
    | none => exact ⟨.missing, by simp [step, hpath, he, hm]⟩
    | some e =>
      have harrive : ∃ why, e.arrive sh mode ts key path = .error why := by
        simp only [Entry.arrive, hnone e he, hm, Bool.false_eq_true, if_false]
        split_ifs
        · exact ⟨_, rfl⟩
        · exact ⟨_, rfl⟩
      obtain ⟨why, harrive⟩ := harrive
      exact ⟨why, by simp [step, hpath, he, within, harrive]⟩
  obtain ⟨why, hstep⟩ := hstep
  exact ⟨why, run_of_done hstep⟩

/-- A record that is there stays, and a change inside it leaves the rest of it. -/
theorem run_off (hm : mode.makes = false) (value : Value) (kind : Kind) {path : Path} {d : Doc sh}
    {e : Entry} (hpath : path ≠ []) (he : d.records.get key = some e) :
    ∃ e', (run ts mode key value kind path d).doc.records.get key = some e' ∧ e.Off path e' := by
  refine run_rule (V := fun _ => True) (H := fun _ _ _ => True) (P := fun path d out => path ≠ [] → ∀ e,
    d.records.get key = some e → ∃ e', out.doc.records.get key = some e' ∧ e.Off path e')
    (fun _ _ _ _ => trivial) ?_ ?_ ?_ ?_ ?_ ?_ value kind path d trivial trivial hpath e he
  · exact fun value kind path d _ _ hpath e he => step_off hm hpath he
  · exact fun _ _ _ _ _ _ _ _ _ => trivial
  · exact fun _ _ _ _ _ _ _ _ => trivial
  · exact fun path d _ e he => ⟨e, he, .refl path e⟩
  · intro path d out more hout hmore hpath e he
    obtain ⟨e₁, he₁, hone⟩ := hout hpath e he
    obtain ⟨e₂, he₂, hrest⟩ := hmore hpath e₁ he₁
    exact ⟨e₂, he₂, hone.trans hrest⟩
  · intro path k d out hout _ e he
    obtain ⟨e', he', hoff⟩ := hout (by simp) e he
    exact ⟨e', he', hoff.beneath⟩

/-- What is reported of a change inside a record is at its path or beneath it. -/
theorem applied_beneath (hm : mode.makes = false) (value : Value) (kind : Kind) {path : Path}
    (d : Doc sh) (hpath : path ≠ []) : ∀ ch ∈ (run ts mode key value kind path d).applied,
      ch.c = key.1 ∧ ch.id = key.2 ∧ path <+: ch.path := by
  refine run_rule (V := fun _ => True) (H := fun _ _ _ => True)
    (P := fun path _ out => path ≠ [] → ∀ ch ∈ out.applied, ch.c = key.1 ∧ ch.id = key.2 ∧ path <+: ch.path)
    (fun _ _ _ _ => trivial) ?_ ?_ ?_ ?_ ?_ ?_ value kind path d trivial trivial hpath
  · intro value kind path d _ _ hpath
    cases he : d.records.get key with
    | none => simp [step, hpath, he, hm, Step.outcome, Outcome.nothing, Outcome.lose]
    | some e =>
      have hdecided : Decided sh ts mode key value kind path e (d.note key)
          (step ts mode key value kind path d) := decided hm hpath he
      revert hdecided
      generalize step ts mode key value kind path d = s
      intro hdecided
      cases hdecided <;> simp [Step.outcome, Outcome.nothing, Outcome.lose, landed, Outcome.report]
  · exact fun _ _ _ _ _ _ _ _ _ => trivial
  · exact fun _ _ _ _ _ _ _ _ => trivial
  · exact fun _ _ _ ch hch => by cases hch
  · intro path d out more hout hmore hpath ch hch
    exact (List.mem_append.mp hch).elim (hout hpath ch) (hmore hpath ch)
  · intro path k d out hout _ ch hch
    obtain ⟨hc, hid, hle⟩ := hout (by simp) ch hch
    exact ⟨hc, hid, (List.prefix_append _ _).trans hle⟩

/-- The other records are left. -/
theorem run_others (hm : mode.makes = false) (value : Value) (kind : Kind) {path : Path} (d : Doc sh)
    (hpath : path ≠ []) {k : RecordKey} (hk : k ≠ key) :
    (run ts mode key value kind path d).doc.records.get k = d.records.get k := by
  refine run_rule (V := fun _ => True) (H := fun _ _ _ => True)
    (P := fun path d out => path ≠ [] → out.doc.records.get k = d.records.get k)
    (fun _ _ _ _ => trivial) ?_ ?_ ?_ ?_ ?_ ?_ value kind path d trivial trivial hpath
  · intro value kind path d _ _ hpath
    cases he : d.records.get key with
    | none => simp [step, hpath, he, hm, Step.outcome, Outcome.nothing, Outcome.lose]
    | some e =>
      have hdecided : Decided sh ts mode key value kind path e (d.note key)
          (step ts mode key value kind path d) := decided hm hpath he
      revert hdecided
      generalize step ts mode key value kind path d = s
      intro hdecided
      cases hdecided <;>
        simp [Step.outcome, get_landed, Ne.symm hk, Outcome.nothing, Outcome.lose]
  · exact fun _ _ _ _ _ _ _ _ _ => trivial
  · exact fun _ _ _ _ _ _ _ _ => trivial
  · exact fun _ _ _ => rfl
  · exact fun path d out more hout hmore hpath => (hmore hpath).trans (hout hpath)
  · exact fun path k d out hout _ => hout (by simp)

end LazyStorage.Core
