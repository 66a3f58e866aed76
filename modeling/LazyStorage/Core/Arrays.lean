import LazyStorage.Core.Inside
import LazyStorage.Core.Trusted

/-! # An array is a leaf

A path's parent is a plain object, so a change alters an array from inside where
and only where an array stands above the parent, and the change writes what was not
there.
-/
namespace LazyStorage.Core

open Lib

variable {sh : Shape} {ts : ℕ} {key : RecordKey}

/-- Every array of every record is as it was, or was written over or deleted by a change at its own path
or at one above. -/
def ArraysWhole (d : Doc sh) (out : Outcome sh) : Prop :=
  ∀ k r items, (d.get k).bind (valueAt · r) = some (.arr items) →
    (out.doc.get k).bind (valueAt · r) = some (.arr items) ∨
      ∃ ch ∈ out.applied, sh.recordKey ch.c ch.id = k ∧ ch.path <+: r

namespace ArraysWhole

variable {d : Doc sh} {out more : Outcome sh}

theorem of_same (h : ∀ k, out.doc.get k = d.get k) : ArraysWhole d out := fun k r items hr => by
  rw [h k]
  exact .inl hr

theorem andThen (h : ArraysWhole d out) (h' : ArraysWhole out.doc more) :
    ArraysWhole d (out.andThen fun _ => more) := by
  intro k r items hr
  rcases h k r items hr with hkept | ⟨ch, hch, hover⟩
  · rcases h' k r items hkept with hkept | ⟨ch, hch, hover⟩
    · exact .inl hkept
    · exact .inr ⟨ch, List.mem_append_right _ hch, hover⟩
  · exact .inr ⟨ch, List.mem_append_left _ hch, hover⟩

/-- Whole records written or deleted take what is in them along. -/
theorem of_whole (hreplays : Replays ts out.applied d out.doc) (hwhole : ∀ ch ∈ out.applied, ch.path = []) :
    ArraysWhole d out := by
  intro k r items hr
  by_cases hnamed : ∃ ch ∈ out.applied, sh.recordKey ch.c ch.id = k
  · obtain ⟨ch, hch, hk⟩ := hnamed
    exact .inr ⟨ch, hch, hk, hwhole ch hch ▸ List.nil_prefix⟩
  · obtain ⟨x, hx, hsame⟩ := hreplays
    have hspared := trusted_spares hx fun ch hch hk => hnamed ⟨ch, hch, hk⟩
    rw [Doc.get, Doc.same_iff.mp hsame k, hspared]
    exact .inl hr

end ArraysWhole

/-- A record is a container all the way to the parent of a path. -/
def Doc.Solid (d : Doc sh) (key : RecordKey) (path : Path) : Prop :=
  path ≠ [] → ∀ q, q <+: path.dropLast → d.ObjAt key q

theorem Doc.solid_of_throughArray {d : Doc sh} {path : Path} (h : d.throughArray key path = false)
    (hobj : d.ObjAt key path.dropLast) : d.Solid key path := by
  intro hpath q hq
  obtain ⟨fs, hfs⟩ := Value.spots_eq_node.mp (hobj.solid hpath h q hq)
  obtain ⟨v, hv, hfs⟩ := Option.bind_eq_some_iff.mp hfs
  obtain ⟨e, he, rfl⟩ := Option.map_eq_some_iff.mp hv
  exact ⟨e, fs, he, hfs⟩

/-- One step, where no array stands on its way. -/
theorem step_arrays (hkey : Normal sh key) {value : Value} {kind : Kind} {path : Path} {d : Doc sh}
    (hdel : path = [] → kind = .del → sh.isSingleton key.1 = false) (hsolid : d.Solid key path) :
    ArraysWhole d (step ts .judge key value kind path d).outcome := by
  have hfaithful : Faithful ts key path d (step ts .judge key value kind path d).outcome :=
    (step_faithful ts value d hkey hdel (fun hm => absurd hm (by decide))).1
  by_cases hpath : path = []
  · subst hpath
    refine .of_whole hfaithful.replays ?_
    simp only [step, List.isEmpty_nil, if_true]
    exact atRoot_whole
  cases he : d.records.get key with
  | none =>
    refine .of_same fun k => ?_
    simp [step, hpath, he, Mode.makes, Step.outcome, Outcome.nothing, Outcome.lose, Doc.get]
  | some e =>
    have hdecided : Decided sh ts .judge key value kind path e (d.note key)
        (step ts .judge key value kind path d) := decided rfl hpath he
    revert hdecided
    generalize step ts .judge key value kind path d = s
    intro hdecided
    have hnote : ∀ k, (d.note key).get k = d.get k := fun k => by simp [Doc.get]
    cases hdecided with
    | lost => exact .of_same hnote
    | skip => exact .of_same hnote
    | merge => exact .of_same hnote
    | @land hparent _ _ e' w hlands =>
      obtain ⟨⟨fs, hfs⟩, -⟩ := Entry.hasParent_iff.mp hparent
      intro k r items hr
      simp only [Step.outcome, Doc.get, get_landed]
      by_cases hk : key = k
      swap
      · left
        rw [if_neg hk]
        simpa [Doc.get, Outcome.nothing] using hr
      subst hk
      rw [if_pos rfl]
      by_cases hover : path <+: r
      · exact .inr ⟨⟨key.1, key.2, path, w⟩, by simp [landed, Outcome.report, Outcome.nothing],
          hkey, hover⟩
      have hthere : valueAt e.data r = some (.arr items) := by simpa [Doc.get, he] using hr
      have habove : ¬ r <+: path.dropLast := fun hle => by
        obtain ⟨e₁, gs, he₁, hgs⟩ := hsolid hpath r hle
        obtain rfl : e = e₁ := Option.some.inj (he.symm.trans he₁)
        rw [hthere] at hgs
        cases hgs
      left
      exact ((hlands.off hpath hfs).data r hover habove).trans hthere

/-- What holds of each step whose way leads through containers, and of what comes after what, holds of a
change whose way leads through no array: a put that is merged in goes on from containers, and each run
keeps those above it. -/
theorem run_solid (hkey : Normal sh key) {V : Value → Prop} {Q : Doc sh → Outcome sh → Prop}
    (hfields : ∀ fs, V (.obj fs) → ∀ field ∈ fs, V field.2)
    (hstep : ∀ value kind path d, V value → (path = [] → kind = .del → sh.isSingleton key.1 = false) →
      d.Solid key path → Q d (step ts .judge key value kind path d).outcome)
    (hnothing : ∀ d, Q d (.nothing d))
    (hlost : ∀ path why d, Q d ((Outcome.nothing (d.note key)).lose key path why))
    (handThen : ∀ d out more, Q d out → Q out.doc more → Q d (out.andThen fun _ => more))
    {value : Value} (hvalue : V value) (kind : Kind) {path : Path} {d : Doc sh}
    (hdel : path = [] → kind = .del → sh.isSingleton key.1 = false)
    (hfree : d.throughArray key path = false) : Q d (run ts .judge key value kind path d) := by
  by_cases hparent : path ≠ [] ∧ ¬ d.ObjAt key path.dropLast
  · obtain ⟨why, hrun⟩ := @run_parentless sh ts .judge key rfl value kind path d hparent.1 fun e he => by
      by_contra hthere
      obtain ⟨⟨fs, hfs⟩, -⟩ := Entry.hasParent_iff.mp (Bool.not_eq_false _ ▸ hthere)
      exact hparent.2 ⟨e, fs, he, hfs⟩
    rw [hrun]
    exact hlost path why d
  rw [not_and_or, not_not, not_not] at hparent
  have hsolid : d.Solid key path := fun hpath =>
    Doc.solid_of_throughArray hfree (hparent.resolve_left hpath) hpath
  refine (@run_rule sh ts .judge key V
    (fun kind path d => (path = [] → kind = .del → sh.isSingleton key.1 = false) ∧ d.Solid key path)
    (fun path d out => Q d out ∧ ∀ q, q <+: path.dropLast → path ≠ [] →
      d.ObjAt key q → out.doc.ObjAt key q)
    hfields ?_ ?_ ?_ ?_ ?_ ?_ value kind path d hvalue ⟨hdel, hsolid⟩).1
  · intro value kind path d hvalue h
    exact ⟨hstep value kind path d hvalue h.1 h.2,
      (step_faithful ts value d hkey h.1 (fun hm => absurd hm (by decide))).1.keeps⟩
  · intro value kind path d out h hout kind' k
    obtain ⟨hfaithful, hmerge⟩ := @step_faithful sh ts .judge key value kind path d hkey h.1
      (fun hm => absurd hm (by decide))
    rw [hout] at hfaithful
    refine ⟨by simp, fun _ q hq => ?_⟩
    rw [List.dropLast_concat] at hq
    by_cases heq : q = path
    · exact heq ▸ (hmerge out hout).1
    · have hpath : path ≠ [] := fun hnil => heq (by rw [hnil] at hq ⊢; exact List.prefix_nil.mp hq)
      have hq' := prefix_dropLast hq heq
      exact hfaithful.keeps q hq' hpath (h.2 hpath q hq')
  · intro path k d out h hall kind' k'
    refine ⟨by simp, fun _ q hq => ?_⟩
    rw [List.dropLast_concat] at hq
    have hd := (hall kind' k).2 (by simp) q (by rwa [List.dropLast_concat])
    exact h.2 q (by rwa [List.dropLast_concat]) (by simp) hd
  · exact fun path d => ⟨hnothing d, fun _ _ _ h => h⟩
  · intro path d out more h h'
    exact ⟨handThen d out more h.1 h'.1, fun q hq hp hd => h'.2 q hq hp (h.2 q hq hp hd)⟩
  · intro path k d out h
    refine ⟨h.1, fun q hq _ hd => h.2 q ?_ (by simp) hd⟩
    rw [List.dropLast_concat]
    exact hq.trans (List.dropLast_prefix path)

/-- A change whose way leads through no array leaves every array whole. -/
theorem run_arrays (hkey : Normal sh key) (value : Value) (kind : Kind) {path : Path} {d : Doc sh}
    (hdel : path = [] → kind = .del → sh.isSingleton key.1 = false)
    (hfree : d.throughArray key path = false) :
    ArraysWhole d (run ts .judge key value kind path d) := by
  refine run_solid (V := fun _ => True) hkey (fun _ _ _ _ => trivial) ?_ ?_ ?_ ?_ trivial kind hdel hfree
  · exact fun value kind path d _ hdel hsolid => step_arrays hkey hdel hsolid
  · exact fun d => .of_same fun _ => rfl
  · intro path why d
    exact .of_same fun k => by simp [Outcome.lose, Outcome.nothing, Doc.get]
  · exact fun d out more h h' => h.andThen h'

mutual

/-- Whether objects name each of their keys once, as objects do. Arrays are not looked into. -/
def distinct : Value → Bool
  | .obj fs => (fs.map Prod.fst).Nodup && distinctFields fs
  | _ => true

def distinctFields : List (String × Value) → Bool
  | [] => true
  | (_, v) :: fs => distinct v && distinctFields fs

end

theorem distinctFields_iff {fs : List (String × Value)} :
    distinctFields fs = true ↔ ∀ e ∈ fs, distinct e.2 = true := by
  induction fs with
  | nil => simp [distinctFields]
  | cons e fs ih => simp [distinctFields, ih]

namespace Entry

/-- Whether a change gets nowhere inside its record: it is older than a container above it, or its
parent is not there. -/
def barred (sh : Shape) (ts : ℕ) (key : RecordKey) (path : Path) (e : Entry) : Bool :=
  e.stale path ts || !e.hasParent sh key path

/-- Whether what a change writes at its place is older than what is there, or is there already. -/
def quiet (ts : ℕ) (path : Path) (kind : Kind) (value : Value) (e : Entry) : Bool :=
  match kind, e.current path with
  | .del, none => true
  | .del, some current =>
    newer (e.clock.liveAt path) ts || (current.isObj && e.clock.newerBeneath path ts)
  | .put, none => newer (e.clock.gone.get path) ts
  | _, current => current = some value || e.outlives ts path (current.any Value.isObj)

mutual

/-- Whether a change leaves what its record holds as it is. -/
def idle (sh : Shape) (ts : ℕ) (key : RecordKey) (e : Entry) : Value → Kind → Path → Bool
  | .obj fs, kind, path =>
    e.barred sh ts key path ||
      if settledKind sh key path kind (.obj fs) = .put && (e.current path).any Value.isObj then
        idleFields sh ts key e fs path
      else e.quiet ts path (settledKind sh key path kind (.obj fs)) (.obj fs)
  | v, kind, path => e.barred sh ts key path || e.quiet ts path (settledKind sh key path kind v) v

def idleFields (sh : Shape) (ts : ℕ) (key : RecordKey) (e : Entry) :
    List (String × Value) → Path → Bool
  | [], _ => true
  | (k, v) :: fs, path =>
    idle sh ts key e v (changeFor v).kind (path ++ [k]) && idleFields sh ts key e fs path

end

variable {path : Path} {kind : Kind} {value : Value} {e e' : Entry} {fs : List (String × Value)}

theorem idleFields_iff {gs : List (String × Value)} : idleFields sh ts key e gs path = true ↔
    ∀ f ∈ gs, idle sh ts key e f.2 (changeFor f.2).kind (path ++ [f.1]) = true := by
  induction gs with
  | nil => simp [idleFields]
  | cons f gs ih => simp [idleFields, ih]

theorem modifyAt_eq_self {f : Value → Value} {q : Path} {v : Value} (h : valueAt v q = some (.obj fs))
    (hf : f (.obj fs) = .obj fs) : modifyAt f q v = v := by
  induction q generalizing v with
  | nil =>
    obtain rfl := Option.some.inj h
    exact hf
  | cons seg q ih =>
    rw [valueAt_cons] at h
    obtain ⟨y, hy, hrest⟩ := Option.bind_eq_some_iff.mp h
    simp only [modifyAt, hy, ih hrest]
    cases v with
    | obj gs => exact congrArg Value.obj (Assoc.set_of_get hy)
    | arr items =>
      simp only [Value.prop] at hy
      split_ifs at hy
      · exact absurd (Option.some.inj hy).symm (not_num_of_valueAt hrest _)
      · obtain ⟨i, hi, hy⟩ := Option.bind_eq_some_iff.mp hy
        obtain ⟨hlt, rfl⟩ := List.getElem?_eq_some_iff.mp hy
        simp only [Value.withProp, hi, List.set_getElem_self]
    | _ => rfl

/-- What is there, placed there. -/
theorem place_self (hparent : valueAt e.data path.dropLast = some (.obj fs))
    (h : e.current path = some value) : e.place path value = e.data := by
  refine modifyAt_eq_self hparent ?_
  simp only [current, hparent, Option.bind_some, Value.fields?] at h
  exact congrArg Value.obj (Assoc.set_of_get h)

/-- A quiet change does not land, or leaves what the record holds. -/
theorem settle_quiet (hparent : valueAt e.data path.dropLast = some (.obj fs))
    (h : e.quiet ts path kind value = true) {e' : Entry} {w : Write}
    (hland : e.Landing sh .judge ts key path kind value e' w) : e'.data = e.data := by
  cases hland with
  | fresh hput habsent hnewest =>
    subst hput
    simp [quiet, habsent, hnewest rfl] at h
  | replaced hwritten hleaf hnewest =>
    have hthere : e.current path = some value := by
      cases kind with
      | del => exact absurd rfl hwritten
      | put =>
        obtain ⟨v, hv, hobj⟩ := hleaf rfl
        have hquiet := hnewest rfl
        rw [hv, Option.any_some] at hquiet
        simpa [quiet, hv, hquiet] using h
      | set =>
        have hquiet := hnewest rfl
        simpa [quiet, hquiet] using h
    exact place_self hparent hthere
  | gone hasked hthere hnewest =>
    subst hasked
    obtain ⟨hlive, hbeneath⟩ := hnewest rfl
    simp [quiet, hthere, hlive] at h
    simp [hbeneath h.1] at h

/-- A change that is not quiet lands, and changes what is at its place. -/
theorem settle_loud (hpath : path ≠ []) (hparent : valueAt e.data path.dropLast = some (.obj fs))
    (hput : kind = .put → value.isObj = true)
    (hmerge : ¬ (kind = .put ∧ (e.current path).any Value.isObj = true))
    (h : e.quiet ts path kind value = false) : ∃ e' w,
    e.settle sh .judge ts key path kind value = .land e' w ∧ valueAt e'.data path ≠ valueAt e.data path := by
  have hplace : valueAt (e.place path value) path = some value := by
    simpa using valueAt_place hpath hparent value []
  have hover : e.outlives ts path ((e.current path).any Value.isObj) = false →
      e.current path ≠ some value → ∃ e' w, e.overwrite .judge ts path value = .land e' w ∧
        valueAt e'.data path ≠ valueAt e.data path := by
    intro hquiet hne
    refine ⟨_, _, by simp [overwrite, hquiet]; exact ⟨rfl, rfl⟩, ?_⟩
    rw [hplace, ← current_eq hpath hparent]
    exact Ne.symm hne
  cases kind with
  | put =>
    cases hcurrent : e.current path with
    | none =>
      have hnewer : newer (e.clock.gone.get path) ts = false := by simpa [quiet, hcurrent] using h
      refine ⟨_, _, by simp [settle, hcurrent, Entry.fresh, hnewer]; exact ⟨rfl, rfl⟩, ?_⟩
      rw [hplace, ← current_eq hpath hparent, hcurrent]
      simp
    | some v =>
      have hobj : v.isObj = false := by
        rw [← Bool.not_eq_true]
        exact fun hobj => hmerge ⟨rfl, by simp [hcurrent, hobj]⟩
      have hne : v ≠ value := fun heq => by
        rw [heq, hput rfl] at hobj
        cases hobj
      have hquiet : e.outlives ts path ((e.current path).any Value.isObj) = false := by
        simpa [quiet, hcurrent, hne] using h
      obtain ⟨e', w, hland, hdiffers⟩ := hover hquiet (by simpa [hcurrent] using hne)
      refine ⟨e', w, ?_, hdiffers⟩
      rw [← hland]
      cases v with
      | obj gs => cases hobj
      | _ => simp [settle, hcurrent]
  | set =>
    have hquiet : e.current path ≠ some value ∧
        e.outlives ts path ((e.current path).any Value.isObj) = false := by
      simpa [quiet] using h
    obtain ⟨e', w, hland, hdiffers⟩ := hover hquiet.2 hquiet.1
    exact ⟨e', w, by simpa [settle] using hland, hdiffers⟩
  | del =>
    cases hcurrent : e.current path with
    | none => simp [quiet, hcurrent] at h
    | some v =>
      have hquiet : newer (e.clock.liveAt path) ts = false ∧
          (v.isObj = true → e.clock.newerBeneath path ts = false) := by
        simpa [quiet, hcurrent] using h
      refine ⟨⟨e.erase path, (e.clock.dropBeneath path true v.isObj).setGone path ts⟩, .del, ?_, ?_⟩
      · have hbeneath : (v.isObj && e.clock.newerBeneath path ts) = false := by
          simpa using hquiet.2
        simp [settle, hcurrent, delete, hquiet.1, hbeneath, erase]
      · rw [← current_eq hpath hparent, hcurrent]
        have hgone := valueAt_erase hpath hparent []
        rw [List.append_nil] at hgone
        rw [hgone]
        simp

/-- Times off a path do not matter to what is apart from it. -/
theorem idle_congr {q : Path} (hdata : e'.data = e.data) (hclock : e.clock.Off q e'.clock)
    (value : Value) : ∀ (kind : Kind) (path : Path), ¬ q <+: path → ¬ path <+: q →
      e'.idle sh ts key value kind path = e.idle sh ts key value kind path := by
  have hbarred : ∀ path, ¬ q <+: path →
      e'.barred sh ts key path = e.barred sh ts key path := by
    intro path hq
    have hlive : ∀ i, e'.clock.liveAt (path.take i) = e.clock.liveAt (path.take i) := fun i =>
      hclock.liveAt fun hle => hq (hle.trans (List.take_prefix i path))
    simp only [barred, stale, hasParent, hdata, hlive]
  have hcurrent : ∀ path, e'.current path = e.current path := fun path => by
    simp only [current, hdata]
  have hquiet : ∀ value kind path, ¬ q <+: path → ¬ path <+: q →
      e'.quiet ts path kind value = e.quiet ts path kind value := by
    intro value kind path hq hq'
    simp only [quiet, outlives, hcurrent, hclock.liveAt hq, hclock.gone path hq,
      hclock.newerBeneath hq hq']
  induction value using Value.merging_induction with
  | leaf v hv =>
    intro kind path hq hq'
    cases v with
    | obj fs => cases hv
    | _ => simp only [idle, hbarred path hq, hquiet _ _ path hq hq']
  | fields fs ih =>
    intro kind path hq hq'
    have hfields : idleFields sh ts key e' fs path = idleFields sh ts key e fs path := by
      rw [Bool.eq_iff_iff, idleFields_iff, idleFields_iff]
      refine forall₂_congr fun f hf => ?_
      rw [ih f hf _ _ (fun hle => ?_) fun hle => hq' ((List.prefix_append _ _).trans hle)]
      rcases List.prefix_concat_iff.mp hle with heq | hle
      · exact hq' (heq ▸ List.prefix_append _ _)
      · exact hq hle
    simp only [idle, hbarred path hq, hquiet _ _ path hq hq', hcurrent, hfields]

end Entry

namespace Entry

variable {path : Path} {value : Value} {kind : Kind} {e : Entry}

theorem idle_of_barred (h : e.barred sh ts key path = true) : e.idle sh ts key value kind path = true := by
  cases value <;> simp [idle, h]

theorem idle_of_merge {fs : List (String × Value)} (hbarred : e.barred sh ts key path = false)
    (hput : settledKind sh key path kind (.obj fs) = .put)
    (hthere : (e.current path).any Value.isObj = true) :
    e.idle sh ts key (.obj fs) kind path = e.idleFields sh ts key fs path := by
  simp [idle, hbarred, hput, hthere]

theorem idle_of_not_merge (hbarred : e.barred sh ts key path = false)
    (h : ¬ (settledKind sh key path kind value = .put ∧ (e.current path).any Value.isObj = true)) :
    e.idle sh ts key value kind path = e.quiet ts path (settledKind sh key path kind value) value := by
  cases value with
  | obj fs =>
    rw [idle, hbarred, Bool.false_or, if_neg (by simpa using h)]
  | _ => simp [idle, hbarred]

end Entry

section Through

variable {path : Path} {d : Doc sh} {e : Entry}

theorem step_of_arrive {value : Value} {kind : Kind} (hlen : 2 ≤ path.length)
    (he : d.records.get key = some e) (harrive : e.arrive sh .judge ts key path = .ok e) :
    step ts .judge key value kind path d =
      match e.settle sh .judge ts key path (settledKind sh key path kind value) value with
      | .lose => .done ((Outcome.nothing (d.note key)).lose key path .newer)
      | .skip => .done (.nothing (d.note key))
      | .merge => .merge (.nothing (d.note key))
      | .land e w => .done (landed key path e w (.nothing (d.note key))) := by
  have hpath : path ≠ [] := fun h => by simp [h] at hlen
  have hone : path.length ≠ 1 := by omega
  have hnote : (d.note key).records.get key = some e := by rwa [Doc.get_note]
  cases hsettle : e.settle sh .judge ts key path (settledKind sh key path kind value) value <;>
    simp [step, hpath, he, within, harrive, strands, hone, hsettle, Outcome.nothing,
      Doc.write_there hnote]

/-- What a change does inside a record: where it is to be merged in, its fields are decided in turn; else
it leaves what the record holds, or changes what is at its place. -/
theorem run_cases {value : Value} {kind : Kind} (hlen : 2 ≤ path.length)
    (he : d.records.get key = some e) :
    (∃ fs, value = .obj fs ∧ e.idle sh ts key value kind path = e.idleFields sh ts key fs path ∧
      ∃ d', d'.records.get key = some e ∧
        (run ts .judge key value kind path d).doc = (runFields ts .judge key fs path d').doc) ∨
    ∃ e', (run ts .judge key value kind path d).doc.records.get key = some e' ∧
      (e.idle sh ts key value kind path = true → e'.data = e.data) ∧
      (e.idle sh ts key value kind path = false → valueAt e'.data path ≠ valueAt e.data path) := by
  have hpath : path ≠ [] := fun h => by simp [h] at hlen
  have hnote : (d.note key).records.get key = some e := by rwa [Doc.get_note]
  cases hbarred : e.barred sh ts key path with
  | true =>
    right
    refine ⟨e, ?_, fun _ => rfl, fun h => by simp [Entry.idle_of_barred hbarred] at h⟩
    obtain ⟨why, harrive⟩ : ∃ why, e.arrive sh .judge ts key path = .error why := by
      simp only [Entry.barred, Bool.or_eq_true, Bool.not_eq_true'] at hbarred
      rcases hbarred with hstale | hparent
      · exact ⟨.stale, by simp [Entry.arrive, Mode.judging, hstale]⟩
      · cases hstale : e.stale path ts <;>
          simp [Entry.arrive, hparent, Mode.makes, Mode.judging, hstale]
    have hlost : run ts .judge key value kind path d =
        (Outcome.nothing (d.note key)).lose key path why :=
      run_of_done (by simp [step, hpath, he, within, harrive])
    rw [hlost]
    exact hnote
  | false =>
    have hopen := hbarred
    simp only [Entry.barred, Bool.or_eq_false_iff, Bool.not_eq_false'] at hopen
    obtain ⟨⟨gs, hgs⟩, -⟩ := Entry.hasParent_iff.mp hopen.2
    have harrive : e.arrive sh .judge ts key path = .ok e := by
      simp [Entry.arrive, Mode.judging, hopen.1, hopen.2]
    have hstep := @step_of_arrive sh ts key path d e value kind hlen he harrive
    by_cases hmerge : settledKind sh key path kind value = .put ∧ (e.current path).any Value.isObj = true
    · left
      obtain ⟨fs, rfl⟩ := exists_fields_of_put hmerge.1
      refine ⟨fs, rfl, Entry.idle_of_merge hbarred hmerge.1 hmerge.2, d.note key, hnote, ?_⟩
      obtain ⟨v, hv, hobj⟩ := (Option.any_eq_true _ _).mp hmerge.2
      obtain ⟨vs, rfl⟩ := Value.isObj_iff.mp hobj
      have hsettle : e.settle sh .judge ts key path (settledKind sh key path kind (.obj fs)) (.obj fs) =
          .merge := by simp [Entry.settle, hmerge.1, hv]
      rw [hsettle] at hstep
      rw [run, hstep]
      rfl
    · right
      rw [Entry.idle_of_not_merge hbarred hmerge]
      cases hquiet : e.quiet ts path (settledKind sh key path kind value) value with
      | true =>
        refine Exists.imp (fun e' h => ⟨h.1, fun _ => h.2, by simp⟩)
          (p := fun e' => (run ts .judge key value kind path d).doc.records.get key = some e' ∧
            e'.data = e.data) ?_
        cases hsettle : e.settle sh .judge ts key path (settledKind sh key path kind value) value with
        | lose =>
          rw [hsettle] at hstep
          exact ⟨e, (congrArg (·.doc.records.get key) (run_of_done hstep)).trans hnote, rfl⟩
        | skip =>
          rw [hsettle] at hstep
          exact ⟨e, (congrArg (·.doc.records.get key) (run_of_done hstep)).trans hnote, rfl⟩
        | merge =>
          obtain ⟨hput, vs, hvs⟩ := settle_merge hpath hsettle
          rw [← Entry.current_eq hpath hgs] at hvs
          exact absurd ⟨hput, by simp [hvs]⟩ hmerge
        | land e' w =>
          rw [hsettle] at hstep
          refine ⟨e', ?_, Entry.settle_quiet hgs hquiet (Entry.landing_of_settle hsettle)⟩
          rw [run_of_done hstep, get_landed, if_pos rfl]
      | false =>
        obtain ⟨e', w, hland, hdiffers⟩ := @Entry.settle_loud sh ts key path _ value e gs hpath hgs (fun h => by
          obtain ⟨fs, rfl⟩ := exists_fields_of_put h
          rfl) hmerge hquiet
        rw [hland] at hstep
        rw [run_of_done hstep, get_landed, if_pos rfl]
        exact ⟨e', rfl, by simp, fun _ => hdiffers⟩

/-- Fields decided in turn leave apart from them what they do not name. -/
theorem runFields_off {gs : List (String × Value)} {p : Path} {last : String}
    (hp : path ++ [last] <+: p) (hlast : ∀ g ∈ gs, g.1 ≠ last) {d : Doc sh} {e : Entry}
    (he : d.records.get key = some e) :
    ∃ e', (runFields ts .judge key gs path d).doc.records.get key = some e' ∧
      valueAt e'.data p = valueAt e.data p := by
  induction gs generalizing d e with
  | nil => exact ⟨e, he, rfl⟩
  | cons g gs ih =>
    obtain ⟨e₁, he₁, hoff⟩ := @run_off sh ts .judge key rfl g.2 (changeFor g.2).kind (path ++ [g.1]) d e
      (by simp) he
    obtain ⟨e₂, he₂, hrest⟩ := ih (fun g hg => hlast g (by simp [hg])) he₁
    refine ⟨e₂, he₂, hrest.trans (hoff.data p (fun hle => ?_) fun hle => ?_)⟩
    · have hboth := List.prefix_of_prefix_length_le hle hp (by simp)
      simp only [List.prefix_append_right_inj, List.cons_prefix_cons, List.nil_prefix, and_true] at hboth
      exact hlast g (by simp) hboth
    · have hlen := (hp.trans hle).length_le
      simp only [List.length_append, List.length_singleton, List.dropLast_concat] at hlen
      omega

/-- What an idle change leaves, and that any other changes something at its place or beneath it. -/
theorem run_idle (value : Value) : ∀ (kind : Kind) (path : Path) (d : Doc sh) {e : Entry},
    distinct value = true → 2 ≤ path.length → d.records.get key = some e →
    ∃ e', (run ts .judge key value kind path d).doc.records.get key = some e' ∧
      (e.idle sh ts key value kind path = true → e'.data = e.data) ∧
      (e.idle sh ts key value kind path = false →
        ∃ p, path <+: p ∧ valueAt e'.data p ≠ valueAt e.data p) := by
  induction value using Value.merging_induction with
  | leaf v hv =>
    intro kind path d e _ hlen he
    rcases @run_cases sh ts key path d e v kind hlen he with ⟨fs, rfl, -⟩ | ⟨e', he', hidle, hloud⟩
    · cases hv
    · exact ⟨e', he', hidle, fun h => ⟨path, List.prefix_rfl, hloud h⟩⟩
  | fields fs ih =>
    intro kind path d e hdistinct hlen he
    simp only [distinct, Bool.and_eq_true, decide_eq_true_eq, distinctFields_iff] at hdistinct
    obtain ⟨hnodup, hfields⟩ := hdistinct
    have hall : ∀ gs : List (String × Value), (∀ g ∈ gs, g ∈ fs) → (gs.map Prod.fst).Nodup →
        ∀ (d : Doc sh) {e : Entry}, d.records.get key = some e →
        ∃ e', (runFields ts .judge key gs path d).doc.records.get key = some e' ∧
          (e.idleFields sh ts key gs path = true → e'.data = e.data) ∧
          (e.idleFields sh ts key gs path = false →
            ∃ p, path <+: p ∧ valueAt e'.data p ≠ valueAt e.data p) := by
      intro gs hg hgs
      induction gs with
      | nil => exact fun d e he => ⟨e, he, fun _ => rfl, fun h => nomatch h⟩
      | cons g gs ihg =>
        intro d e he
        rw [List.map_cons, List.nodup_cons] at hgs
        have hother : ∀ g' ∈ gs, g'.1 ≠ g.1 := fun g' hg' heq =>
          hgs.1 (heq ▸ List.mem_map_of_mem hg')
        have hlen' : 2 ≤ (path ++ [g.1]).length := by simp; omega
        obtain ⟨e₁, he₁, hidle, hloud⟩ := ih g (hg g (by simp)) (changeFor g.2).kind (path ++ [g.1]) d
          (hfields g (hg g (by simp))) hlen' he
        obtain ⟨x, hx, hoff⟩ := @run_off sh ts .judge key rfl g.2 (changeFor g.2).kind (path ++ [g.1]) d e
          (by simp) he
        obtain rfl : e₁ = x := Option.some.inj (he₁.symm.trans hx)
        rw [Entry.idleFields]
        cases hone : e.idle sh ts key g.2 (changeFor g.2).kind (path ++ [g.1]) with
        | true =>
          have hdata := hidle hone
          have hsame : e₁.idleFields sh ts key gs path = e.idleFields sh ts key gs path := by
            rw [Bool.eq_iff_iff, Entry.idleFields_iff, Entry.idleFields_iff]
            refine forall₂_congr fun g' hg' => ?_
            have hne := hother g' hg'
            rw [Entry.idle_congr hdata hoff.clock g'.2 _ _ (fun hle => ?_) fun hle => ?_]
            · simp [Ne.symm hne] at hle
            · simp [hne] at hle
          obtain ⟨e₂, he₂, hidle₂, hloud₂⟩ := ihg (fun g hg' => hg g (by simp [hg'])) hgs.2 _ he₁
          rw [hsame, hdata] at hidle₂ hloud₂
          exact ⟨e₂, he₂, by simpa using hidle₂, by simpa using hloud₂⟩
        | false =>
          obtain ⟨p, hp, hdiffers⟩ := hloud hone
          obtain ⟨e₂, he₂, hkept⟩ := @runFields_off sh ts key path gs p g.1 hp hother _ e₁ he₁
          refine ⟨e₂, he₂, by simp, fun _ => ⟨p, (List.prefix_append _ _).trans hp, ?_⟩⟩
          rwa [hkept]
    rcases @run_cases sh ts key path d e (.obj fs) kind hlen he with
      ⟨gs, heq, hfold, d', hd', hrun⟩ | ⟨e', he', hidle, hloud⟩
    · obtain rfl := Value.obj.inj heq
      rw [hrun, hfold]
      exact hall fs (fun _ h => h) hnodup d' hd'
    · exact ⟨e', he', hidle, fun h => ⟨path, List.prefix_rfl, hloud h⟩⟩

end Through

/-- Whether no array stands above a change's path, or the change leaves what its record holds. -/
def sparesArrays (ts : ℕ) (change : Change) (d : Doc sh) : Bool :=
  let key := sh.recordKey change.c change.id
  !d.throughArray key change.path || (d.records.get key).all fun e =>
    e.idle sh ts key change.write.value change.write.kind change.path

/-- Every array is left as it is, or written over or deleted from its own path or from above, where and
only where no array stands above the change's path or the change leaves what its record holds. -/
theorem arrays_whole_iff {change : Change} (hc : sh.assertChange change = .ok ())
    (hvalue : distinct change.write.value = true) (ts : ℕ) (d : Doc sh) :
    ∃ out, apply ts .judge change d = .ok out ∧
      (ArraysWhole d out ↔ sparesArrays ts change d = true) := by
  have haccepts := Shape.accepts_of_assertChange hc
  refine ⟨_, apply_of_accepts haccepts ts .judge d, ?_⟩
  have hkey : Normal sh (sh.recordKey change.c change.id) := normal_recordKey _ _
  have hdel : change.path = [] → change.write.kind = .del →
      sh.isSingleton (sh.recordKey change.c change.id).1 = false := by
    intro hpath hkind
    have hwrite : change.write = .del := by
      revert hkind
      cases change.write <;> simp [Write.kind]
    rw [Shape.recordKey_eq haccepts]
    exact haccepts.keeps hwrite hpath
  unfold sparesArrays
  dsimp only
  generalize sh.recordKey change.c change.id = key at *
  cases hthrough : d.throughArray key change.path with
  | false => simp [run_arrays hkey change.write.value change.write.kind hdel hthrough]
  | true =>
    simp only [Doc.throughArray, ne_eq, decide_not, Bool.and_eq_true, Bool.not_eq_true',
      decide_eq_false_iff_not, List.any_eq_true, List.mem_inits] at hthrough
    obtain ⟨hpath, q, hq, harray⟩ := hthrough
    obtain ⟨items, hitems⟩ : ∃ items, (d.get key).bind (valueAt · q) = some (.arr items) := by
      split at harray
      · next items hitems => exact ⟨items, hitems⟩
      · cases harray
    obtain ⟨v, hv, hitems⟩ := Option.bind_eq_some_iff.mp hitems
    obtain ⟨e, he, rfl⟩ := Option.map_eq_some_iff.mp hv
    have hothers : ∀ k, k ≠ key → (run ts .judge key change.write.value change.write.kind change.path
        d).doc.get k = d.get k := fun k hk => by
      simp only [Doc.get, @run_others sh ts .judge key rfl _ _ _ d hpath k hk]
    simp only [Bool.not_true, Bool.false_or, he, Option.all_some]
    by_cases hlen : 2 ≤ change.path.length
    swap
    · -- the record itself is the array, and has no parent for the change
      have hq : q = [] := by
        have hle := hq.length_le
        rw [List.length_dropLast] at hle
        exact List.eq_nil_of_length_eq_zero (by omega)
      have hroot : change.path.dropLast = [] := by
        apply List.eq_nil_of_length_eq_zero
        rw [List.length_dropLast]
        omega
      have hparent : e.hasParent sh key change.path = false := by
        rw [hq, valueAt_nil] at hitems
        simp [Entry.hasParent, hroot, Option.some.inj hitems, Value.isObj, Value.fields?]
      have hbarred : e.barred sh ts key change.path = true := by simp [Entry.barred, hparent]
      obtain ⟨why, hlost⟩ := @run_parentless sh ts .judge key rfl change.write.value change.write.kind
        change.path d hpath fun x hx => by
          obtain rfl : e = x := Option.some.inj (he.symm.trans hx)
          exact hparent
      rw [Entry.idle_of_barred hbarred, hlost]
      exact iff_of_true (.of_same fun k => by simp [Outcome.lose, Outcome.nothing, Doc.get]) rfl
    obtain ⟨e', he', hidle, hloud⟩ := @run_idle sh ts key change.write.value change.write.kind change.path
      d e hvalue hlen he
    cases hdone : e.idle sh ts key change.write.value change.write.kind change.path with
    | true =>
      refine iff_of_true (.of_same fun k => ?_) rfl
      by_cases hk : k = key
      · subst hk
        simp [Doc.get, he', he, hidle hdone]
      · exact hothers k hk
    | false =>
      obtain ⟨p, hp, hdiffers⟩ := hloud hdone
      refine iff_of_false (fun hwhole => ?_) (by simp)
      rcases hwhole key q items (by simp [Doc.get, he, hitems]) with hkept | ⟨ch, hch, -, hover⟩
      · obtain ⟨t, rfl⟩ := (hq.trans (List.dropLast_prefix _)).trans hp
        have hkept : valueAt e'.data q = some (.arr items) := by simpa [Doc.get, he'] using hkept
        rw [valueAt_append, valueAt_append, hkept, hitems] at hdiffers
        exact hdiffers rfl
      · obtain ⟨-, -, hbeneath⟩ := applied_beneath rfl _ _ d hpath ch hch
        have hle := ((hbeneath.trans hover).trans hq).length_le
        rw [List.length_dropLast] at hle
        omega

/-- A task with a list of one object. -/
def listing : Doc board :=
  Doc.load board [(("tasks", some "t1"), ⟨.obj [("xs", .arr [.obj [("a", .num 1)]])], .born 5⟩)]

/-- A field of the object set: the list is another afterwards, and nothing was written over it. -/
theorem array_altered_inside :
    let change : Change := ⟨"tasks", some "t1", ["xs", "0", "a"], .set (.num 7)⟩
    board.assertChange change = .ok () ∧ distinct change.write.value = true ∧
      ∃ out, apply 9 .judge change listing = .ok out ∧ ¬ ArraysWhole listing out := by
  intro change
  refine ⟨by decide, rfl, _, rfl, fun hwhole => ?_⟩
  rcases hwhole ("tasks", some "t1") ["xs"] [.obj [("a", .num 1)]] (by decide +kernel) with
    hkept | ⟨ch, hch, -, hover⟩
  · revert hkept
    decide +kernel
  · revert ch
    decide +kernel

/-- The list written over. -/
theorem arrays_whole_on_board :
    ∃ out, apply 9 .judge ⟨"tasks", some "t1", ["xs"], .set (.arr [])⟩ listing = .ok out ∧
      (ArraysWhole listing out ↔ sparesArrays 9 ⟨"tasks", some "t1", ["xs"], .set (.arr [])⟩ listing = true) :=
  arrays_whole_iff (by decide) rfl 9 listing

end LazyStorage.Core
