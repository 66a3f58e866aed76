import LazyStorage.Core.Journal
import LazyStorage.Core.Orphans

/-! # The child index over whole runs

Whatever a doc is put through, its index lists exactly the children there are,
unless a write that makes what is missing goes beneath a link field: the field
becomes a container, and the record is not linked again.
-/
namespace LazyStorage.Core

open Lib

variable {sh : Shape} {ts : ℕ} {mode : Mode} {key : RecordKey}

namespace Doc

/-- A record of a child collection names another by one of its link fields. -/
def Names (d : Doc sh) (k p : RecordKey) : Prop :=
  ∃ fs, d.get k = some (.obj fs) ∧ ∃ link ∈ sh.parentsOf k.1, ∃ id,
    Assoc.get fs link.field = some (.str id) ∧ p = (link.parent, some id)

/-- Whether a field of a record names a parent that none of its other fields names. -/
def namesAlone (c : String) (fs : List (String × Value)) (field : String) (sh : Shape) : Bool :=
  (sh.parentsOf c).any fun link => link.field = field &&
    match Assoc.get fs field with
    | some (.str id) => (sh.parentsOf c).all fun other =>
        !(other.parent = link.parent && Assoc.get fs other.field = some (.str id)) ||
          other.field = field
    | _ => false

/-- Whether a change makes a container over a link field by which alone the record names a
parent. -/
def overlays (mode : Mode) (change : Change) (d : Doc sh) : Bool :=
  let key := sh.recordKey change.c change.id
  mode.makes &&
    match change.path, (d.get key).bind Value.fields? with
    | field :: _ :: _, some fs => namesAlone key.1 fs field sh
    | _, _ => false

end Doc

/-- What a doc is asked to do: a trial is begun, and ends by a return or by a throw. -/
inductive Call
  | apply (ts : ℕ) (mode : Mode) (change : Change)
  | setRecord (c : String) (id : Option String) (e : Option Entry)
  | trial
  | returned
  | threw
  | undo (before : OrderedMap RecordKey (Option Entry))

namespace Doc

variable {d : Doc sh}

/-- A call answered. A deletion that throws has noted its record, and a trial within a trial is
refused. -/
def answer : Call → Doc sh → Option (Doc sh)
  | .apply ts mode change, d =>
    match Core.apply ts mode change d with
    | .ok out => some out.doc
    | .error _ => some (d.note (sh.recordKey change.c change.id))
  | .setRecord c id e, d => some (d.setRecord (sh.recordKey c id) e)
  | .trial, d => if d.journal.isSome then none else some { d with journal := some .empty }
  | .returned, d => d.journal.map fun _ => { d with journal := none }
  | .threw, d => d.journal.map fun before => Doc.undo { d with journal := none } before
  | .undo before, d => some (d.undo before)

/-- A call that makes no container over a link field. -/
def Spares (call : Call) (d : Doc sh) : Prop :=
  match call with
  | .apply _ mode change => d.overlays mode change = false
  | _ => True

theorem Indexed.names (h : d.Indexed) (p k : RecordKey) : k ∈ d.childrenOf p ↔ d.Names k p :=
  h.mem_childrenOf.trans mem_namedParents

/-- A record written over, naming the parents it named, need not be linked again. -/
theorem Indexed.written {e : Entry} (h : d.Indexed)
    (hnames : ∀ p, p ∈ (d.write key e).namedParents key ↔ p ∈ d.namedParents key) :
    (d.write key e).Indexed := by
  refine ⟨h.paired, fun k p => ?_⟩
  by_cases hk : k = key
  · subst hk
    rw [hnames p]
    exact h.exact k p
  · have hother : (d.write key e).namedParents k = d.namedParents k :=
      namedParents_congr (by simp [get, OrderedMap.get_set, Ne.symm hk])
    rw [hother]
    exact h.exact k p

end Doc

/-- The loop over a parent path leaves containers all the way. -/
theorem objAt_makeContainers {way q : Path} (hq : q <+: way) (fs : List (String × Value)) :
    ∃ gs, valueAt (makeContainers way (.obj fs)) q = some (.obj gs) := by
  induction way generalizing fs q with
  | nil => exact ⟨fs, by rw [List.prefix_nil.mp hq]; rfl⟩
  | cons seg way ih =>
    simp only [makeContainers, Value.fields?]
    cases q with
    | nil => split <;> exact ⟨_, rfl⟩
    | cons k q =>
      obtain ⟨rfl, hle⟩ := List.cons_prefix_cons.mp hq
      split
      · next child hchild =>
        obtain ⟨-, hobj⟩ := Option.filter_eq_some_iff.mp hchild
        obtain ⟨cs, rfl⟩ := Value.isObj_iff.mp hobj
        simpa [valueAt_cons, Value.prop] using ih hle cs
      · simpa [valueAt_cons, Value.prop] using ih hle []

theorem objAt_makeWay (ts : ℕ) (e : Entry) {way q : Path} (hq : q <+: way) :
    ∃ gs, valueAt (e.makeWay ts way).data q = some (.obj gs) := by
  cases hobj : e.data.isObj with
  | true =>
    obtain ⟨fs, hfs⟩ := Value.isObj_iff.mp hobj
    simpa [Entry.makeWay, hobj, hfs] using objAt_makeContainers hq fs
  | false => simpa [Entry.makeWay, hobj] using objAt_makeContainers hq []

/-- Where what is missing is made, a change gets to a container. -/
theorem arrive_makes (sh : Shape) (ts : ℕ) (key : RecordKey) (hm : mode.makes = true) (e : Entry)
    (path : Path) :
    ∃ e', e.arrive sh mode ts key path = .ok e' ∧
      (valueAt e'.data path.dropLast).any Value.isObj = true ∧
      (e' = e ∨ e' = e.makeWay ts path.dropLast) := by
  have hjudge : mode.judging = false := by cases mode <;> first | rfl | cases hm
  cases hparent : e.hasParent sh key path with
  | true => exact ⟨e, by simp [Entry.arrive, hjudge, hparent], Doc.fields_of_hasParent hparent, .inl rfl⟩
  | false =>
    obtain ⟨gs, hgs⟩ := objAt_makeWay ts e (List.prefix_refl path.dropLast)
    exact ⟨_, by simp [Entry.arrive, hjudge, hparent, hm], by simp [hgs], .inr rfl⟩

namespace Doc

variable {d : Doc sh} {path : Path}

/-- What is made on the way to a path leaves the parents a record names, if the field it begins at
is not all that names one. -/
theorem named_makeWay {e : Entry}
    (hfields : ∀ field s, (∃ fs, e.data = .obj fs ∧ Assoc.get fs field = some (.str s)) ↔
      ∃ fs, d.get key = some (.obj fs) ∧ Assoc.get fs field = some (.str s))
    (hspare : ∀ fs field seg rest, d.get key = some (.obj fs) → path = field :: seg :: rest →
      namesAlone key.1 fs field sh = false) (p : RecordKey) :
    p ∈ (d.write key (e.makeWay ts path.dropLast)).namedParents key ↔ p ∈ d.namedParents key := by
  obtain ⟨gs, hg, hstr⟩ := str_makeWay ts e path.dropLast
  have hget : (d.write key (e.makeWay ts path.dropLast)).get key = some (.obj gs) := by
    simp [get, hg]
  rw [mem_namedParents, mem_namedParents, hget]
  constructor
  · rintro ⟨fs, hfs, link, hlink, id, hid, rfl⟩
    obtain rfl : gs = fs := by simpa using hfs
    obtain ⟨fs, hfs, hid⟩ := (hfields _ _).mp ((hstr _ _).mp hid).1
    exact ⟨fs, hfs, link, hlink, id, hid, rfl⟩
  · rintro ⟨fs, hfs, link, hlink, id, hid, rfl⟩
    by_cases hway : path.dropLast.head? = some link.field
    · -- the field is covered, and another names the same parent
      obtain ⟨seg, rest, hpath⟩ : ∃ seg rest, path = link.field :: seg :: rest := by
        match path, hway with
        | field :: seg :: rest, hway => exact ⟨seg, rest, by simpa using hway⟩
      have hmore := hspare fs _ _ _ hfs hpath
      simp only [namesAlone, List.any_eq_false, Bool.and_eq_true, decide_eq_true_eq, not_and] at hmore
      have hsome := hmore link hlink rfl
      rw [hid] at hsome
      simp only [List.all_eq_true, not_forall] at hsome
      obtain ⟨other, hother, hboth⟩ := hsome
      simp only [Bool.or_eq_true, Bool.not_eq_true', Bool.and_eq_false_iff, decide_eq_true_eq,
        decide_eq_false_iff_not, not_or, not_not] at hboth
      obtain ⟨⟨hparent, hnamed⟩, hne⟩ := hboth
      refine ⟨gs, rfl, other, hother, id, (hstr _ _).mpr ⟨(hfields _ _).mpr ⟨fs, hfs, hnamed⟩, ?_⟩,
        by rw [hparent]⟩
      rw [hway]
      exact fun h => hne (Option.some.inj h).symm
    · exact ⟨gs, rfl, link, hlink, id,
        (hstr _ _).mpr ⟨(hfields _ _).mpr ⟨fs, hfs, hid⟩, hway⟩, rfl⟩

end Doc

/-- A put merged in beneath a container leaves the index as exact as it was. -/
theorem runFields_follows (hkey : Normal sh key) (fs : List (String × Value)) {path : Path}
    {d : Doc sh} (hreg : sh.isRegister key path = false) (hobj : d.ObjAt key path) :
    d.Follows (runFields ts mode key fs path d).doc := by
  induction fs generalizing d with
  | nil => exact .refl d
  | cons e fs ih =>
    have hclear : d.Clear mode key (path ++ [e.1]) := hobj.clear hreg e.1
    have hone : d.Follows (run ts mode key e.2 (changeFor e.2).kind (path ++ [e.1]) d).doc :=
      run_follows hkey e.2 (changeFor e.2).kind (path ++ [e.1]) d (by simp) hclear
    have hfaithful : Faithful ts key (path ++ [e.1]) d _ :=
      run_faithful hkey e.2 (changeFor e.2).kind (path ++ [e.1]) d (by simp) hclear
    exact hone.trans (ih (hfaithful.keeps path (by simp) (by simp) hobj))

section Step

variable {value : Value} {kind : Kind} {path : Path} {d : Doc sh}

/-- A change inside a record, in a mode that makes what is missing. -/
theorem within_indexed (hm : mode.makes = true) (hpath : path ≠ []) {out : Outcome sh} {e : Entry}
    (he : out.doc.records.get key = some e) (hd : out.doc.Indexed)
    (hspare : ∀ fs field seg rest, out.doc.get key = some (.obj fs) → path = field :: seg :: rest →
      Doc.namesAlone key.1 fs field sh = false) :
    (within ts mode key value kind path e out).outcome.doc.Indexed := by
  obtain ⟨e', harrive, hobj, hmade⟩ := arrive_makes sh ts key hm e path
  have hwritten : (out.doc.write key e').Indexed := by
    rcases hmade with rfl | rfl
    · rwa [Doc.write_there he]
    · exact hd.written (Doc.named_makeWay (by simp [Doc.get, he]) hspare)
  have hstrands : ∀ d : Doc sh, strands mode key value kind path d = false := by
    intro d
    cases mode <;> first | rfl | cases hm
  unfold within
  simp only [harrive, hstrands]
  cases hsettle : e'.settle sh mode ts key path kind value with
  | lose => exact hwritten
  | skip => exact hwritten
  | merge => exact hwritten
  | land e₂ w =>
    obtain ⟨f, hf, hdata⟩ := settle_land_data hsettle
    exact (Doc.follows_edited hf hpath hobj hdata (by simp)).indexed hwritten

variable (ts value d) in
theorem step_merge (hpath : path ≠ []) {out : Outcome sh}
    (h : step ts mode key value kind path d = .merge out) :
    out.doc.ObjAt key path ∧ sh.isRegister key path = false := by
  simp only [step, List.isEmpty_iff, hpath, if_false] at h
  split at h
  · obtain ⟨hk, hobj⟩ := within_merge hpath h
    exact ⟨hobj, isRegister_of_put hk⟩
  · split_ifs at h
    obtain ⟨hk, hobj⟩ := within_merge hpath h
    exact ⟨hobj, isRegister_of_put hk⟩

variable (ts value kind) in
/-- A step keeps the index exact, if it covers no field that alone names a parent. -/
theorem step_indexed (hpath : path ≠ []) (hd : d.Indexed)
    (hspare : mode.makes = true → ∀ fs field seg rest, d.get key = some (.obj fs) →
      path = field :: seg :: rest → Doc.namesAlone key.1 fs field sh = false) :
    (step ts mode key value kind path d).outcome.doc.Indexed := by
  have hnote : (d.note key).Indexed := (d.follows_note key).indexed hd
  cases hm : mode.makes with
  | false =>
    have hdeed : Deed ts mode key value kind path (d.note key) _ :=
      step_deed ts value d fun h => absurd (hm.symm.trans h) (by simp)
    exact hdeed.follows.indexed hnote
  | true =>
    simp only [step, List.isEmpty_iff, hpath, if_false]
    split
    · next e he =>
      exact within_indexed hm hpath he hnote fun fs field seg rest hfs =>
        hspare hm fs field seg rest (by simpa [Doc.get, Outcome.nothing] using hfs)
    · next hnone =>
      have hmade : ((d.note key).write key ⟨.obj [], .born ts⟩).Indexed := by
        have hgone : (d.note key).get key = none := by simp only [Doc.get, hnone, Option.map_none]
        refine hnote.written fun p => ?_
        rw [Doc.mem_namedParents, Doc.mem_namedParents, hgone]
        simp [Doc.get]
      simp only [hm, if_true]
      refine within_indexed hm hpath (by simp [Outcome.report, Outcome.nothing]) hmade ?_
      intro fs field seg rest hfs _
      obtain rfl : [] = fs := by simpa [Outcome.report, Outcome.nothing, Doc.get] using hfs
      simp [Doc.namesAlone]

end Step

/-- So does a run. -/
theorem run_indexed (hkey : Normal sh key) (value : Value) (kind : Kind) (path : Path) {d : Doc sh}
    (hdel : path = [] → kind = .del → sh.isSingleton key.1 = false) (hd : d.Indexed)
    (hspare : mode.makes = true → ∀ fs field seg rest, d.get key = some (.obj fs) →
      path = field :: seg :: rest → Doc.namesAlone key.1 fs field sh = false) :
    (run ts mode key value kind path d).doc.Indexed := by
  by_cases hpath : path = []
  · exact (run_follows hkey value kind path d hdel fun _ h => absurd hpath h).indexed hd
  have hstep := step_indexed ts value kind hpath hd hspare
  cases value with
  | obj fs =>
    simp only [run]
    cases hout : step ts mode key (.obj fs) kind path d with
    | done out =>
      rw [hout] at hstep
      exact hstep
    | merge out =>
      obtain ⟨hobj, hreg⟩ := step_merge ts (.obj fs) d hpath hout
      rw [hout] at hstep
      exact (runFields_follows hkey fs hreg hobj).indexed hstep
  | _ => simpa only [run] using hstep

namespace Doc

variable {d d' : Doc sh}

/-- Each call that makes no container over a link field keeps the index exact. -/
theorem indexed_answer {call : Call} (hspare : d.Spares call) (h : answer call d = some d')
    (hd : d.Indexed) : d'.Indexed := by
  cases call with
  | apply ts mode change =>
    simp only [answer] at h
    split at h
    · next out hout =>
      obtain rfl := Option.some.inj h
      obtain ⟨hsingle, rfl⟩ := of_apply hout
      refine run_indexed (normal_recordKey _ _) _ _ _ hsingle hd ?_
      rintro hm fs field seg rest hfs hpath
      simpa [Spares, overlays, hm, hpath, hfs, Value.fields?] using hspare
    · obtain rfl := Option.some.inj h
      exact (d.follows_note _).indexed hd
  | setRecord c id e =>
    obtain rfl := Option.some.inj h
    exact (follows_setRecord d _ e).indexed hd
  | trial =>
    simp only [answer] at h
    split_ifs at h
    obtain rfl := Option.some.inj h
    exact ⟨hd.paired, hd.exact⟩
  | returned =>
    obtain ⟨before, -, rfl⟩ := Option.map_eq_some_iff.mp h
    exact ⟨hd.paired, hd.exact⟩
  | threw =>
    obtain ⟨before, -, rfl⟩ := Option.map_eq_some_iff.mp h
    exact (follows_undo _ before).indexed ⟨hd.paired, hd.exact⟩
  | undo before =>
    obtain rfl := Option.some.inj h
    exact (follows_undo d before).indexed hd

/-- Whatever a doc is asked to do, a child is listed under a record exactly when it is there and
one of its link fields names that record, if no call makes a container over a field by which alone
a record names a parent. -/
theorem child_index_exact (records : OrderedMap RecordKey Entry) {d : Doc sh}
    (h : Reaches answer (fun call d => d.Spares call) (ofRecords sh records) d) (p k : RecordKey) :
    k ∈ d.childrenOf p ↔ d.Names k p :=
  (h.invariant (indexed_ofRecords records) fun _ _ _ hd hspare hs =>
    indexed_answer hspare hs hd).names p k

/-- A task deleted in a trial that throws: its comment is put back, and listed beneath it. -/
theorem child_index_exact_after_throw :
    ∃ d : Doc board, d.journal = none ∧ ("comments", some "k1") ∈ d.childrenOf ("tasks", some "t1") :=
  ⟨_, rfl, (child_index_exact _
    (.next .threw
      (.next (.apply 7 .judge ⟨"tasks", some "t1", [], .del⟩)
        (.next .trial .start trivial rfl) rfl rfl) trivial rfl : Reaches answer _ (commented board) _)
    _ _).mpr ⟨[("task", .str "t1")], by decide +kernel, ⟨"task", "tasks"⟩, by decide +kernel, "t1", rfl, rfl⟩⟩

/-- A write beneath the link of a comment makes the link a container, and leaves the comment listed
under the task it does not name any more. -/
theorem covered_link_stays_listed :
    let change : Change := ⟨"comments", some "k1", ["task", "at"], .set (.num 3)⟩
    board.assertChange change = .ok () ∧
      ∃ d, Reaches answer (fun _ _ => True) (commented board) d ∧
        d.get ("comments", some "k1") = some (.obj [("task", .obj [("at", .num 3)])]) ∧
        ¬ ∀ p k, k ∈ d.childrenOf p ↔ d.Names k p := by
  intro change
  refine ⟨rfl, _, .next (.apply 5 .authority change) .start trivial rfl, by decide +kernel,
    fun h => ?_⟩
  have hnamed := mem_namedParents.mpr ((h ("tasks", some "t1") ("comments", some "k1")).mp
    (by decide +kernel))
  exact absurd hnamed (by decide +kernel)

end Doc

end LazyStorage.Core
