import LazyStorage.Core.Agreement
import LazyStorage.Core.Landing

/-! # The server's own writes

The server writes by a diff of whole records and singletons, or deletes a record
or a path in one, decided as the authority. What it broadcasts is what was
reported. A diff makes nothing on its way, so what it reports is what it did; a
deletion that has to make the way to its path is not reported at all.
-/
namespace LazyStorage.Server

open Lib LazyStorage.Core

variable {sh : Shape} {ts : ℕ} {d : Doc sh}

/-- What the server can be asked to write. -/
inductive OwnWrite
  | patch (diff : List (String × Value))
  | del (c : String) (id : Option String) (path : Path)

namespace OwnWrite

/-- The changes of a diff's entry under one top-level key. -/
def changesAt (sh : Shape) (c : String) (value : Value) : Except String (List Change) :=
  if !sh.has c then .error ("\"" ++ c ++ "\" is not a collection or singleton of this store")
  else if sh.isSingleton c then
    if value = .null then .error ("\"" ++ c ++ "\" is a singleton, and cannot be deleted")
    else .ok [⟨c, none, [], changeFor value⟩]
  else
    match value.fields? with
    | none => .error ("\"" ++ c ++ "\" is a collection: patch its records by id")
    | some records => .ok (records.map fun r => ⟨c, some r.1, [], changeFor r.2⟩)

def changesOf (sh : Shape) : List (String × Value) → Except String (List Change)
  | [] => .ok []
  | (c, value) :: diff => do
    let here ← changesAt sh c value
    let rest ← changesOf sh diff
    return here ++ rest

/-- The changes a write is, as `patch` and `del` list them. -/
def changes (sh : Shape) : OwnWrite → Except String (List Change)
  | patch diff => changesOf sh diff
  | del c id path => .ok [⟨c, if sh.isSingleton c then none else id, path, .del⟩]

/-- The check each change is put to before any is applied. -/
def assertAll (sh : Shape) : List Change → Except String Unit
  | [] => .ok ()
  | change :: changes =>
    match sh.assertChange change with
    | .ok () => assertAll sh changes
    | .error err => .error err.message

/-- The changes of a write that passes the check. -/
def accepted (sh : Shape) (w : OwnWrite) : Except String (List Change) := do
  let list ← w.changes sh
  assertAll sh list
  return list

/-- Whether the write has no container to make: a diff never has; a deletion has none if it is of
a whole record, if the parent of its path is there, or if it only makes an empty record. -/
def makesNothing (d : Doc sh) : OwnWrite → Bool
  | patch _ => true
  | del c id path =>
    path.isEmpty ||
      match d.get (sh.recordKey c id) with
      | none => path.length = 1
      | some record => (valueAt record path.dropLast).any Value.isObj

theorem assertAll_eq_ok {changes : List Change} (h : assertAll sh changes = .ok ()) :
    ∀ ch ∈ changes, sh.assertChange ch = .ok () := by
  induction changes with
  | nil => simp
  | cons change changes ih =>
    simp only [assertAll] at h
    split at h
    · next hc => simpa [hc] using ih h
    · cases h

theorem of_accepted {w : OwnWrite} {list : List Change} (h : w.accepted sh = .ok list) :
    w.changes sh = .ok list ∧ ∀ ch ∈ list, sh.assertChange ch = .ok () := by
  cases hw : w.changes sh with
  | error e => simp [accepted, hw, bind, Except.bind] at h
  | ok l =>
    cases ha : assertAll sh l with
    | error e => simp [accepted, hw, ha, bind, Except.bind] at h
    | ok u =>
      simp only [accepted, hw, ha, bind, Except.bind, pure, Except.pure] at h
      cases h
      exact ⟨rfl, assertAll_eq_ok ha⟩

/-- A diff writes whole records and singletons. -/
theorem path_of_changesOf {diff : List (String × Value)} {list : List Change}
    (h : changesOf sh diff = .ok list) : ∀ ch ∈ list, ch.path = [] := by
  induction diff generalizing list with
  | nil =>
    cases h
    simp
  | cons e diff ih =>
    obtain ⟨c, value⟩ := e
    cases hh : changesAt sh c value with
    | error e => simp [changesOf, hh, bind, Except.bind] at h
    | ok here =>
      cases hr : changesOf sh diff with
      | error e => simp [changesOf, hh, hr, bind, Except.bind] at h
      | ok rest =>
        simp only [changesOf, hh, hr, bind, Except.bind, pure, Except.pure] at h
        cases h
        have hhere : ∀ ch ∈ here, ch.path = [] := by
          simp only [changesAt] at hh
          split_ifs at hh
          · cases hh
            simp
          · split at hh
            · cases hh
            · next records _ =>
              cases hh
              intro ch hch
              obtain ⟨r, -, rfl⟩ := List.mem_map.mp hch
              rfl
        intro ch hch
        exact (List.mem_append.mp hch).elim (hhere ch) (ih hr ch)

end OwnWrite

/-- What the server broadcasts of its write is what it did: trusted on a copy of the doc, the
changes reported give the same state and the same stored clocks. -/
def Broadcast (ts : ℕ) (changes : List Change) (d : Doc sh) : Prop :=
  ∀ d' : Doc sh, d.Holds d' →
    ∃ out out', applyAll ts .authority changes d = .ok out ∧
      applyAll ts .trust out.applied d' = .ok out' ∧ out.doc.Holds out'.doc

/-- Whole records written: what is reported is what was done. -/
theorem broadcast_of_whole {changes : List Change} (hwhole : ∀ ch ∈ changes, ch.path = [])
    (hc : ∀ ch ∈ changes, sh.assertChange ch = .ok ()) : Broadcast ts changes d := by
  intro d' hd
  obtain ⟨out, hout⟩ := applyAll_accepted ts .authority
    (fun ch hch => Shape.accepts_of_assertChange (hc ch hch)) d
  obtain ⟨out', hout', hend⟩ := (applyAll_replays (fun _ => hwhole) hout).holds hd
  exact ⟨out, out', hout, hout', hend⟩

section Deletion

variable {key : RecordKey} {path : Path}

variable (ts) in
/-- The entry of a deletion that has to make its way: the way made, and nothing there to delete. -/
theorem makeWay_current {e : Entry}
    (h : (valueAt e.data path.dropLast).any Value.isObj = false) :
    valueAt (e.makeWay ts path.dropLast).data path.dropLast = some (.obj []) ∧
      (e.makeWay ts path.dropLast).current path = none := by
  have hway : valueAt (e.makeWay ts path.dropLast).data path.dropLast = some (.obj []) := by
    unfold Entry.makeWay
    by_cases hobj : e.data.isObj = true
    · obtain ⟨fs, hfs⟩ := Value.isObj_iff.mp hobj
      rw [hfs] at h
      simpa [hobj, hfs] using valueAt_makeContainers h
    · simp only [hobj]
      cases hp : path.dropLast with
      | nil => rfl
      | cons seg rest => exact valueAt_makeContainers (by simp [valueAt_cons, Value.prop])
  exact ⟨hway, by simp [Entry.current, hway, Value.fields?]⟩

theorem hasParent_of_accepted {e : Entry} (hreg : sh.underRegister key path = false)
    (hpath : path ≠ []) :
    e.hasParent sh key path = (valueAt e.data path.dropLast).any Value.isObj := by
  have hr : sh.isRegister key path.dropLast = false := by
    by_contra hr
    have hlt : path.length - 1 < path.length := by
      have := List.length_pos_iff.mpr hpath
      omega
    have hu : sh.underRegister key path = true := by
      simp only [Shape.underRegister, List.any_eq_true, List.mem_range]
      exact ⟨path.length - 1, hlt, by rw [← List.dropLast_eq_take]; simpa using hr⟩
    rw [hreg] at hu
    cases hu
  simp [Entry.hasParent, hr]

/-- A deletion inside an entry that has no container above the path makes the way and stops. -/
theorem within_del_makes {e : Entry} (hpath : path ≠ []) (hreg : sh.underRegister key path = false)
    (h : (valueAt e.data path.dropLast).any Value.isObj = false) (out : Outcome sh) :
    within ts .authority key .null .del path e out =
      .done { out with doc := out.doc.write key (e.makeWay ts path.dropLast) } := by
  have hpar : e.hasParent sh key path = false := (hasParent_of_accepted hreg hpath).trans h
  have hcur := (makeWay_current ts h).2
  simp [within, Entry.arrive, Mode.judging, hpar, Mode.makes, strands, Mode.checks, Entry.settle,
    hcur]

/-- A deletion where the container above the path is there and the path is not: nothing. -/
theorem within_del_skips {e : Entry} (hpar : e.hasParent sh key path = true)
    (hcur : e.current path = none) (out : Outcome sh) :
    within ts .authority key .null .del path e out =
      .done { out with doc := out.doc.write key e } := by
  simp [within, Entry.arrive, Mode.judging, hpar, strands, Mode.checks, Entry.settle, hcur]

variable (hpath : path ≠ []) (hreg : sh.underRegister key path = false)
include hpath

omit hpath in
theorem run_del (d : Doc sh) : run ts .authority key .null .del path d =
    (step ts .authority key .null .del path d).outcome := by simp only [run]

theorem step_del_record {e : Entry} (he : d.records.get key = some e) :
    step ts .authority key .null .del path d =
      within ts .authority key .null .del path e (.nothing (d.note key)) := by
  simp [step, hpath, settledKind, he]

theorem step_del_missing (hnone : d.records.get key = none) :
    step ts .authority key .null .del path d =
      within ts .authority key .null .del path ⟨.obj [], .born ts⟩
        ((Outcome.nothing ((d.note key).write key ⟨.obj [], .born ts⟩)).report key []
          (.put (.obj []))) := by
  simp [step, hpath, settledKind, hnone, Mode.makes]

include hreg

/-- A deletion with a container above its path to make reports nothing and leaves the record
changed. -/
theorem not_broadcast_record (hkey : Normal sh key) {e : Entry} (he : d.records.get key = some e)
    (h : (valueAt e.data path.dropLast).any Value.isObj = false) :
    ¬ Broadcast ts [⟨key.1, key.2, path, .del⟩] d := by
  intro hb
  obtain ⟨out, out', hout, hout', hend⟩ := hb d (.refl d)
  rw [applyAll_one (apply_reported hkey (fun h => absurd h hpath) d)] at hout
  cases hout
  simp only [Write.value, Write.kind, run_del, step_del_record hpath he,
    within_del_makes hpath hreg h, Step.outcome, Outcome.nothing] at hout' hend
  cases hout'
  have hget := hend.state key
  simp only [Outcome.nothing, Doc.get, Doc.records_write, OrderedMap.get_set_self, he,
    Option.map_some, Option.some.injEq] at hget
  have hway := (makeWay_current ts h).1
  rw [hget] at hway
  simp [hway] at h

variable (ts) in
omit hpath hreg in
/-- The empty record a deletion makes, trusted where there is none. -/
theorem apply_made (hkey : Normal sh key) (hnone : d.records.get key = none) :
    ∃ out, apply ts .trust ⟨key.1, key.2, [], .put (.obj [])⟩ d = .ok out ∧
      out.doc.Same (d.write key ⟨.obj [], .born ts⟩) := by
  have hroot : ∀ kind, kind ≠ .del → ∃ w, atRoot ts .trust key (.obj []) kind (d.note key) =
      .done (writeWhole ts key (.obj []) w (d.note key)) := by
    intro kind hk
    cases kind with
    | del => exact absurd rfl hk
    | set => exact ⟨.set (.obj []), by simp [atRoot, writeRoot, Mode.judging, Mode.checks, wholeWrite]⟩
    | put => exact ⟨.put (.obj []), by
        simp [atRoot, writeRoot, Mode.judging, Mode.checks, wholeWrite, Doc.get, hnone]⟩
  obtain ⟨w, hw⟩ := hroot (settledKind sh key [] .put (.obj []))
    (fun h => by simpa using settledKind_eq_del.mp h)
  have hstep : step ts .trust key (.obj []) .put [] d =
      .done (writeWhole ts key (.obj []) w (d.note key)) := by simpa [step] using hw
  refine ⟨_, apply_reported hkey (by simp) d, ?_⟩
  rw [Write.value, Write.kind, run_of_done hstep]
  exact Doc.Same.trans (Doc.relink_same _ _) (Doc.Alike.write (d.note_same key) key ⟨rfl, rfl⟩)

/-- A deletion in a record that is not there, of more than one key: the record is reported empty. -/
theorem not_broadcast_missing (hkey : Normal sh key) (hnone : d.records.get key = none)
    (hlen : path.length ≠ 1) : ¬ Broadcast ts [⟨key.1, key.2, path, .del⟩] d := by
  intro hb
  have hdrop : path.dropLast ≠ [] := by
    intro h
    have hpos := List.length_pos_iff.mpr hpath
    have hone : path.length - 1 = 0 := by simpa using congrArg List.length h
    omega
  have hno : valueAt (.obj []) path.dropLast = none := by
    obtain ⟨seg, rest, hp⟩ := List.exists_cons_of_ne_nil hdrop
    simp [hp, valueAt_cons, Value.prop]
  have hmakes : (valueAt (Entry.mk (.obj []) (.born ts)).data path.dropLast).any Value.isObj = false := by
    simp [hno]
  obtain ⟨out, out', hout, hout', hend⟩ := hb d (.refl d)
  rw [applyAll_one (apply_reported hkey (fun h => absurd h hpath) d)] at hout
  cases hout
  obtain ⟨made, hmade, hsame⟩ := apply_made ts hkey hnone
  simp only [Write.value, Write.kind, run_del, step_del_missing hpath hnone,
    within_del_makes hpath hreg hmakes, Step.outcome, Outcome.nothing, Outcome.report,
    List.nil_append, applyAll_one hmade] at hout' hend
  cases hout'
  have hget := (hend.state key).trans (hsame.get key)
  simp only [Doc.get, Doc.records_write, OrderedMap.get_set_self, Option.map_some,
    Option.some.injEq] at hget
  have hway := (makeWay_current ts hmakes).1
  rw [hget, hno] at hway
  cases hway

omit hreg in
/-- What the reports of a deletion replay, every copy of the doc ends with. -/
theorem broadcast_of_replays (hkey : Normal sh key)
    (h : Replays ts (run ts .authority key .null .del path d).applied d
      (run ts .authority key .null .del path d).doc) :
    Broadcast ts [⟨key.1, key.2, path, .del⟩] d := by
  intro d' hd
  obtain ⟨out', hout', hend⟩ := h.holds hd
  exact ⟨_, out', applyAll_one (apply_reported hkey (fun h => absurd h hpath) d), hout', hend⟩

omit hpath hreg in
theorem replays_missing (hkey : Normal sh key) (hnone : d.records.get key = none)
    (hlen : path.length = 1) : Replays ts (run ts .authority key .null .del path d).applied d
      (run ts .authority key .null .del path d).doc := by
  obtain ⟨k, rfl⟩ := List.length_eq_one_iff.mp hlen
  obtain ⟨made, hmade, hsame⟩ := apply_made ts hkey hnone
  rw [run_del, step_del_missing (by simp) hnone, within_del_skips (by simp [Entry.hasParent])
    (by simp [Entry.current, Value.fields?])]
  refine .one hmade (Doc.Same.trans ?_ (Doc.Same.symm hsame))
  exact Doc.Same.trans (Doc.write_write _ _ _)
    (Doc.Alike.write (d.note_same key) key ⟨rfl, rfl⟩)

end Deletion

/-- A deletion is broadcast as it is done exactly when it has no container to make. -/
theorem broadcast_del_iff {c : String} {id : Option String} {path : Path}
    (hc : sh.assertChange ⟨c, if sh.isSingleton c then none else id, path, .del⟩ = .ok ()) :
    Broadcast ts [⟨c, if sh.isSingleton c then none else id, path, .del⟩] d ↔
      OwnWrite.makesNothing d (.del c id path) = true := by
  have hkey : Normal sh (sh.recordKey c id) := normal_recordKey c id
  have hacc := Shape.accepts_of_assertChange hc
  have hrec : sh.recordKey c (if sh.isSingleton c then none else id) = sh.recordKey c id := by
    unfold Shape.recordKey
    split_ifs <;> rfl
  have hreg : sh.underRegister (sh.recordKey c id) path = false := hrec ▸ hacc.free
  have hch : (⟨c, if sh.isSingleton c then none else id, path, .del⟩ : Change) =
      ⟨(sh.recordKey c id).1, (sh.recordKey c id).2, path, .del⟩ := by
    unfold Shape.recordKey
    split_ifs <;> rfl
  by_cases hpath : path = []
  · subst hpath
    simp only [OwnWrite.makesNothing, List.isEmpty_nil, Bool.true_or, iff_true]
    exact broadcast_of_whole (by simp) (by simpa using hc)
  rw [hch]
  have hempty : path.isEmpty = false := by simpa using hpath
  simp only [OwnWrite.makesNothing, hempty, Bool.false_or, Doc.get]
  generalize sh.recordKey c id = key at hkey hreg
  cases he : d.records.get key with
  | none =>
    by_cases hlen : path.length = 1
    · simpa [hlen] using broadcast_of_replays hpath hkey (replays_missing hkey he hlen)
    · simpa [hlen] using not_broadcast_missing hpath hreg hkey he hlen
  | some e =>
    cases hobj : (valueAt e.data path.dropLast).any Value.isObj with
    | false => simpa [hobj] using not_broadcast_record hpath hreg hkey he hobj
    | true =>
      have hclear : d.Clear .authority key path := fun _ _ =>
        ⟨e, he, (hasParent_of_accepted hreg hpath).trans hobj⟩
      simpa [hobj] using broadcast_of_replays hpath hkey
        (run_faithful hkey .null .del path d (fun h => absurd h hpath) hclear).replays

/-- What the server writes of its own is broadcast as it is done exactly when nothing has to be made
on the way: for every diff, and for a deletion whose path has its parent, or that is of a whole
record, or that only makes an empty record. -/
theorem broadcast_iff (ts : ℕ) (d : Doc sh) {w : OwnWrite} {changes : List Change}
    (h : w.accepted sh = .ok changes) : Broadcast ts changes d ↔ w.makesNothing d = true := by
  obtain ⟨hlist, hc⟩ := OwnWrite.of_accepted h
  cases w with
  | patch diff =>
    simp only [OwnWrite.makesNothing, iff_true]
    exact broadcast_of_whole (OwnWrite.path_of_changesOf hlist) hc
  | del c id path =>
    obtain rfl := Except.ok.inj hlist
    exact broadcast_del_iff (hc _ (by simp))

/-- What the server writes that makes nothing on the way: whole records, a deletion whose parent is
there, or an empty record where there is none. -/
theorem own_cases {w : OwnWrite} {changes : List Change} (h : w.accepted sh = .ok changes)
    (hmakes : w.makesNothing d = true) {out : Outcome sh}
    (hout : applyAll ts .authority changes d = .ok out) :
    (∀ ch ∈ changes, ch.path = []) ∨ ∃ key path, path ≠ [] ∧ Normal sh key ∧
      out = run ts .authority key .null .del path d ∧
      (d.Clear .authority key path ∨ (d.records.get key = none ∧ path.length = 1)) := by
  obtain ⟨hlist, hc⟩ := OwnWrite.of_accepted h
  cases w with
  | patch diff => exact .inl (OwnWrite.path_of_changesOf hlist)
  | del c id path =>
    obtain rfl := Except.ok.inj hlist
    by_cases hpath : path = []
    · exact .inl (by simpa using hpath)
    have hrec : sh.recordKey c (if sh.isSingleton c then none else id) = sh.recordKey c id := by
      unfold Shape.recordKey
      split_ifs <;> rfl
    have hacc := Shape.accepts_of_assertChange (hc _ (List.mem_singleton.mpr rfl))
    have hreg : sh.underRegister (sh.recordKey c id) path = false := hrec ▸ hacc.free
    obtain ⟨o, m, ho, hm, rfl⟩ := of_applyAll_cons hout
    obtain ⟨-, rfl⟩ := of_apply ho
    cases hm
    refine .inr ⟨sh.recordKey c id, path, hpath, normal_recordKey c id, ?_, ?_⟩
    · simp only [Write.value, Write.kind, Outcome.nothing, List.append_nil]
      rw [hrec]
    have hempty : path.isEmpty = false := by simpa using hpath
    simp only [OwnWrite.makesNothing, hempty, Bool.false_or, Doc.get] at hmakes
    generalize sh.recordKey c id = key at hreg hmakes
    cases he : d.records.get key with
    | none => exact .inr ⟨rfl, by simpa [he] using hmakes⟩
    | some e =>
      exact .inl fun _ _ => ⟨e, he, (hasParent_of_accepted hreg hpath).trans (by simpa [he] using hmakes)⟩

/-- What the server writes that makes nothing on the way, what is reported of it replays. -/
theorem replays_of_own {w : OwnWrite} {changes : List Change} (h : w.accepted sh = .ok changes)
    (hmakes : w.makesNothing d = true) {out : Outcome sh}
    (hout : applyAll ts .authority changes d = .ok out) : Replays ts out.applied d out.doc := by
  rcases own_cases h hmakes hout with hwhole | ⟨key, path, hpath, hkey, rfl, hclear | ⟨hnone, hlen⟩⟩
  · exact applyAll_replays (fun _ => hwhole) hout
  · exact (run_faithful hkey .null .del path d (fun h => absurd h hpath) hclear).replays
  · exact replays_missing hkey hnone hlen

/-- What is reported of it found its parents. -/
theorem lands_of_own {w : OwnWrite} {changes : List Change} (h : w.accepted sh = .ok changes)
    (hmakes : w.makesNothing d = true) {out : Outcome sh}
    (hout : applyAll ts .authority changes d = .ok out) : Lands ts out.applied d := by
  rcases own_cases h hmakes hout with hwhole | ⟨key, path, hpath, hkey, rfl, hclear | ⟨hnone, hlen⟩⟩
  · exact applyAll_lands (fun _ => hwhole) hout
  · exact run_lands hkey .null .del path d (fun h => absurd h hpath) hclear
  · obtain ⟨k, rfl⟩ := List.length_eq_one_iff.mp hlen
    rw [run_del, step_del_missing (by simp) hnone, within_del_skips (by simp [Entry.hasParent])
      (by simp [Entry.current, Value.fields?])]
    exact .of_whole (by simp [Step.outcome, Outcome.report, Outcome.nothing])

/-- A task whose field holds a number. -/
def leafy : Doc board := Doc.load board [(("tasks", some "t1"), ⟨.obj [("a", .num 5)], .born 1⟩)]

/-- A field inside a number deleted by the server: the check passes, nothing is reported, and the
number has become an empty object. -/
theorem leaf_deletion_not_broadcast :
    let w : OwnWrite := .del "tasks" (some "t1") ["a", "b"]
    let changes : List Change := [⟨"tasks", some "t1", ["a", "b"], .del⟩]
    w.accepted board = .ok changes ∧
      (∃ out, applyAll 7 .authority changes leafy = .ok out ∧ out.applied = [] ∧
        out.doc.get ("tasks", some "t1") = some (.obj [("a", .obj [])])) ∧
      ¬ Broadcast 7 changes leafy := by
  intro w changes
  refine ⟨rfl, ⟨_, rfl, rfl, rfl⟩, ?_⟩
  intro h
  have hiff : Broadcast 7 changes leafy ↔ OwnWrite.makesNothing leafy w = true :=
    broadcast_del_iff rfl
  exact absurd (hiff.mp h) (by decide)

/-- A field of a task deleted by the server, and one inside a number. -/
theorem broadcast_iff_on_board :
    let there : OwnWrite := .del "tasks" (some "t1") ["a"]
    there.accepted board = .ok [⟨"tasks", some "t1", ["a"], .del⟩] ∧
      (Broadcast 7 [⟨"tasks", some "t1", ["a"], .del⟩] leafy ↔ there.makesNothing leafy = true) := by
  intro there
  have h : there.accepted board = .ok [⟨"tasks", some "t1", ["a"], .del⟩] := rfl
  exact ⟨h, broadcast_iff 7 leafy h⟩

end LazyStorage.Server
