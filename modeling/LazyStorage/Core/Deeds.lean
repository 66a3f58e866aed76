import LazyStorage.Core.Faithful

/-! # What one step can do to a doc

A step that finds the parent of its path leaves the doc as it was, deletes a
record with what it takes along, writes a record whole, or edits one in place.
What each of these keeps, a run keeps, and so does a list of changes.
-/
namespace LazyStorage.Core

open Lib

variable {sh : Shape} {ts : ℕ} {mode : Mode} {key : RecordKey}

/-- How a landing edits the parent of its path: a field written, which strands no child where that
is checked, or erased. -/
inductive Edit (mode : Mode) (key : RecordKey) (path : Path) (d : Doc sh) : (Value → Value) → Prop
  | write (value : Value)
      (kept : mode.checks = true → path.length = 1 →
        d.orphaned key.1 [(path.getLastD "", value)] = false) :
      Edit mode key path d (Value.setField (path.getLastD "") value)
  | erase : Edit mode key path d (Value.eraseField (path.getLastD ""))

/-- A doc with a record's entry put back after an edit inside it. -/
def Doc.edited (d : Doc sh) (key : RecordKey) (path : Path) (e : Entry) : Doc sh :=
  if path.length = 1 then (d.write key e).relink key else d.write key e

/-- What a step makes of a doc. -/
inductive Deed (ts : ℕ) (mode : Mode) (key : RecordKey) (value : Value) (kind : Kind) (path : Path)
    (d : Doc sh) : Doc sh → Prop
  | nothing : Deed ts mode key value kind path d d
  | remove (root : path = []) (asked : kind = .del) (there : (d.records.get key).isSome = true)
      (newest : mode.judging = true → ¬ (ts : ℤ) < d.subtreeMax key) :
      Deed ts mode key value kind path d (d.removeRecord mode.cascades d.records.size key).doc
  | whole (root : path = []) (written : kind ≠ .del)
      (plain : settledKind sh key [] kind value = .put → (d.get key).any Value.isObj = false)
      (newest : mode.judging = true → ∀ e, d.records.get key = some e →
        ¬ (ts : ℤ) < e.clock.maxOf)
      (kept : mode.checks = true → d.records.get key = none → ∀ fs, value = .obj fs →
        d.orphaned key.1 fs = false) :
      Deed ts mode key value kind path d ((d.write key ⟨value, .born ts⟩).relink key)
  | inside (below : path ≠ []) {e e' : Entry} (there : d.records.get key = some e)
      (parent : e.hasParent sh key path = true) {f : Value → Value}
      (edit : Edit mode key path d f) (data : e'.data = modifyAt f path.dropLast e.data) :
      Deed ts mode key value kind path d (d.edited key path e')

theorem Doc.write_there {d : Doc sh} {e : Entry} (h : d.records.get key = some e) :
    d.write key e = d := by
  unfold write
  rw [d.records.set_of_get h]

theorem Edit.keepsObj {path : Path} {d : Doc sh} {f : Value → Value} (h : Edit mode key path d f) :
    KeepsObj f := by
  cases h with
  | write => exact keepsObj_setField _ _
  | erase => exact keepsObj_eraseField _

/-- A landing is an edit, of what the change holds. -/
theorem settle_land_edit {kind : Kind} {value : Value} {path : Path} {e e' : Entry} {w : Write}
    {d : Doc sh} (hstrands : strands mode key value kind path d = false)
    (h : e.settle sh mode ts key path kind value = .land e' w) :
    ∃ f, Edit mode key path d f ∧ e'.data = modifyAt f path.dropLast e.data := by
  have hset : kind ≠ .del →
      Edit mode key path d (Value.setField (path.getLastD "") value) := by
    intro hk
    refine .write value fun hc hlen => ?_
    simpa [strands, hc, hlen, hk] using hstrands
  have hover : kind ≠ .del → e.overwrite mode ts path value = .land e' w →
      ∃ f, Edit mode key path d f ∧ e'.data = modifyAt f path.dropLast e.data := by
    intro hk h
    simp only [Entry.overwrite] at h
    split_ifs at h
    obtain ⟨rfl, rfl⟩ := Ruling.land.inj h
    exact ⟨_, hset hk, rfl⟩
  unfold Entry.settle at h
  split at h
  · simp only [Entry.fresh] at h
    split_ifs at h
    obtain ⟨rfl, rfl⟩ := Ruling.land.inj h
    exact ⟨_, hset (by simp), rfl⟩
  · cases h
  · exact hover (by simp) h
  · exact hover (by simp) h
  · cases h
  · simp only [Entry.delete] at h
    split_ifs at h
    obtain ⟨rfl, rfl⟩ := Ruling.land.inj h
    exact ⟨_, .erase, rfl⟩

section Step

variable {value : Value} {kind : Kind} {path : Path} {d : Doc sh}

theorem atRoot_deed : Deed ts mode key value kind [] d
    (atRoot ts mode key value (settledKind sh key [] kind value) d).outcome.doc := by
  have hwrite : kind ≠ .del →
      (settledKind sh key [] kind value = .put → (d.get key).any Value.isObj = false) →
      Deed ts mode key value kind [] d
        (writeRoot ts mode key value (settledKind sh key [] kind value) d).doc := by
    intro hdel hplain
    simp only [writeRoot]
    split_ifs with hnewer hmissing
    · exact .nothing
    · exact .nothing
    · refine .whole rfl hdel hplain (fun hj e he => ?_) fun hc hnone fs hfs => ?_
      · simpa [hj, he] using hnewer
      · simpa [hc, hnone, hfs, Value.fields?] using hmissing
  cases hk : settledKind sh key [] kind value with
  | set =>
    rw [hk] at hwrite
    exact hwrite (fun h => by simp [h, settledKind] at hk) (by simp)
  | put =>
    rw [hk] at hwrite
    simp only [atRoot]
    split_ifs with hobj
    · exact .nothing
    · exact hwrite (fun h => by simp [h, settledKind] at hk) fun _ => by simpa using hobj
  | del =>
    simp only [atRoot, Step.outcome, deleteRoot]
    split_ifs with hnone hnewer
    · exact .nothing
    · exact .nothing
    · refine .remove rfl (settledKind_eq_del.mp hk) ?_ fun hj => ?_
      · simpa [Option.isSome_iff_ne_none] using hnone
      · simpa [hj] using hnewer

theorem within_deed (hpath : path ≠ []) {e : Entry} (he : d.records.get key = some e)
    (hclear : mode.makes = true → e.hasParent sh key path = true) :
    Deed ts mode key value kind path d
      (within ts mode key value (settledKind sh key path kind value) path e
        (.nothing d)).outcome.doc := by
  have harrive : (∃ why, e.arrive sh mode ts key path = .error why) ∨
      (e.arrive sh mode ts key path = .ok e ∧ e.hasParent sh key path = true) := by
    simp only [Entry.arrive]
    split_ifs with _ hparent hm
    · exact Or.inl ⟨_, rfl⟩
    · exact Or.inr ⟨rfl, hparent⟩
    · exact absurd (hclear hm) hparent
    · exact Or.inl ⟨_, rfl⟩
  unfold within
  rcases harrive with ⟨why, harrive⟩ | ⟨harrive, hparent⟩
  · simp only [harrive]
    exact .nothing
  simp only [harrive, Outcome.nothing, Doc.write_there he]
  split_ifs with hstrands
  · exact .nothing
  split
  · exact .nothing
  · exact .nothing
  · exact .nothing
  next e' w hland =>
  obtain ⟨f, hedit, hdata⟩ := settle_land_edit (by simpa using hstrands) hland
  exact .inside hpath he hparent hedit hdata

variable (ts value d) in
/-- What a step does, where a mode that makes what is missing finds it there. -/
theorem step_deed (hclear : d.Clear mode key path) :
    Deed ts mode key value kind path (d.note key)
      (step ts mode key value kind path d).outcome.doc := by
  have hnote := hclear.of_same (Doc.Same.symm (d.note_same key))
  simp only [step]
  by_cases hpath : path = []
  · subst hpath
    simp only [List.isEmpty_nil, if_true]
    exact atRoot_deed
  · simp only [List.isEmpty_iff, hpath, if_false]
    split
    · next e he =>
      refine within_deed hpath he fun hm => ?_
      obtain ⟨e', he', hpar⟩ := hnote hm hpath
      obtain rfl : e = e' := Option.some.inj (he.symm.trans he')
      exact hpar
    · next hnone =>
      by_cases hm : mode.makes = true
      · obtain ⟨e', he', -⟩ := hnote hm hpath
        rw [hnone] at he'
        cases he'
      · simp only [hm]
        exact .nothing

end Step

/-- What each step keeps, a run keeps: along a merge, the parent of each key is there. A deed at the
record itself is done by the change as it is given, and may be judged apart. -/
theorem run_keeps {P : Doc sh → Prop} (hkey : Normal sh key)
    (hbelow : ∀ (d d' : Doc sh) (value : Value) (kind : Kind) (path : Path), path ≠ [] → P d →
      Deed ts mode key value kind path (d.note key) d' → P d')
    (value : Value) :
    ∀ (kind : Kind) (path : Path) (d : Doc sh), P d →
      (path = [] → kind = .del → sh.isSingleton key.1 = false) → d.Clear mode key path →
      (path = [] → ∀ d', Deed ts mode key value kind [] (d.note key) d' → P d') →
      P (run ts mode key value kind path d).doc := by
  have hone : ∀ (value : Value) (kind : Kind) (path : Path) (d : Doc sh), P d →
      d.Clear mode key path →
      (path = [] → ∀ d', Deed ts mode key value kind [] (d.note key) d' → P d') →
      P (step ts mode key value kind path d).outcome.doc := by
    intro value kind path d hP hclear hroot
    have hd : Deed ts mode key value kind path (d.note key)
        (step ts mode key value kind path d).outcome.doc := step_deed ts value d hclear
    by_cases hpath : path = []
    · subst hpath
      exact hroot rfl _ hd
    · exact hbelow d _ value kind path hpath hP hd
  induction value using Value.merging_induction with
  | leaf v hv =>
    intro kind path d hP hdel hclear hroot
    have hs := hone v kind path d hP hclear hroot
    cases v <;> first | simpa only [run] using hs | exact absurd hv (by simp)
  | fields fs ih =>
    intro kind path d hP hdel hclear hroot
    have hfields : ∀ gs : List (String × Value), (∀ e ∈ gs, e ∈ fs) →
        sh.isRegister key path = false → ∀ d : Doc sh, P d → d.ObjAt key path →
        P (runFields ts mode key gs path d).doc := by
      intro gs hg hreg
      induction gs with
      | nil => exact fun d hP _ => hP
      | cons e gs ihg =>
        intro d hP hobj
        have hclear' : d.Clear mode key (path ++ [e.1]) := hobj.clear hreg e.1
        have hP' := ih e (hg e (by simp)) (changeFor e.2).kind (path ++ [e.1]) d hP (by simp)
          hclear' (by simp)
        have hfaithful : Faithful ts key (path ++ [e.1]) d _ :=
          run_faithful hkey e.2 (changeFor e.2).kind (path ++ [e.1]) d (by simp) hclear'
        have hkept := hfaithful.keeps path (by simp) (by simp) hobj
        exact ihg (fun e he => hg e (by simp [he])) _ hP' hkept
    have hs := hone (.obj fs) kind path d hP hclear hroot
    have hmerge : ∀ out, step ts mode key (.obj fs) kind path d = .merge out →
        out.doc.ObjAt key path ∧ sh.isRegister key path = false :=
      (step_faithful ts (.obj fs) d hkey hdel hclear).2
    simp only [run]
    revert hs hmerge
    generalize step ts mode key (.obj fs) kind path d = s
    intro hs hmerge
    cases s with
    | done out => exact hs
    | merge out =>
      obtain ⟨hobj, hreg⟩ := hmerge out rfl
      exact hfields fs (fun _ h => h) hreg out.doc hs hobj

/-- What each deed keeps, a list of changes keeps, if a mode that makes what is missing is given
whole records only. No deed is asked to delete a singleton. -/
theorem applyAll_keeps {P : Doc sh → Prop}
    (hkeep : ∀ (key : RecordKey) (d d' : Doc sh) (value : Value) (kind : Kind) (path : Path),
      Normal sh key → (path = [] → kind = .del → sh.isSingleton key.1 = false) → P d →
      Deed ts mode key value kind path (d.note key) d' → P d')
    {changes : List Change} {d : Doc sh} {out : Outcome sh}
    (hwhole : mode.makes = true → ∀ ch ∈ changes, ch.path = [])
    (h : applyAll ts mode changes d = .ok out) (hd : P d) : P out.doc := by
  induction changes generalizing d out with
  | nil =>
    cases h
    exact hd
  | cons change changes ih =>
    obtain ⟨o, m, ho, hm, rfl⟩ := of_applyAll_cons h
    obtain ⟨hsingle, rfl⟩ := of_apply ho
    have hkey : Normal sh (sh.recordKey change.c change.id) := normal_recordKey _ _
    have hone := run_keeps hkey
      (fun x x' value kind path hpath hx hdeed =>
        hkeep _ x x' value kind path hkey (fun h => absurd h hpath) hx hdeed)
      change.write.value change.write.kind change.path d hd hsingle
      (fun hk hp => absurd (hwhole hk change (by simp)) hp)
      (fun hroot x' hx => hkeep _ d x' _ _ [] hkey (fun _ => hsingle hroot) hd hx)
    have hrest : P m.doc := ih (fun hk ch hch => hwhole hk ch (by simp [hch])) hm hone
    exact hrest

end LazyStorage.Core
