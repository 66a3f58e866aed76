import LazyStorage.Core.Cascade
import LazyStorage.Lib.Runs

/-! # A child never outlives its parent

A judged change writes a link only to a parent that is there, and a record
deleted takes along every record that names it, through every level. One write
is not checked: a record that is there and is written whole.
-/
namespace LazyStorage.Core

open Lib

variable {sh : Shape} {ts : ℕ} {mode : Mode} {key : RecordKey}

namespace Doc

variable {d d' : Doc sh}

/-- Every string among a child's link fields names a record that is there. -/
def Linked (d : Doc sh) : Prop :=
  ∀ c id fs, d.get (c, id) = some (.obj fs) → ∀ link ∈ sh.parentsOf c, ∀ parent,
    Assoc.get fs link.field = some (.str parent) → (d.get (link.parent, some parent)).isSome = true

theorem orphaned_eq_false {c : String} {fs : List (String × Value)} :
    d.orphaned c fs = false ↔ ∀ link ∈ sh.parentsOf c, ∀ id,
      Assoc.get fs link.field = some (.str id) → (d.get (link.parent, some id)).isSome = true := by
  simp only [orphaned, List.any_eq_false]
  refine forall₂_congr fun link hlink => ⟨fun h id hid => ?_, fun h => ?_⟩
  · simp only [hid, recordKey_parent hlink] at h
    simpa [Option.isSome_iff_ne_none] using h
  · split
    · next id hid =>
      rw [recordKey_parent hlink]
      simpa [Option.isSome_iff_ne_none] using h id hid
    · simp

theorem linked_iff : d.Linked ↔ ∀ k fs, d.get k = some (.obj fs) → d.orphaned k.1 fs = false := by
  simp only [orphaned_eq_false]
  exact ⟨fun h k fs hk => h k.1 k.2 fs hk, fun h c id fs hk => h (c, id) fs hk⟩

/-- What stays linked when records go with all that names them. -/
theorem Uproots.linked (h : Uproots d d') (hlisted : d'.Listed) (hd : d.Linked) : d'.Linked := by
  intro c id fs hk link hlink parent hparent
  have hstays : (d'.get (c, id)).isSome = true := by simp [hk]
  have hthere := hd c id fs (h.get hstays ▸ hk) link hlink parent hparent
  by_contra hgone
  refine h.freed _ hthere (by simpa using hgone) (c, id) hstays ?_
  exact hlisted.listed _ _ (mem_namedParents.mpr ⟨fs, hk, link, hlink, parent, hparent, rfl⟩)

end Doc

namespace Doc

variable {d d' : Doc sh}

/-- Links read the same where the records are: a record that stays keeps what names it company. -/
theorem orphaned_of_present {c : String} {fs : List (String × Value)}
    (hkeep : ∀ k, (d.get k).isSome = true → (d'.get k).isSome = true)
    (h : d.orphaned c fs = false) : d'.orphaned c fs = false :=
  orphaned_eq_false.mpr fun link hlink id hid => hkeep _ (orphaned_eq_false.mp h link hlink id hid)

/-- One record changed, its own links checked. -/
theorem Linked.of_write (key : RecordKey) (hd : d.Linked) (hget : ∀ k, k ≠ key → d'.get k = d.get k)
    (hthere : (d'.get key).isSome = true)
    (hown : ∀ fs, d'.get key = some (.obj fs) → d.orphaned key.1 fs = false) : d'.Linked := by
  have hkeep : ∀ k, (d.get k).isSome = true → (d'.get k).isSome = true := by
    intro k hk
    by_cases hkey : k = key
    · rwa [hkey]
    · rwa [hget k hkey]
  refine linked_iff.mpr fun k fs hk => orphaned_of_present hkeep ?_
  by_cases hkey : k = key
  · rw [hkey] at hk ⊢
    exact hown fs hk
  · exact linked_iff.mp hd k fs (hget k hkey ▸ hk)

instance (d : Doc sh) : Decidable d.Linked :=
  decidable_of_iff (∀ r ∈ d.records.entries, ∀ fs ∈ r.2.data.fields?, d.orphaned r.1.1 fs = false) <| by
    rw [linked_iff]
    constructor
    · intro h k fs hk
      obtain ⟨e, he, hdata⟩ := Option.map_eq_some_iff.mp hk
      exact h (k, e) (OrderedMap.mem_entries.mpr he) fs (by rw [hdata]; rfl)
    · rintro h ⟨k, e⟩ hr fs hfs
      have hobj : e.data = .obj fs := Value.fields?_eq_some.mp hfs
      exact h k fs (by simp [get, OrderedMap.mem_entries.mp hr, hobj])

/-- Whether a change writes whole a record that is there, over all it held, and names a parent that
is not: the one write whose links are not looked at. -/
def strandedBy (ts : ℕ) (change : Change) (d : Doc sh) : Bool :=
  let key := sh.recordKey change.c change.id
  let value := change.write.value
  change.path.isEmpty && change.write ≠ .del &&
    (d.records.get key).any fun e =>
      !(settledKind sh key [] change.write.kind value = .put && e.data.isObj) &&
        !decide ((ts : ℤ) < e.clock.maxOf) && value.fields?.any (d.orphaned key.1)

theorem orphaned_edit {path : Path} {e : Entry} {f : Value → Value} (hd : d.Linked)
    (he : d.records.get key = some e) (hparent : e.hasParent sh key path = true)
    (hedit : Edit .judge key path d f) (hpath : path ≠ []) {gs : List (String × Value)}
    (hg : modifyAt f path.dropLast e.data = .obj gs) : d.orphaned key.1 gs = false := by
  have hget : d.get key = some e.data := by simp [get, he]
  by_cases hlen : path.length = 1
  · obtain ⟨last, rfl⟩ := List.length_eq_one_iff.mp hlen
    have hobj := fields_of_hasParent hparent
    simp only [List.dropLast_singleton, valueAt_nil, Option.any_some] at hobj
    obtain ⟨fs, hfs⟩ := Value.isObj_iff.mp hobj
    have hold := orphaned_eq_false.mp (linked_iff.mp hd key fs (hfs ▸ hget))
    simp only [List.dropLast_singleton, modifyAt, hfs] at hg
    refine orphaned_eq_false.mpr fun link hlink id hid => ?_
    cases hedit with
    | write value hkept =>
      obtain rfl := Value.obj.inj hg
      simp only [List.getLastD_cons, List.getLastD_nil, Assoc.get_set] at hid
      split_ifs at hid with hlast
      · have hone := orphaned_eq_false.mp (hkept rfl hlen) link hlink id
        exact hone (by simpa [Assoc.get_cons, hlast] using hid)
      · exact hold link hlink id hid
    | erase =>
      obtain rfl := Value.obj.inj hg
      simp only [List.getLastD_cons, List.getLastD_nil, Assoc.get_erase] at hid
      split_ifs at hid
      exact hold link hlink id hid
  · have hnamed : (d.write key ⟨.obj gs, e.clock⟩).namedParents key = d.namedParents key :=
      namedParents_edit hedit.keepsObj (dropLast_ne_nil hpath hlen)
        (fields_of_hasParent hparent) hg.symm he
    refine orphaned_eq_false.mpr fun link hlink id hid => ?_
    have hmem : (link.parent, some id) ∈ (d.write key ⟨.obj gs, e.clock⟩).namedParents key :=
      mem_namedParents.mpr ⟨gs, by simp [get], link, hlink, id, hid, rfl⟩
    rw [hnamed] at hmem
    obtain ⟨fs, hfs, link', hlink', id', hid', hp⟩ := mem_namedParents.mp hmem
    rw [hp]
    exact hd key.1 key.2 fs hfs link' hlink' id' hid'

end Doc

/-- What a judged step keeps, but for the write that is not looked at. -/
theorem Deed.linked {value : Value} {kind : Kind} {path : Path} {d d' : Doc sh}
    (h : Deed ts .judge key value kind path d d') (hlisted : d.Listed) (hlinked : d.Linked)
    (hwhole : path = [] → kind ≠ .del → ∀ e, d.records.get key = some e →
      (settledKind sh key [] kind value = .put → e.data.isObj = false) →
      ¬ (ts : ℤ) < e.clock.maxOf → ∀ fs, value = .obj fs → d.orphaned key.1 fs = false) :
    d'.Linked := by
  have hlisted' := h.follows.listed hlisted
  cases h with
  | nothing => exact hlinked
  | remove => exact (removeRecord_uproots _ le_rfl hlisted.paired key).1.linked hlisted' hlinked
  | whole hroot hwritten hplain hnewest hkept =>
    refine hlinked.of_write key (fun k hk => ?_) (by simp [Doc.get]) fun fs hfs => ?_
    · simp [Doc.get, OrderedMap.get_set, Ne.symm hk]
    · have hvalue : value = .obj fs := by simpa [Doc.get] using hfs
      cases he : d.records.get key with
      | none => exact hkept rfl he fs hvalue
      | some e =>
        refine hwhole hroot hwritten e he (fun hk => ?_) (hnewest rfl e he) fs hvalue
        simpa [Doc.get, he] using hplain hk
  | @inside hpath e e' he hparent f hedit hdata =>
    have hrecords : (d.edited key path e').records = d.records.set key e' := by
      unfold Doc.edited
      split_ifs <;> simp
    refine hlinked.of_write key (fun k hk => ?_) ?_ fun fs hfs => ?_
    · simp [Doc.get, hrecords, OrderedMap.get_set, Ne.symm hk]
    · simp [Doc.get, hrecords]
    · have hobj : e'.data = .obj fs := by simpa [Doc.get, hrecords] using hfs
      exact Doc.orphaned_edit hlinked he hparent hedit hpath (hdata ▸ hobj)

/-- A change judged at a time. -/
def judgeAt (e : ℕ × Change) (d : Doc sh) : Option (Doc sh) :=
  match apply e.1 .judge e.2 d with
  | .ok out => some out.doc
  | .error _ => none

/-- A judged change that strands nothing where nobody looks strands nothing. -/
theorem linked_judgeAt {e : ℕ × Change} {d d' : Doc sh} (hlisted : d.Listed) (hlinked : d.Linked)
    (hsafe : d.strandedBy e.1 e.2 = false) (h : judgeAt e d = some d') : d'.Listed ∧ d'.Linked := by
  obtain ⟨ts, change⟩ := e
  unfold judgeAt at h
  split at h
  · next out hout =>
    obtain rfl := Option.some.inj h
    obtain ⟨hsingle, rfl⟩ := of_apply hout
    have hclear : d.Clear .judge (sh.recordKey change.c change.id) change.path := fun hm =>
      absurd hm (by decide)
    have hnote : ∀ (x : Doc sh) (k : RecordKey), x.Linked → (x.note k).Linked := by
      intro x k hx c id fs
      simpa [Doc.get] using hx c id fs
    refine run_keeps (P := fun x => x.Listed ∧ x.Linked) (normal_recordKey _ _) ?_ _ _ _ _
      ⟨hlisted, hlinked⟩ hsingle hclear ?_
    · rintro x x' value kind path hpath ⟨hl, hk⟩ hdeed
      have hl' := (x.follows_note (sh.recordKey change.c change.id)).listed hl
      exact ⟨hdeed.follows.listed hl', hdeed.linked hl' (hnote x _ hk) fun h => absurd h hpath⟩
    · intro hroot x' hdeed
      have hl' := (d.follows_note (sh.recordKey change.c change.id)).listed hlisted
      refine ⟨hdeed.follows.listed hl', hdeed.linked hl' (hnote d _ hlinked) ?_⟩
      intro _ hwritten e he hplain hnewest fs hfs
      have hthere : d.records.get (sh.recordKey change.c change.id) = some e := by simpa using he
      have horphaned : ∀ c gs, (d.note (sh.recordKey change.c change.id)).orphaned c gs =
          d.orphaned c gs := by
        intro c gs
        simp [Doc.orphaned, Doc.get]
      rw [horphaned]
      have hwrite : change.write ≠ .del := fun hw => hwritten (by simp [hw, Write.kind])
      have hempty : change.path.isEmpty = true := List.isEmpty_iff.mpr hroot
      simp only [Doc.strandedBy, hempty, hthere, Option.any_some, hnewest, hfs,
        Value.fields?] at hsafe
      rw [hfs] at hplain
      by_cases hput : settledKind sh (sh.recordKey change.c change.id) [] change.write.kind
          (.obj fs) = .put
      · simpa [hwrite, hput, hplain hput] using hsafe
      · simpa [hwrite, hput] using hsafe
  · cases h

/-- Of a doc whose children all have their parents, whatever is judged over it keeps them so, if no
change writes a record whole over one that is there with a link to a parent that is not. -/
theorem children_keep_parents {d₀ d : Doc sh} (hlisted : d₀.Listed) (hlinked : d₀.Linked)
    (h : Reaches judgeAt (fun e d => sh.assertChange e.2 = .ok () ∧ d.strandedBy e.1 e.2 = false)
      d₀ d) : d.Linked :=
  (h.invariant (P := fun d => d.Listed ∧ d.Linked) ⟨hlisted, hlinked⟩
    fun _ _ _ hP hok hs => linked_judgeAt hP.1 hP.2 hok.2 hs).2

/-- A board whose comments are values of their own, written whole. -/
def pinned : Shape := { board with registers := [["comments", "*"]] }

/-- A task and a comment on it. -/
def commented (sh : Shape) : Doc sh := Doc.load sh
  [(("tasks", some "t1"), ⟨.obj [], .born 1⟩),
    (("comments", some "k1"), ⟨.obj [("task", .str "t1")], .born 1⟩)]

/-- A comment of its own moved to a task that is not there: nobody asks. -/
theorem pinned_comment_stranded :
    let d := commented pinned
    let change : Change := ⟨"comments", some "k1", [], .set (.obj [("task", .str "t2")])⟩
    d.Listed ∧ d.Linked ∧ pinned.assertChange change = .ok () ∧
      ∃ d', judgeAt (5, change) d = some d' ∧ ¬ d'.Linked := by
  refine ⟨(Doc.indexed_load _).listed, by decide +kernel, rfl, _, rfl, by decide +kernel⟩

/-- A task deleted with the comment on it, and another comment sent to it too late. -/
theorem children_keep_parents_on_board :
    ∃ d : Doc board, d.get ("comments", some "k1") = none ∧ d.Linked :=
  ⟨_, by decide +kernel, @children_keep_parents _ (commented board) _ (Doc.indexed_load _).listed
    (by decide +kernel)
    (.next (9, ⟨"comments", some "k2", [], .put (.obj [("task", .str "t1")])⟩)
      (.next (7, ⟨"tasks", some "t1", [], .del⟩) .start ⟨rfl, rfl⟩ rfl) ⟨rfl, rfl⟩ rfl)⟩

end LazyStorage.Core
