import LazyStorage.Core.Journal
import LazyStorage.Server.OwnWrites

/-! # What the server's own deletions do to the child index

A deletion that makes its way writes the record without linking it again. The
records there are stay there; but where a container is made over a field by
which the record named its parent, the index goes on listing it there.
-/
namespace LazyStorage.Server

open Lib LazyStorage.Core

variable {sh : Shape} {ts : ℕ} {d : Doc sh} {key : RecordKey} {path : Path}

namespace OwnWrite

/-- Whether a write is a deletion that makes a container over a field by which a child names its
parent. -/
def cutsLink (d : Doc sh) : OwnWrite → Bool
  | del c id (seg :: _ :: _) =>
    (sh.parentsOf c).any (·.field = seg) &&
      ((d.get (sh.recordKey c id)).bind Value.fields?).any fun fs =>
        match Assoc.get fs seg with
        | some (.str _) => true
        | _ => false
  | _ => false

end OwnWrite

/-- A deletion finds the parent of its path, or makes the way to it and stops. -/
theorem run_del_cases (ts : ℕ) (d : Doc sh) (hpath : path ≠ [])
    (hreg : sh.underRegister key path = false) :
    d.Clear .authority key path ∨ ∃ e,
      (d.records.get key = some e ∨ (d.records.get key = none ∧ e = ⟨.obj [], .born ts⟩)) ∧
      (∀ x, (run ts .authority key .null .del path d).doc.records.get x =
        if key = x then some (e.makeWay ts path.dropLast) else d.records.get x) ∧
      (run ts .authority key .null .del path d).doc.index = d.index := by
  rw [run_del]
  cases he : d.records.get key with
  | some e =>
    cases hobj : (valueAt e.data path.dropLast).any Value.isObj with
    | true => exact .inl fun _ _ => ⟨e, he, (hasParent_of_accepted hreg hpath).trans hobj⟩
    | false =>
      refine .inr ⟨e, .inl rfl, fun x => ?_, ?_⟩
      · rw [step_del_record hpath he, within_del_makes hpath hreg hobj]
        simp [Step.outcome, Outcome.nothing, OrderedMap.get_set]
      · rw [step_del_record hpath he, within_del_makes hpath hreg hobj]
        simp [Step.outcome, Outcome.nothing, Doc.write]
  | none =>
    refine .inr ⟨⟨.obj [], .born ts⟩, .inr ⟨rfl, rfl⟩, ?_⟩
    rw [step_del_missing hpath he]
    cases hobj : (valueAt (.obj []) path.dropLast).any Value.isObj with
    | true =>
      have hroot : path.dropLast = [] := by
        cases hp : path.dropLast with
        | nil => rfl
        | cons seg rest => simp [hp, valueAt_cons, Value.prop] at hobj
      rw [within_del_skips (by simp [Entry.hasParent, hroot])
        (by simp [Entry.current, hroot, Value.fields?])]
      refine ⟨fun x => ?_, by simp [Step.outcome, Outcome.report, Outcome.nothing, Doc.write]⟩
      simp only [Step.outcome, Outcome.report, Outcome.nothing, Doc.records_write,
        Doc.records_note, OrderedMap.get_set, hroot]
      split_ifs <;> rfl
    | false =>
      rw [within_del_makes hpath hreg hobj]
      refine ⟨fun x => ?_, by simp [Step.outcome, Outcome.report, Outcome.nothing, Doc.write]⟩
      simp only [Step.outcome, Outcome.report, Outcome.nothing, Doc.records_write,
        Doc.records_note, OrderedMap.get_set]
      split_ifs <;> rfl

section Deletion

variable {c : String} {id : Option String} {out : Outcome sh}

/-- A deletion, of a path the check lets through. -/
theorem doc_of_del (hc : sh.assertChange ⟨c, if sh.isSingleton c then none else id, path, .del⟩ = .ok ())
    (h : applyAll ts .authority [⟨c, if sh.isSingleton c then none else id, path, .del⟩] d = .ok out) :
    sh.underRegister (sh.recordKey c id) path = false ∧
      out.doc = (run ts .authority (sh.recordKey c id) .null .del path d).doc := by
  have hrec : sh.recordKey c (if sh.isSingleton c then none else id) = sh.recordKey c id := by
    unfold Shape.recordKey
    split_ifs <;> rfl
  refine ⟨hrec ▸ (Shape.accepts_of_assertChange hc).free, ?_⟩
  obtain ⟨o, m, ho, hm, rfl⟩ := of_applyAll_cons h
  cases hm
  obtain ⟨-, rfl⟩ := of_apply ho
  simp only [Write.value, Write.kind, hrec, Outcome.nothing]

variable (hpath : path ≠ []) (hreg : sh.underRegister key path = false)
include hpath hreg

theorem sound_of_del (hd : d.Sound) : (run ts .authority key .null .del path d).doc.Sound := by
  rcases run_del_cases ts d hpath hreg with hclear | ⟨e, he, hrec, hindex⟩
  · rw [run_del]
    exact (step_deed ts .null d hclear).sound rfl (fun h => absurd h hpath) (hd.note key)
  · refine ⟨⟨hindex ▸ hd.tended.paired, fun k p hp => ?_⟩, hd.full.of_write key ?_ fun x hx => ?_⟩
    · have hthere := hd.tended.there k p (hindex ▸ hp)
      simp only [Doc.get, hrec]
      split_ifs
      · rfl
      · simpa [Doc.get] using hthere
    · simp [hrec]
    · simp [hrec, Ne.symm hx]

theorem indexed_of_del (hkey : Normal sh key)
    (hcut : ∀ seg rest, path = seg :: rest → rest ≠ [] → ∀ fs, d.get key = some (.obj fs) →
      ∀ link ∈ sh.parentsOf key.1, link.field = seg → ∀ s, Assoc.get fs seg ≠ some (.str s))
    (hd : d.Indexed) : (run ts .authority key .null .del path d).doc.Indexed := by
  rcases run_del_cases ts d hpath hreg with hclear | ⟨e, he, hrec, hindex⟩
  · exact (run_follows hkey .null .del path d (fun h => absurd h hpath) hclear).indexed hd
  refine ⟨hindex ▸ hd.paired, fun k p => ?_⟩
  rw [hindex, hd.exact k p]
  by_cases hk : k = key
  · subst hk
    obtain ⟨gs, hg, hstr⟩ := str_makeWay ts e path.dropLast
    have hget : (run ts .authority k .null .del path d).doc.get k = some (.obj gs) := by
      simp [Doc.get, hrec, hg]
    rw [Doc.mem_namedParents, Doc.mem_namedParents, hget]
    constructor
    · rintro ⟨fs, hfs, link, hlink, id, hid, rfl⟩
      refine ⟨gs, rfl, link, hlink, id, (hstr _ _).mpr ⟨⟨fs, ?_, hid⟩, fun hway => ?_⟩, rfl⟩
      · rcases he with he | ⟨he, -⟩
        · simpa [Doc.get, he] using hfs
        · simp [Doc.get, he] at hfs
      · obtain ⟨seg, rest, rfl⟩ := List.exists_cons_of_ne_nil hpath
        cases rest with
        | nil => cases hway
        | cons seg' rest =>
          obtain rfl : seg = link.field := by simpa using hway
          exact hcut _ _ rfl (by simp) fs hfs link hlink rfl id hid
    · rintro ⟨fs, hfs, link, hlink, id, hid, rfl⟩
      obtain rfl : gs = fs := by simpa using hfs
      obtain ⟨⟨fs, hfs, hid⟩, -⟩ := (hstr _ _).mp hid
      refine ⟨fs, ?_, link, hlink, id, hid, rfl⟩
      rcases he with he | ⟨-, rfl⟩
      · simp [Doc.get, he, hfs]
      · obtain rfl : [] = fs := by simpa using hfs
        simp at hid
  · have hsame : (run ts .authority key .null .del path d).doc.get k = d.get k := by
      simp [Doc.get, hrec, Ne.symm hk]
    rw [Doc.namedParents_congr hsame]

end Deletion

section Own

variable {w : OwnWrite} {changes : List Change} {out : Outcome sh}

/-- The server's own writes keep a doc sound. -/
theorem sound_of_own (hw : w.accepted sh = .ok changes)
    (h : applyAll ts .authority changes d = .ok out) (hd : d.Sound) : out.doc.Sound := by
  obtain ⟨hlist, hc⟩ := OwnWrite.of_accepted hw
  cases w with
  | patch diff => exact applyAll_sound (fun _ => OwnWrite.path_of_changesOf hlist) rfl h hd
  | del c id path =>
    obtain rfl := Except.ok.inj hlist
    by_cases hpath : path = []
    · exact applyAll_sound (fun _ => by simp [hpath]) rfl h hd
    · obtain ⟨hreg, hdoc⟩ := doc_of_del (hc _ (by simp)) h
      rw [hdoc]
      exact sound_of_del hpath hreg hd

/-- And its index exact, where they cut no link. -/
theorem indexed_of_own (hw : w.accepted sh = .ok changes)
    (h : applyAll ts .authority changes d = .ok out) (hcut : w.cutsLink d = false)
    (hd : d.Indexed) : out.doc.Indexed := by
  obtain ⟨hlist, hc⟩ := OwnWrite.of_accepted hw
  cases w with
  | patch diff =>
    exact (applyAll_follows (fun _ => OwnWrite.path_of_changesOf hlist) h).indexed hd
  | del c id path =>
    obtain rfl := Except.ok.inj hlist
    by_cases hpath : path = []
    · exact (applyAll_follows (fun _ => by simp [hpath]) h).indexed hd
    obtain ⟨hreg, hdoc⟩ := doc_of_del (hc _ (by simp)) h
    rw [hdoc]
    refine indexed_of_del hpath hreg (normal_recordKey _ _) ?_ hd
    rintro seg rest rfl hrest fs hfs link hlink hfield s hs
    obtain ⟨seg', rest, rfl⟩ := List.exists_cons_of_ne_nil hrest
    have hlink' : link ∈ sh.parentsOf c := by
      unfold Shape.recordKey at hlink
      split_ifs at hlink <;> exact hlink
    have hany : (sh.parentsOf c).any (·.field = seg) = true :=
      List.any_eq_true.mpr ⟨link, hlink', by simpa using hfield⟩
    simp [OwnWrite.cutsLink, hany, hfs, Value.fields?, hs] at hcut

end Own

end LazyStorage.Server
