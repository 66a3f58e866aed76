import LazyStorage.Core.Landing
import LazyStorage.Core.Places

/-! # A trusted change, as writes

A change trusted on a doc makes the way to its place and writes there, whatever the
doc holds; on the other records it does nothing. So docs that hold the same at each
place, in whatever order of keys, go on holding the same.
-/
namespace LazyStorage.Core

open Lib

variable {sh : Shape} {key : RecordKey} {ts : ℕ}

namespace Doc

/-- What stands at each place of a record. -/
def spots (d : Doc sh) (key : RecordKey) : Spots String Leaf := Value.spots (d.get key)

/-- The same at each place of each record. -/
def Equals (d d' : Doc sh) : Prop := ∀ key, d.spots key = d'.spots key

theorem Equals.of_shows {d d' : Doc sh} (h : d.Shows d') : d.Equals d' := fun key => by
  simp only [spots, shows_iff.mp h key]

theorem Equals.isSome {d d' : Doc sh} (h : d.Equals d') (key : RecordKey) (path : Path) :
    ((d.get key).bind (valueAt · path)).isSome = ((d'.get key).bind (valueAt · path)).isSome := by
  have hspot : ∀ v : Option Value, (v.bind (valueAt · path)).isSome = true ↔
      Value.spots v path ≠ .nothing := by
    intro v
    unfold Value.spots
    cases v.bind (valueAt · path) with
    | none => simp
    | some w => cases w <;> simp [Value.spot]
  rw [Bool.eq_iff_iff, hspot, hspot]
  exact not_congr (iff_of_eq (congrArg (· = _) (congrFun (h key) path)))

end Doc

/-- The way to a place. -/
def waysTo (path : Path) : List (Overwrite String Leaf) :=
  if path = [] then [] else [.way path.dropLast]

/-- Whether the parent of a place is written whole. -/
def fixedParent (sh : Shape) (key : RecordKey) (path : Path) : Bool :=
  !path.dropLast.isEmpty && sh.isRegister key path.dropLast

section Step

variable {path : Path} {e : Entry}

/-- A change gets to its parent, the way made. -/
theorem arrive_trust (hpath : fixedParent sh key path = false) (e : Entry) :
    ∃ e' fs, e.arrive sh .trust ts key path = .ok e' ∧ valueAt e'.data path.dropLast = some (.obj fs) ∧
      Value.spots (some e'.data) = (Value.spots (some e.data)).way path.dropLast := by
  by_cases hobj : ∃ fs, valueAt e.data path.dropLast = some (.obj fs)
  · obtain ⟨fs, hfs⟩ := hobj
    have hparent : e.hasParent sh key path = true := by
      unfold fixedParent at hpath
      simp [Entry.hasParent, hfs, hpath]
    have hnode : Value.spots (some e.data) path.dropLast = .node := Value.spots_eq_node.mpr ⟨fs, hfs⟩
    refine ⟨e, fs, by simp [Entry.arrive, Mode.judging, hparent], hfs, ?_⟩
    rw [Spots.way_of_node hnode]
  · have hnode : Value.spots (some e.data) path.dropLast ≠ .node := fun hnode =>
      hobj (Value.spots_eq_node.mp hnode)
    have hparent : e.hasParent sh key path = false := by
      unfold Entry.hasParent
      rw [Bool.and_eq_false_iff]
      left
      rw [Option.any_eq_false_iff_get]
      intro hsome
      by_contra hisObj
      obtain ⟨fs, hfs⟩ := Value.isObj_iff.mp (by simpa using hisObj)
      exact hobj ⟨fs, by rw [← hfs, Option.some_get]⟩
    have hdata : (e.makeWay ts path.dropLast).data =
        makeContainers path.dropLast ((Option.filter Value.isObj (some e.data)).getD (.obj [])) := by
      unfold Entry.makeWay
      cases he : e.data.isObj <;> simp [Option.filter, he]
    have hspots : Value.spots (some (e.makeWay ts path.dropLast).data) =
        (Value.spots (some e.data)).way path.dropLast := by
      rw [hdata, ← spots_makeContainers, Spots.way, if_neg (by simpa using hnode)]
    have hway : Value.spots (some (e.makeWay ts path.dropLast).data) path.dropLast = .node := by
      rw [hspots]
      exact Spots.way_at _ _
    obtain ⟨fs, hfs⟩ := Value.spots_eq_node.mp hway
    exact ⟨_, fs, by simp [Entry.arrive, Mode.judging, hparent, Mode.makes], hfs, hspots⟩

/-- Where its parent is a container, a change is put, merged in, or skips what is not there. -/
theorem settle_trust {fs : List (String × Value)} (hpath : path ≠ [])
    (hparent : valueAt e.data path.dropLast = some (.obj fs)) (value : Value) (kind : Kind) :
    (e.settle sh .trust ts key path kind value = .merge ∧ kind = .put ∧
      Value.spots (some e.data) path = .node) ∨
    ((kind = .put → Value.spots (some e.data) path ≠ .node) ∧
      ((e.settle sh .trust ts key path kind value = .skip ∧
        Value.spots (some e.data) = (Value.spots (some e.data)).write path (contents kind value)) ∨
      ∃ e' w, e.settle sh .trust ts key path kind value = .land e' w ∧
        Value.spots (some e'.data) =
          (Value.spots (some e.data)).write path (contents kind value))) := by
  obtain ⟨last, hlast⟩ : ∃ last, path = path.dropLast ++ [last] :=
    ⟨_, (List.dropLast_append_getLast hpath).symm⟩
  have hname : path.getLastD "" = last := by rw [hlast]; simp
  have hcurrent : e.current path = Assoc.get fs last := by
    simp only [Entry.current, hparent, Option.bind_some, Value.fields?, hname]
  have hthere : Value.spots (some e.data) path = Value.spots (Assoc.get fs last) [] := by
    rw [hlast, Value.spots_append, Option.bind_some, hparent]
    exact Value.spots_obj_cons fs last []
  have hplace : Value.spots (some (e.place path value)) =
      (Value.spots (some e.data)).write path (Value.spots (some value)) := by
    have hfield := Value.spots_field last (f := Value.setField (path.getLastD "") value) hparent rfl
      fun k hk => Assoc.get_set_of_ne _ _ (by rw [hname]; exact Ne.symm hk)
    rw [hname, Assoc.get_set_self, ← hlast] at hfield
    rw [← hfield, Entry.place, hname]
  have hover : kind ≠ .del → ∃ e' w, e.overwrite .trust ts path value = .land e' w ∧
      Value.spots (some e'.data) = (Value.spots (some e.data)).write path (contents kind value) := by
    intro hkind
    refine ⟨_, _, by simp [Entry.overwrite, Mode.judging]; exact ⟨rfl, rfl⟩, ?_⟩
    rw [contents, if_neg hkind]
    exact hplace
  cases kind with
  | put =>
    cases hget : Assoc.get fs last with
    | none =>
      have hnone : Value.spots (some e.data) path ≠ .node := by
        rw [hthere, hget]
        simp [Value.spots]
      have hland : e.settle sh .trust ts key path .put value = .land ⟨e.place path value,
          Clock.stampInside sh key ts value path (e.clock.dropBeneath path true false)⟩ (.put value) := by
        simp [Entry.settle, hcurrent, hget, Entry.fresh, Mode.judging]
      exact .inr ⟨fun _ => hnone, .inr ⟨_, _, hland, hplace⟩⟩
    | some v =>
      cases hv : v.isObj with
      | true =>
        obtain ⟨gs, rfl⟩ := Value.isObj_iff.mp hv
        refine .inl ⟨by simp [Entry.settle, hcurrent, hget], rfl, ?_⟩
        rw [hthere, hget]
        rfl
      | false =>
        obtain ⟨e', w, hland, hspots⟩ := hover (by simp)
        refine .inr ⟨fun _ hnode => ?_, .inr ⟨e', w, ?_, hspots⟩⟩
        · rw [hthere, hget, Value.spots_root, Value.spot_eq_node] at hnode
          simp [Value.isObj_iff.mpr hnode] at hv
        · rw [← hland]
          cases v with
          | obj gs => simp at hv
          | _ => simp [Entry.settle, hcurrent, hget]
  | set =>
    obtain ⟨e', w, hland, hspots⟩ := hover (by simp)
    exact .inr ⟨by simp, .inr ⟨e', w, by simpa [Entry.settle] using hland, hspots⟩⟩
  | del =>
    refine .inr ⟨by simp, ?_⟩
    cases hget : Assoc.get fs last with
    | none =>
      refine .inl ⟨by simp [Entry.settle, hcurrent, hget], ?_⟩
      funext r
      by_cases hr : path <+: r
      · obtain ⟨r, rfl⟩ := hr
        rw [Spots.write_at (List.prefix_append _ _), hlast, List.append_assoc, Value.spots_append,
          Option.bind_some, hparent]
        exact (Value.spots_obj_cons fs last r).trans (by rw [hget]; rfl)
      · exact (Spots.write_off hr).symm
    | some v =>
      have hland : e.settle sh .trust ts key path .del value =
          .land ⟨modifyAt (Value.eraseField last) path.dropLast e.data,
            (e.clock.dropBeneath path true v.isObj).setGone path ts⟩ .del := by
        simp only [Entry.settle, hcurrent, hget, Entry.delete, Mode.judging, hname]
        simp
      have hfield := Value.spots_field last (f := Value.eraseField last) hparent rfl
        fun k hk => (Assoc.get_erase _ _ _).trans (if_neg (Ne.symm hk))
      rw [Assoc.get_erase, if_pos rfl, ← hlast] at hfield
      exact .inr ⟨_, _, hland, hfield⟩

/-- A change inside a record that is there, or that was made for it: the way, and then its write. -/
theorem within_trust (hpath : path ≠ []) (hfixed : fixedParent sh key path = false) (value : Value)
    (kind : Kind) (out : Outcome sh) {t : Spots String Leaf}
    (ht : (Value.spots (some e.data)).way path.dropLast = t) :
    (∃ out', within ts .trust key value kind path e out = .merge out' ∧ out'.doc.spots key = t ∧
      kind = .put ∧ t path = .node) ∨
    ∃ out', within ts .trust key value kind path e out = .done out' ∧
      out'.doc.spots key = t.write path (contents kind value) ∧ (kind = .put → t path ≠ .node) := by
  obtain ⟨e', fs, harrive, hparent, hway⟩ := @arrive_trust sh key ts path hfixed e
  rw [ht] at hway
  have hstrands : ∀ d : Doc sh, strands .trust key value kind path d = false := fun d => by
    simp [strands, Mode.checks]
  have hwritten : ∀ (d : Doc sh) (e : Entry), (d.write key e).spots key = Value.spots (some e.data) := by
    intro d e
    simp [Doc.spots, Doc.get]
  simp only [within, harrive, hstrands, Bool.false_eq_true, if_false]
  rcases @settle_trust sh key ts path e' fs hpath hparent value kind with
    ⟨hsettle, hkind, hnode⟩ | ⟨hnode, ⟨hsettle, hskip⟩ | ⟨e₂, w, hsettle, hland⟩⟩
  · rw [hsettle]
    exact .inl ⟨_, rfl, (hwritten _ _).trans hway, hkind, hway ▸ hnode⟩
  · rw [hsettle]
    rw [hway] at hskip hnode
    exact .inr ⟨_, rfl, ((hwritten _ _).trans hway).trans hskip, hnode⟩
  · rw [hsettle]
    rw [hway] at hland hnode
    refine .inr ⟨_, rfl, ?_, hnode⟩
    rw [← hland]
    simp only [landed, Outcome.report]
    split_ifs
    · simp [Doc.spots, Doc.get]
    · exact hwritten _ _

end Step

theorem write_root (t what : Spots String Leaf) : t.write [] what = what := by
  funext r
  rw [Spots.write_at List.nil_prefix]
  rfl

/-- A change to the record itself. -/
theorem atRoot_trust (value : Value) (kind : Kind) (d : Doc sh) :
    (∃ out, atRoot ts .trust key value kind d = .merge out ∧ out.doc.spots key = d.spots key ∧
      kind = .put ∧ d.spots key [] = .node) ∨
    ∃ out, atRoot ts .trust key value kind d = .done out ∧
      out.doc.spots key = contents kind value ∧ (kind = .put → d.spots key [] ≠ .node) := by
  have hwrite : kind ≠ .del →
      (writeRoot ts .trust key value kind d).doc.spots key = contents kind value := by
    intro hkind
    rw [contents, if_neg hkind]
    simp [writeRoot, writeWhole, Mode.judging, Mode.checks, Doc.spots, Doc.get]
  have hnode : d.spots key [] = .node ↔ (d.get key).any Value.isObj = true := by
    unfold Doc.spots
    rw [Value.spots_eq_node]
    cases d.get key <;> simp [Value.isObj_iff]
  cases kind with
  | put =>
    simp only [atRoot]
    split_ifs with hobj
    · exact .inl ⟨_, rfl, rfl, trivial, hnode.mpr hobj⟩
    · exact .inr ⟨_, rfl, hwrite (by simp), fun _ h => hobj (hnode.mp h)⟩
  | set => exact .inr ⟨_, rfl, hwrite (by simp), by simp⟩
  | del =>
    refine .inr ⟨_, rfl, ?_, by simp⟩
    have hgone : (deleteRoot ts .trust key d).doc.records.get key = none := by
      simp only [deleteRoot, Mode.judging]
      cases hget : d.records.get key with
      | none =>
        simp only [Option.isNone_none, if_true]
        exact hget
      | some e =>
        obtain ⟨n, hn⟩ : ∃ n, d.records.size = n + 1 :=
          Nat.exists_eq_succ_of_ne_zero fun h0 => by
            rw [OrderedMap.size_eq_zero h0] at hget
            cases hget
        have hthere : (d.get key).isNone = false := by simp [Doc.get, hget]
        simp [Mode.cascades, hn, Doc.removeRecord, hthere, OrderedMap.get_erase_self]
    simp [Doc.spots, Doc.get, hgone, contents, Value.spots_none]

theorem contents_settledKind (path : Path) (kind : Kind) (value : Value) :
    contents (settledKind sh key path kind value) value = contents kind value := by
  unfold contents
  simp only [settledKind_eq_del]

/-- One change, up to the keys of a put that is merged in: the way to its place, and its write. -/
theorem step_trust {path : Path} (hfixed : fixedParent sh key path = false) (value : Value)
    (kind : Kind) (d : Doc sh) {t : Spots String Leaf}
    (ht : Overwrite.runAll (waysTo path) (d.spots key) = t) :
    (∃ out, step ts .trust key value kind path d = .merge out ∧ out.doc.spots key = t ∧
      settledKind sh key path kind value = .put ∧ t path = .node) ∨
    ∃ out, step ts .trust key value kind path d = .done out ∧
      out.doc.spots key = t.write path (contents kind value) ∧
      (settledKind sh key path kind value = .put → t path ≠ .node) := by
  have hnote : (d.note key).spots key = d.spots key := by simp [Doc.spots, Doc.get]
  rw [← @contents_settledKind sh key path kind value]
  by_cases hpath : path = []
  · subst hpath
    have hroot : d.spots key = t := ht
    simp only [step, List.isEmpty_nil, if_true, write_root]
    have hcases := @atRoot_trust sh key ts value (settledKind sh key [] kind value) (d.note key)
    rwa [hnote, hroot] at hcases
  have hway : (d.spots key).way path.dropLast = t := by
    rw [← ht, waysTo, if_neg hpath]
    rfl
  have hempty : path.isEmpty = false := by simpa using hpath
  simp only [step, hempty, Bool.false_eq_true, if_false]
  cases he : (d.note key).records.get key with
  | some e =>
    refine within_trust hpath hfixed value _ _ ?_
    rw [← hway, ← hnote, Doc.spots, Doc.get, he]
    rfl
  | none =>
    simp only [Mode.makes, decide_true, Bool.or_true, if_true]
    refine within_trust hpath hfixed value _ _ ?_
    rw [← hway, ← hnote, Doc.spots, Doc.get, he, Option.map_none, Spots.way, Spots.way]
    have hnothing : (Value.spots none path.dropLast).isNode = false := rfl
    rw [hnothing, if_neg Bool.false_ne_true, spots_makeContainers, spots_makeContainers]
    split_ifs with hnode
    · obtain ⟨fs, hfs⟩ := Value.spots_eq_node.mp (Spot.isNode_iff.mp hnode)
      cases hp : path.dropLast with
      | nil => rfl
      | cons k rest => simp [hp, valueAt_cons, Value.prop] at hfs
    · rfl

/-- What a trusted change writes: the way to its place, and there. -/
theorem run_trust (value : Value) : ∀ (kind : Kind) (path : Path) (d : Doc sh),
    fixedParent sh key path = false → kind = .del ∨ mergeable sh key value path = true →
    (run ts .trust key value kind path d).doc.spots key =
      Overwrite.runAll (waysTo path ++ overwrites sh key value kind path) (d.spots key) := by
  have hdone : ∀ (value : Value) (kind : Kind) (path : Path) {t : Spots String Leaf},
      kind = .del ∨ mergeable sh key value path = true →
      (settledKind sh key path kind value = .put → t path ≠ .node) →
      Overwrite.runAll (overwrites sh key value kind path) t = t.write path (contents kind value) := by
    intro value kind path t hmerge hnode
    by_cases hput : settledKind sh key path kind value = .put
    · have hkind : kind ≠ .del := fun h => by simp [h, settledKind] at hput
      rw [contents, if_neg hkind]
      exact runAll_fresh value kind path t hkind (hmerge.resolve_left hkind) (hnode hput)
    · rw [overwrites_of_not_put hput]
      rfl
  induction value using Value.merging_induction with
  | leaf v hv =>
    intro kind path d hfixed hmerge
    have hput : settledKind sh key path kind v ≠ .put := by cases kind <;> simp [settledKind, hv]
    rw [Overwrite.runAll_append]
    rcases @step_trust sh key ts path hfixed v kind d _ rfl with ⟨-, -, -, h, -⟩ | ⟨out, hout, hspots, -⟩
    · exact absurd h hput
    · rw [run_of_done hout, hspots, hdone v kind path hmerge fun h => absurd h hput]
  | fields fs ih =>
    intro kind path d hfixed hmerge
    rw [Overwrite.runAll_append]
    rcases @step_trust sh key ts path hfixed (.obj fs) kind d _ rfl with
      ⟨out, hout, hspots, hput, hnode⟩ | ⟨out, hout, hspots, hnode⟩
    swap
    · rw [run_of_done hout, hspots, hdone (.obj fs) kind path hmerge hnode]
    have hreg := isRegister_of_put hput
    have hkind : kind ≠ .del := fun h => by simp [h, settledKind] at hput
    have hinside := hmerge.resolve_left hkind
    simp only [mergeable, hreg, Bool.false_or, Bool.and_eq_true, mergeableFields_iff] at hinside
    have hfields : ∀ gs : List (String × Value), (∀ e ∈ gs, e ∈ fs) → ∀ d : Doc sh,
        d.spots key path = .node → (runFields ts .trust key gs path d).doc.spots key =
          Overwrite.runAll (overwritesFields sh key gs path) (d.spots key) := by
      intro gs hg
      induction gs with
      | nil => exact fun d _ => rfl
      | cons e gs ihg =>
        intro d hd
        have hfixed' : fixedParent sh key (path ++ [e.1]) = false := by simp [fixedParent, hreg]
        have hone := ih e (hg e (by simp)) (changeFor e.2).kind (path ++ [e.1]) d hfixed'
          (.inr (hinside.2 e (hg e (by simp))).2)
        have hways : Overwrite.runAll (waysTo (path ++ [e.1])) (d.spots key) = d.spots key := by
          rw [waysTo, if_neg (by simp), List.dropLast_concat]
          exact Spots.way_of_node hd
        rw [Overwrite.runAll_append, hways] at hone
        have hoff : ¬ path ++ [e.1] <+: path := fun hle => by
          have hlen := hle.length_le
          simp only [List.length_append, List.length_singleton] at hlen
          omega
        rw [overwritesFields, Overwrite.runAll_append, ← hone]
        refine ihg (fun e he => hg e (by simp [he])) _ ?_
        rw [hone, overwrites_off _ _ _ _ hoff, hd]
    have hrun : run ts .trust key (.obj fs) kind path d =
        out.andThen (runFields ts .trust key fs path) := by rw [run, hout]
    rw [hrun, overwrites, if_pos hput, ← hspots]
    rw [← hspots] at hnode
    refine (hfields fs (fun _ h => h) out.doc hnode).trans ?_
    exact congrArg (Overwrite.runAll _) (Spots.make_of_node hnode).symm

/-- Docs that hold the same at each place go on doing so. -/
theorem run_trust_congr {ts' : ℕ} (value : Value) : ∀ (kind : Kind) (path : Path) (d d' : Doc sh),
    fixedParent sh key path = false → d.spots key = d'.spots key →
    (run ts .trust key value kind path d).doc.spots key =
      (run ts' .trust key value kind path d').doc.spots key := by
  induction value using Value.merging_induction with
  | leaf v hv =>
    intro kind path d d' hfixed hd
    have hput : settledKind sh key path kind v ≠ .put := by cases kind <;> simp [settledKind, hv]
    have hd := congrArg (Overwrite.runAll (waysTo path)) hd
    rcases @step_trust sh key ts path hfixed v kind d _ rfl with ⟨-, -, -, h, -⟩ | ⟨out, hout, hspots, -⟩
    · exact absurd h hput
    rcases @step_trust sh key ts' path hfixed v kind d' _ hd.symm with
      ⟨-, -, -, h, -⟩ | ⟨out', hout', hspots', -⟩
    · exact absurd h hput
    rw [run_of_done hout, run_of_done hout', hspots, hspots']
  | fields fs ih =>
    intro kind path d d' hfixed hd
    have hfields : ∀ gs : List (String × Value), (∀ e ∈ gs, e ∈ fs) →
        sh.isRegister key path = false → ∀ d d' : Doc sh, d.spots key = d'.spots key →
        (runFields ts .trust key gs path d).doc.spots key =
          (runFields ts' .trust key gs path d').doc.spots key := by
      intro gs hg hreg
      induction gs with
      | nil => exact fun d d' hd => hd
      | cons e gs ihg =>
        intro d d' hd
        refine ihg (fun e he => hg e (by simp [he])) _ _ ?_
        exact ih e (hg e (by simp)) _ _ d d' (by simp [fixedParent, hreg]) hd
    have hd := congrArg (Overwrite.runAll (waysTo path)) hd
    rcases @step_trust sh key ts path hfixed (.obj fs) kind d _ rfl with
      ⟨out, hout, hspots, hput, hnode⟩ | ⟨out, hout, hspots, hnode⟩ <;>
    rcases @step_trust sh key ts' path hfixed (.obj fs) kind d' _ hd.symm with
      ⟨out', hout', hspots', hput', hnode'⟩ | ⟨out', hout', hspots', hnode'⟩
    · have hrun : run ts .trust key (.obj fs) kind path d =
          out.andThen (runFields ts .trust key fs path) := by rw [run, hout]
      have hrun' : run ts' .trust key (.obj fs) kind path d' =
          out'.andThen (runFields ts' .trust key fs path) := by rw [run, hout']
      rw [hrun, hrun']
      exact hfields fs (fun _ h => h) (isRegister_of_put hput) _ _ (hspots.trans hspots'.symm)
    · exact absurd hnode (hnode' hput)
    · exact absurd hnode' (hnode hput')
    · rw [run_of_done hout, run_of_done hout', hspots, hspots']

/-- A change finds containers all the way, if its place does. -/
theorem findAll_overwrites (value : Value) : ∀ (kind : Kind) (path : Path) {t : Spots String Leaf},
    t.Leads path → Overwrite.FindAll (overwrites sh key value kind path) t := by
  induction value using Value.merging_induction with
  | leaf v hv =>
    intro kind path t ht
    rw [overwrites_of_not_put (by cases kind <;> simp [settledKind, hv])]
    exact ⟨ht, trivial⟩
  | fields fs ih =>
    intro kind path t ht
    by_cases hput : settledKind sh key path kind (.obj fs) = .put
    swap
    · rw [overwrites_of_not_put hput]
      exact ⟨ht, trivial⟩
    have hfields : ∀ gs : List (String × Value), (∀ e ∈ gs, e ∈ fs) → ∀ t : Spots String Leaf,
        t.Solid path → Overwrite.FindAll (overwritesFields sh key gs path) t := by
      intro gs hg
      induction gs with
      | nil => exact fun t _ => trivial
      | cons e gs ihg =>
        intro t hsolid
        rw [overwritesFields, Overwrite.findAll_append]
        refine ⟨ih e (hg e (by simp)) _ _ fun p hp hne => ?_, ihg (fun e he => hg e (by simp [he])) _ ?_⟩
        · exact hsolid p ((List.prefix_concat_iff.mp hp).resolve_left hne)
        · intro p hp
          have hoff : ¬ path ++ [e.1] <+: p := fun hle => by
            have hlen := (hle.trans hp).length_le
            simp only [List.length_append, List.length_singleton] at hlen
            omega
          rw [overwrites_off _ _ _ _ hoff]
          exact hsolid p hp
    rw [overwrites, if_pos hput]
    exact ⟨ht, hfields fs (fun _ h => h) _ ht.make_solid⟩

namespace Change

/-- What a change writes of a record. -/
def overwrites (sh : Shape) (key : RecordKey) (ch : Change) : List (Overwrite String Leaf) :=
  if sh.recordKey ch.c ch.id = key then
    waysTo ch.path ++ Core.overwrites sh key ch.write.value ch.write.kind ch.path
  else []

end Change

namespace Doc

/-- Whether an array stands above a path. -/
def throughArray (d : Doc sh) (key : RecordKey) (path : Path) : Bool :=
  path ≠ [] && path.dropLast.inits.any fun q =>
    match (d.get key).bind (valueAt · q) with
    | some (.arr _) => true
    | _ => false

/-- A container whose way leads through no array has containers all the way. -/
theorem ObjAt.solid {d : Doc sh} {path : Path} (hpath : path ≠ []) (h : d.ObjAt key path.dropLast)
    (harray : d.throughArray key path = false) : (d.spots key).Solid path.dropLast := by
  simp only [throughArray, hpath, ne_eq, not_false_eq_true, decide_true, Bool.true_and] at harray
  intro q hq
  obtain ⟨e, fs, he, hv⟩ := h
  obtain ⟨r, hr⟩ := hq
  have hget : d.get key = some e.data := by simp [Doc.get, he]
  rw [← hr, valueAt_append] at hv
  obtain ⟨w, hw, hv⟩ := Option.bind_eq_some_iff.mp hv
  have hnot := List.any_eq_false.mp harray q ((List.mem_inits _ _).mpr ⟨r, hr⟩)
  rw [hget, Option.bind_some, hw] at hnot
  unfold spots
  rw [hget, Value.spots_eq_node, Option.bind_some, hw]
  cases w with
  | obj gs => exact ⟨gs, rfl⟩
  | arr items => simp at hnot
  | _ => cases r <;> simp [valueAt_cons, Value.prop] at hv

end Doc

/-- Whether changes are stored as they are merged and write inside no array, each trusted in its
turn. -/
def repeatable (ts : ℕ) : List Change → Doc sh → Bool
  | [], _ => true
  | change :: changes, d =>
    let key := sh.recordKey change.c change.id
    mergeable sh key change.write.value change.path && !d.throughArray key change.path &&
      match apply ts .trust change d with
      | .ok out => repeatable ts changes out.doc
      | .error _ => true

/-- The other records are left. -/
theorem run_trust_off {other : RecordKey} (hkey : key ≠ other) (value : Value) (kind : Kind) (path : Path)
    (d : Doc sh) : (run ts .trust other value kind path d).doc.spots key = d.spots key := by
  have hspared : Spared .trust key d (run ts .trust other value kind path d).doc :=
    run_spares hkey _ _ _ _
  have hsame := hspared.resolve_right fun h => absurd h.1 (by decide)
  simp only [Doc.spots, Doc.get, hsame]

/-- One trusted change: the record it names is written over, the others are left. -/
theorem apply_trust {change : Change} {d : Doc sh} {out : Outcome sh}
    (hfixed : fixedParent sh (sh.recordKey change.c change.id) change.path = false)
    (hmerge : mergeable sh (sh.recordKey change.c change.id) change.write.value change.path = true)
    (h : apply ts .trust change d = .ok out) :
    out.doc.spots key = Overwrite.runAll (change.overwrites sh key) (d.spots key) := by
  obtain ⟨-, rfl⟩ := of_apply h
  unfold Change.overwrites
  split_ifs with hkey
  · subst hkey
    exact run_trust _ _ _ d hfixed (.inr hmerge)
  · have hspared : Spared .trust key d (run ts .trust (sh.recordKey change.c change.id)
        change.write.value change.write.kind change.path d).doc := run_spares (Ne.symm hkey) _ _ _ _
    have hsame := hspared.resolve_right fun h => absurd h.1 (by decide)
    simp only [Doc.spots, Doc.get, hsame]
    rfl

/-- A change that found its parent, off arrays, finds containers all the way. -/
theorem findAll_change {change : Change} {d : Doc sh}
    (hclear : d.Clear .trust (sh.recordKey change.c change.id) change.path)
    (harray : d.throughArray (sh.recordKey change.c change.id) change.path = false) :
    Overwrite.FindAll (change.overwrites sh key) (d.spots key) := by
  unfold Change.overwrites
  split_ifs with hkey
  swap
  · trivial
  subst hkey
  rw [Overwrite.findAll_append]
  by_cases hpath : change.path = []
  · rw [waysTo, if_pos hpath]
    refine ⟨trivial, findAll_overwrites _ _ _ fun p hp hne => ?_⟩
    rw [hpath] at hp hne
    exact absurd (List.prefix_nil.mp hp) hne
  obtain ⟨e, he, hparent⟩ := hclear (by decide) hpath
  obtain ⟨hobj, -⟩ := Bool.and_eq_true_iff.mp hparent
  obtain ⟨v, hv, hobj⟩ := (Option.any_eq_true _ _).mp hobj
  obtain ⟨fs, rfl⟩ := Value.isObj_iff.mp hobj
  have hsolid := Doc.ObjAt.solid hpath ⟨e, fs, he, hv⟩ harray
  have hways : Overwrite.runAll (waysTo change.path) (d.spots (sh.recordKey change.c change.id)) =
      d.spots (sh.recordKey change.c change.id) := by
    rw [waysTo, if_neg hpath]
    exact Spots.way_of_node (hsolid _ List.prefix_rfl)
  rw [hways]
  refine ⟨?_, findAll_overwrites _ _ _ fun p hp hne => ?_⟩
  · rw [waysTo, if_neg hpath]
    exact ⟨hsolid, trivial⟩
  · rw [← List.dropLast_append_getLast hpath] at hp hne
    exact hsolid p ((List.prefix_concat_iff.mp hp).resolve_left hne)

theorem fixedParent_of_clear {d : Doc sh} {path : Path} (h : d.Clear .trust key path) :
    fixedParent sh key path = false := by
  by_cases hpath : path = []
  · simp [fixedParent, hpath]
  · obtain ⟨e, -, hparent⟩ := h (by decide) hpath
    obtain ⟨-, hfree⟩ := Bool.and_eq_true_iff.mp hparent
    rwa [Bool.not_eq_true'] at hfree

/-- Whether a change is taken does not depend on the doc. -/
theorem apply_trust_ok (ts' : ℕ) {change : Change} {d : Doc sh} {out : Outcome sh}
    (h : apply ts .trust change d = .ok out) (d' : Doc sh) :
    ∃ out', apply ts' .trust change d' = .ok out' := by
  unfold apply at h ⊢
  dsimp only at h ⊢
  split_ifs at h ⊢
  exact ⟨_, rfl⟩

/-- What trusted changes write of a record; off arrays, each finds containers all the way. -/
theorem applyAll_trust {changes : List Change} {d : Doc sh} {out : Outcome sh}
    (hlands : Lands ts changes d) (hrepeat : repeatable ts changes d = true)
    (h : applyAll ts .trust changes d = .ok out) :
    Overwrite.FindAll (changes.flatMap (·.overwrites sh key)) (d.spots key) ∧
      ∀ (ts' : ℕ) (d' : Doc sh), ∃ out', applyAll ts' .trust changes d' = .ok out' ∧
        out'.doc.spots key =
          Overwrite.runAll (changes.flatMap (·.overwrites sh key)) (d'.spots key) := by
  induction changes generalizing d out with
  | nil => exact ⟨trivial, fun _ d' => ⟨_, rfl, rfl⟩⟩
  | cons change changes ih =>
    obtain ⟨o, m, ho, hm, rfl⟩ := of_applyAll_cons h
    simp only [repeatable, ho, Bool.and_eq_true, Bool.not_eq_true'] at hrepeat
    obtain ⟨⟨hmerge, harray⟩, hrest⟩ := hrepeat
    have hfixed := fixedParent_of_clear hlands.1
    obtain ⟨hfind, hall⟩ := ih (hlands.2 o ho) hrest hm
    rw [List.flatMap_cons]
    refine ⟨?_, fun ts' d' => ?_⟩
    · rw [Overwrite.findAll_append, ← apply_trust hfixed hmerge ho]
      exact ⟨findAll_change hlands.1 harray, hfind⟩
    · obtain ⟨o', ho'⟩ := apply_trust_ok ts' ho d'
      obtain ⟨m', hm', hspots⟩ := hall ts' o'.doc
      refine ⟨_, applyAll_cons ho' hm', ?_⟩
      rw [Overwrite.runAll_append, ← apply_trust hfixed hmerge ho']
      exact hspots

/-- Trusted changes that find their parents leave docs alike that were. -/
theorem applyAll_equals {changes : List Change} {d d' : Doc sh} {out : Outcome sh}
    (hlands : Lands ts changes d) (hd : d.Equals d') (h : applyAll ts .trust changes d = .ok out) :
    ∃ out', applyAll ts .trust changes d' = .ok out' ∧ out.doc.Equals out'.doc := by
  induction changes generalizing d d' out with
  | nil =>
    cases h
    exact ⟨_, rfl, hd⟩
  | cons change changes ih =>
    obtain ⟨o, m, ho, hm, rfl⟩ := of_applyAll_cons h
    obtain ⟨o', ho'⟩ := apply_trust_ok ts ho d'
    have hone : o.doc.Equals o'.doc := by
      obtain ⟨-, rfl⟩ := of_apply ho
      obtain ⟨-, rfl⟩ := of_apply ho'
      intro key
      by_cases hkey : key = sh.recordKey change.c change.id
      · subst hkey
        exact run_trust_congr _ _ _ d d' (fixedParent_of_clear hlands.1) (hd _)
      · rw [run_trust_off hkey, run_trust_off hkey, hd key]
    obtain ⟨m', hm', hend⟩ := ih (hlands.2 o ho) hone hm
    exact ⟨_, applyAll_cons ho' hm', hend⟩

end LazyStorage.Core
