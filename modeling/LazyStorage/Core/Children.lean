import LazyStorage.Core.Deeds
import Mathlib.Data.List.Dedup

/-! # The child index follows the records

The index lists a child under the parents it was last linked to. A step that
makes nothing on its way either links the record it touches again, or leaves
alone the fields by which it names its parents; so an index that lists every
child, or lists exactly the children, goes on doing so.
-/
namespace LazyStorage.Core

open Lib

variable {sh : Shape} {ts : ℕ} {mode : Mode} {key : RecordKey}

namespace ChildIndex

variable {index : ChildIndex sh}

/-- The parents a child is listed under. -/
def parents (index : ChildIndex sh) (k : RecordKey) : List RecordKey :=
  (index.parentsOfChild.get k).getD []

/-- Children by parent and parents by child say the same. -/
def Paired (index : ChildIndex sh) : Prop :=
  ∀ p k, k ∈ (index.children.get p).getD [] ↔ p ∈ index.parents k

theorem paired_empty : (empty : ChildIndex sh).Paired := by
  intro p k
  simp [empty, parents]

theorem Paired.mem_childrenOf (h : index.Paired) {p k : RecordKey} :
    k ∈ index.childrenOf p ↔ p ∈ index.parents k := by
  simp only [childrenOf, List.mem_filter, h p k, OrderedMap.has, and_iff_left_iff_imp]
  intro hp
  unfold parents at hp
  cases hg : index.parentsOfChild.get k with
  | none => simp [hg] at hp
  | some ps => rfl

/-- A listed record is of a child collection. -/
theorem Paired.linked (h : index.Paired) {k p : RecordKey} (hp : p ∈ index.parents k) :
    sh.parentsOf k.1 ≠ [] :=
  parentsOf_of_mem_childrenOf (h.mem_childrenOf.mpr hp)

theorem parents_update (k : RecordKey) (ps : List RecordKey) (h : sh.parentsOf key.1 ≠ []) :
    (index.update key ps h).parents k = if k = key then ps else index.parents k := by
  unfold parents update
  dsimp only
  by_cases hk : k = key
  · subst hk
    cases ps <;> simp
  · split_ifs
    · rw [OrderedMap.get_erase_of_ne _ (Ne.symm hk)]
    · rw [OrderedMap.get_set_of_ne _ _ (Ne.symm hk), OrderedMap.get_erase_of_ne _ (Ne.symm hk)]

theorem Paired.update (hp : index.Paired) (ps : List RecordKey) (h : sh.parentsOf key.1 ≠ []) :
    (index.update key ps h).Paired := by
  intro p k
  rw [parents_update]
  have hchildren : (index.update key ps h).children =
      ps.foldl (add key) ((index.parents key).foldl (take key) index.children) := rfl
  rw [hchildren, mem_foldl_add, mem_foldl_take, hp p k]
  by_cases hk : k = key
  · subst hk
    rw [if_pos rfl]
    tauto
  · rw [if_neg hk]
    tauto

end ChildIndex

namespace Doc

variable {d d' : Doc sh}

/-- Every record is listed under the parents it names. -/
structure Listed (d : Doc sh) : Prop where
  paired : d.index.Paired
  listed : ∀ k, ∀ p ∈ d.namedParents k, p ∈ d.index.parents k

/-- Every record is listed under the parents it names, and no other. -/
structure Indexed (d : Doc sh) : Prop where
  paired : d.index.Paired
  exact : ∀ k p, p ∈ d.index.parents k ↔ p ∈ d.namedParents k

/-- The index lists no record that is not there. -/
structure Tended (d : Doc sh) : Prop where
  paired : d.index.Paired
  there : ∀ k, ∀ p ∈ d.index.parents k, (d.get k).isSome = true

theorem Indexed.listed (h : d.Indexed) : d.Listed := ⟨h.paired, fun k p => (h.exact k p).mpr⟩

theorem Indexed.mem_childrenOf (h : d.Indexed) {p k : RecordKey} :
    k ∈ d.childrenOf p ↔ p ∈ d.namedParents k :=
  h.paired.mem_childrenOf.trans (h.exact k p)

theorem Listed.mem_childrenOf (h : d.Listed) {p k : RecordKey} (hp : p ∈ d.namedParents k) :
    k ∈ d.childrenOf p :=
  h.paired.mem_childrenOf.mpr (h.listed k p hp)

/-- The index keeps up from one doc to another: each record was linked again, or is listed under
the parents it was, names those it named and, if children are listed in its collection, has not
gone. -/
structure Follows (d d' : Doc sh) : Prop where
  paired : d.index.Paired → d'.index.Paired
  linked : ∀ k, d'.index.parents k = d'.namedParents k ∨
    (d'.index.parents k = d.index.parents k ∧ d'.namedParents k = d.namedParents k ∧
      (sh.parentsOf k.1 ≠ [] → (d.get k).isSome = true → (d'.get k).isSome = true))

theorem Follows.refl (d : Doc sh) : Follows d d := ⟨id, fun _ => .inr ⟨rfl, rfl, fun _ => id⟩⟩

theorem Follows.trans {x y z : Doc sh} (h : Follows x y) (h' : Follows y z) : Follows x z where
  paired := h'.paired ∘ h.paired
  linked k := by
    rcases h'.linked k with hz | ⟨hp, hn, hstay⟩
    · exact .inl hz
    · rw [hp, hn]
      rcases h.linked k with hy | ⟨hp', hn', hstay'⟩
      · exact .inl hy
      · exact .inr ⟨hp', hn', fun hc => hstay hc ∘ hstay' hc⟩

theorem Follows.listed (h : Follows d d') (hd : d.Listed) : d'.Listed where
  paired := h.paired hd.paired
  listed k p hp := by
    rcases h.linked k with hk | ⟨hl, hn, -⟩
    · rwa [hk]
    · rw [hl]
      exact hd.listed k p (hn ▸ hp)

theorem Follows.indexed (h : Follows d d') (hd : d.Indexed) : d'.Indexed where
  paired := h.paired hd.paired
  exact k p := by
    rcases h.linked k with hk | ⟨hl, hn, -⟩
    · rw [hk]
    · rw [hl, hn]
      exact hd.exact k p

theorem isSome_of_namedParents {k p : RecordKey} (h : p ∈ d.namedParents k) :
    (d.get k).isSome = true := by
  unfold namedParents at h
  cases hk : d.get k with
  | none => simp [hk] at h
  | some v => rfl

theorem Indexed.tended (h : d.Indexed) : d.Tended :=
  ⟨h.paired, fun k p hp => isSome_of_namedParents ((h.exact k p).mp hp)⟩

theorem Follows.tended (h : Follows d d') (hd : d.Tended) : d'.Tended where
  paired := h.paired hd.paired
  there k p hp := by
    rcases h.linked k with hk | ⟨hl, -, hstay⟩
    · exact isSome_of_namedParents (hk ▸ hp)
    · rw [hl] at hp
      exact hstay (hd.paired.linked hp) (hd.there k p hp)

theorem namedParents_congr {k : RecordKey} (h : d.get k = d'.get k) :
    d.namedParents k = d'.namedParents k := by
  simp only [namedParents, h]

theorem namedParents_of_parentsOf {k : RecordKey} (h : sh.parentsOf k.1 = []) :
    d.namedParents k = [] := by
  unfold namedParents
  split <;> simp [h]

theorem recordKey_parent {c : String} {link : Link} (h : link ∈ sh.parentsOf c) (id : String) :
    sh.recordKey link.parent (some id) = (link.parent, some id) := by
  have hs := Shape.not_isSingleton (Shape.isCollection_iff.mpr (sh.linked c link h).2)
  simp [Shape.recordKey, hs]

theorem mem_namedParents {k p : RecordKey} : p ∈ d.namedParents k ↔
    ∃ fs, d.get k = some (.obj fs) ∧ ∃ link ∈ sh.parentsOf k.1, ∃ id,
      Assoc.get fs link.field = some (.str id) ∧ p = (link.parent, some id) := by
  unfold namedParents
  cases hk : d.get k with
  | none => simp
  | some v =>
    cases hv : v.fields? with
    | none =>
      have : ∀ fs, v ≠ .obj fs := by
        rintro fs rfl
        cases hv
      simp [hv, this]
    | some fs =>
      obtain rfl := Value.fields?_eq_some.mp hv
      simp only [Option.bind_some, Value.fields?, List.mem_reverse, List.mem_dedup,
        List.mem_filterMap, Option.some.injEq, Value.obj.injEq, exists_eq_left']
      refine exists_congr fun link => and_congr_right fun hlink => ?_
      cases hf : Assoc.get fs link.field with
      | none => simp
      | some x => cases x <;> simp [recordKey_parent hlink, eq_comm]

/-- A record changed and linked again. -/
theorem follows_relink (hindex : d'.index = d.index) (hget : ∀ k, k ≠ key → d'.get k = d.get k) :
    Follows d (d'.relink key) := by
  have hnamed : ∀ k, (d'.relink key).namedParents k = d'.namedParents k := fun k =>
    namedParents_congr (by simp [get])
  have hother : ∀ k, k ≠ key → d'.namedParents k = d.namedParents k := fun k hk =>
    namedParents_congr (hget k hk)
  unfold relink at hnamed ⊢
  split_ifs at hnamed ⊢ with hparents
  · refine ⟨fun h => hindex ▸ h, fun k => .inr ⟨by rw [hindex], ?_, fun hc => ?_⟩⟩
    · by_cases hk : k = key
      · rw [hk, namedParents_of_parentsOf hparents, namedParents_of_parentsOf hparents]
      · exact hother k hk
    · rw [hget k fun hk => hc (hk ▸ hparents)]
      exact id
  · refine ⟨fun h => (hindex ▸ h : d'.index.Paired).update _ hparents, fun k => ?_⟩
    rw [ChildIndex.parents_update, hnamed k, hindex]
    split_ifs with hk
    · exact .inl (by rw [hk])
    · refine .inr ⟨rfl, hother k hk, fun _ => ?_⟩
      change (d.get k).isSome = true → (d'.get k).isSome = true
      rw [hget k hk]
      exact id

theorem follows_note (d : Doc sh) (k : RecordKey) : Follows d (d.note k) :=
  ⟨fun h => by simpa using h, fun x => .inr ⟨by simp, namedParents_congr (by simp [get]),
    fun _ => by simp [get]⟩⟩

theorem follows_drop (d : Doc sh) (k : RecordKey) :
    Follows d (((d.note k).drop k).relink k) := by
  refine follows_relink (by simp [drop]) fun x hx => ?_
  simp [get, OrderedMap.get_erase, Ne.symm hx]

theorem follows_write (d : Doc sh) (k : RecordKey) (e : Entry) :
    Follows d ((d.write k e).relink k) := by
  refine follows_relink rfl fun x hx => ?_
  simp [get, OrderedMap.get_set, Ne.symm hx]

end Doc

/-- What dropping one record keeps, a cascade keeps. -/
theorem removeRecord_keeps {P : Doc sh → Prop}
    (hdrop : ∀ (d : Doc sh) (k : RecordKey), P d → (d.get k).isSome = true →
      P (((d.note k).drop k).relink k))
    (cascade : Bool) (fuel : ℕ) {d : Doc sh} (h : P d) (k : RecordKey) :
    P (d.removeRecord cascade fuel k).doc := by
  induction fuel generalizing d k with
  | zero => exact h
  | succ fuel ih =>
    by_cases hnone : (d.get k).isNone = true
    · simp only [Doc.removeRecord, hnone, if_true]
      exact h
    have hfirst := hdrop d k h (by simpa [Option.isSome_iff_ne_none] using hnone)
    have hfold : ∀ (kids : List RecordKey) (out : Outcome sh), P out.doc →
        P (kids.foldl (fun out kid => out.andThen (Doc.removeRecord cascade fuel kid)) out).doc := by
      intro kids
      induction kids with
      | nil => exact fun _ hout => hout
      | cons kid kids ihk => exact fun out hout => ihk _ (ih hout kid)
    simp only [Doc.removeRecord, hnone]
    exact hfold _ _ hfirst

/-- An edit deep in a record leaves the strings among its fields where they are. -/
theorem str_modifyAt {f : Value → Value} (hf : KeepsObj f) {path : Path} (hpath : path ≠ [])
    {fs : List (String × Value)} (hobj : (valueAt (.obj fs) path).any Value.isObj = true) :
    ∃ gs, modifyAt f path (.obj fs) = .obj gs ∧
      ∀ field s, Assoc.get gs field = some (.str s) ↔ Assoc.get fs field = some (.str s) := by
  obtain ⟨seg, rest, rfl⟩ := List.exists_cons_of_ne_nil hpath
  cases hseg : Assoc.get fs seg with
  | none => simp [valueAt_cons, Value.prop, hseg] at hobj
  | some child =>
    have hchild : ∀ s, child ≠ .str s := by
      rintro s rfl
      cases rest <;> simp [valueAt_cons, Value.prop, hseg, Value.isObj, Value.fields?] at hobj
    have hchild' : ∀ s, modifyAt f rest child ≠ .str s := by
      intro s
      cases rest with
      | nil =>
        simp only [valueAt_cons, Value.prop, hseg, Option.bind_some, valueAt_nil,
          Option.any_some] at hobj
        obtain ⟨cs, rfl⟩ := Value.isObj_iff.mp hobj
        obtain ⟨gs, hg⟩ := hf cs
        simp [modifyAt, hg]
      | cons seg' rest =>
        unfold modifyAt
        split
        · cases child <;> simp_all [Value.withProp, Value.prop]
          split <;> simp
        · exact hchild s
    refine ⟨Assoc.set fs seg (modifyAt f rest child), by simp [modifyAt, Value.prop, hseg,
      Value.withProp], fun field s => ?_⟩
    rw [Assoc.get_set]
    split_ifs with hs
    · subst hs
      simp only [Option.some.injEq, hseg]
      exact ⟨fun h => absurd h (hchild' s), fun h => absurd h (hchild s)⟩
    · rfl

/-- A way made leaves the strings among a record's fields, but for one in its way. -/
theorem str_makeWay (ts : ℕ) (e : Entry) (way : Path) :
    ∃ gs, (e.makeWay ts way).data = .obj gs ∧ ∀ field s, Assoc.get gs field = some (.str s) ↔
      (∃ fs, e.data = .obj fs ∧ Assoc.get fs field = some (.str s)) ∧ way.head? ≠ some field := by
  have hobj : ∀ fs : List (String × Value), ∃ gs, makeContainers way (.obj fs) = .obj gs ∧
      ∀ field s, Assoc.get gs field = some (.str s) ↔
        Assoc.get fs field = some (.str s) ∧ way.head? ≠ some field := by
    intro fs
    cases way with
    | nil => exact ⟨fs, rfl, by simp⟩
    | cons seg rest =>
      have hset : ∃ cs, makeContainers (seg :: rest) (.obj fs) = .obj (Assoc.set fs seg (.obj cs)) := by
        have hkeep : ∀ (p : Path) (cs : List (String × Value)),
            ∃ gs, makeContainers p (.obj cs) = .obj gs := by
          intro p cs
          cases p with
          | nil => exact ⟨cs, rfl⟩
          | cons seg p =>
            simp only [makeContainers, Value.fields?]
            split <;> exact ⟨_, rfl⟩
        simp only [makeContainers, Value.fields?]
        split
        · next child hc =>
          obtain ⟨-, hchild⟩ := Option.filter_eq_some_iff.mp hc
          obtain ⟨cs, rfl⟩ := Value.isObj_iff.mp hchild
          obtain ⟨gs, hg⟩ := hkeep rest cs
          exact ⟨gs, by rw [hg]⟩
        · obtain ⟨gs, hg⟩ := hkeep rest []
          exact ⟨gs, by rw [hg]⟩
      obtain ⟨cs, hcs⟩ := hset
      refine ⟨_, hcs, fun field s => ?_⟩
      rw [Assoc.get_set]
      by_cases hseg : seg = field <;> simp [hseg]
  obtain ⟨data, clock⟩ := e
  cases data with
  | obj fs =>
    obtain ⟨gs, hg, hstr⟩ := hobj fs
    exact ⟨gs, by simpa [Entry.makeWay] using hg, by simpa using hstr⟩
  | _ =>
    obtain ⟨gs, hg, hstr⟩ := hobj []
    exact ⟨gs, by simpa [Entry.makeWay, Value.isObj, Value.fields?] using hg,
      by simpa using hstr⟩

namespace Doc

variable {d d' : Doc sh}

/-- The parent of a path of more than one key lies below the record. -/
theorem dropLast_ne_nil {path : Path} (hpath : path ≠ []) (hlen : path.length ≠ 1) :
    path.dropLast ≠ [] := by
  intro h
  have hl := congrArg List.length h
  simp only [List.length_dropLast, List.length_nil] at hl
  have := List.length_pos_iff.mpr hpath
  omega

theorem fields_of_hasParent {e : Entry} {path : Path} (h : e.hasParent sh key path = true) :
    (valueAt e.data path.dropLast).any Value.isObj = true := by
  simp only [Entry.hasParent, Bool.and_eq_true] at h
  exact h.1

/-- A record with a container at a path below it, not stepping into an array at once, has fields. -/
theorem namedParents_edit {path : Path} {e e' : Entry} {f : Value → Value} (hf : KeepsObj f)
    (hbelow : path.dropLast ≠ []) (hobj : (valueAt e.data path.dropLast).any Value.isObj = true)
    (hdata : e'.data = modifyAt f path.dropLast e.data) (he : d.records.get key = some e) :
    (d.write key e').namedParents key = d.namedParents key := by
  have hget : d.get key = some e.data := by simp [get, he]
  have hget' : (d.write key e').get key = some e'.data := by simp [get]
  unfold namedParents
  rw [hget, hget', hdata]
  cases hd : e.data with
  | obj fs =>
    rw [hd] at hobj
    obtain ⟨gs, hg, hstr⟩ := str_modifyAt hf hbelow hobj
    rw [hg]
    simp only [Option.bind_some, Value.fields?]
    congr 4
    funext link
    have hs := hstr link.field
    split
    · next id hid => rw [(hs id).mp hid]
    · next hno =>
      split
      · next id hid => exact absurd ((hs id).mpr hid) (hno id)
      · rfl
  | arr items =>
    obtain ⟨seg, rest, hp⟩ := List.exists_cons_of_ne_nil hbelow
    rw [hp]
    have hfields : (modifyAt f (seg :: rest) (.arr items)).fields? = none := by
      unfold modifyAt
      split
      · simp only [Value.withProp]
        split <;> rfl
      · rfl
    rw [Option.bind_some, Option.bind_some, hfields]
    rfl
  | _ =>
    obtain ⟨seg, rest, hp⟩ := List.exists_cons_of_ne_nil hbelow
    simp [hd, hp, valueAt_cons, Value.prop] at hobj

theorem follows_edited {path : Path} {e e' : Entry} {f : Value → Value} (hf : KeepsObj f)
    (hpath : path ≠ []) (hobj : (valueAt e.data path.dropLast).any Value.isObj = true)
    (hdata : e'.data = modifyAt f path.dropLast e.data) (he : d.records.get key = some e) :
    Follows d (d.edited key path e') := by
  unfold edited
  split_ifs with hlen
  · exact follows_write d key e'
  · refine ⟨id, fun k => .inr ⟨rfl, ?_, fun _ => ?_⟩⟩
    · by_cases hk : k = key
      · rw [hk]
        exact namedParents_edit hf (dropLast_ne_nil hpath hlen) hobj hdata he
      · exact namedParents_congr (by simp [get, OrderedMap.get_set, Ne.symm hk])
    · simp only [get, records_write, OrderedMap.get_set]
      split_ifs <;> simp

end Doc

namespace Doc

theorem parents_relink (d : Doc sh) (k : RecordKey) (hparents : sh.parentsOf key.1 ≠ []) :
    (d.relink key).index.parents k =
      if k = key then d.namedParents key else d.index.parents k := by
  rw [relink, dif_neg hparents]
  exact ChildIndex.parents_update k _ hparents

/-- Records linked one after the other, over an index that lists nothing. -/
theorem indexed_foldl_relink {keys : List RecordKey} {d : Doc sh} (hpaired : d.index.Paired)
    (h : ∀ k, d.index.parents k = d.namedParents k ∨ (k ∈ keys ∧ d.index.parents k = [])) :
    (keys.foldl (fun d key => d.relink key) d).Indexed := by
  induction keys generalizing d with
  | nil =>
    refine ⟨hpaired, fun k p => ?_⟩
    rw [List.foldl_nil, (h k).resolve_right (by simp)]
  | cons key keys ih =>
    have hf : Follows d (d.relink key) := follows_relink rfl fun _ _ => rfl
    refine ih (hf.paired hpaired) fun k => ?_
    have hnamed : (d.relink key).namedParents k = d.namedParents k :=
      namedParents_congr (by simp [get])
    by_cases hparents : sh.parentsOf key.1 = []
    · have hsame : d.relink key = d := by rw [relink, dif_pos hparents]
      simp only [hsame]
      rcases h k with hk | ⟨hk, hnone⟩
      · exact .inl hk
      · rcases List.mem_cons.mp hk with rfl | hk
        · exact .inl (by rw [hnone, namedParents_of_parentsOf hparents])
        · exact .inr ⟨hk, hnone⟩
    · simp only [parents_relink d k hparents, hnamed]
      split_ifs with hkey
      · exact .inl (by rw [hkey])
      · rcases h k with hk | ⟨hk, hnone⟩
        · exact .inl hk
        · exact .inr ⟨(List.mem_cons.mp hk).resolve_left hkey, hnone⟩

theorem mem_keysOf {d : Doc sh} {k : RecordKey} :
    k ∈ d.keysOf ↔ sh.has k.1 = true ∧ (d.records.get k).isSome = true := by
  simp only [keysOf, List.mem_flatMap, List.mem_append, List.mem_filter, decide_eq_true_eq,
    OrderedMap.mem_keys, Shape.has, Bool.or_eq_true, Shape.isCollection_iff, Shape.isSingleton_iff]
  constructor
  · rintro ⟨c, hc, hk, rfl⟩
    exact ⟨hc, hk⟩
  · rintro ⟨hc, hk⟩
    exact ⟨k.1, hc, hk, rfl⟩

/-- A doc built from records lists exactly the children there are. -/
theorem indexed_ofRecords (records : OrderedMap RecordKey Entry) : (ofRecords sh records).Indexed := by
  refine indexed_foldl_relink ChildIndex.paired_empty fun k => ?_
  have hnone : (ChildIndex.empty : ChildIndex sh).parents k = [] := rfl
  by_cases hk : k ∈ keysOf (⟨records, .empty, none⟩ : Doc sh)
  · exact .inr ⟨hk, hnone⟩
  · left
    rw [hnone]
    symm
    by_cases hparents : sh.parentsOf k.1 = []
    · exact namedParents_of_parentsOf hparents
    have hhas : sh.has k.1 = true := by
      obtain ⟨l, hl⟩ := List.exists_mem_of_ne_nil _ hparents
      simp [Shape.has, Shape.isCollection_iff.mpr (sh.linked k.1 l hl).1]
    have habsent : records.get k = none := by
      by_contra hrec
      exact hk (mem_keysOf.mpr ⟨hhas, Option.isSome_iff_ne_none.mpr hrec⟩)
    simp [namedParents, get, habsent]

theorem indexed_load (stored : List (RecordKey × Entry)) : (load sh stored).Indexed :=
  indexed_ofRecords _

end Doc

/-- Whatever a step does, the index keeps up with it. -/
theorem Deed.follows {value : Value} {kind : Kind} {path : Path} {d d' : Doc sh}
    (h : Deed ts mode key value kind path d d') : d.Follows d' := by
  cases h with
  | nothing => exact .refl d
  | remove =>
    exact removeRecord_keeps (fun x k hx _ => hx.trans (x.follows_drop k)) _ _ (.refl d) key
  | whole => exact d.follows_write key _
  | inside hpath he hparent hedit hdata =>
    exact Doc.follows_edited hedit.keepsObj hpath (Doc.fields_of_hasParent hparent) hdata he

/-- So it does with a run that makes nothing on its way. -/
theorem run_follows (hkey : Normal sh key) (value : Value) (kind : Kind) (path : Path) (d : Doc sh)
    (hdel : path = [] → kind = .del → sh.isSingleton key.1 = false) (hclear : d.Clear mode key path) :
    d.Follows (run ts mode key value kind path d).doc := by
  have hone : ∀ {x d' : Doc sh} {value : Value} {kind : Kind} {path : Path}, d.Follows x →
      Deed ts mode key value kind path (x.note key) d' → d.Follows d' := fun hx hd =>
    (hx.trans (Doc.follows_note _ key)).trans hd.follows
  exact run_keeps (P := d.Follows) hkey (fun _ _ _ _ _ _ hx hd => hone hx hd) value kind path d
    (.refl d)
    hdel hclear fun _ _ hd => hone (.refl d) hd

end LazyStorage.Core
