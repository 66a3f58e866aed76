import LazyStorage.Core.RecordClock
import LazyStorage.Lib.Search

/-! # A store's state and its records' clocks

Each record is kept with its clock, so a record that is deleted leaves neither.
Beside them stands the child index: children by parent, kept up to date as link
fields are written. While a trial runs, the journal holds each record as it was
before the trial first touched it.
-/
namespace LazyStorage.Core

open Lib

structure Entry where
  data : Value
  clock : Clock

/-- Children by parent and parents by child. Only records of child collections are listed. -/
structure ChildIndex (sh : Shape) where
  children : OrderedMap RecordKey (List RecordKey)
  parentsOfChild : OrderedMap RecordKey (List RecordKey)
  linked : ∀ parent kids, children.get parent = some kids → ∀ k ∈ kids, sh.parentsOf k.1 ≠ []

structure Doc (sh : Shape) where
  records : OrderedMap RecordKey Entry
  index : ChildIndex sh
  journal : Option (OrderedMap RecordKey (Option Entry))

/-- A change that lost, with why. -/
inductive Why
  | missing
  | newer
  | stale
deriving DecidableEq

structure Lost where
  c : String
  id : Option String
  path : Path
  why : Why
deriving DecidableEq

/-- What deciding changes leaves: the doc, the changes as they landed, and the losers. -/
structure Outcome (sh : Shape) where
  doc : Doc sh
  applied : List Change
  lost : List Lost

namespace Outcome

variable {sh : Shape}

def nothing (d : Doc sh) : Outcome sh := ⟨d, [], []⟩

/-- Go on from an outcome, its reports first. -/
def andThen (out : Outcome sh) (next : Doc sh → Outcome sh) : Outcome sh :=
  let more := next out.doc
  ⟨more.doc, out.applied ++ more.applied, out.lost ++ more.lost⟩

def lose (out : Outcome sh) (key : RecordKey) (path : Path) (why : Why) : Outcome sh :=
  { out with lost := out.lost ++ [⟨key.1, key.2, path, why⟩] }

def report (out : Outcome sh) (key : RecordKey) (path : Path) (write : Write) : Outcome sh :=
  { out with applied := out.applied ++ [⟨key.1, key.2, path, write⟩] }

end Outcome

namespace ChildIndex

variable {sh : Shape}

def empty : ChildIndex sh := ⟨.empty, .empty, by simp⟩

/-- A child taken from under a parent. -/
def take (key : RecordKey) (m : OrderedMap RecordKey (List RecordKey)) (parent : RecordKey) :
    OrderedMap RecordKey (List RecordKey) :=
  match m.get parent with
  | some kids => m.set parent (kids.filter (· ≠ key))
  | none => m

/-- A child added under a parent. -/
def add (key : RecordKey) (m : OrderedMap RecordKey (List RecordKey)) (parent : RecordKey) :
    OrderedMap RecordKey (List RecordKey) :=
  let kids := (m.get parent).getD []
  m.set parent (if key ∈ kids then kids else kids ++ [key])

theorem mem_take {key parent p k : RecordKey} {m : OrderedMap RecordKey (List RecordKey)} :
    k ∈ ((take key m parent).get p).getD [] ↔
      k ∈ (m.get p).getD [] ∧ (p = parent → k ≠ key) := by
  unfold take
  split
  · next kids h =>
    rw [OrderedMap.get_set]
    by_cases hp : parent = p
    · subst hp; simp [h]
    · simp [hp, Ne.symm hp]
  · next h =>
    by_cases hp : p = parent
    · subst hp; simp [h]
    · simp [hp]

theorem mem_add {key parent p k : RecordKey} {m : OrderedMap RecordKey (List RecordKey)} :
    k ∈ ((add key m parent).get p).getD [] ↔
      k ∈ (m.get p).getD [] ∨ (p = parent ∧ k = key) := by
  unfold add
  rw [OrderedMap.get_set]
  by_cases hp : parent = p
  · subst hp
    by_cases hk : key ∈ (m.get parent).getD []
    · simp only [if_true, hk, Option.getD_some, true_and]
      exact ⟨Or.inl, fun h => h.elim id (fun h => h ▸ hk)⟩
    · simp [hk]
  · simp [hp, Ne.symm hp]

theorem mem_foldl_take {key p k : RecordKey} (parents : List RecordKey)
    {m : OrderedMap RecordKey (List RecordKey)} :
    k ∈ ((parents.foldl (take key) m).get p).getD [] ↔
      k ∈ (m.get p).getD [] ∧ (p ∈ parents → k ≠ key) := by
  induction parents generalizing m with
  | nil => simp
  | cons q parents ih =>
    rw [List.foldl_cons, ih, mem_take, List.mem_cons]
    grind

theorem mem_foldl_add {key p k : RecordKey} (parents : List RecordKey)
    {m : OrderedMap RecordKey (List RecordKey)} :
    k ∈ ((parents.foldl (add key) m).get p).getD [] ↔
      k ∈ (m.get p).getD [] ∨ (p ∈ parents ∧ k = key) := by
  induction parents generalizing m with
  | nil => simp
  | cons q parents ih =>
    rw [List.foldl_cons, ih, mem_add, List.mem_cons]
    grind

/-- A child listed under these parents now, and no others. -/
def update (index : ChildIndex sh) (key : RecordKey) (parents : List RecordKey)
    (h : sh.parentsOf key.1 ≠ []) : ChildIndex sh where
  children :=
    parents.foldl (add key) (((index.parentsOfChild.get key).getD []).foldl (take key) index.children)
  parentsOfChild :=
    if parents.isEmpty then index.parentsOfChild.erase key
    else (index.parentsOfChild.erase key).set key parents
  linked := by
    intro p kids hp k hk
    have hmem : k ∈ ((parents.foldl (add key) (((index.parentsOfChild.get key).getD []).foldl
        (take key) index.children)).get p).getD [] := by simpa [hp] using hk
    rw [mem_foldl_add, mem_foldl_take] at hmem
    rcases hmem with ⟨hmem, -⟩ | ⟨-, rfl⟩
    · cases hg : index.children.get p with
      | none => simp [hg] at hmem
      | some ks => exact index.linked p ks hg k (by simpa [hg] using hmem)
    · exact h

/-- The records beneath one, through `parents`. -/
def childrenOf (index : ChildIndex sh) (key : RecordKey) : List RecordKey :=
  ((index.children.get key).getD []).filter (index.parentsOfChild.has ·)

theorem parentsOf_of_mem_childrenOf {index : ChildIndex sh} {key k : RecordKey}
    (h : k ∈ index.childrenOf key) : sh.parentsOf k.1 ≠ [] := by
  have hk := List.mem_of_mem_filter h
  cases hg : index.children.get key with
  | none => simp [hg] at hk
  | some ks => exact index.linked key ks hg k (by simpa [hg] using hk)

end ChildIndex

namespace Doc

variable {sh : Shape}

def get (d : Doc sh) (key : RecordKey) : Option Value := (d.records.get key).map Entry.data

/-- A record's clock, as stored: an absent one is empty. -/
def clockOf (d : Doc sh) (key : RecordKey) : Clock := ((d.records.get key).map Entry.clock).getD .new

def write (d : Doc sh) (key : RecordKey) (e : Entry) : Doc sh := { d with records := d.records.set key e }

def drop (d : Doc sh) (key : RecordKey) : Doc sh := { d with records := d.records.erase key }

/-- The records of the parents a child's link fields name. -/
def namedParents (d : Doc sh) (key : RecordKey) : List RecordKey :=
  match (d.get key).bind Value.fields? with
  | none => []
  | some fs =>
    ((sh.parentsOf key.1).filterMap fun link =>
      match Assoc.get fs link.field with
      | some (.str id) => some (sh.recordKey link.parent (some id))
      | _ => none).reverse.dedup.reverse

/-- Bring the child index up to date for one record of a child collection. -/
def relink (d : Doc sh) (key : RecordKey) : Doc sh :=
  if h : sh.parentsOf key.1 = [] then d
  else { d with index := d.index.update key (d.namedParents key) h }

/-- The records beneath one, through `parents`. -/
def childrenOf (d : Doc sh) (key : RecordKey) : List RecordKey := d.index.childrenOf key

/-- A record as it is before a trial first touches it. -/
def note (d : Doc sh) (key : RecordKey) : Doc sh :=
  match d.journal with
  | none => d
  | some before =>
    if before.has key then d else { d with journal := some (before.set key (d.records.get key)) }

/-- A record and every record beneath it, each once. -/
def subtree (d : Doc sh) (key : RecordKey) : List RecordKey :=
  Search.visit d.childrenOf (d.index.parentsOfChild.size + 1) [] key

/-- The newest time in a record and every record beneath it. -/
def subtreeMax (d : Doc sh) (key : RecordKey) : ℤ :=
  (d.subtree key).foldl (fun m k => max m (d.clockOf k).maxOf) (-1)

/-- A record and, with `cascade`, every record beneath it: deleted, each said as a change. A
record deleted is not there any more, so none is deleted twice; the fuel is the records there
are. -/
def removeRecord (cascade : Bool) : ℕ → RecordKey → Doc sh → Outcome sh
  | 0, _, d => .nothing d
  | fuel + 1, key, d =>
    if (d.get key).isNone then .nothing d else
    let kids := if cascade then d.childrenOf key else []
    let out : Outcome sh := ⟨((d.note key).drop key).relink key, [⟨key.1, key.2, [], .del⟩], []⟩
    kids.foldl (fun out kid => out.andThen (removeRecord cascade fuel kid)) out

/-- Whether fields of a child collection name a parent that is not there. -/
def orphaned (d : Doc sh) (c : String) (fields : List (String × Value)) : Bool :=
  (sh.parentsOf c).any fun link =>
    match Assoc.get fields link.field with
    | some (.str id) => (d.get (sh.recordKey link.parent (some id))).isNone
    | _ => false

/-- Put a record back as given, deciding nothing. A singleton without data is its initial value. -/
def setRecord (d : Doc sh) (key : RecordKey) (e : Option Entry) : Doc sh :=
  match e with
  | some e => (d.write key e).relink key
  | none =>
    if sh.isSingleton key.1 then (d.write key ⟨sh.initial key.1, .new⟩).relink key
    else (d.drop key).relink key

/-- Run `fn`, and say what every record it touched was before. -/
def trial {α : Type} (d : Doc sh) (fn : Doc sh → Doc sh × α) :
    Doc sh × α × OrderedMap RecordKey (Option Entry) :=
  let r := fn { d with journal := some .empty }
  ({ r.1 with journal := none }, r.2, r.1.journal.getD .empty)

/-- Put back what a trial touched. -/
def undo (d : Doc sh) (before : OrderedMap RecordKey (Option Entry)) : Doc sh :=
  before.entries.foldl (fun d e => d.setRecord e.1 e.2) d

/-- The newest time in any record, -1 for none. -/
def latest (d : Doc sh) : ℤ :=
  d.records.values.foldl (fun (m : ℤ) e => max m e.clock.maxOf) (-1)

/-- The records, collections first, as the shape lists them. -/
def keysOf (d : Doc sh) : List RecordKey :=
  (sh.collections ++ sh.singletons).flatMap fun c => d.records.keys.filter (·.1 = c)

/-- Forget what is older than `cutoff` in every clock. -/
def prune (cutoff : ℤ) (d : Doc sh) : Doc sh :=
  { d with records := d.records.mapVal fun _ e => ⟨e.data, e.clock.prune cutoff⟩ }

/-- The records a prune touches. -/
def prunes (cutoff : ℤ) (d : Doc sh) : List RecordKey :=
  d.keysOf.filter fun key =>
    let clock := d.clockOf key
    let old : Option ℕ → Bool := fun t => t.any fun t : ℕ => (t : ℤ) < cutoff
    clock.gone.values.any (old ∘ some) || old clock.birth ||
      ((clock.birth.isNone || old clock.birth) && clock.live.values.any (old ∘ some))

/-- A doc of records that are there, its child index built from them. -/
def ofRecords (sh : Shape) (records : OrderedMap RecordKey Entry) : Doc sh :=
  let d : Doc sh := ⟨records, .empty, none⟩
  d.keysOf.foldl (fun d key => d.relink key) d

/-- A doc from stored records: what the shape does not know is left out, and a singleton with no
record is its initial value. -/
def load (sh : Shape) (stored : List (RecordKey × Entry)) : Doc sh :=
  let singles := sh.singletons.foldl
    (fun (m : OrderedMap RecordKey Entry) c => m.set (c, none) ⟨sh.initial c, .new⟩) .empty
  ofRecords sh <| stored.foldl (fun m r =>
    if (sh.isCollection r.1.1 && r.1.2.isSome) || sh.isSingleton r.1.1 then
      m.set (sh.recordKey r.1.1 r.1.2) r.2
    else m) singles

variable (d : Doc sh)

@[simp] theorem get_note (key k : RecordKey) : (d.note key).records.get k = d.records.get k := by
  unfold note
  split
  · rfl
  · split_ifs <;> rfl

@[simp] theorem records_note (key : RecordKey) : (d.note key).records = d.records := by
  unfold note
  split
  · rfl
  · split_ifs <;> rfl

@[simp] theorem index_note (key : RecordKey) : (d.note key).index = d.index := by
  unfold note
  split
  · rfl
  · split_ifs <;> rfl

@[simp] theorem records_relink (key : RecordKey) : (d.relink key).records = d.records := by
  unfold relink
  split_ifs <;> rfl

@[simp] theorem records_write (key : RecordKey) (e : Entry) :
    (d.write key e).records = d.records.set key e := rfl

@[simp] theorem records_drop (key : RecordKey) : (d.drop key).records = d.records.erase key := rfl

end Doc

end LazyStorage.Core
