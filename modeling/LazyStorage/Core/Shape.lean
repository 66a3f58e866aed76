import LazyStorage.Core.Value

/-! # What a store holds, and the check every change passes

The top level is fixed: collections of records by id, and singletons, one
record each. Registers are paths written whole, with `*` for any one segment;
`parentsOf` names the fields by which a child's record names its parent's.
-/
namespace LazyStorage.Core

/-- A record's key: collection and id, or a singleton's name alone. -/
abbrev RecordKey := String × Option String

/-- A field of a child collection that names a record of a parent collection. -/
structure Link where
  field : String
  parent : String
deriving DecidableEq

/-- A shape as it is once declared. `forbidden` are the keys no path may hold: the prototype
machinery and the state library's wire markers. -/
structure Shape where
  collections : List String
  singletons : List String
  initial : String → Value
  registers : List Path
  parentsOf : String → List Link
  forbidden : String → Bool
  disjoint : ∀ c ∈ collections, c ∉ singletons
  linked : ∀ c, ∀ l ∈ parentsOf c, c ∈ collections ∧ l.parent ∈ collections

structure ModelError where
  message : String
  path : Path
deriving DecidableEq

/-- What a change writes. -/
inductive Write
  | put (value : Value)
  | set (value : Value)
  | del
deriving DecidableEq

structure Change where
  c : String
  id : Option String
  path : Path
  write : Write
deriving DecidableEq

/-- The kind of change a value makes at a path: null deletes, an object is put, anything else
set. -/
def changeFor : Value → Write
  | .null => .del
  | .obj fs => .put (.obj fs)
  | v => .set v

/-- Stop with a `ModelError` where `bad` holds. -/
def refuse (bad : Bool) (message : String) (path : Path) : Except ModelError Unit :=
  if bad then .error ⟨message, path⟩ else .ok ()

theorem refuse_bind_eq_ok {α : Type} {bad : Bool} {m : String} {p : Path}
    {k : Except ModelError α} {a : α} :
    (refuse bad m p >>= fun _ => k) = .ok a ↔ bad = false ∧ k = .ok a := by
  cases bad <;> simp [refuse, bind, Except.bind]

theorem refuse_eq_ok {bad : Bool} {m : String} {p : Path} :
    refuse bad m p = .ok () ↔ bad = false := by
  cases bad <;> simp [refuse]

/-- Whether a register pattern has the path's length and matches it segment by segment. -/
def matchesPattern : Path → Path → Bool
  | [], [] => true
  | seg :: pattern, at_ :: path => (seg = "*" || seg = at_) && matchesPattern pattern path
  | _, _ => false

namespace Shape

variable (sh : Shape)

def isCollection (c : String) : Bool := sh.collections.contains c

def isSingleton (c : String) : Bool := sh.singletons.contains c

def has (c : String) : Bool := sh.isCollection c || sh.isSingleton c

/-- One key per record: the collection and id, or the singleton's name. -/
def recordKey (c : String) (id : Option String) : RecordKey :=
  if sh.isSingleton c then (c, none) else (c, id)

/-- The path from the store's root. -/
def full (key : RecordKey) (path : Path) : Path := key.1 :: (key.2.toList ++ path)

/-- Whether the path in a record is a register, or the record itself is one. -/
def isRegister (key : RecordKey) (path : Path) : Bool :=
  sh.registers.any (matchesPattern · (full key path))

/-- Whether anything above the path is a register, which makes the path part of a leaf. -/
def underRegister (key : RecordKey) (path : Path) : Bool :=
  (List.range path.length).any (fun i => sh.isRegister key (path.take i))

mutual

/-- Refuse a forbidden key anywhere inside a value. -/
def assertValue : Value → Path → Except ModelError Unit
  | .arr items, path => assertItems items path 0
  | .obj fs, path => assertFields fs path
  | _, _ => .ok ()

def assertItems : List Value → Path → ℕ → Except ModelError Unit
  | [], _, _ => .ok ()
  | v :: vs, path, i => do
    assertValue v (path ++ [toString i])
    assertItems vs path (i + 1)

def assertFields : List (String × Value) → Path → Except ModelError Unit
  | [], _ => .ok ()
  | (k, v) :: fs, path => do
    refuse (sh.forbidden k)
      ("\"" ++ "/".intercalate (path ++ [k]) ++ "\" uses the reserved name \"" ++ k ++ "\"")
      (path ++ [k])
    assertValue v (path ++ [k])
    assertFields fs path

end

/-- Check one change: a known top-level key, an id for a collection's record and none for a
singleton's, a path of safe segments outside registers, and a value its kind can write. -/
def assertChange (change : Change) : Except ModelError Unit := do
  let c := change.c
  let key := sh.recordKey c change.id
  let full := full key change.path
  let at_ := "\"" ++ "/".intercalate full ++ "\""
  refuse (!sh.has c) ("\"" ++ c ++ "\" is not a collection or singleton of this store") [c]
  refuse (sh.isCollection c && (change.id.all (fun id => id = "" || sh.forbidden id)))
    ("A record of \"" ++ c ++ "\" needs an id") [c]
  refuse (!sh.isCollection c && change.id.isSome)
    ("\"" ++ c ++ "\" is a singleton: a change to it has no id") [c]
  refuse (change.path.any sh.forbidden) "A change's path is an array of keys" [c]
  refuse (sh.underRegister key change.path)
    (at_ ++ " is inside a register, which is written whole") full
  match change.write with
  | .del =>
    refuse (change.path.isEmpty && sh.isSingleton c)
      ("\"" ++ c ++ "\" is a singleton, and cannot be deleted") full
  | .put value => do
    sh.assertValue value full
    refuse (!value.isObj) ("A put writes an object at " ++ at_) full
  | .set value => do
    sh.assertValue value full
    refuse (change.path.isEmpty && sh.isCollection c && !value.isObj && !sh.isRegister key [])
      ("A record of \"" ++ c ++ "\" is an object") full

variable {sh}

theorem isSingleton_iff {c : String} : sh.isSingleton c = true ↔ c ∈ sh.singletons := by
  simp [isSingleton]

theorem isCollection_iff {c : String} : sh.isCollection c = true ↔ c ∈ sh.collections := by
  simp [isCollection]

theorem not_isSingleton {c : String} (h : sh.isCollection c = true) :
    sh.isSingleton c = false := by
  by_contra hs
  exact sh.disjoint c (isCollection_iff.mp h) (isSingleton_iff.mp (by simpa using hs))

theorem parentsOf_singleton {c : String} (h : sh.isSingleton c = true) : sh.parentsOf c = [] := by
  by_contra hne
  obtain ⟨l, hl⟩ := List.exists_mem_of_ne_nil _ hne
  exact sh.disjoint c (sh.linked c l hl).1 (isSingleton_iff.mp h)

/-- What an accepted change promises the merge. -/
structure Accepts (sh : Shape) (change : Change) : Prop where
  known : sh.has change.c = true
  ident : change.id.isSome = sh.isCollection change.c
  keeps : change.write = .del → change.path = [] → sh.isSingleton change.c = false
  isObj : ∀ value, change.write = .put value → value.isObj = true
  free : sh.underRegister (sh.recordKey change.c change.id) change.path = false

theorem accepts_of_assertChange {change : Change} (h : sh.assertChange change = .ok ()) :
    Accepts sh change := by
  simp only [assertChange, refuse_bind_eq_ok] at h
  obtain ⟨hc, hid, hs, -, hfree, h⟩ := h
  refine ⟨by simpa using hc, ?_, fun hw hp => ?_, fun v hw => ?_, hfree⟩
  · cases hcol : sh.isCollection change.c <;> cases hi : change.id <;> simp_all
  · rw [hw] at h
    simpa [hp] using refuse_eq_ok.mp h
  · rw [hw] at h
    cases hv : sh.assertValue v (full (sh.recordKey change.c change.id) change.path) with
    | error e => simp [hv, bind, Except.bind] at h
    | ok _ =>
      simp only [hv, bind, Except.bind] at h
      simpa using refuse_eq_ok.mp h

theorem recordKey_eq {change : Change} (h : Accepts sh change) :
    sh.recordKey change.c change.id = (change.c, change.id) := by
  rw [recordKey]
  split_ifs with hs
  · have hcol : sh.isCollection change.c = false := by
      by_contra hcol
      rw [not_isSingleton (by simpa using hcol)] at hs
      exact absurd hs (by simp)
    have := h.ident
    rw [hcol, Option.isSome_eq_false_iff, Option.isNone_iff_eq_none] at this
    rw [this]
  · rfl

end Shape

/-- A board, for examples: tasks, comments that belong to a task, and a title. -/
def board : Shape where
  collections := ["tasks", "comments"]
  singletons := ["title"]
  initial := fun c => if c = "title" then .str "" else .obj []
  registers := []
  parentsOf := fun c => if c = "comments" then [⟨"task", "tasks"⟩] else []
  forbidden := fun key => ["__proto__", "constructor", "prototype"].contains key
  disjoint := by simp
  linked := by
    intro c l hl
    split_ifs at hl with hc <;> simp_all

end LazyStorage.Core
