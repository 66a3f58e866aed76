import LazyStorage.Core.Doc

/-! # The rule that decides every change

`run` decides one change at a time `ts`. What it does to a record is worked out
on the record's entry alone (`arrive`, `settle`); `step` puts the entry back,
keeps the child index and reports. A put that meets a container is merged in,
key by key, which is the only recursion.
-/
namespace LazyStorage.Core

open Lib

/-- How a change is decided: a replica's op by every rule, the server's own write without checks,
a patch from upstream as it is, a client's pending ops over its base, or with no checks at all. -/
inductive Mode
  | judge
  | authority
  | trust
  | replay
  | optimistic
deriving DecidableEq

namespace Mode

def judging (mode : Mode) : Bool := mode = judge || mode = replay

def checks (mode : Mode) : Bool := mode = judge

def makes (mode : Mode) : Bool := mode = authority || mode = trust

/-- Whether a deletion takes the children with it. -/
def cascades (mode : Mode) : Bool := mode = judge || mode = authority

end Mode

inductive Kind
  | put
  | set
  | del
deriving DecidableEq

namespace Write

def kind : Write → Kind
  | .put _ => .put
  | .set _ => .set
  | .del => .del

/-- The value written; null stands for the absent value of a deletion. -/
def value : Write → Value
  | .put v => v
  | .set v => v
  | .del => .null

end Write

/-- The kind a change has where it writes: an object is put unless a register, and anything else
is set. -/
def settledKind (sh : Shape) (key : RecordKey) (path : Path) (kind : Kind) (value : Value) : Kind :=
  match kind with
  | .del => .del
  | _ => if value.isObj && !sh.isRegister key path then .put else .set

/-- A whole write as it is reported, by its settled kind. -/
def wholeWrite (kind : Kind) (value : Value) : Write :=
  if kind = .put then .put value else .set value

/-- A change decided, or a put still to be merged in key by key. -/
inductive Step (sh : Shape)
  | done (out : Outcome sh)
  | merge (out : Outcome sh)

def Step.outcome {sh : Shape} : Step sh → Outcome sh
  | .done out => out
  | .merge out => out

/-- What a change does to the entry of its record. -/
inductive Ruling
  | lose
  | skip
  | merge
  | land (e : Entry) (write : Write)

namespace Entry

/-- Whether the change is older than the birth of a container above its path. -/
def stale (e : Entry) (path : Path) (ts : ℕ) : Bool :=
  (List.range path.length).any (fun i => newer (e.clock.liveAt (path.take i)) ts)

/-- Whether the path's parent is there, a container that is no register. -/
def hasParent (sh : Shape) (key : RecordKey) (path : Path) (e : Entry) : Bool :=
  (valueAt e.data path.dropLast).any Value.isObj &&
    !(!path.dropLast.isEmpty && sh.isRegister key path.dropLast)

/-- What is missing on the way to a parent, made. -/
def makeWay (ts : ℕ) (parentPath : Path) (e : Entry) : Entry :=
  let e := if e.data.isObj then e else ⟨.obj [], .born ts⟩
  { data := makeContainers parentPath e.data
    clock := (containersMade [] parentPath e.data).foldl (fun c p => c.makeContainer p ts) e.clock }

/-- The entry once the change has got to its parent, or why it does not. -/
def arrive (sh : Shape) (mode : Mode) (ts : ℕ) (key : RecordKey) (path : Path) (e : Entry) :
    Except Why Entry :=
  if mode.judging && e.stale path ts then .error .stale
  else if e.hasParent sh key path then .ok e
  else if mode.makes then .ok (e.makeWay ts path.dropLast)
  else .error .missing

/-- What is at a path whose parent is a container. -/
def current (e : Entry) (path : Path) : Option Value :=
  ((valueAt e.data path.dropLast).bind Value.fields?).bind (Assoc.get · (path.getLastD ""))

/-- `parent[last] = value` -/
def place (e : Entry) (path : Path) (value : Value) : Value :=
  modifyAt (Value.setField (path.getLastD "") value) path.dropLast e.data

/-- A value put where nothing is. -/
def fresh (sh : Shape) (mode : Mode) (ts : ℕ) (key : RecordKey) (path : Path) (value : Value)
    (e : Entry) : Ruling :=
  if mode.judging && newer (e.clock.gone.get path) ts then .lose
  else .land ⟨e.place path value,
    Clock.stampInside sh key ts value path (e.clock.dropBeneath path true false)⟩ (.put value)

/-- Whether what is at a path, a container when `container`, or was deleted there, is newer. -/
def outlives (ts : ℕ) (path : Path) (container : Bool) (e : Entry) : Bool :=
  newer (e.clock.liveAt path) ts || newer (e.clock.gone.get path) ts ||
    (container && e.clock.newerBeneath path ts)

/-- A value set over what is at a path. -/
def overwrite (mode : Mode) (ts : ℕ) (path : Path) (value : Value) (e : Entry) : Ruling :=
  let container := (e.current path).any Value.isObj
  if mode.judging && e.outlives ts path container then .lose
  else .land ⟨e.place path value,
    (e.clock.dropBeneath path true container).setLive path ts⟩ (.set value)

/-- What is at a path, deleted. -/
def delete (mode : Mode) (ts : ℕ) (path : Path) (current : Value) (e : Entry) : Ruling :=
  if mode.judging && (newer (e.clock.liveAt path) ts ||
      (current.isObj && e.clock.newerBeneath path ts)) then .lose
  else .land ⟨modifyAt (Value.eraseField (path.getLastD "")) path.dropLast e.data,
    (e.clock.dropBeneath path true current.isObj).setGone path ts⟩ .del

/-- The change at its place, the parent being there. -/
def settle (sh : Shape) (mode : Mode) (ts : ℕ) (key : RecordKey) (path : Path) (kind : Kind)
    (value : Value) (e : Entry) : Ruling :=
  match kind, e.current path with
  | .put, none => e.fresh sh mode ts key path value
  | .put, some (.obj _) => .merge
  | .put, some _ => e.overwrite mode ts path value
  | .set, _ => e.overwrite mode ts path value
  | .del, none => .skip
  | .del, some current => e.delete mode ts path current

end Entry

variable {sh : Shape}

/-- A record written whole, at `ts`. -/
def writeWhole (ts : ℕ) (key : RecordKey) (value : Value) (write : Write) (d : Doc sh) :
    Outcome sh :=
  ⟨(d.write key ⟨value, .born ts⟩).relink key, [⟨key.1, key.2, [], write⟩], []⟩

/-- A record made, written whole, or replaced by an object where it held a plain value. -/
def writeRoot (ts : ℕ) (mode : Mode) (key : RecordKey) (value : Value) (kind : Kind)
    (d : Doc sh) : Outcome sh :=
  let record := d.records.get key
  if mode.judging && record.any (fun e => (ts : ℤ) < e.clock.maxOf) then
    (Outcome.nothing d).lose key [] .newer
  else if mode.checks && record.isNone &&
      value.fields?.any (fun fs => d.orphaned key.1 fs) then
    (Outcome.nothing d).lose key [] .missing
  else writeWhole ts key value (wholeWrite kind value) d

/-- A record deleted, where it is there. -/
def deleteRoot (ts : ℕ) (mode : Mode) (key : RecordKey) (d : Doc sh) : Outcome sh :=
  if (d.records.get key).isNone then .nothing d
  else if mode.judging && (ts : ℤ) < d.subtreeMax key then
    (Outcome.nothing d).lose key [] .newer
  else d.removeRecord mode.cascades d.records.size key

/-- A change to the record itself: deleted, merged in, or written whole. -/
def atRoot (ts : ℕ) (mode : Mode) (key : RecordKey) (value : Value) (kind : Kind)
    (d : Doc sh) : Step sh :=
  match kind with
  | .del => .done (deleteRoot ts mode key d)
  | .set => .done (writeRoot ts mode key value kind d)
  | .put =>
    if (d.get key).any Value.isObj then .merge (.nothing d)
    else .done (writeRoot ts mode key value kind d)

/-- Whether the change writes a link field that names a parent that is not there. -/
def strands (mode : Mode) (key : RecordKey) (value : Value) (kind : Kind) (path : Path)
    (d : Doc sh) : Bool :=
  mode.checks && kind ≠ .del && path.length = 1 &&
    d.orphaned key.1 [(path.getLastD "", value)]

/-- A change that landed: the entry put back, the child index kept, the change reported. -/
def landed (key : RecordKey) (path : Path) (e : Entry) (write : Write) (out : Outcome sh) :
    Outcome sh :=
  let d := out.doc.write key e
  ({ out with doc := if path.length = 1 then d.relink key else d }).report key path write

/-- A change inside a record that is there. -/
def within (ts : ℕ) (mode : Mode) (key : RecordKey) (value : Value) (kind : Kind)
    (path : Path) (e : Entry) (out : Outcome sh) : Step sh :=
  match e.arrive sh mode ts key path with
  | .error why => .done (out.lose key path why)
  | .ok e =>
    -- containers made on the way stay made, whatever becomes of the change
    let out := { out with doc := out.doc.write key e }
    if strands mode key value kind path out.doc then .done (out.lose key path .missing) else
      match e.settle sh mode ts key path kind value with
      | .lose => .done (out.lose key path .newer)
      | .skip => .done out
      | .merge => .merge out
      | .land e write => .done (landed key path e write out)

/-- One change, up to the keys of a put that is merged in. -/
def step (ts : ℕ) (mode : Mode) (key : RecordKey) (value : Value) (kind : Kind)
    (path : Path) (d : Doc sh) : Step sh :=
  let kind := settledKind sh key path kind value
  let d := d.note key
  if path.isEmpty then atRoot ts mode key value kind d else
  match d.records.get key with
  | some e => within ts mode key value kind path e (.nothing d)
  | none =>
    if mode.makes then
      let e : Entry := ⟨.obj [], .born ts⟩
      within ts mode key value kind path e
        ((Outcome.nothing (d.write key e)).report key [] (.put (.obj [])))
    else .done ((Outcome.nothing d).lose key path .missing)

mutual

/-- Decide one change to the record `key`. -/
def run (ts : ℕ) (mode : Mode) (key : RecordKey) :
    Value → Kind → Path → Doc sh → Outcome sh
  | .obj fs, kind, path, d =>
    match step ts mode key (.obj fs) kind path d with
    | .done out => out
    | .merge out => out.andThen (runFields ts mode key fs path)
  | value, kind, path, d => (step ts mode key value kind path d).outcome

def runFields (ts : ℕ) (mode : Mode) (key : RecordKey) :
    List (String × Value) → Path → Doc sh → Outcome sh
  | [], _, d => .nothing d
  | (k, v) :: fs, path, d =>
    (run ts mode key v (changeFor v).kind (path ++ [k]) d).andThen
      (runFields ts mode key fs path)

end

/-- A singleton has no deletion. -/
def singletonKept (c : String) : ModelError :=
  ⟨"\"" ++ c ++ "\" is a singleton, and cannot be deleted", [c]⟩

/-- Decide one change at time `ts`. -/
def apply (ts : ℕ) (mode : Mode) (change : Change) (d : Doc sh) :
    Except ModelError (Outcome sh) :=
  let key := sh.recordKey change.c change.id
  if change.path.isEmpty && change.write = .del && sh.isSingleton change.c then
    .error (singletonKept change.c)
  else .ok (run ts mode key change.write.value change.write.kind change.path d)

/-- Decide changes one after the other. -/
def applyAll (ts : ℕ) (mode : Mode) : List Change → Doc sh → Except ModelError (Outcome sh)
  | [], d => .ok (.nothing d)
  | change :: changes, d => do
    let out ← apply ts mode change d
    let more ← applyAll ts mode changes out.doc
    return ⟨more.doc, out.applied ++ more.applied, out.lost ++ more.lost⟩

theorem applyAll_cons {ts : ℕ} {mode : Mode} {change : Change} {changes : List Change}
    {d : Doc sh} {out more : Outcome sh} (h : apply ts mode change d = .ok out)
    (hmore : applyAll ts mode changes out.doc = .ok more) :
    applyAll ts mode (change :: changes) d =
      .ok ⟨more.doc, out.applied ++ more.applied, out.lost ++ more.lost⟩ := by
  simp [applyAll, h, hmore, bind, Except.bind, pure, Except.pure]

theorem of_applyAll_cons {ts : ℕ} {mode : Mode} {change : Change} {changes : List Change}
    {d : Doc sh} {all : Outcome sh} (h : applyAll ts mode (change :: changes) d = .ok all) :
    ∃ out more, apply ts mode change d = .ok out ∧ applyAll ts mode changes out.doc = .ok more ∧
      all = ⟨more.doc, out.applied ++ more.applied, out.lost ++ more.lost⟩ := by
  simp only [applyAll, bind, Except.bind, pure, Except.pure] at h
  split at h
  · cases h
  · next out hout =>
    split at h
    · cases h
    · next more hmore => exact ⟨out, more, hout, hmore, (Except.ok.inj h).symm⟩

theorem applyAll_one {ts : ℕ} {mode : Mode} {change : Change} {d : Doc sh} {out : Outcome sh}
    (h : apply ts mode change d = .ok out) : applyAll ts mode [change] d = .ok out := by
  have hnil : applyAll ts mode [] out.doc = .ok (.nothing out.doc) := rfl
  rw [applyAll_cons h hnil]
  simp [Outcome.nothing]

theorem applyAll_append {ts : ℕ} {mode : Mode} {as bs : List Change} {d : Doc sh}
    {out more : Outcome sh} (h : applyAll ts mode as d = .ok out)
    (hmore : applyAll ts mode bs out.doc = .ok more) :
    applyAll ts mode (as ++ bs) d =
      .ok ⟨more.doc, out.applied ++ more.applied, out.lost ++ more.lost⟩ := by
  induction as generalizing d out with
  | nil =>
    cases h
    exact hmore
  | cons change as ih =>
    obtain ⟨o, m, ho, hm, rfl⟩ := of_applyAll_cons h
    rw [List.cons_append, applyAll_cons ho (ih hm hmore)]
    simp

end LazyStorage.Core
