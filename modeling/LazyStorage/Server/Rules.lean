import LazyStorage.Core.Merge

/-! # Who may write what

A rule per collection or singleton judges a record before and after an op. What
is refused outright is refused before anything is applied; otherwise the op is
applied as a trial, the rules judge what it made of each record, and a refusal
puts back every record it touched.
-/
namespace LazyStorage.Server

open Lib LazyStorage.Core

/-- What a rule or a validator answers: yes, no, or an error thrown with its message. -/
inductive Verdict
  | yes
  | no
  | thrown (message : String)

/-- A rule: refuse, allow, or ask about the record before and after. -/
inductive Rule (sh : Shape) (U : Type)
  | refuse
  | allow
  | ask (judge : (user : Option U) → (before after : Option Value) → RecordKey → Doc sh →
      (replica : String) → List Change → Verdict)

structure Rules (sh : Shape) (U : Type) where
  readOnly : Bool
  byKey : List (String × Rule sh U)

namespace Rules

variable {sh : Shape} {U : Type} (rules : Rules sh U)

def ruleOn (c : String) : Rule sh U :=
  if rules.readOnly then .refuse
  else ((Assoc.get rules.byKey c).or (Assoc.get rules.byKey "*")).getD .allow

instance lawfulRecordKey : LawfulBEq RecordKey := inferInstance

/-- The records a list of changes names, in the order they are first named. -/
def recordsOf (list : List Change) : List RecordKey :=
  list.foldl (fun keys ch =>
    let key := sh.recordKey ch.c ch.id
    if key ∈ keys then keys else keys ++ [key]) []

/-- The first record no op may write. -/
def locked (keys : List RecordKey) : Option RecordKey :=
  keys.find? fun key =>
    match rules.ruleOn key.1 with
    | .refuse => true
    | _ => false

def named (key : RecordKey) : String :=
  match key.2 with
  | none => key.1
  | some id => key.1 ++ "/" ++ id

/-- Why the rules refuse what an op made of a record, if they do. -/
def refusal (list : List Change) (user : Option U) (replica : String)
    (was : RecordKey → Option Value) (d : Doc sh) (key : RecordKey) : Option String :=
  match rules.ruleOn key.1 with
  | .ask judge =>
    match judge user (was key) (d.get key) key d replica
        (list.filter fun ch => sh.recordKey ch.c ch.id = key) with
    | .yes => none
    | .no => some ("Not allowed to write " ++ named key)
    | .thrown message => some (if message = "" then "Not allowed to write " ++ key.1 else message)
  | _ => none

/-- The rules that ask: the records they have to be asked about. -/
def asked (keys : List RecordKey) : List RecordKey :=
  keys.filter fun key =>
    match rules.ruleOn key.1 with
    | .ask _ => true
    | _ => false

/-- Apply an op and judge what it made; a refusal leaves every record as it was. `apply` refuses
before it has changed anything. -/
def judge (d : Doc sh) (list : List Change) (user : Option U) (replica : String)
    (apply : Doc sh → Except String (Outcome sh)) :
    Doc sh × Except String (List Change × List Lost) :=
  let plain := match apply d with
    | .ok out => (out.doc, .ok (out.applied, out.lost))
    | .error message => (d, .error message)
  if !rules.readOnly && rules.byKey.isEmpty then plain else
  let keys := @recordsOf sh list
  match rules.locked keys with
  | some key => (d, .error (key.1 ++ " is the server's to write"))
  | none =>
    if (rules.asked keys).isEmpty then plain else
    match apply { d with journal := some .empty } with
    | .error message => (d, .error message)
    | .ok out =>
      let before := out.doc.journal.getD .empty
      let made := { out.doc with journal := none }
      let was := fun key => match before.get key with
        | some e => e.map Entry.data
        | none => made.get key
      match (rules.asked keys).findSome? (rules.refusal list user replica was made) with
      | some message => (made.undo before, .error message)
      | none => (made, .ok (out.applied, out.lost))

end Rules

end LazyStorage.Server
