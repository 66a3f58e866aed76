import LazyStorage.Lib.Runs
import LazyStorage.Server.Store
import Mathlib.Data.List.Flatten

/-! # What a store says, and when

What a store has to say waits until what is pending is stored, and goes out in
turn. Its calls come one at a time, but a message delivered runs the transport,
which may call the store again before the call under way is over: `stack` holds
what is under way, innermost first. A call of several parts (a change that lands,
a hello, `closeWith`, `session`, `dispose`, `snapshotJSON`) is those parts in
turn, whoever makes them and whatever happens between them.
-/
namespace LazyStorage.Server

open Lib

/-- A message: which of all that were made, and the changes it speaks of. -/
structure Message (C : Type) where
  made : ℕ
  about : List C

/-- What waits for a commit. `call` is a callback that says nothing. -/
inductive Effect (C : Type)
  | send (session : ℕ) (message : Message C)
  | farewell (session : ℕ) (message : Message C)
  | broadcast (upTo : ℕ) (message : Message C)
  | call

/-- What is under way: the effects that wait run one by one, or a broadcast that is `past` a session. -/
inductive Frame (C : Type)
  | drain (run : List (Effect C))
  | broadcast (past upTo : ℕ) (message : Message C)

/-- A session: its number, and whether it hears broadcasts. -/
structure Listener where
  number : ℕ
  follows : Bool

/-- A store's changes, what it has said and what it has to say. `memory` holds every change made. -/
structure Outbox (C : Type) where
  groupCommit : Bool
  memory : List C
  changes : List C
  stored : List C
  effects : List (Effect C)
  stack : List (Frame C)
  sessions : List Listener
  madeSessions : ℕ
  made : ℕ
  delivered : List (ℕ × Message C)
  served : List (List C)

/-- What happens to it. A `fault` is how much of what is pending a storage has stored when it throws.
`advance` goes on with what is under way. -/
inductive OutboxEvent (C : Type)
  | commit (change : C) (fault : Option ℕ)
  | commitNow (fault : Option ℕ)
  | send (session : ℕ) (speaks : Bool)
  | farewell (session : ℕ)
  | broadcast
  | call
  | join (follows : Bool)
  | follow (session : ℕ) (follows : Bool)
  | close (session : ℕ)
  | read
  | advance

namespace Outbox

variable {C : Type}

def create (groupCommit : Bool) : Outbox C := ⟨groupCommit, [], [], [], [], [], [], 0, 0, [], []⟩

/-- Whether the effects that waited are being run. -/
def draining (st : Outbox C) : Bool :=
  st.stack.any fun frame => match frame with
    | .drain _ => true
    | .broadcast .. => false

/-- Whether nothing is pending, waiting or being run: what is to be said is said at once. -/
def idle (st : Outbox C) : Bool := st.changes.isEmpty && st.effects.isEmpty && !st.draining

def has (st : Outbox C) (session : ℕ) : Bool := st.sessions.any (·.number = session)

/-- Store what is pending, then run what waited for it. A commit that fails drops what it would have
told; what then ends the sessions is calls of their own. -/
def commitNow (fault : Option ℕ) (st : Outbox C) : Outbox C :=
  match st.changes, fault with
  | _ :: _, some n => { st with
      stored := st.stored ++ st.changes.take n, changes := [], effects := [] }
  | _, _ =>
    let st := { st with stored := st.stored ++ st.changes, changes := [] }
    if st.draining || st.effects.isEmpty then st
    else { st with stack := .drain st.effects :: st.stack, effects := [] }

/-- A change made: stored with those of its turn, or at once. -/
def commit (change : C) (fault : Option ℕ) (st : Outbox C) : Outbox C :=
  let st := { st with memory := st.memory ++ [change], changes := st.changes ++ [change] }
  if st.groupCommit && st.changes.length < groupMax then st else st.commitNow fault

def deliver (session : ℕ) (message : Message C) (st : Outbox C) : Outbox C :=
  { st with delivered := st.delivered ++ [(session, message)] }

/-- Run an effect now, or once what is pending is stored. -/
def later (effect : Effect C) (st : Outbox C) : Outbox C :=
  if st.idle then
    match effect with
    | .send session message => st.deliver session message
    | .farewell session message => st.deliver session message
    | .broadcast upTo message => { st with stack := .broadcast 0 upTo message :: st.stack }
    | .call => st
  else { st with effects := st.effects ++ [effect] }

/-- A message of what memory holds, or of nothing. -/
def message (speaks : Bool) (st : Outbox C) : Message C := ⟨st.made, if speaks then st.memory else []⟩

/-- The next session a broadcast reaches, and what is said to it. -/
def broadcastOn (past upTo : ℕ) (message : Message C) (under : List (Frame C)) (st : Outbox C) :
    Outbox C :=
  match st.sessions.find? (past < ·.number) with
  | none => { st with stack := under }
  | some s =>
    if upTo < s.number then { st with stack := under } else
    let st := { st with stack := .broadcast s.number upTo message :: under }
    if s.follows then st.deliver s.number message else st

/-- The next effect of those being run; more may wait by the end. -/
def drainOn (run : List (Effect C)) (under : List (Frame C)) (st : Outbox C) : Outbox C :=
  match run with
  | .send session message :: run =>
    let st := { st with stack := .drain run :: under }
    -- a session closed meanwhile hears nothing more
    if st.has session then st.deliver session message else st
  | .farewell session message :: run => { st with stack := .drain run :: under }.deliver session message
  | .broadcast upTo message :: run =>
    { st with stack := .broadcast 0 upTo message :: .drain run :: under }
  | .call :: run => { st with stack := .drain run :: under }
  | [] =>
    if st.effects.isEmpty || !st.changes.isEmpty then { st with stack := under }
    else { st with stack := .drain st.effects :: under, effects := [] }

def step (e : OutboxEvent C) (st : Outbox C) : Option (Outbox C) :=
  match e with
  | .commit change fault => some (st.commit change fault)
  | .commitNow fault => some (st.commitNow fault)
  | .send session speaks =>
    if st.madeSessions < session then none else
    some { st.later (.send session (st.message speaks)) with made := st.made + 1 }
  | .farewell session =>
    if st.madeSessions < session then none else
    some { st.later (.farewell session (st.message false)) with made := st.made + 1 }
  | .broadcast =>
    if !st.sessions.any Listener.follows then some st else
    some { st.later (.broadcast st.madeSessions (st.message true)) with made := st.made + 1 }
  | .call => some (st.later .call)
  | .join follows => some { st with
      sessions := st.sessions ++ [⟨st.madeSessions + 1, follows⟩]
      madeSessions := st.madeSessions + 1 }
  | .follow session follows => some { st with
      sessions := st.sessions.map fun s => if s.number = session then { s with follows } else s }
  | .close session => some { st with sessions := st.sessions.filter (·.number ≠ session) }
  | .read => some { st with served := st.served ++ [st.memory] }
  | .advance =>
    match st.stack with
    | [] => none
    | .drain run :: under => some (st.drainOn run under)
    | .broadcast past upTo message :: under => some (st.broadcastOn past upTo message under)

/-- The messages a session was delivered, in turn. -/
def heard (st : Outbox C) (session : ℕ) : List ℕ :=
  (st.delivered.filter (·.1 = session)).map (·.2.made)

end Outbox

variable {C : Type}

/-- The message an effect is to say. -/
def Effect.message? : Effect C → Option (Message C)
  | .send _ message | .farewell _ message | .broadcast _ message => some message
  | .call => none

/-- What an effect is to say to a session, that is still there or not. -/
def Effect.idsFor (there : Bool) (session : ℕ) : Effect C → List ℕ
  | .send target message => if target = session ∧ there = true then [message.made] else []
  | .farewell target message => if target = session then [message.made] else []
  | .broadcast upTo message => if session ≤ upTo ∧ there = true then [message.made] else []
  | .call => []

def Frame.messages : Frame C → List (Message C)
  | .drain run => run.filterMap Effect.message?
  | .broadcast _ _ message => [message]

/-- What is still to be said to a session of what is under way. -/
def Frame.idsFor (there : Bool) (session : ℕ) : Frame C → List ℕ
  | .drain run => run.flatMap (Effect.idsFor there session)
  | .broadcast past upTo message =>
    if past < session ∧ session ≤ upTo ∧ there = true then [message.made] else []

namespace Outbox

variable {st st' : Outbox C}

/-- What is under way has still to say to a session. -/
def underWay (st : Outbox C) (session : ℕ) : List ℕ :=
  st.stack.flatMap (Frame.idsFor (st.has session) session)

/-- What is to be said to a session, in turn. -/
def pending (st : Outbox C) (session : ℕ) : List ℕ :=
  st.underWay session ++ st.effects.flatMap (Effect.idsFor (st.has session) session)

/-- Whether a commit begins to run what waited. -/
def Drains (fault : Option ℕ) (st : Outbox C) : Prop :=
  st.draining = false ∧ st.effects ≠ [] ∧ (st.changes = [] ∨ fault = none)

/-- No change is lost to a failed commit: what memory holds is stored, or is to be. -/
def Whole (st : Outbox C) : Prop := st.memory = st.stored ++ st.changes

/-- A store that has lost a change to a failed commit says nothing of what it holds, and what it holds
is read when nothing is pending; and while a broadcast goes out at once, nobody it has still to reach
is told anything at once, nor does what waited begin to run. -/
def Careful (e : OutboxEvent C) (st : Outbox C) : Prop :=
  match e with
  | .send session speaks =>
    (speaks = true → st.Whole) ∧ (st.idle = true → st.underWay session = [])
  | .farewell session => st.idle = true → st.underWay session = []
  | .broadcast => st.Whole ∧ (st.idle = true → ∀ session, st.underWay session = [])
  | .read => st.Whole ∧ st.changes = []
  | .commitNow fault => st.Drains fault → ∀ session, st.underWay session = []
  | .commit _ fault => (st.groupCommit && st.changes.length + 1 < groupMax) = false →
      st.draining = false → st.effects ≠ [] → fault = none → ∀ session, st.underWay session = []
  | _ => True

/-- What was said and read is stored; what is under way says what is stored, and what waits what is
pending besides. -/
structure Backed (st : Outbox C) : Prop where
  said : ∀ d ∈ st.delivered, d.2.about <+: st.stored
  read : ∀ doc ∈ st.served, doc <+: st.stored
  running : ∀ frame ∈ st.stack, ∀ m ∈ frame.messages, m.about <+: st.stored
  waiting : ∀ effect ∈ st.effects, ∀ m, effect.message? = some m → m.about <+: st.stored ++ st.changes

namespace Backed

theorem commitNow (h : st.Backed) (fault : Option ℕ) : (st.commitNow fault).Backed := by
  have hmono : ∀ {l more : List C}, l <+: st.stored → l <+: st.stored ++ more := fun hl =>
    hl.trans (List.prefix_append _ _)
  unfold Outbox.commitNow
  split
  · exact ⟨fun d hd => hmono (h.said d hd), fun doc hdoc => hmono (h.read doc hdoc),
      fun f hf m hm => hmono (h.running f hf m hm), by simp⟩
  · dsimp only
    split
    · exact ⟨fun d hd => hmono (h.said d hd), fun doc hdoc => hmono (h.read doc hdoc),
        fun f hf m hm => hmono (h.running f hf m hm), by simpa using h.waiting⟩
    · refine ⟨fun d hd => hmono (h.said d hd), fun doc hdoc => hmono (h.read doc hdoc), ?_, by simp⟩
      intro f hf m hm
      rcases List.mem_cons.mp hf with rfl | hf
      · obtain ⟨effect, heffect, hsome⟩ := List.mem_filterMap.mp hm
        exact h.waiting effect heffect m hsome
      · exact hmono (h.running f hf m hm)

theorem commit (h : st.Backed) (change : C) (fault : Option ℕ) : (st.commit change fault).Backed := by
  have hmade : ({ st with memory := st.memory ++ [change], changes := st.changes ++ [change] } :
      Outbox C).Backed :=
    ⟨h.said, h.read, h.running, fun effect heffect m hm =>
      (h.waiting effect heffect m hm).trans (by rw [← List.append_assoc]; exact List.prefix_append _ _)⟩
  unfold Outbox.commit
  dsimp only
  split
  · exact hmade
  · exact hmade.commitNow fault

theorem deliver (h : st.Backed) (session : ℕ) {m : Message C} (hm : m.about <+: st.stored) :
    (st.deliver session m).Backed := by
  refine ⟨fun d hd => ?_, h.read, h.running, h.waiting⟩
  rcases List.mem_append.mp hd with hd | hd
  · exact h.said d hd
  · rw [List.mem_singleton.mp hd]
    exact hm

/-- What memory holds, said, waits for all that is pending. -/
theorem later (h : st.Backed) {effect : Effect C}
    (hm : ∀ m, effect.message? = some m → m.about <+: st.stored ++ st.changes) :
    (st.later effect).Backed := by
  unfold Outbox.later
  split
  · next hidle =>
    have hnone : st.changes = [] := by
      simp only [idle, Bool.and_eq_true, List.isEmpty_iff] at hidle
      exact hidle.1.1
    rw [hnone, List.append_nil] at hm
    cases effect with
    | send session m => exact h.deliver session (hm m rfl)
    | farewell session m => exact h.deliver session (hm m rfl)
    | broadcast upTo m =>
      refine ⟨h.said, h.read, fun f hf m' hm' => ?_, h.waiting⟩
      rcases List.mem_cons.mp hf with rfl | hf
      · rw [List.mem_singleton.mp hm']
        exact hm m rfl
      · exact h.running f hf m' hm'
    | call => exact h
  · refine ⟨h.said, h.read, h.running, fun e he m hsome => ?_⟩
    rcases List.mem_append.mp he with he | he
    · exact h.waiting e he m hsome
    · rw [List.mem_singleton.mp he] at hsome
      exact hm m hsome

/-- What is under way goes on. -/
theorem advance (h : st.Backed) {frame : Frame C} {under : List (Frame C)}
    (hstack : st.stack = frame :: under) (hs : st.step .advance = some st') : st'.Backed := by
  have hrun := h.running
  rw [hstack] at hrun
  have hunder : ∀ f ∈ under, ∀ m ∈ f.messages, m.about <+: st.stored := fun f hf =>
    hrun f (List.mem_cons_of_mem _ hf)
  have hkept : ∀ frames : List (Frame C), (∀ f ∈ frames, ∀ m ∈ f.messages, m.about <+: st.stored) →
      ({ st with stack := frames ++ under } : Outbox C).Backed := by
    intro frames hframes
    refine ⟨h.said, h.read, fun f hf => ?_, h.waiting⟩
    exact (List.mem_append.mp hf).elim (hframes f) (hunder f)
  simp only [step, hstack] at hs
  cases frame with
  | broadcast past upTo message =>
    obtain rfl := Option.some.inj hs
    have hm : message.about <+: st.stored := hrun _ (List.mem_cons_self ..) message (by simp [Frame.messages])
    unfold broadcastOn
    split
    · exact hkept [] (by simp)
    · next s _ =>
      have hnext : ({ st with stack := .broadcast s.number upTo message :: under } : Outbox C).Backed :=
        hkept [_] (by simpa [Frame.messages] using hm)
      dsimp only
      split_ifs
      · exact hkept [] (by simp)
      · exact hnext.deliver s.number hm
      · exact hnext
  | drain run =>
    obtain rfl := Option.some.inj hs
    have hmessages : ∀ m ∈ run.filterMap Effect.message?, m.about <+: st.stored :=
      hrun _ (List.mem_cons_self ..)
    cases run with
    | nil =>
      unfold drainOn
      dsimp only
      split
      · exact hkept [] (by simp)
      · next hmore =>
        have hnone : st.changes = [] := by
          simp only [Bool.or_eq_true, Bool.not_eq_true', not_or] at hmore
          simpa using hmore.2
        refine ⟨h.said, h.read, fun f hf m hm => ?_, by simp⟩
        rcases List.mem_cons.mp hf with rfl | hf
        · obtain ⟨effect, heffect, hsome⟩ := List.mem_filterMap.mp hm
          simpa [hnone] using h.waiting effect heffect m hsome
        · exact hunder f hf m hm
    | cons effect run =>
      have hrest : ∀ m ∈ run.filterMap Effect.message?, m.about <+: st.stored := fun m hm =>
        hmessages m (by
          obtain ⟨e, he, hsome⟩ := List.mem_filterMap.mp hm
          exact List.mem_filterMap.mpr ⟨e, List.mem_cons_of_mem _ he, hsome⟩)
      have hnext : ({ st with stack := .drain run :: under } : Outbox C).Backed :=
        hkept [_] (by simpa [Frame.messages] using hrest)
      have hfirst : ∀ m, effect.message? = some m → m.about <+: st.stored := fun m hm =>
        hmessages m (List.mem_filterMap.mpr ⟨effect, List.mem_cons_self .., hm⟩)
      cases effect with
      | send session m =>
        unfold drainOn
        dsimp only
        split
        · exact hnext.deliver session (hfirst m rfl)
        · exact hnext
      | farewell session m => exact hnext.deliver session (hfirst m rfl)
      | broadcast upTo m =>
        refine hkept [_, _] fun f hf m' hm' => ?_
        rcases List.mem_cons.mp hf with rfl | hf
        · rw [List.mem_singleton.mp hm']
          exact hfirst m rfl
        · rw [List.mem_singleton.mp hf] at hm'
          exact hrest m' hm'
      | call => exact hnext

theorem step {e : OutboxEvent C} (h : st.Backed) (hcareful : st.Careful e)
    (hs : st.step e = some st') : st'.Backed := by
  have hspoken : ∀ {speaks : Bool}, (speaks = true → st.Whole) →
      (st.message speaks).about <+: st.stored ++ st.changes := by
    intro speaks hwhole
    cases speaks with
    | false => exact List.nil_prefix
    | true => exact hwhole rfl ▸ List.prefix_rfl
  have hmade : ∀ (effect : Effect C) (speaks : Bool), (speaks = true → st.Whole) →
      effect.message? = some (st.message speaks) →
      ({ st.later effect with made := st.made + 1 } : Outbox C).Backed := by
    intro effect speaks hwhole heffect
    have hlater : (st.later effect).Backed := h.later fun m hm => by
      rw [heffect] at hm
      exact Option.some.inj hm ▸ hspoken hwhole
    exact ⟨hlater.said, hlater.read, hlater.running, hlater.waiting⟩
  cases e with
  | commit change fault => exact Option.some.inj hs ▸ h.commit change fault
  | commitNow fault => exact Option.some.inj hs ▸ h.commitNow fault
  | send session speaks =>
    obtain ⟨-, hs⟩ := Option.ite_none_left_eq_some.mp hs
    exact Option.some.inj hs ▸ hmade _ speaks hcareful.1 rfl
  | farewell session =>
    obtain ⟨-, hs⟩ := Option.ite_none_left_eq_some.mp hs
    exact Option.some.inj hs ▸ hmade _ false (fun h => nomatch h) rfl
  | broadcast =>
    simp only [Outbox.step] at hs
    split at hs
    · exact Option.some.inj hs ▸ h
    · exact Option.some.inj hs ▸ hmade _ true (fun _ => hcareful.1) rfl
  | call => exact Option.some.inj hs ▸ h.later fun m hm => nomatch hm
  | join follows => exact Option.some.inj hs ▸ ⟨h.said, h.read, h.running, h.waiting⟩
  | follow session follows => exact Option.some.inj hs ▸ ⟨h.said, h.read, h.running, h.waiting⟩
  | close session => exact Option.some.inj hs ▸ ⟨h.said, h.read, h.running, h.waiting⟩
  | read =>
    obtain rfl := Option.some.inj hs
    refine ⟨h.said, fun doc hdoc => ?_, h.running, h.waiting⟩
    rcases List.mem_append.mp hdoc with hdoc | hdoc
    · exact h.read doc hdoc
    · obtain ⟨hwhole, hnone⟩ := hcareful
      have hmemory : st.memory = st.stored := by rw [hwhole, hnone, List.append_nil]
      rw [List.mem_singleton.mp hdoc]
      exact hmemory ▸ List.prefix_rfl
  | advance =>
    cases hstack : st.stack with
    | nil => simp [Outbox.step, hstack] at hs
    | cons frame under => exact h.advance hstack hs

end Backed

/-- The last session an effect or a frame can reach. -/
def reach : Effect C → ℕ
  | .send session _ | .farewell session _ | .broadcast session _ => session
  | .call => 0

def Within (n : ℕ) : Frame C → Prop
  | .drain run => ∀ effect ∈ run, reach effect ≤ n
  | .broadcast _ upTo _ => upTo ≤ n

/-- Beneath what waited and is being run, nothing more is to be said. -/
def Alone (has : ℕ → Bool) : List (Frame C) → Prop
  | [] => True
  | .drain _ :: under => ∀ session, under.flatMap (Frame.idsFor (has session) session) = []
  | .broadcast .. :: under => Alone has under

/-- Each session hears, and is to hear, its messages in the order they were made. -/
structure InTurn (st : Outbox C) : Prop where
  order : ∀ session, (st.heard session ++ st.pending session).Pairwise (· < ·)
  fresh : ∀ session, ∀ n ∈ st.heard session ++ st.pending session, n < st.made
  within : ∀ frame ∈ st.stack, Within st.madeSessions frame
  reached : ∀ effect ∈ st.effects, reach effect ≤ st.madeSessions
  alone : Alone st.has st.stack

theorem Effect.idsFor_sublist {there there' : Bool} (h : there' = true → there = true) (session : ℕ)
    (effect : Effect C) : (Effect.idsFor there' session effect).Sublist (Effect.idsFor there session effect) := by
  cases there' with
  | true => rw [h rfl]
  | false => cases effect <;> simp [Effect.idsFor]

theorem Frame.idsFor_sublist {there there' : Bool} (h : there' = true → there = true) (session : ℕ)
    (frame : Frame C) : (Frame.idsFor there' session frame).Sublist (Frame.idsFor there session frame) := by
  cases there' with
  | true => rw [h rfl]
  | false =>
    cases frame with
    | drain run => exact List.Sublist.flatMap_right _ fun e _ => Effect.idsFor_sublist h session e
    | broadcast past upTo m => simp [Frame.idsFor]

namespace InTurn

/-- Each session's messages are among those it had heard or was to hear, and one just made. -/
theorem of_sublist (h : st.InTurn) (horder : ∀ session, (st'.heard session ++ st'.pending session).Sublist
      (st.heard session ++ st.pending session ++ [st.made])) (hmade : st'.made = st.made + 1)
    (hwithin : ∀ frame ∈ st'.stack, Within st'.madeSessions frame)
    (hreached : ∀ effect ∈ st'.effects, reach effect ≤ st'.madeSessions)
    (halone : Alone st'.has st'.stack) : st'.InTurn := by
  refine ⟨fun session => ?_, fun session n hn => ?_, hwithin, hreached, halone⟩
  · refine List.Pairwise.sublist (horder session) (List.pairwise_append.mpr ⟨h.order session, by simp, ?_⟩)
    intro a ha b hb
    rw [List.mem_singleton.mp hb]
    exact h.fresh session a ha
  · rw [hmade]
    rcases List.mem_append.mp ((horder session).subset hn) with hn | hn
    · exact (h.fresh session n hn).trans (Nat.lt_succ_self _)
    · rw [List.mem_singleton.mp hn]
      exact Nat.lt_succ_self _

/-- Each session's messages are among those it had heard or was to hear. -/
theorem of_fewer (h : st.InTurn) (horder : ∀ session, (st'.heard session ++ st'.pending session).Sublist
      (st.heard session ++ st.pending session)) (hmade : st'.made = st.made)
    (hwithin : ∀ frame ∈ st'.stack, Within st'.madeSessions frame)
    (hreached : ∀ effect ∈ st'.effects, reach effect ≤ st'.madeSessions)
    (halone : Alone st'.has st'.stack) : st'.InTurn where
  order session := (h.order session).sublist (horder session)
  fresh session n hn := hmade ▸ h.fresh session n ((horder session).subset hn)
  within := hwithin
  reached := hreached
  alone := halone

theorem commitNow (h : st.InTurn) {fault : Option ℕ}
    (hclear : st.Drains fault → ∀ session, st.underWay session = []) : (st.commitNow fault).InTurn := by
  unfold Outbox.commitNow
  split
  · refine h.of_fewer (fun session => ?_) rfl h.within (by simp) h.alone
    refine List.Sublist.append_left ?_ _
    simp [pending, underWay, has]
  · next hkeep =>
    dsimp only
    split
    · exact ⟨h.order, h.fresh, h.within, h.reached, h.alone⟩
    · next hrun =>
      have hclear : ∀ session, st.underWay session = [] := by
        apply hclear
        simp only [Bool.or_eq_true, List.isEmpty_iff, not_or, Bool.not_eq_true] at hrun
        refine ⟨hrun.1, hrun.2, ?_⟩
        by_contra hboth
        obtain ⟨hchanges, hfault⟩ := not_or.mp hboth
        obtain ⟨c, rest, hchanges⟩ := List.exists_cons_of_ne_nil hchanges
        obtain ⟨n, hfault⟩ := Option.ne_none_iff_exists'.mp hfault
        exact hkeep c rest n hchanges hfault
      refine h.of_fewer (fun session => ?_) rfl ?_ (by simp) hclear
      · refine List.Sublist.append_left ?_ _
        have hnone := hclear session
        unfold pending underWay at *
        rw [hnone]
        simp only [List.flatMap_cons, List.nil_append, List.flatMap_nil, List.append_nil]
        exact (congrArg (_ ++ ·) hnone).trans (List.append_nil _) ▸ List.Sublist.refl _
      · intro frame hframe
        rcases List.mem_cons.mp hframe with rfl | hframe
        · exact h.reached
        · exact h.within frame hframe

theorem heard_deliver (st : Outbox C) (target : ℕ) (m : Message C) (session : ℕ) :
    (st.deliver target m).heard session =
      st.heard session ++ if target = session then [m.made] else [] := by
  simp only [heard, deliver, List.filter_append, List.map_append]
  split_ifs with hto
  · simp [hto]
  · simp [hto]

theorem idsFor_sublist_made {effect : Effect C} {n : ℕ} (h : ∀ m, effect.message? = some m → m.made = n)
    (there : Bool) (session : ℕ) : (Effect.idsFor there session effect).Sublist [n] := by
  cases effect with
  | call => exact List.nil_sublist _
  | send target m =>
    simp only [Effect.idsFor, h m rfl]
    split_ifs <;> simp
  | farewell target m =>
    simp only [Effect.idsFor, h m rfl]
    split_ifs <;> simp
  | broadcast upTo m =>
    simp only [Effect.idsFor, h m rfl]
    split_ifs <;> simp

theorem nothing_waits (h : st.idle = true) : st.effects = [] := by
  simp only [idle, Bool.and_eq_true, List.isEmpty_iff] at h
  exact h.1.2

/-- A message said once what is pending is stored comes after what waits; one said at once, where
nothing under way has still to reach who hears it. -/
theorem later (h : st.InTurn) {effect : Effect C} (hreach : reach effect ≤ st.madeSessions)
    (hmade : ∀ m, effect.message? = some m → m.made = st.made)
    (hclear : st.idle = true → ∀ session, Effect.idsFor true session effect ≠ [] →
      st.underWay session = []) :
    ({ st.later effect with made := st.made + 1 } : Outbox C).InTurn := by
  unfold Outbox.later
  split
  · next hidle =>
    have hnone := nothing_waits hidle
    have hpending : ∀ session, st.pending session = st.underWay session := fun session => by
      simp [pending, hnone]
    have hsaid : ∀ target (m : Message C), m.made = st.made →
        (Effect.idsFor true target effect ≠ []) →
        ({ st.deliver target m with made := st.made + 1 } : Outbox C).InTurn := by
      intro target m hm htarget
      refine h.of_sublist (fun session => ?_) rfl h.within h.reached h.alone
      have hheard := heard_deliver st target m session
      change ((st.deliver target m).heard session ++ st.pending session).Sublist _
      rw [hheard]
      by_cases hto : target = session
      · subst hto
        simp [hpending, hclear hidle target htarget, hm]
      · simp [hto]
    cases effect with
    | send target m => exact hsaid target m (hmade m rfl) (by simp [Effect.idsFor])
    | farewell target m => exact hsaid target m (hmade m rfl) (by simp [Effect.idsFor])
    | call => exact h.of_sublist (fun session => List.sublist_append_left _ _) rfl h.within h.reached h.alone
    | broadcast upTo m =>
      refine h.of_sublist (fun session => ?_) rfl ?_ h.reached h.alone
      · change (st.heard session ++ ((Frame.idsFor (st.has session) session (.broadcast 0 upTo m) ++
          st.underWay session) ++ _)).Sublist _
        have hids : Frame.idsFor (st.has session) session (.broadcast 0 upTo m) = [] ∨
            (Frame.idsFor (st.has session) session (.broadcast 0 upTo m) = [st.made] ∧
              st.underWay session = []) := by
          simp only [Frame.idsFor, hmade m rfl]
          split_ifs with hto
          · right
            exact ⟨rfl, hclear hidle session (by simp [Effect.idsFor, hto.2.1])⟩
          · exact .inl rfl
        rcases hids with hids | ⟨hids, hunder⟩
        · rw [hids, List.nil_append]
          exact List.sublist_append_left _ _
        · simp [hids, hpending, hunder, hnone]
      · intro frame hframe
        rcases List.mem_cons.mp hframe with rfl | hframe
        · exact hreach
        · exact h.within frame hframe
  · refine h.of_sublist (fun session => ?_) rfl h.within ?_ h.alone
    · change (st.heard session ++ (st.underWay session ++ (st.effects ++ [effect]).flatMap _)).Sublist _
      rw [List.flatMap_append, ← List.append_assoc, ← List.append_assoc]
      unfold pending
      rw [← List.append_assoc]
      refine List.Sublist.append_left ?_ _
      rw [List.flatMap_singleton]
      exact idsFor_sublist_made hmade _ session
    · intro e he
      rcases List.mem_append.mp he with he | he
      · exact h.reached e he
      · exact List.mem_singleton.mp he ▸ hreach

theorem alone_of_nothing {has : ℕ → Bool} {frames : List (Frame C)}
    (h : ∀ session, frames.flatMap (Frame.idsFor (has session) session) = []) : Alone has frames := by
  induction frames with
  | nil => trivial
  | cons frame frames ih =>
    have hrest : ∀ session, frames.flatMap (Frame.idsFor (has session) session) = [] := fun session =>
      (List.append_eq_nil_iff.mp (List.flatMap_cons ▸ h session)).2
    cases frame with
    | drain run => exact hrest
    | broadcast past upTo m => exact ih hrest

theorem pending_frames (frames under : List (Frame C)) (session : ℕ) :
    ({ st with stack := frames ++ under } : Outbox C).pending session =
      frames.flatMap (Frame.idsFor (st.has session) session) ++
        (under.flatMap (Frame.idsFor (st.has session) session) ++
          st.effects.flatMap (Effect.idsFor (st.has session) session)) := by
  simp [pending, underWay, has]

theorem pending_top {frame : Frame C} {under : List (Frame C)} (hstack : st.stack = frame :: under)
    (session : ℕ) : st.pending session = Frame.idsFor (st.has session) session frame ++
      (under.flatMap (Frame.idsFor (st.has session) session) ++
        st.effects.flatMap (Effect.idsFor (st.has session) session)) := by
  simp [pending, underWay, hstack]

section Top

variable {frame : Frame C} {under : List (Frame C)} (h : st.InTurn) (hstack : st.stack = frame :: under)
  (frames : List (Frame C)) (hwithin : ∀ f ∈ frames, Within st.madeSessions f)
  (halone : Alone st.has (frames ++ under))
  (hids : ∀ session, (frames.flatMap (Frame.idsFor (st.has session) session)).Sublist
    (Frame.idsFor (st.has session) session frame))
include h hstack hwithin halone hids

omit hids halone in
theorem within_top : ∀ f ∈ frames ++ under, Within st.madeSessions f := by
  intro f hf
  refine (List.mem_append.mp hf).elim (hwithin f) fun hf => h.within f ?_
  rw [hstack]
  exact List.mem_cons_of_mem _ hf

/-- What is innermost goes on, and says nothing. -/
theorem of_top : ({ st with stack := frames ++ under } : Outbox C).InTurn := by
  refine h.of_fewer (fun session => ?_) rfl (h.within_top hstack frames hwithin) h.reached halone
  change (st.heard session ++ _).Sublist _
  rw [pending_frames, pending_top hstack]
  exact List.Sublist.append_left ((hids session).append_right _) _

/-- What is innermost goes on, and says what was its first for a session. -/
theorem of_said {target : ℕ} {m : Message C}
    (hsaid : m.made :: frames.flatMap (Frame.idsFor (st.has target) target) =
      Frame.idsFor (st.has target) target frame) :
    (({ st with stack := frames ++ under } : Outbox C).deliver target m).InTurn := by
  refine h.of_fewer (fun session => ?_) rfl (h.within_top hstack frames hwithin) h.reached halone
  rw [heard_deliver]
  change (st.heard session ++ _ ++ ({ st with stack := frames ++ under } : Outbox C).pending session).Sublist _
  rw [pending_frames, pending_top hstack, List.append_assoc]
  refine List.Sublist.append_left ?_ _
  split_ifs with hto
  · subst hto
    rw [← List.append_assoc, List.singleton_append, hsaid]
  · exact (hids session).append_right _

end Top

theorem broadcastOn (h : st.InTurn) {past upTo : ℕ} {m : Message C} {under : List (Frame C)}
    (hstack : st.stack = .broadcast past upTo m :: under) : (st.broadcastOn past upTo m under).InTurn := by
  have hwithin : upTo ≤ st.madeSessions := h.within (.broadcast past upTo m) (hstack ▸ List.mem_cons_self ..)
  have halone : Alone st.has under := by
    have hall := h.alone
    rwa [hstack] at hall
  have hover : ({ st with stack := under } : Outbox C).InTurn :=
    h.of_top hstack [] (by simp) halone fun _ => List.nil_sublist _
  unfold Outbox.broadcastOn
  split
  · exact hover
  next s hnext =>
  have hpast : past < s.number := by simpa using List.find?_some hnext
  have hthere : st.has s.number = true :=
    List.any_eq_true.mpr ⟨s, List.mem_of_find?_eq_some hnext, by simp⟩
  let frames : List (Frame C) := [.broadcast s.number upTo m]
  have hids : ∀ session, (frames.flatMap (Frame.idsFor (st.has session) session)).Sublist
        (Frame.idsFor (st.has session) session (.broadcast past upTo m)) := by
    intro session
    rw [List.flatMap_singleton]
    simp only [Frame.idsFor]
    split_ifs with hin hout
    · exact List.Sublist.refl _
    · exact absurd ⟨hpast.trans hin.1, hin.2⟩ hout
    · exact List.nil_sublist _
    · exact List.Sublist.refl _
  dsimp only
  split_ifs with hfar
  · exact hover
  · refine h.of_said hstack frames (by simpa [frames, Within] using hwithin) halone hids ?_
    simp [frames, Frame.idsFor, hpast, hthere, not_lt.mp hfar]
  · exact h.of_top hstack frames (by simpa [frames, Within] using hwithin) halone hids

theorem drainOn (h : st.InTurn) {run : List (Effect C)} {under : List (Frame C)}
    (hstack : st.stack = .drain run :: under) : (st.drainOn run under).InTurn := by
  have hwithin : ∀ effect ∈ run, reach effect ≤ st.madeSessions :=
    h.within (.drain run) (hstack ▸ List.mem_cons_self ..)
  have halone : ∀ session, under.flatMap (Frame.idsFor (st.has session) session) = [] := by
    have hall := h.alone
    rwa [hstack] at hall
  cases run with
  | nil =>
    unfold Outbox.drainOn
    dsimp only
    split
    · exact h.of_top hstack [] (by simp) (alone_of_nothing halone) fun _ => List.nil_sublist _
    · refine h.of_fewer (fun session => ?_) rfl ?_ (by simp) halone
      · have hafter : ({ st with stack := .drain st.effects :: under, effects := [] } :
            Outbox C).pending session = st.effects.flatMap (Effect.idsFor (st.has session) session) ++
              under.flatMap (Frame.idsFor (st.has session) session) := by
          simp [pending, underWay, has, Frame.idsFor]
        change (st.heard session ++ ({ st with stack := .drain st.effects :: under, effects := [] } :
          Outbox C).pending session).Sublist _
        rw [hafter, pending_top hstack, halone session]
        simp [Frame.idsFor]
      · intro frame hframe
        rcases List.mem_cons.mp hframe with rfl | hframe
        · exact h.reached
        · exact h.within frame (hstack ▸ List.mem_cons_of_mem _ hframe)
  | cons effect run =>
    let frames : List (Frame C) := [.drain run]
    have hrest : ∀ f ∈ frames, Within st.madeSessions f := by
      intro f hf
      rw [List.mem_singleton.mp hf]
      exact fun e he => hwithin e (List.mem_cons_of_mem _ he)
    have hids : ∀ session, (frames.flatMap (Frame.idsFor (st.has session) session)).Sublist
        (Frame.idsFor (st.has session) session (.drain (effect :: run))) := by
      intro session
      simp [frames, Frame.idsFor]
    cases effect with
    | send target m =>
      unfold Outbox.drainOn
      dsimp only
      split
      · next hthere =>
        refine h.of_said hstack frames hrest halone hids ?_
        have hthere : st.has target = true := hthere
        simp [frames, Frame.idsFor, Effect.idsFor, hthere]
      · exact h.of_top hstack frames hrest halone hids
    | farewell target m =>
      refine h.of_said hstack frames hrest halone hids ?_
      simp [frames, Frame.idsFor, Effect.idsFor]
    | call => exact h.of_top hstack frames hrest halone hids
    | broadcast upTo m =>
      refine h.of_top hstack [.broadcast 0 upTo m, .drain run] ?_ halone fun session => ?_
      · intro f hf
        rcases List.mem_cons.mp hf with rfl | hf
        · exact hwithin (.broadcast upTo m) (List.mem_cons_self ..)
        · exact hrest f hf
      · simp only [List.flatMap_cons, List.flatMap_nil, List.append_nil, Frame.idsFor]
        refine List.Sublist.append_right ?_ _
        simp only [Effect.idsFor]
        split_ifs with hin hout
        · exact List.Sublist.refl _
        · exact absurd hin.2 hout
        · exact List.nil_sublist _
        · exact List.Sublist.refl _

/-- The sessions there are changed; one that joins has nothing to hear yet. -/
theorem of_sessions (h : st.InTurn) (sessions : List Listener) {made : ℕ} (hmade : st.madeSessions ≤ made)
    (hthere : ∀ session, ({ st with sessions } : Outbox C).has session = true →
      st.has session = true ∨ st.madeSessions < session) :
    ({ st with sessions, madeSessions := made } : Outbox C).InTurn := by
  have heffect : ∀ session, ∀ effect : Effect C, reach effect ≤ st.madeSessions →
      (Effect.idsFor (({ st with sessions } : Outbox C).has session) session effect).Sublist
        (Effect.idsFor (st.has session) session effect) := by
    intro session effect hreach
    by_cases hnew : st.madeSessions < session
    · have hfar : reach effect < session := lt_of_le_of_lt hreach hnew
      cases effect with
      | call => exact List.nil_sublist _
      | send target m => simp [Effect.idsFor, show target ≠ session from hfar.ne]
      | farewell target m => simp [Effect.idsFor, show target ≠ session from hfar.ne]
      | broadcast upTo m => simp [Effect.idsFor, show ¬ session ≤ upTo from not_le.mpr hfar]
    · exact Effect.idsFor_sublist (fun ht => (hthere session ht).resolve_right hnew) session effect
  have hframe : ∀ session, ∀ frame : Frame C, Within st.madeSessions frame →
      (Frame.idsFor (({ st with sessions } : Outbox C).has session) session frame).Sublist
        (Frame.idsFor (st.has session) session frame) := by
    intro session frame hwithin
    cases frame with
    | drain run => exact List.Sublist.flatMap_right _ fun e he => heffect session e (hwithin e he)
    | broadcast past upTo m =>
      by_cases hnew : st.madeSessions < session
      · have hfar : upTo < session := lt_of_le_of_lt hwithin hnew
        simp [Frame.idsFor, not_le.mpr hfar]
      · exact Frame.idsFor_sublist (fun ht => (hthere session ht).resolve_right hnew) session _
  refine h.of_fewer (fun session => List.Sublist.append_left ?_ _) rfl ?_ ?_ ?_
  · refine List.Sublist.append ?_ ?_
    · exact List.Sublist.flatMap_right _ fun f hf => hframe session f (h.within f hf)
    · exact List.Sublist.flatMap_right _ fun e he => heffect session e (h.reached e he)
  · intro frame hf
    have hwithin := h.within frame hf
    cases frame with
    | drain run => exact fun e he => (hwithin e he).trans hmade
    | broadcast past upTo m => exact le_trans hwithin hmade
  · exact fun e he => (h.reached e he).trans hmade
  · have hall := h.alone
    have hwithin := h.within
    change Alone _ st.stack
    revert hall hwithin
    generalize st.stack = frames
    intro hall hwithin
    induction frames with
    | nil => trivial
    | cons frame frames ih =>
      cases frame with
      | broadcast past upTo m => exact ih hall fun f hf => hwithin f (List.mem_cons_of_mem _ hf)
      | drain run =>
        intro session
        apply List.eq_nil_of_sublist_nil
        rw [← hall session]
        exact List.Sublist.flatMap_right _ fun f hf =>
          hframe session f (hwithin f (List.mem_cons_of_mem _ hf))

theorem step {e : OutboxEvent C} (h : st.InTurn) (hcareful : st.Careful e)
    (hs : st.step e = some st') : st'.InTurn := by
  cases e with
  | commit change fault =>
    obtain rfl := Option.some.inj hs
    have hmade : ({ st with memory := st.memory ++ [change], changes := st.changes ++ [change] } :
        Outbox C).InTurn := ⟨h.order, h.fresh, h.within, h.reached, h.alone⟩
    unfold Outbox.commit
    dsimp only
    split
    · exact hmade
    · next hnow =>
      refine hmade.commitNow fun hdrains => ?_
      refine hcareful (by simpa using hnow) hdrains.1 hdrains.2.1 (hdrains.2.2.resolve_left ?_)
      simp
  | commitNow fault => exact Option.some.inj hs ▸ h.commitNow hcareful
  | send session speaks =>
    obtain ⟨hjoined, hs⟩ := Option.ite_none_left_eq_some.mp hs
    refine Option.some.inj hs ▸ h.later (not_lt.mp hjoined) ?_ fun hidle target htarget => ?_
    · rintro m ⟨⟩
      rfl
    · have hto : session = target := by simpa [Effect.idsFor] using htarget
      exact hto ▸ hcareful.2 hidle
  | farewell session =>
    obtain ⟨hjoined, hs⟩ := Option.ite_none_left_eq_some.mp hs
    refine Option.some.inj hs ▸ h.later (not_lt.mp hjoined) ?_ fun hidle target htarget => ?_
    · rintro m ⟨⟩
      rfl
    · have hto : session = target := by simpa [Effect.idsFor] using htarget
      exact hto ▸ hcareful hidle
  | broadcast =>
    simp only [Outbox.step] at hs
    split at hs
    · exact Option.some.inj hs ▸ h
    · refine Option.some.inj hs ▸ h.later le_rfl ?_ fun hidle target _ => hcareful.2 hidle target
      rintro m ⟨⟩
      rfl
  | call =>
    obtain rfl := Option.some.inj hs
    unfold Outbox.later
    split
    · exact h
    · refine h.of_fewer (fun session => ?_) rfl h.within ?_ h.alone
      · refine List.Sublist.append_left (List.Sublist.append_left ?_ _) _
        simp [Effect.idsFor, has]
      · intro e he
        rcases List.mem_append.mp he with he | he
        · exact h.reached e he
        · rw [List.mem_singleton.mp he]
          exact Nat.zero_le _
  | join follows =>
    obtain rfl := Option.some.inj hs
    refine h.of_sessions _ (Nat.le_succ _) fun session hthere => ?_
    simp only [has, List.any_append, List.any_cons, List.any_nil, Bool.or_false, Bool.or_eq_true,
      decide_eq_true_eq] at hthere
    exact hthere.imp id fun hnew => by omega
  | follow session follows =>
    obtain rfl := Option.some.inj hs
    refine h.of_sessions _ le_rfl fun x hthere => .inl ?_
    rw [← hthere]
    simp only [has, List.any_map]
    congr 1
    funext s
    simp only [Function.comp_apply]
    split_ifs <;> rfl
  | close session =>
    obtain rfl := Option.some.inj hs
    refine h.of_sessions _ le_rfl fun x hthere => .inl ?_
    obtain ⟨s, hs, hnumber⟩ := List.any_eq_true.mp hthere
    exact List.any_eq_true.mpr ⟨s, List.mem_of_mem_filter hs, hnumber⟩
  | read => exact Option.some.inj hs ▸ ⟨h.order, h.fresh, h.within, h.reached, h.alone⟩
  | advance =>
    simp only [Outbox.step] at hs
    split at hs
    · cases hs
    · next run under hstack => exact Option.some.inj hs ▸ h.drainOn hstack
    · next past upTo m under hstack => exact Option.some.inj hs ▸ h.broadcastOn hstack

end InTurn

end Outbox

end LazyStorage.Server
