import LazyStorage.Hub.Socket

/-! # What a trace says of a store

Which sessions are open on a store, what was handed to a session, what was heard for
the store since its attempt's first message, and which attempts stand. A hub is sound
when its maps hold what its trace says, store by store; a message on its way from the
socket to a queue or a session is in hand meanwhile.
-/
namespace LazyStorage.Hub

open Lib

variable {I M : Type} [DecidableEq I]

/-- Whether what happens disowns an attempt to open a store. -/
def Obs.disowns (id : I) : Obs I M → Bool
  | .left i | .revalidated i => i = id
  | .shut => true
  | _ => false

/-- The sessions open on a store. -/
def openAfter (id : I) (on : List ℕ) : Obs I M → List ℕ
  | .opened i _ n => if i = id then on ++ [n] else on
  | .ended i n => if i = id then on.filter (· ≠ n) else on
  | .shut => []
  | _ => on

def openOn (id : I) (trace : List (Obs I M)) : List ℕ := trace.foldl (openAfter id) []

/-- The messages for a store since the first of its attempt. -/
def heardAfter (id : I) (ms : List M) : Obs I M → List M
  | .received i m => if i = id then ms ++ [m] else ms
  | .left i | .denied i | .ended i _ => if i = id then [] else ms
  | .shut => []
  | _ => ms

def heard (id : I) (trace : List (Obs I M)) : List M := trace.foldl (heardAfter id) []

/-- What was handed to a session. -/
def handedTo (n : ℕ) (trace : List (Obs I M)) : List M := trace.filterMap fun
  | .handed k m => if k = n then some m else none
  | _ => none

/-- An attempt begun that nothing has disowned since, with yeses of hooks given in it. -/
def Stands (id : I) (token : ℕ) (yes : List Bool) (trace : List (Obs I M)) : Prop :=
  ∃ before since, trace = before ++ .begun id token :: since ∧
    (∀ o ∈ since, o.disowns id = false) ∧ ∀ byStore ∈ yes, .allowed token byStore ∈ since

/-- What may happen next: a session of its own opened where none is, on both hooks' yes in an attempt that
stands; and the next of the messages heard for a store handed to the one session open on it. -/
def MayFollow (trace : List (Obs I M)) : Obs I M → Prop
  | .opened id token n =>
    openOn id trace = [] ∧ handedTo n trace = [] ∧ Stands id token [false, true] trace
  | .handed n m => ∃ id, openOn id trace = [n] ∧ handedTo n trace ++ [m] <+: heard id trace
  | _ => True

/-- A trace each step of which may follow what was before it. -/
def Kept (trace : List (Obs I M)) : Prop := ∀ before o after, trace = before ++ o :: after → MayFollow before o

variable {trace : List (Obs I M)} {o : Obs I M} {id : I} {n token : ℕ} {yes : List Bool}

@[simp] theorem openOn_concat (id : I) (trace : List (Obs I M)) (o : Obs I M) :
    openOn id (trace ++ [o]) = openAfter id (openOn id trace) o := by
  simp [openOn]

@[simp] theorem heard_concat (id : I) (trace : List (Obs I M)) (o : Obs I M) :
    heard id (trace ++ [o]) = heardAfter id (heard id trace) o := by
  simp [heard]

omit [DecidableEq I] in
theorem handedTo_concat (n : ℕ) (trace : List (Obs I M)) (o : Obs I M) :
    handedTo n (trace ++ [o]) = handedTo n trace ++ handedTo n [o] := by
  simp [handedTo]

theorem kept_nil : Kept ([] : List (Obs I M)) := fun before o after h => by simp at h

theorem kept_concat : Kept (trace ++ [o]) ↔ Kept trace ∧ MayFollow trace o := by
  constructor
  · intro h
    refine ⟨fun before x after heq => h before x (after ++ [o]) ?_, h trace o [] rfl⟩
    rw [heq]
    simp
  · rintro ⟨h, hlast⟩ before x after heq
    rcases List.eq_nil_or_concat after with rfl | ⟨rest, y, rfl⟩
    · obtain ⟨rfl, hx⟩ := List.append_inj' heq rfl
      obtain rfl := List.singleton_inj.mp hx
      exact hlast
    · rw [List.concat_eq_append, ← List.cons_append, ← List.append_assoc] at heq
      exact h before x rest (List.append_inj' heq rfl).1

theorem Stands.concat (h : Stands id token yes trace) (ho : o.disowns id = false) :
    Stands id token yes (trace ++ [o]) := by
  obtain ⟨before, since, rfl, hstill, hyes⟩ := h
  refine ⟨before, since ++ [o], by simp, fun x hx => ?_, fun b hb => by simp [hyes b hb]⟩
  rcases List.mem_append.mp hx with hx | hx
  · exact hstill x hx
  · exact List.mem_singleton.mp hx ▸ ho

theorem Stands.begun (id : I) (token : ℕ) (trace : List (Obs I M)) :
    Stands id token [] (trace ++ [.begun id token]) :=
  ⟨trace, [], rfl, by simp, by simp⟩

theorem Stands.allowed (h : Stands id token yes trace) (byStore : Bool) :
    Stands id token (yes ++ [byStore]) (trace ++ [.allowed token byStore]) := by
  obtain ⟨before, since, rfl, hstill, hyes⟩ := h
  refine ⟨before, since ++ [.allowed token byStore], by simp, fun x hx => ?_, fun b hb => ?_⟩
  · rcases List.mem_append.mp hx with hx | hx
    · exact hstill x hx
    · rw [List.mem_singleton.mp hx]
      rfl
  · rcases List.mem_append.mp hb with hb | hb
    · exact List.mem_append_left _ (hyes b hb)
    · rw [List.mem_singleton.mp hb]
      simp

theorem Stands.mono (h : Stands id token yes trace) {fewer : List Bool} (hsub : ∀ b ∈ fewer, b ∈ yes) :
    Stands id token fewer trace := by
  obtain ⟨before, since, rfl, hstill, hyes⟩ := h
  exact ⟨before, since, rfl, hstill, fun b hb => hyes b (hsub b hb)⟩

/-- Whether what happens is nothing to a store. -/
structure Obs.Spares (id : I) (o : Obs I M) : Prop where
  opens : ∀ on, openAfter id on o = on
  hears : ∀ ms, heardAfter id ms o = ms
  disowns : o.disowns id = false

namespace Socket

/-- One store of a hub as the trace has it. `owed` are messages heard for it that are in hand: neither
handed to its session nor queued. -/
structure SoundAt (id : I) (owed : List M) (s : Socket I M) : Prop where
  waiting : ∀ a, s.pending.get id = some a → s.closed = false ∧ s.sessions.get id = none ∧
    heard id s.trace = a.queued ++ owed ∧ a.token < s.attempts ∧ Stands id a.token [] s.trace ∧
    ∀ c ∈ s.checks, c.id = id → c.token = a.token → c.byStore = true → Stands id a.token [false] s.trace
  on : ∀ n, s.sessions.get id = some n → openOn id s.trace = [n] ∧
    handedTo n s.trace ++ owed = heard id s.trace ∧ n < s.made
  off : s.sessions.get id = none → openOn id s.trace = []
  idle : s.sessions.get id = none → s.pending.get id = none → heard id s.trace = owed

/-- A hub as its trace has it. -/
structure Sound (owed : I → List M) (s : Socket I M) : Prop where
  kept : Kept s.trace
  each : ∀ id, s.SoundAt id (owed id)
  tokens : ∀ c ∈ s.checks, c.token < s.attempts
  apart : ∀ id id' n, s.sessions.get id = some n → s.sessions.get id' = some n → id = id'
  fresh : ∀ n, s.made ≤ n → handedTo n s.trace = []

/-- What is in hand for one store alone. -/
def owing (id : I) (ms : List M) : I → List M := fun i => if i = id then ms else []

@[simp] theorem owing_self (id : I) (ms : List M) : owing id ms id = ms := if_pos rfl

theorem owing_of_ne {id i : I} (h : i ≠ id) (ms ms' : List M) : owing id ms i = owing id ms' i := by
  rw [owing, owing, if_neg h, if_neg h]

theorem owing_nil (id : I) : (owing id [] : I → List M) = fun _ => [] := by
  funext i
  rw [owing, ite_self]

variable {s s' : Socket I M} {owed : I → List M} {ms ms' : List M}

theorem sound_start : (start : Socket I M).Sound fun _ => [] where
  kept := kept_nil
  each _ := {
    waiting _ h := nomatch h
    on _ h := nomatch h
    off _ := rfl
    idle _ _ := rfl }
  tokens _ h := nomatch h
  apart _ _ _ h := nomatch h
  fresh _ _ := rfl

/-- Nothing is read of a hub but what its maps hold. -/
theorem Sound.congr (h : s.Sound owed) (hpending : ∀ id, s'.pending.get id = s.pending.get id)
    (hsessions : ∀ id, s'.sessions.get id = s.sessions.get id) (hclosed : s'.closed = s.closed)
    (hchecks : ∀ c ∈ s'.checks, c ∈ s.checks) (hattempts : s'.attempts = s.attempts) (hmade : s'.made = s.made)
    (htrace : s'.trace = s.trace) : s'.Sound owed where
  kept := htrace ▸ h.kept
  each id := {
    waiting a ha := by
      obtain ⟨hopen, hnone, hheard, htoken, hstands, hyes⟩ := (h.each id).waiting a (hpending id ▸ ha)
      rw [hclosed, hsessions, hattempts, htrace]
      exact ⟨hopen, hnone, hheard, htoken, hstands, fun c hc => hyes c (hchecks c hc)⟩
    on n hn := by
      rw [htrace, hmade]
      exact (h.each id).on n (hsessions id ▸ hn)
    off hn := by
      rw [htrace]
      exact (h.each id).off (hsessions id ▸ hn)
    idle hn ha := by
      rw [htrace]
      exact (h.each id).idle (hsessions id ▸ hn) (hpending id ▸ ha) }
  tokens c hc := hattempts ▸ h.tokens c (hchecks c hc)
  apart id id' n hn hn' := h.apart id id' n (hsessions id ▸ hn) (hsessions id' ▸ hn')
  fresh n hn := by
    rw [htrace]
    exact h.fresh n (hmade ▸ hn)

/-- What happens to a store leaves the others as they are. -/
theorem Sound.next (h : s.Sound (owing id ms)) (htrace : s'.trace = s.trace ++ [o])
    (hmay : MayFollow s.trace o) (hspares : ∀ i, i ≠ id → o.Spares i)
    (hhanded : ∀ n, handedTo n [o] = [] ∨ s.sessions.get id = some n)
    (hpending : ∀ i, i ≠ id → s'.pending.get i = s.pending.get i)
    (hsessions : ∀ i, i ≠ id → s'.sessions.get i = s.sessions.get i)
    (hnew : ∀ n, s'.sessions.get id = some n → s.sessions.get id = some n ∨ s.made ≤ n)
    (hclosed : s'.closed = s.closed) (hchecks : s'.checks = s.checks) (hattempts : s.attempts ≤ s'.attempts)
    (hmade : s.made ≤ s'.made) (hid : s'.SoundAt id ms') : s'.Sound (owing id ms') where
  kept := htrace ▸ kept_concat.mpr ⟨h.kept, hmay⟩
  each i := by
    by_cases hi : i = id
    · subst hi
      rwa [owing_self]
    · have hopens := (hspares i hi).opens
      have hhears := (hspares i hi).hears
      have hat := h.each i
      constructor
      · intro a ha
        obtain ⟨hopen, hnone, hheard, htoken, hstands, hyes⟩ := hat.waiting a (hpending i hi ▸ ha)
        rw [hclosed, hsessions i hi, htrace, hchecks, heard_concat, hhears, owing_of_ne hi ms' ms]
        exact ⟨hopen, hnone, hheard, Nat.lt_of_lt_of_le htoken hattempts, hstands.concat (hspares i hi).disowns,
          fun c hc hci hct hb => (hyes c hc hci hct hb).concat (hspares i hi).disowns⟩
      · intro n hn
        rw [hsessions i hi] at hn
        obtain ⟨hon, hheard, hlt⟩ := hat.on n hn
        have hnone : handedTo n [o] = [] :=
          (hhanded n).resolve_right fun hn' => hi (h.apart i id n hn hn')
        rw [htrace, openOn_concat, hopens, heard_concat, hhears, handedTo_concat, hnone, List.append_nil,
          owing_of_ne hi ms' ms]
        exact ⟨hon, hheard, Nat.lt_of_lt_of_le hlt hmade⟩
      · intro hn
        rw [htrace, openOn_concat, hopens]
        exact hat.off (hsessions i hi ▸ hn)
      · intro hn ha
        rw [htrace, heard_concat, hhears, owing_of_ne hi ms' ms]
        exact hat.idle (hsessions i hi ▸ hn) (hpending i hi ▸ ha)
  tokens c hc := Nat.lt_of_lt_of_le (h.tokens c (hchecks ▸ hc)) hattempts
  apart := by
    have hcross : ∀ i n, i ≠ id → s'.sessions.get i = some n → s'.sessions.get id ≠ some n := by
      intro i n hi hn hid
      rw [hsessions i hi] at hn
      rcases hnew n hid with hold | hge
      · exact hi (h.apart i id n hn hold)
      · exact absurd ((h.each i).on n hn).2.2 (by omega)
    intro i i' n hn hn'
    by_cases hi : i = id
    · by_cases hi' : i' = id
      · rw [hi, hi']
      · exact absurd (hi ▸ hn) (hcross i' n hi' hn')
    · by_cases hi' : i' = id
      · exact absurd (hi' ▸ hn') (hcross i n hi hn)
      · exact h.apart i i' n (hsessions i hi ▸ hn) (hsessions i' hi' ▸ hn')
  fresh n hn := by
    have hold : s.made ≤ n := Nat.le_trans hmade hn
    rw [htrace, handedTo_concat, h.fresh n hold, List.nil_append]
    exact (hhanded n).resolve_right fun hon => absurd ((h.each id).on n hon).2.2 (by omega)

end Socket

end LazyStorage.Hub
