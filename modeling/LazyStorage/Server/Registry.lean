import LazyStorage.Lib.OrderedMap
import LazyStorage.Lib.Runs
import Mathlib.Logic.Function.Basic

/-! # The stores of a server

A registry makes a store the first time it is asked for and keeps it live; a sweep
lets go of those that nobody has used for a while. A store may also end by itself,
and is then made afresh when it is next asked for.
-/
namespace LazyStorage.Server

open Lib

/-- The ids a store may have: safe in a URL, a file name and a table key, without escaping. -/
def isStoreId (id : String) : Bool :=
  match id.toList with
  | [] => false
  | c :: cs => c.isAlphanum && cs.length ≤ 127 && cs.all fun c => c.isAlphanum || c ∈ ['.', '_', '~', '-']

namespace Registry

/-- What a factory made: for which id, the sessions on it, and whether it has ended. -/
structure Made where
  id : String
  sessions : ℕ
  disposed : Bool
deriving DecidableEq

/-- A store that a sweep let go of at `wall`, with its sessions then and the time it was last used. -/
structure Swept where
  store : ℕ
  sessions : ℕ
  used : ℕ
  wall : ℕ
deriving DecidableEq

inductive RestoreError
  | unknownStore (id : String)
  | noReplace

def RestoreError.code : RestoreError → Option String
  | unknownStore _ => some "unknown-store"
  | noReplace => none

def RestoreError.message : RestoreError → String
  | unknownStore id => "No store \"" ++ id ++ "\": the id is invalid, or the factory refused it"
  | noReplace => "This store's storage cannot take a document (it has no replace(doc))"

end Registry

open Registry

/-- Stores are numbered in the order `made`. `used`, when an id was last asked for or a sweep found a session on its store,
and `swept` are for the reader: nothing reads them. -/
structure Registry where
  live : OrderedMap String ℕ
  idleSince : OrderedMap String ℕ
  made : List Made
  wall : ℕ
  used : String → ℕ
  swept : List Swept

namespace Registry

/-- `makes`: the factory makes a store this time. `replaces`: its storage can take a document. -/
inductive Event
  | passes (d : ℕ)
  | gets (id : String) (makes : Bool)
  | enters (store : ℕ)
  | leaves (store : ℕ)
  | unloads (store : ℕ)
  | restores (id : String) (makes replaces : Bool)
  | releases (id : String)
  | sweeps
  | disposes

variable (idle : Option ℕ) (makes : Bool)

def create : Registry := ⟨.empty, .empty, [], 0, fun _ => 0, []⟩

def disposed (store : ℕ) (s : Registry) : Bool := (s.made[store]?).any (·.disposed)

def sessions (store : ℕ) (s : Registry) : ℕ := (s.made[store]?).elim 0 (·.sessions)

/-- A store ends, and its sessions with it. -/
def ends (store : ℕ) (s : Registry) : Registry :=
  { s with made := s.made.modify store fun k => { k with sessions := 0, disposed := true } }

def make (id : String) (s : Registry) : Option ℕ × Registry :=
  if makes then
    (some s.made.length, { s with live := s.live.set id s.made.length, made := s.made ++ [⟨id, 0, false⟩] })
  else (none, s)

/-- The live store, made on first use; one that ended by itself is made afresh. -/
def get (id : String) (s : Registry) : Option ℕ × Registry :=
  if isStoreId id = false then (none, s) else
  let s := { s with idleSince := s.idleSince.erase id, used := Function.update s.used id s.wall }
  match s.live.get id with
  | some store => if s.disposed store then s.make makes id else (some store, s)
  | none => s.make makes id

/-- The store ends, and the next one asked for has the document, if the storage can take one. -/
def restore (id : String) (replaces : Bool) (s : Registry) : Except RestoreError Unit × Registry :=
  match s.get makes id with
  | (none, s) => (.error (.unknownStore id), s)
  | (some store, s) =>
    let s := { s with live := s.live.erase id, idleSince := s.idleSince.erase id }
    if replaces then (.ok (), s.ends store) else (.error .noReplace, s)

def release (id : String) (s : Registry) : Bool × Registry :=
  match s.live.get id with
  | none => (false, s)
  | some store => (true, ends store { s with live := s.live.erase id, idleSince := s.idleSince.erase id })

/-- One store of a sweep: let go of when it has had no session for `idle`. -/
def sweepStore (s : Registry) (entry : String × ℕ) : Registry :=
  if 0 < s.sessions entry.2 then
    { s with idleSince := s.idleSince.erase entry.1, used := Function.update s.used entry.1 s.wall }
  else
    let since := (s.idleSince.get entry.1).getD s.wall
    let s := { s with idleSince := s.idleSince.set entry.1 since }
    if idle.any (since + · ≤ s.wall) then
      (release entry.1 { s with swept := ⟨entry.2, s.sessions entry.2, s.used entry.1, s.wall⟩ :: s.swept }).2
    else s

def sweep (s : Registry) : Registry := s.live.entries.foldl (sweepStore idle) s

def dispose (s : Registry) : Registry := s.live.keys.foldl (fun s id => (s.release id).2) s

/-- Sessions come only to a store that has not ended, whoever got hold of it and when; a store may end by itself. -/
def step (e : Event) (s : Registry) : Option Registry :=
  match e with
  | .passes d => some { s with wall := s.wall + d }
  | .gets id makes => some (s.get makes id).2
  | .enters store =>
    if (s.made[store]?).any (!·.disposed) then
      some { s with made := s.made.modify store fun k => { k with sessions := k.sessions + 1 } }
    else none
  | .leaves store =>
    if 0 < s.sessions store then
      some { s with made := s.made.modify store fun k => { k with sessions := k.sessions - 1 } }
    else none
  | .unloads store => if (s.made[store]?).any (!·.disposed) then some (s.ends store) else none
  | .restores id makes replaces => some (s.restore makes id replaces).2
  | .releases id => some (s.release id).2
  | .sweeps => some (s.sweep idle)
  | .disposes => some s.dispose

def Event.takes : Event → Bool
  | .restores _ _ replaces => replaces
  | _ => true

/-- A document is only put where the storage can take one. -/
def Takes (e : Event) (_ : Registry) : Prop := e.takes = true

/-- A store that has not ended is the live one of its id, and those a sweep let go of were of no use. -/
structure Sole (s : Registry) : Prop where
  lives : ∀ id store, s.live.get id = some store → ∃ k, s.made[store]? = some k ∧ k.id = id
  sole : ∀ store k, s.made[store]? = some k → k.disposed = false → s.live.get k.id = some store
  since : ∀ id t, s.idleSince.get id = some t → s.used id ≤ t ∧ t ≤ s.wall
  used : ∀ id, s.used id ≤ s.wall
  swept : ∀ r ∈ s.swept, r.sessions = 0 ∧ ∃ d ∈ idle, r.used + d ≤ r.wall

variable {idle makes} {s s' : Registry}

namespace Sole

/-- What becomes of a store, as long as it is the same one and does not come back. -/
theorem modify {f : Made → Made} (h : s.Sole idle) (store : ℕ) (hid : ∀ k, (f k).id = k.id)
    (hdisposed : ∀ k, (f k).disposed = false → k.disposed = false) :
    ({ s with made := s.made.modify store f } : Registry).Sole idle := by
  have hfrom : ∀ (i : ℕ) (k : Made), (s.made.modify store f)[i]? = some k →
      ∃ before, s.made[i]? = some before ∧ before.id = k.id ∧ (k.disposed = false → before.disposed = false) := by
    intro i k hk
    rw [List.getElem?_modify] at hk
    obtain ⟨before, hbefore, rfl⟩ := Option.map_eq_some_iff.mp hk
    refine ⟨before, hbefore, ?_⟩
    by_cases hi : store = i
    · rw [if_pos hi]
      exact ⟨(hid before).symm, hdisposed before⟩
    · rw [if_neg hi]
      exact ⟨rfl, fun hopen => hopen⟩
  refine ⟨fun id i hi => ?_, fun i k hk hopen => ?_, h.since, h.used, h.swept⟩
  · obtain ⟨k, hk, rfl⟩ := h.lives id i hi
    dsimp only
    rw [List.getElem?_modify, hk]
    by_cases hi : store = i
    · exact ⟨_, rfl, by simpa [hi] using hid k⟩
    · exact ⟨_, rfl, by simp [hi]⟩
  · obtain ⟨before, hbefore, heq, hwas⟩ := hfrom i k hk
    rw [← heq]
    exact h.sole i before hbefore (hwas hopen)

theorem ends (h : s.Sole idle) (store : ℕ) : (s.ends store).Sole idle :=
  h.modify store (fun _ => rfl) fun _ hopen => by cases hopen

/-- The live store of an id ends, and is the live one no more. -/
theorem forgets {id : String} {store : ℕ} (h : s.Sole idle) (hstore : s.live.get id = some store) :
    (Registry.ends store { s with live := s.live.erase id, idleSince := s.idleSince.erase id }).Sole idle := by
  have hends := h.ends store
  refine ⟨fun other i hi => ?_, fun i k hk hopen => ?_, fun other t ht => ?_, h.used, h.swept⟩
  · change (s.live.erase id).get other = some i at hi
    rw [OrderedMap.get_erase] at hi
    split_ifs at hi
    exact hends.lives other i hi
  · change (s.live.erase id).get k.id = some i
    have hlive : s.live.get k.id = some i := hends.sole i k hk hopen
    rw [OrderedMap.get_erase, if_neg, hlive]
    -- of that id only the store that ends was live
    rintro rfl
    obtain rfl : store = i := Option.some.inj (hstore.symm.trans hlive)
    change (s.made.modify store _)[store]? = some k at hk
    rw [List.getElem?_modify_eq] at hk
    obtain ⟨before, -, rfl⟩ := Option.map_eq_some_iff.mp hk
    cases hopen
  · change (s.idleSince.erase id).get other = some t at ht
    rw [OrderedMap.get_erase] at ht
    split_ifs at ht
    exact h.since other t ht

theorem release (h : s.Sole idle) (id : String) : (s.release id).2.Sole idle := by
  unfold Registry.release
  split
  · exact h
  · next hstore => exact h.forgets hstore

/-- The id is used now. -/
theorem uses (h : s.Sole idle) (id : String) :
    ({ s with idleSince := s.idleSince.erase id, used := Function.update s.used id s.wall } : Registry).Sole idle := by
  refine ⟨h.lives, h.sole, fun other t ht => ?_, fun other => ?_, h.swept⟩
  · dsimp only at ht ⊢
    rw [OrderedMap.get_erase] at ht
    split_ifs at ht with hother
    rw [Function.update_of_ne (Ne.symm hother)]
    exact h.since other t ht
  · dsimp only
    by_cases hother : other = id
    · simp [hother]
    · rw [Function.update_of_ne hother]
      exact h.used other

/-- A store is made where the id has none, or one that has ended. -/
theorem make {id : String} (h : s.Sole idle) (hended : ∀ store, s.live.get id = some store → s.disposed store = true) :
    (s.make makes id).2.Sole idle := by
  unfold Registry.make
  split_ifs
  · refine ⟨fun other i hi => ?_, fun i k hk hopen => ?_, h.since, h.used, h.swept⟩
    · dsimp only at hi ⊢
      by_cases hother : id = other
      · subst hother
        rw [OrderedMap.get_set_self] at hi
        obtain rfl := Option.some.inj hi
        exact ⟨⟨id, 0, false⟩, by simp, rfl⟩
      · rw [OrderedMap.get_set_of_ne _ _ hother] at hi
        obtain ⟨k, hk, hkid⟩ := h.lives other i hi
        exact ⟨k, by rw [List.getElem?_append_left (List.getElem?_eq_some_iff.mp hk).1]; exact hk, hkid⟩
    · dsimp only at hk ⊢
      rcases Nat.lt_or_ge i s.made.length with hlt | hge
      · rw [List.getElem?_append_left hlt] at hk
        have hlive := h.sole i k hk hopen
        rw [OrderedMap.get_set_of_ne, hlive]
        rintro rfl
        have hgone := hended i hlive
        rw [Registry.disposed, hk, Option.any_some, hopen] at hgone
        cases hgone
      · rw [List.getElem?_append_right hge, List.getElem?_singleton] at hk
        split_ifs at hk with hi
        obtain rfl := Option.some.inj hk
        rw [OrderedMap.get_set_self]
        exact congrArg some (by omega)
  · exact h

theorem get (h : s.Sole idle) (makes : Bool) (id : String) : (s.get makes id).2.Sole idle ∧
    ∀ store, (s.get makes id).1 = some store → (s.get makes id).2.live.get id = some store := by
  unfold Registry.get
  split_ifs with hid
  · exact ⟨h, fun store hstore => by cases hstore⟩
  have huses := h.uses id
  have hmade : ∀ (t : Registry) (store : ℕ), (t.make makes id).1 = some store →
      (t.make makes id).2.live.get id = some store := by
    intro t store hstore
    unfold Registry.make at hstore ⊢
    split_ifs at hstore ⊢
    · obtain rfl := Option.some.inj hstore
      exact OrderedMap.get_set_self ..
  dsimp only
  split
  · next store hstore =>
    split_ifs with hdisposed
    · refine ⟨huses.make fun other hother => ?_, hmade _⟩
      obtain rfl := Option.some.inj (hstore.symm.trans hother)
      exact hdisposed
    · refine ⟨huses, fun other hother => ?_⟩
      obtain rfl := Option.some.inj hother
      exact hstore
  · next hnone =>
    refine ⟨huses.make fun other hother => ?_, hmade _⟩
    rw [show s.live.get id = some other from hother] at hnone
    cases hnone

theorem restore (h : s.Sole idle) (id : String) : (s.restore makes id true).2.Sole idle := by
  obtain ⟨hget, hlive⟩ := h.get makes id
  unfold Registry.restore
  split
  · next t heq =>
    rw [heq] at hget
    exact hget
  · next store t heq =>
    rw [heq] at hget hlive
    exact hget.forgets (hlive store rfl)

theorem sweepStore (h : s.Sole idle) (entry : String × ℕ) : (s.sweepStore idle entry).Sole idle := by
  unfold Registry.sweepStore
  split_ifs with hsessions
  · exact h.uses entry.1
  have hsince : s.used entry.1 ≤ (s.idleSince.get entry.1).getD s.wall ∧
      (s.idleSince.get entry.1).getD s.wall ≤ s.wall := by
    cases hget : s.idleSince.get entry.1 with
    | none => exact ⟨h.used entry.1, Nat.le_refl _⟩
    | some t => exact h.since entry.1 t hget
  have hseen : ({ s with idleSince := s.idleSince.set entry.1 ((s.idleSince.get entry.1).getD s.wall) } :
      Registry).Sole idle := by
    refine ⟨h.lives, h.sole, fun other t ht => ?_, h.used, h.swept⟩
    by_cases hother : entry.1 = other
    · subst hother
      rw [OrderedMap.get_set_self] at ht
      obtain rfl := Option.some.inj ht
      exact hsince
    · rw [OrderedMap.get_set_of_ne _ _ hother] at ht
      exact h.since other t ht
  dsimp only
  split_ifs with hidle
  · apply release
    refine ⟨hseen.lives, hseen.sole, hseen.since, hseen.used, fun r hr => ?_⟩
    rcases List.mem_cons.mp hr with rfl | hr
    · obtain ⟨d, hd, hle⟩ := (Option.any_eq_true _ _).mp hidle
      have hpast : (s.idleSince.get entry.1).getD s.wall + d ≤ s.wall := by simpa using hle
      refine ⟨?_, d, hd, Nat.le_trans (Nat.add_le_add_right hsince.1 d) hpast⟩
      exact Nat.eq_zero_of_not_pos hsessions
    · exact h.swept r hr
  · exact hseen

theorem step {e : Event} (h : s.Sole idle) (htakes : Takes e s) (hs : s.step idle e = some s') : s'.Sole idle := by
  cases e with
  | passes d =>
    obtain rfl := Option.some.inj hs
    refine ⟨h.lives, h.sole, fun id t ht => ?_, fun id => Nat.le_add_right_of_le (h.used id), h.swept⟩
    obtain ⟨hused, ht⟩ := h.since id t ht
    exact ⟨hused, Nat.le_add_right_of_le ht⟩
  | gets id makes =>
    obtain rfl := Option.some.inj hs
    exact (h.get makes id).1
  | enters store =>
    simp only [Registry.step, Option.ite_none_right_eq_some, Option.some.injEq] at hs
    obtain ⟨-, rfl⟩ := hs
    exact h.modify store (fun _ => rfl) fun _ hopen => hopen
  | leaves store =>
    simp only [Registry.step, Option.ite_none_right_eq_some, Option.some.injEq] at hs
    obtain ⟨-, rfl⟩ := hs
    exact h.modify store (fun _ => rfl) fun _ hopen => hopen
  | unloads store =>
    simp only [Registry.step, Option.ite_none_right_eq_some, Option.some.injEq] at hs
    obtain ⟨-, rfl⟩ := hs
    exact h.ends store
  | restores id makes replaces =>
    obtain rfl := Option.some.inj hs
    obtain rfl : replaces = true := htakes
    exact h.restore id
  | releases id =>
    obtain rfl := Option.some.inj hs
    exact h.release id
  | sweeps =>
    obtain rfl := Option.some.inj hs
    exact List.foldlRecOn _ _ h fun _ hbefore entry _ => hbefore.sweepStore entry
  | disposes =>
    obtain rfl := Option.some.inj hs
    exact List.foldlRecOn _ _ h fun _ hbefore id _ => hbefore.release id

end Sole

/-! ## What a sweep leaves -/

/-- The store of an id has a session, or was first found without one less than `idle` ago. -/
def Left (idle : Option ℕ) (id : String) (s : Registry) : Prop :=
  ∀ store, s.live.get id = some store →
    0 < s.sessions store ∨ ∃ t, s.idleSince.get id = some t ∧ ∀ d ∈ idle, s.wall < t + d

theorem get_release (s : Registry) (id : String) : (s.release id).2.live.get id = none := by
  unfold release
  split
  · next hnone => exact hnone
  · exact OrderedMap.get_erase_self ..

theorem sweepStore_left {entry : String × ℕ} (hentry : s.live.get entry.1 = some entry.2) :
    (s.sweepStore idle entry).Left idle entry.1 := by
  unfold sweepStore
  intro store hstore
  split_ifs at hstore ⊢ with hsessions
  · obtain rfl := Option.some.inj (hentry.symm.trans hstore)
    exact .inl hsessions
  dsimp only at hstore ⊢
  split_ifs at hstore ⊢ with hidle
  · rw [get_release] at hstore
    cases hstore
  · refine .inr ⟨_, OrderedMap.get_set_self .., fun d hd => ?_⟩
    by_contra hpast
    refine hidle ((Option.any_eq_true _ _).mpr ⟨d, hd, ?_⟩)
    simpa using hpast

/-- Another id's store is left as it is. -/
theorem sweepStore_other {entry : String × ℕ} {id : String} (h : s.Sole idle)
    (hentry : s.live.get entry.1 = some entry.2) (hid : entry.1 ≠ id) :
    (s.sweepStore idle entry).live.get id = s.live.get id ∧
      (s.sweepStore idle entry).idleSince.get id = s.idleSince.get id ∧
      (s.sweepStore idle entry).wall = s.wall ∧
      ∀ store, s.live.get id = some store → (s.sweepStore idle entry).sessions store = s.sessions store := by
  unfold sweepStore
  split_ifs
  · exact ⟨rfl, OrderedMap.get_erase_of_ne _ hid, rfl, fun _ _ => rfl⟩
  dsimp only
  split_ifs
  · simp only [release, hentry]
    refine ⟨OrderedMap.get_erase_of_ne _ hid,
      (OrderedMap.get_erase_of_ne _ hid).trans (OrderedMap.get_set_of_ne _ _ hid), rfl, fun store hstore => ?_⟩
    have hne : entry.2 ≠ store := by
      rintro rfl
      obtain ⟨k, hk, hkid⟩ := h.lives _ _ hentry
      obtain ⟨k', hk', hkid'⟩ := h.lives _ _ hstore
      obtain rfl : k = k' := Option.some.inj (hk.symm.trans hk')
      exact hid (hkid.symm.trans hkid')
    change ((s.made.modify entry.2 _)[store]?).elim 0 _ = _
    rw [List.getElem?_modify_ne _ _ hne]
    rfl
  · exact ⟨rfl, OrderedMap.get_set_of_ne _ _ hid, rfl, fun _ _ => rfl⟩

theorem sweep_foldl {entries : List (String × ℕ)} (h : s.Sole idle) (hnodup : (entries.map Prod.fst).Nodup)
    (hlive : ∀ entry ∈ entries, s.live.get entry.1 = some entry.2) {id : String}
    (hid : id ∈ entries.map Prod.fst ∨ s.Left idle id) : (entries.foldl (sweepStore idle) s).Left idle id := by
  induction entries generalizing s with
  | nil => exact hid.resolve_left (List.not_mem_nil)
  | cons entry entries ih =>
    rw [List.map_cons, List.nodup_cons] at hnodup
    have hentry := hlive entry List.mem_cons_self
    apply ih (h.sweepStore entry) hnodup.2
    · intro other hother
      have hne : entry.1 ≠ other.1 := by
        rintro heq
        exact hnodup.1 (heq ▸ List.mem_map_of_mem hother)
      rw [(sweepStore_other h hentry hne).1]
      exact hlive other (List.mem_cons_of_mem _ hother)
    · by_cases heq : entry.1 = id
      · exact .inr (heq ▸ sweepStore_left hentry)
      · rw [List.map_cons, List.mem_cons] at hid
        rcases hid with (hid | hid) | hleft
        · exact (heq hid.symm).elim
        · exact .inl hid
        · right
          obtain ⟨hget, hsince, hwall, hsessions⟩ := sweepStore_other h hentry heq
          intro store hstore
          rw [hget] at hstore
          rw [hsince, hwall, hsessions store hstore]
          exact hleft store hstore

theorem sweep_left (h : s.Sole idle) (id : String) : (s.sweep idle).Left idle id := by
  refine sweep_foldl h s.live.nodup (fun entry hentry => OrderedMap.mem_entries.mp hentry) ?_
  cases hstore : s.live.get id with
  | none =>
    right
    intro store hlive
    rw [hstore] at hlive
    cases hlive
  | some store =>
    left
    exact List.mem_map_of_mem (f := Prod.fst) (OrderedMap.mem_entries.mpr hstore)

theorem sole_create : create.Sole idle where
  lives id store hstore := by cases hstore
  sole store k hk := by cases hk
  since id t ht := by cases ht
  used id := Nat.le_refl 0
  swept r hr := by cases hr

/-- However stores are asked for, entered, left, released, restored and end by themselves, as long as documents are put only
where the storage takes one: a live store is one made for its id, and is the only one of that id that has not ended; a
sweep lets go only of a store without a session, not asked for and not found with a session by a sweep for `idle`, and of
every store that has been found without one for as long. -/
theorem one_store_an_id (h : Reaches (step idle) Takes create s) :
    (∀ id store, s.live.get id = some store → ∃ k, s.made[store]? = some k ∧ k.id = id) ∧
      (∀ store k, s.made[store]? = some k → k.disposed = false → s.live.get k.id = some store) ∧
      (∀ r ∈ s.swept, r.sessions = 0 ∧ ∃ d ∈ idle, r.used + d ≤ r.wall) ∧
      ∀ id, (s.sweep idle).Left idle id := by
  have hsole : s.Sole idle := h.invariant sole_create fun _ _ _ hbefore htakes hs => hbefore.step htakes hs
  exact ⟨hsole.lives, hsole.sole, hsole.swept, sweep_left hsole⟩

/-- A store is entered, left, and let go of by the third sweep; the next one asked for is another. -/
theorem one_store_an_id_swept : ∃ s : Registry, s.live.get "a" = some 1 ∧ s.swept = [⟨0, 0, 30, 90⟩] ∧
    ((∀ id store, s.live.get id = some store → ∃ k, s.made[store]? = some k ∧ k.id = id) ∧
      (∀ store k, s.made[store]? = some k → k.disposed = false → s.live.get k.id = some store) ∧
      (∀ r ∈ s.swept, r.sessions = 0 ∧ ∃ d ∈ some 50, r.used + d ≤ r.wall) ∧
      ∀ id, (s.sweep (some 50)).Left (some 50) id) := by
  obtain ⟨s, hrun, hends⟩ := @Reaches.exists_of_replay _ _ (step (some 50)) Takes create
    (fun e _ => e.takes) (fun _ _ htakes => htakes)
    [.gets "a" true, .enters 0, .passes 30, .sweeps, .leaves 0, .passes 10, .sweeps, .passes 50, .sweeps, .gets "a" true]
    (fun s => s.live.get "a" = some 1 ∧ s.swept = [⟨0, 0, 30, 90⟩]) inferInstance (by decide +kernel)
  exact ⟨s, hends.1, hends.2, one_store_an_id hrun⟩

/-- Where the storage takes no document, a restore leaves behind a store that has not ended, and another is made. -/
example : (replay (step none) [.gets "a" true, .restores "a" true false, .gets "a" true] create).any
    (fun s => s.made = [⟨"a", 0, false⟩, ⟨"a", 0, false⟩]) = true := by
  decide +kernel

end Registry

end LazyStorage.Server
