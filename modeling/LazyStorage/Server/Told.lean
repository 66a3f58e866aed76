import LazyStorage.Server.Peers

/-! # Presence adds up

A client that was sent the whole list, and every change since, holds the peers there
are once nothing is noted, as long as no flush tells it that a peer left whose replica
another still speaks for, and no hello goes unheard.
-/
namespace LazyStorage.Server.Presence

open Lib

variable {N R U J : Type} [DecidableEq N] [DecidableEq R]

/-- What a client holds once all that was sent is there. -/
def told (ms : List (Message R U J)) : OrderedMap R (Peer R U J) := ms.foldl applyPresence .empty

theorem get_applyShared (m : OrderedMap R (Peer R U J)) (e : R × Option J) (r : R) :
    ((applyShared m e).get r).isSome = (m.get r).isSome ∧ ∀ x, (applyShared m e).get r = some x →
      e.1 = r ∧ x.data = e.2 ∨ m.get r = some x ∧ e.1 ≠ r := by
  rw [applyShared]
  split
  · next hnone =>
    refine ⟨rfl, fun x hx => .inr ⟨hx, ?_⟩⟩
    rintro rfl
    exact nomatch hnone.symm.trans hx
  · next p hp =>
    rw [OrderedMap.get_set]
    split
    · next hr =>
      subst hr
      exact ⟨by rw [hp]; rfl, fun x hx => .inl ⟨rfl, Option.some.inj hx ▸ rfl⟩⟩
    · next hr => exact ⟨rfl, fun x hx => .inr ⟨hx, hr⟩⟩

/-- Shared data reaches the peers a client has. -/
theorem get_foldl_applyShared (l : List (R × Option J)) (m : OrderedMap R (Peer R U J)) (r : R) :
    ((l.foldl applyShared m).get r).isSome = (m.get r).isSome ∧ ∀ x, (l.foldl applyShared m).get r = some x →
      (∃ e ∈ l, e.1 = r ∧ x.data = e.2) ∨ m.get r = some x ∧ ∀ e ∈ l, e.1 ≠ r := by
  induction l generalizing m with
  | nil => exact ⟨rfl, fun x hx => .inr ⟨hx, by simp⟩⟩
  | cons e l ih =>
    obtain ⟨hsome, hcases⟩ := ih (applyShared m e)
    obtain ⟨hsome₁, hcases₁⟩ := get_applyShared m e r
    rw [List.foldl_cons]
    refine ⟨hsome.trans hsome₁, fun x hx => ?_⟩
    rcases hcases x hx with ⟨d, hd, hrest⟩ | ⟨hx, hnone⟩
    · exact .inl ⟨d, List.mem_cons_of_mem _ hd, hrest⟩
    · rcases hcases₁ x hx with hnow | ⟨hx, hne⟩
      · exact .inl ⟨e, List.mem_cons_self, hnow⟩
      · exact .inr ⟨hx, List.forall_mem_cons.mpr ⟨hne, hnone⟩⟩

namespace Roster

variable {s s' : Roster N R U J}

/-- Whether the peers a flush says have left are gone, or said to have joined as well. -/
def Timely (s : Roster N R U J) : Prop :=
  ∀ p e, s.noted.get p = some e → e.left = true → ∀ q ∈ s.listedPeers,
    (s.part q).replicaId = (s.part p).replicaId → ∃ q' ∈ s.listedPeers,
      (s.part q').replicaId = (s.part p).replicaId ∧ (s.noted.get q').any (·.joined) = true

omit [DecidableEq R] in
theorem mem_left {r : R} : r ∈ s.left ↔ ∃ p e, s.noted.get p = some e ∧ e.left = true ∧ (s.part p).replicaId = some r := by
  rw [left, List.mem_filterMap]
  constructor
  · rintro ⟨⟨p, e⟩, hmem, hr⟩
    obtain ⟨hleft, hr⟩ := Option.ite_none_right_eq_some.mp hr
    exact ⟨p, e, OrderedMap.mem_entries.mp hmem, hleft, hr⟩
  · rintro ⟨p, e, he, hleft, hr⟩
    exact ⟨(p, e), OrderedMap.mem_entries.mpr he, (if_pos hleft).trans hr⟩

omit [DecidableEq R] in
theorem mem_joined {x : Peer R U J} : x ∈ s.joined ↔ ∃ p e, s.noted.get p = some e ∧ e.left = false ∧
    e.joined = true ∧ s.peerOf p = some x := by
  rw [joined, List.mem_filterMap]
  constructor
  · rintro ⟨⟨p, e⟩, hmem, hx⟩
    obtain ⟨hcond, hx⟩ := Option.ite_none_right_eq_some.mp hx
    rw [Bool.and_eq_true, Bool.not_eq_true'] at hcond
    exact ⟨p, e, OrderedMap.mem_entries.mp hmem, hcond.1, hcond.2, hx⟩
  · rintro ⟨p, e, he, hleft, hjoined, hx⟩
    exact ⟨(p, e), OrderedMap.mem_entries.mpr he, (if_pos (by rw [hleft, hjoined]; rfl)).trans hx⟩

omit [DecidableEq R] in
theorem mem_shared {r : R} {d : Option J} : (r, d) ∈ s.shared ↔ ∃ p e, s.noted.get p = some e ∧ e.left = false ∧
    e.joined = false ∧ e.shared = true ∧ (s.part p).replicaId = some r ∧ (s.part p).shared = d := by
  rw [shared, List.mem_filterMap]
  constructor
  · rintro ⟨⟨p, e⟩, hmem, hx⟩
    obtain ⟨hcond, hx⟩ := Option.ite_none_right_eq_some.mp hx
    obtain ⟨r', hr, heq⟩ := Option.map_eq_some_iff.mp hx
    obtain ⟨rfl, rfl⟩ := Prod.mk.inj heq
    simp only [Bool.and_eq_true, Bool.not_eq_true'] at hcond
    exact ⟨p, e, OrderedMap.mem_entries.mp hmem, hcond.1.1, hcond.1.2, hcond.2, hr, rfl⟩
  · rintro ⟨p, e, he, hleft, hjoined, hshared, hr, rfl⟩
    refine ⟨(p, e), OrderedMap.mem_entries.mpr he, (if_pos (by rw [hleft, hjoined, hshared]; rfl)).trans ?_⟩
    rw [hr]
    rfl

omit [DecidableEq R] in
theorem peerOf_of_id {p : Speaker N} {r : R} (hr : (s.part p).replicaId = some r) :
    s.peerOf p = some ⟨r, (s.part p).user, (s.part p).shared⟩ := by
  rw [peerOf, hr]
  rfl

/-- A flush makes up for what was noted. -/
theorem tells_changes (h : s.Sane) (htimely : s.Timely) {m : OrderedMap R (Peer R U J)} (hm : s.Tells m.get) :
    ({ s with noted := .empty } : Roster N R U J).Tells
      (applyPresence m (.changes s.left s.joined s.shared)).get := by
  have hlisted : ∀ p e, s.noted.get p = some e → e.left = false → p ∈ s.listedPeers := by
    intro p e he hleft
    by_contra hgone
    have hgone := (h.noted p e he).2.2.1.mpr hgone
    exact nomatch hleft.symm.trans hgone
  -- a peer noted to have joined is there once the flush is in
  have hjoin : ∀ p r, (s.noted.get p).any (·.joined) = true → p ∈ s.listedPeers → (s.part p).replicaId = some r →
      ∃ x ∈ s.joined, x.replicaId = r := by
    intro p r hnoted hp hr
    obtain ⟨e, he, hjoined⟩ := Option.any_eq_true .. |>.mp hnoted
    have hleft : e.left = false := by
      by_contra hleft
      exact (h.noted p e he).2.2.1.mp (by simpa using hleft) hp
    exact ⟨_, mem_joined.mpr ⟨p, e, he, hleft, hjoined, peerOf_of_id hr⟩, rfl⟩
  generalize hm₁ : s.left.foldl (fun m r => m.erase r) m = m₁
  have hget₁ : ∀ r, m₁.get r = if r ∈ s.left then none else m.get r := hm₁ ▸ OrderedMap.get_foldl_erase s.left m
  generalize hm₂ : s.joined.foldl (fun m p => m.set p.replicaId p) m₁ = m₂
  have hget₂ := hm₂ ▸ OrderedMap.get_foldl_put (fun p : Peer R U J => p.replicaId) id s.joined m₁
  have hget₃ := get_foldl_applyShared s.shared m₂
  have hm₃ : applyPresence m (.changes s.left s.joined s.shared) = s.shared.foldl applyShared m₂ := by
    rw [← hm₂, ← hm₁]
    rfl
  rw [hm₃]
  constructor
  · intro p hp r hr
    right
    rw [(hget₃ r).1, (hget₂ r).1, hget₁]
    rcases hm.here p hp r hr with hnoted | hsome
    · exact .inr (hjoin p r hnoted hp hr)
    · by_cases hleft : r ∈ s.left
      · obtain ⟨q, e, he, hl, hq⟩ := mem_left.mp hleft
        obtain ⟨q', hq', hid, hnoted⟩ := htimely q e he hl p hp (hr.trans hq.symm)
        exact .inr (hjoin q' r hnoted hq' (hid.trans hq))
      · rw [if_neg hleft]
        exact .inl hsome
  · intro r x hx
    left
    rcases (hget₃ r).2 x hx with ⟨⟨r', d⟩, hmem, hr', hd⟩ | ⟨hx, hnoshare⟩
    · obtain ⟨p, e, he, hleft, -, -, hid, hshared⟩ := mem_shared.mp hmem
      exact ⟨p, hlisted p e he hleft, hid.trans (congrArg some hr'), .inl (hshared.trans hd.symm)⟩
    rcases (hget₂ r).2 x hx with ⟨y, hmem, hr', hy⟩ | ⟨hx, hnojoin⟩
    · obtain ⟨p, e, he, hleft, -, hpeer⟩ := mem_joined.mp hmem
      obtain rfl : y = x := hy
      obtain ⟨r'', hid, hpeer⟩ := Option.map_eq_some_iff.mp hpeer
      rw [← hpeer] at hr' ⊢
      exact ⟨p, hlisted p e he hleft, hid.trans (congrArg some hr'), .inl rfl⟩
    · rw [hget₁] at hx
      obtain ⟨hstays, hx⟩ := Option.ite_none_left_eq_some.mp hx
      rcases hm.there r x hx with ⟨p, hp, hid, hdata | hnoted⟩ | hgone
      · exact ⟨p, hp, hid, .inl hdata⟩
      · obtain ⟨e, he⟩ := Option.isSome_iff_exists.mp hnoted
        have hleft : e.left = false := by
          by_contra hleft
          exact (h.noted p e he).2.2.1.mp (by simpa using hleft) hp
        cases hjoined : e.joined with
        | true => exact absurd rfl (hnojoin _ (mem_joined.mpr ⟨p, e, he, hleft, hjoined, peerOf_of_id hid⟩))
        | false =>
          have hshared := ((h.noted p e he).2.2.2 hleft).resolve_left (by rw [hjoined]; exact Bool.false_ne_true)
          exact absurd rfl (hnoshare (r, _) (mem_shared.mpr ⟨p, e, he, hleft, hjoined, hshared, hid, rfl⟩))
      · exact absurd (mem_left.mpr hgone) hstays

/-- A whole list is right whatever is noted. -/
theorem tells_peers (s : Roster N R U J) : s.Tells (told [.peers s.peers]).get := by
  have hget := OrderedMap.get_foldl_put (fun p : Peer R U J => p.replicaId) id s.peers .empty
  constructor
  · intro p hp r hr
    right
    exact ((hget r).1).mpr (.inr ⟨⟨r, (s.part p).user, (s.part p).shared⟩, mem_peers.mpr ⟨p, hp, hr, rfl, rfl⟩, rfl⟩)
  · intro r x hx
    rcases (hget r).2 x hx with ⟨y, hmem, hr, hy⟩ | ⟨hx, -⟩
    · obtain ⟨p, hp, hid, -, hdata⟩ := mem_peers.mp hmem
      obtain rfl : y = x := hy
      exact .inl ⟨p, hp, hr ▸ hid, .inl hdata.symm⟩
    · exact nomatch hx

/-- What holds of a roster and of all a client was told. -/
structure Right (s : Roster N R U J) : Prop where
  sane : s.Sane
  tells : ∀ ms, s.sent = some ms → s.Tells (told ms).get

theorem right_start : (start : Roster N R U J).Right where
  sane := {
    speaks _ := rfl
    opened _ _ h := nomatch h
    granted _ _ _ h := nomatch h
    noted _ _ h := nomatch h }
  tells _ h := nomatch h

theorem Right.steps (h : s.Right) (hsteps : Steps s s') : s'.Right where
  sane := hsteps.sane
  tells ms hms := (h.tells ms (hsteps.sent ▸ hms)).moves h.sane hsteps.moves

theorem Right.sendPeers (h : s.Right) : s.sendPeers.Right where
  sane := h.sane.sends _
  tells ms hms := by
    obtain rfl := Option.some.inj hms
    exact (tells_peers s).sends _

theorem Right.flush (h : s.Right) (htimely : s.Timely) : s.flushPresence.Right := by
  have htold : ∀ ms, s.sent = some ms → ({ s with noted := .empty } : Roster N R U J).Tells
      (told (ms ++ [.changes s.left s.joined s.shared])).get := by
    intro ms hms
    rw [told, List.foldl_concat]
    exact tells_changes h.sane htimely (h.tells ms hms)
  rw [flushPresence]
  split
  · next hnone =>
    simp only [Bool.and_eq_true, List.isEmpty_iff] at hnone
    refine ⟨h.sane.flushed, fun ms hms => ?_⟩
    have hsame := htold ms hms
    rw [hnone.1.1, hnone.1.2, hnone.2, told, List.foldl_concat] at hsame
    exact hsame
  · refine ⟨h.sane.flushed.sends _, fun ms hms => ?_⟩
    obtain ⟨before, hbefore, rfl⟩ := Option.map_eq_some_iff.mp hms
    exact (htold before hbefore).sends _

instance (s : Roster N R U J) : Decidable s.Timely :=
  decidable_of_iff (∀ e ∈ s.noted.entries, e.2.left = true → ∀ q ∈ s.listedPeers,
      (s.part q).replicaId = (s.part e.1).replicaId → ∃ q' ∈ s.listedPeers,
        (s.part q').replicaId = (s.part e.1).replicaId ∧ (s.noted.get q').any (·.joined) = true)
    ⟨fun h p e he => h (p, e) (OrderedMap.mem_entries.mpr he), fun h e he => h e.1 e.2 (OrderedMap.mem_entries.mp he)⟩

section

variable [DecidableEq J]

/-- Whether a step goes as presence has it. -/
def Unfailing (e : Event N R U J) (s : Roster N R U J) : Prop :=
  match e with
  | .hello n replica follower share taken => s.Unheld n replica follower share taken
  | .flush => s.Timely
  | .openSession .. | .share .. | .shareAs .. | .grant .. | .ungrant .. | .close .. | .sendPeers => True

instance (e : Event N R U J) (s : Roster N R U J) : Decidable (Unfailing e s) :=
  match e with
  | .hello n replica follower share taken => inferInstanceAs (Decidable (s.Unheld n replica follower share taken))
  | .flush => inferInstanceAs (Decidable s.Timely)
  | .openSession .. | .share .. | .shareAs .. | .grant .. | .ungrant .. | .close .. | .sendPeers => .isTrue trivial

theorem Right.step (h : s.Right) {e : Event N R U J} (hok : Unfailing e s) (hstep : step e s = some s') : s'.Right := by
  obtain rfl := Option.some.inj hstep
  cases e with
  | openSession user mayFollow => exact h.steps (steps_openSession h.sane user mayFollow)
  | hello n replica follower share taken => exact h.steps (steps_hello h.sane hok)
  | share n data =>
    dsimp only
    rw [share]
    split
    · next hlisted =>
      have hplace : s.place (.session n) = true := hlisted
      exact h.steps (h.sane.setShared hplace data)
    · exact h
  | shareAs n as data =>
    dsimp only
    rw [shareAs]
    split
    · exact h
    · next k hk => exact h.steps (h.sane.setShared (by rw [place, hk]; exact decide_eq_true rfl) data)
  | grant n as user replica taken => exact h.steps (steps_grant h.sane n as user replica taken)
  | ungrant n as => exact h.steps (steps_ungrant h.sane n as)
  | close n => exact h.steps (steps_close h.sane n)
  | flush => exact h.flush hok
  | sendPeers => exact h.sendPeers

/-- A client that was sent the whole list and every change since has a peer for exactly the replicas the store
lists, with data one of that replica's peers shares, whenever nothing is noted. -/
theorem presence_adds_up (h : Reaches step Unfailing start s) {ms : List (Message R U J)} (hsent : s.sent = some ms)
    (hflushed : ∀ p, s.noted.get p = none) :
    (∀ r, ((told ms).get r).isSome = true ↔ ∃ x ∈ s.peers, x.replicaId = r) ∧
      ∀ r x, (told ms).get r = some x → ∃ y ∈ s.peers, y.replicaId = r ∧ y.data = x.data := by
  have hright : s.Right := h.invariant right_start fun _ _ _ hs hok hstep => hs.step hok hstep
  obtain ⟨hhere, hthere⟩ := hright.tells ms hsent
  have hpeer : ∀ r x, (told ms).get r = some x → ∃ y ∈ s.peers, y.replicaId = r ∧ y.data = x.data := by
    intro r x hx
    rcases hthere r x hx with ⟨p, hp, hid, hdata | hnoted⟩ | ⟨p, e, he, -⟩
    · exact ⟨⟨r, (s.part p).user, (s.part p).shared⟩, mem_peers.mpr ⟨p, hp, hid, rfl, rfl⟩, rfl, hdata⟩
    · simp [hflushed] at hnoted
    · exact nomatch (hflushed p).symm.trans he
  refine ⟨fun r => ⟨fun hsome => ?_, ?_⟩, hpeer⟩
  · obtain ⟨x, hx⟩ := Option.isSome_iff_exists.mp hsome
    obtain ⟨y, hy, hr, -⟩ := hpeer r x hx
    exact ⟨y, hy, hr⟩
  · rintro ⟨y, hy, rfl⟩
    obtain ⟨p, hp, hid, -⟩ := mem_peers.mp hy
    refine (hhere p hp y.replicaId hid).resolve_left ?_
    simp [hflushed]

end

/-- A client reconnects, and its old session is noticed gone in the window its new one joins in. -/
def reconnected : List (Event ℕ ℕ ℕ ℕ) :=
  [.openSession (some 7) false, .hello 0 5 false (some (some 1)) false, .openSession none false, .sendPeers,
    .hello 1 6 false none false, .flush, .openSession (some 7) false, .hello 2 5 false none false, .close 0,
    .share 2 (some 3), .flush]

theorem presence_adds_up_reconnected : ∃ (s : Roster ℕ ℕ ℕ ℕ) (ms : List (Message ℕ ℕ ℕ)), s.sent = some ms ∧
    s.peers.map (·.replicaId) = [6, 5] ∧ ∀ r, ((told ms).get r).isSome = true ↔ ∃ x ∈ s.peers, x.replicaId = r := by
  obtain ⟨s, hreach, hsent, hnoted, hpeers⟩ := @Reaches.exists_of_replay (Roster ℕ ℕ ℕ ℕ) (Event ℕ ℕ ℕ ℕ) step
    Unfailing start (fun e s => decide (Unfailing e s)) (fun e s h => of_decide_eq_true h) reconnected
    (fun s => s.sent.isSome = true ∧ s.noted.entries = [] ∧ s.peers.map (·.replicaId) = [6, 5]) _ (by decide +kernel)
  obtain ⟨ms, hms⟩ := Option.isSome_iff_exists.mp hsent
  refine ⟨s, ms, hms, hpeers, (presence_adds_up hreach hms fun p => ?_).1⟩
  rw [OrderedMap.get, hnoted]
  rfl

/-- The old session of a client that reconnected is noticed gone after a flush: its peer goes, though the new
session is there. -/
theorem reconnected_and_gone : ¬ ∀ s : Roster ℕ ℕ ℕ ℕ, Reaches step (fun _ _ => True) start s →
    ∀ ms, s.sent = some ms → (∀ p, s.noted.get p = none) →
      ∀ r, ((told ms).get r).isSome = true ↔ ∃ x ∈ s.peers, x.replicaId = r := by
  intro h
  obtain ⟨s, hreach, hsent, hnoted, hpeers⟩ := @Reaches.exists_of_replay (Roster ℕ ℕ ℕ ℕ) (Event ℕ ℕ ℕ ℕ) step
    (fun _ _ => True) start (fun _ _ => true) (fun _ _ _ => trivial)
    [.openSession none false, .hello 0 5 false none false, .flush, .openSession none false, .sendPeers,
      .openSession none false, .hello 2 5 false none false, .flush, .close 0, .flush]
    (fun s => s.sent.any (fun ms => ((told ms).get 5).isNone) = true ∧ s.noted.entries = [] ∧
      s.peers.map (·.replicaId) = [5]) _ (by decide +kernel)
  obtain ⟨ms, hms, hnone⟩ := Option.any_eq_true .. |>.mp hsent
  have hnoted : ∀ p, s.noted.get p = none := fun p => by rw [OrderedMap.get, hnoted]; rfl
  obtain ⟨x, hx, hr⟩ := List.mem_map.mp (hpeers ▸ List.mem_singleton_self 5 : 5 ∈ s.peers.map (·.replicaId))
  have hsome := (h s hreach ms hms hnoted 5).mpr ⟨x, hx, hr⟩
  rw [Option.isNone_iff_eq_none] at hnone
  rw [hnone] at hsome
  exact Bool.false_ne_true hsome

end Roster

end LazyStorage.Server.Presence
