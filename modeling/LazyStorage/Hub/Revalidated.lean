import LazyStorage.Hub.Vouching

/-! # Whom a call of `revalidate` leaves in

The stores waiting for a verdict start over and the sessions are judged, so those are
the hooks' to let in now. The clients granted on a session kept are not judged, nor is a
vouch disowned that waits for a hook's answer.
-/
namespace LazyStorage.Hub

open Lib

variable {I M N C : Type} [DecidableEq I] [DecidableEq N]

namespace Socket

/-- Attempts begun since, but those of the stores listed; a yes of `authorizeId` in them is one given now. -/
structure Fresh (hooks : Hooks I C) (since : ℕ) (rest : List I) (s : Socket I M) : Prop where
  attempts : since ≤ s.attempts
  waiting : ∀ id a, s.pending.get id = some a → since ≤ a.token ∨ id ∈ rest
  checks : ∀ c ∈ s.checks, since ≤ c.token → c.byStore = true → hooks.byId none c.id = true

/-- A session opened meanwhile is new, let in by the hooks as they are, in an attempt begun since. -/
structure Onward (hooks : Hooks I C) (since : ℕ) (s s' : Socket I M) : Prop where
  made : s.made ≤ s'.made
  sessions : ∀ id n, s'.sessions.get id = some n →
    s.sessions.get id = some n ∨ s.made ≤ n ∧ hooks.allow none id = true
  trace : ∃ more, s'.trace = s.trace ++ more ∧ ∀ id token n, .opened id token n ∈ more → since ≤ token

variable {hooks : Hooks I C} {since : ℕ} {rest : List I} {s s' : Socket I M} {id : I} {n token : ℕ}
  {replies : Replies}

theorem Onward.refl (hooks : Hooks I C) (since : ℕ) (s : Socket I M) : Onward hooks since s s :=
  ⟨Nat.le_refl _, fun _ _ => .inl, [], by simp, by simp⟩

theorem Onward.trans {s'' : Socket I M} (h : Onward hooks since s s') (h' : Onward hooks since s' s'') :
    Onward hooks since s s'' := by
  obtain ⟨more, hmore, hopened⟩ := h.trace
  obtain ⟨more', hmore', hopened'⟩ := h'.trace
  refine ⟨Nat.le_trans h.made h'.made, fun id n hn => ?_, more ++ more', ?_, fun id token n hmem => ?_⟩
  · rcases h'.sessions id n hn with hold | ⟨hnew, hallow⟩
    · exact h.sessions id n hold
    · exact .inr ⟨Nat.le_trans h.made hnew, hallow⟩
  · rw [hmore', hmore, List.append_assoc]
  · rcases List.mem_append.mp hmem with hmem | hmem
    · exact hopened id token n hmem
    · exact hopened' id token n hmem

/-- A step that opens nothing. -/
theorem Onward.of_sessions {o : Obs I M} (hmade : s'.made = s.made)
    (hsessions : ∀ id n, s'.sessions.get id = some n → s.sessions.get id = some n)
    (htrace : s'.trace = s.trace ++ [o]) (ho : ∀ id token n, o ≠ .opened id token n) :
    Onward hooks since s s' := by
  refine ⟨Nat.le_of_eq hmade.symm, fun id n hn => .inl (hsessions id n hn), [o], htrace, fun id token n hmem => ?_⟩
  exact absurd (List.mem_singleton.mp hmem).symm (ho id token n)

theorem get_of_get_erase {α β : Type} [DecidableEq α] {m : OrderedMap α β} {a x : α} {b : β}
    (h : (m.erase a).get x = some b) : m.get x = some b := by
  rw [OrderedMap.get_erase] at h
  split at h
  · cases h
  · exact h

theorem onward_endSession (id : I) (n : ℕ) (s : Socket I M) : Onward hooks since s (s.endSession id n) :=
  .of_sessions rfl (fun _ _ hk => get_of_get_erase hk) rfl (by simp)

theorem onward_say (s : Socket I M) {o : Obs I M} (ho : ∀ id token n, o ≠ .opened id token n) :
    Onward hooks since s (s.say o) :=
  .of_sessions rfl (fun _ _ hk => hk) rfl ho

theorem onward_deny (id : I) (s : Socket I M) : Onward hooks since s (s.deny id) :=
  .of_sessions rfl (fun _ _ hk => hk) rfl (by simp)

theorem onward_openStore (hallow : hooks.allow none id = true) (htoken : since ≤ token) (s : Socket I M) :
    Onward hooks since s (s.openStore id token) := by
  refine ⟨Nat.le_succ _, fun i k hk => ?_, [.opened id token s.made], rfl, fun i t k hmem => ?_⟩
  · rw [openStore, say, OrderedMap.get_set] at hk
    split at hk
    · next hi => exact .inr ⟨Nat.le_of_eq (Option.some.inj hk), hi ▸ hallow⟩
    · exact .inl hk
  · obtain ⟨-, rfl, -⟩ := Obs.opened.inj (List.mem_singleton.mp hmem)
    exact htoken

theorem Fresh.congr (h : s.Fresh hooks since rest) (hattempts : s'.attempts = s.attempts)
    (hpending : ∀ id a, s'.pending.get id = some a → ∃ b, s.pending.get id = some b ∧ b.token = a.token)
    (hchecks : ∀ c ∈ s'.checks, c ∈ s.checks) : s'.Fresh hooks since rest where
  attempts := hattempts ▸ h.attempts
  waiting id a ha := by
    obtain ⟨b, hb, htoken⟩ := hpending id a ha
    exact htoken ▸ h.waiting id b hb
  checks c hc := h.checks c (hchecks c hc)

theorem Fresh.deny (h : s.Fresh hooks since rest) (id : I) : (s.deny id).Fresh hooks since rest :=
  h.congr rfl (fun _ a ha => ⟨a, get_of_get_erase ha, rfl⟩) fun _ hc => hc

theorem Fresh.deliver (h : s.Fresh hooks since rest) (id : I) (m : M) (ends : Bool) :
    (s.deliver id m ends).Fresh hooks since rest ∧ Onward hooks since s (s.deliver id m ends) := by
  rw [Socket.deliver]
  split
  · exact ⟨h, .refl ..⟩
  split
  · exact ⟨⟨h.attempts, h.waiting, h.checks⟩, (onward_say s (by simp)).trans (onward_endSession ..)⟩
  · exact ⟨⟨h.attempts, h.waiting, h.checks⟩, onward_say s (by simp)⟩

theorem Fresh.deliverAll (h : s.Fresh hooks since rest) (id : I) (ms : List M) (ends : ℕ → Bool) :
    (s.deliverAll id ms ends).Fresh hooks since rest ∧ Onward hooks since s (s.deliverAll id ms ends) := by
  induction ms generalizing s ends with
  | nil => exact ⟨h, .refl ..⟩
  | cons m ms ih =>
    obtain ⟨hfirst, honward⟩ := h.deliver id m (ends 0)
    obtain ⟨hrest, hafter⟩ := ih hfirst fun i => ends (i + 1)
    exact ⟨hrest, honward.trans hafter⟩

theorem Fresh.onStore (h : s.Fresh hooks since rest) {a : Attempt M} (htoken : since ≤ a.token)
    (hid : hooks.byId none id = true) (ends : ℕ → Bool) {v : Verdict}
    (hv : v = .yes → hooks.byStore none id = true) :
    (s.onStore id a ends v).Fresh hooks since rest ∧ Onward hooks since s (s.onStore id a ends v) := by
  cases v with
  | yes =>
    have hallow : hooks.allow none id = true := Bool.and_eq_true_iff.mpr ⟨hid, hv rfl⟩
    let opening : Socket I M := { s.say (.allowed a.token true) with pending := s.pending.erase id }
    have hsaid : Onward hooks since s opening := .of_sessions rfl (fun _ _ hk => hk) rfl (by simp)
    have hopened : opening.Fresh hooks since rest :=
      h.congr rfl (fun _ b hb => ⟨b, get_of_get_erase hb, rfl⟩) fun _ hc => hc
    have hfresh : (opening.openStore id a.token).Fresh hooks since rest :=
      ⟨hopened.attempts, hopened.waiting, hopened.checks⟩
    obtain ⟨hall, hafter⟩ := hfresh.deliverAll id a.queued ends
    exact ⟨hall, (hsaid.trans (onward_openStore hallow htoken opening)).trans hafter⟩
  | no => exact ⟨h.deny id, onward_deny ..⟩
  | throws => exact ⟨h.deny id, onward_deny ..⟩

theorem Fresh.onId (h : s.Fresh hooks since rest) {a : Attempt M} (htoken : since ≤ a.token)
    (hgive : hooks.Give id replies) (ends : ℕ → Bool) {v : Verdict} (hv : v = .yes → hooks.byId none id = true) :
    (s.onId id a replies ends v).Fresh hooks since rest ∧ Onward hooks since s (s.onId id a replies ends v) := by
  cases v with
  | yes =>
    have hid := hv rfl
    have hsaid : Onward hooks since s (s.say (.allowed a.token false)) := onward_say s (by simp)
    have hfresh : (s.say (.allowed a.token false)).Fresh hooks since rest := ⟨h.attempts, h.waiting, h.checks⟩
    rw [Socket.onId]
    split
    · split
      · next w hw =>
        obtain ⟨hstore, hafter⟩ := hfresh.onStore (v := w) htoken hid ends fun heq => hgive.2 (hw.trans (heq ▸ rfl))
        exact ⟨hstore, hsaid.trans hafter⟩
      · refine ⟨⟨h.attempts, h.waiting, fun c hc => ?_⟩, hsaid.made, hsaid.sessions, hsaid.trace⟩
        rcases List.mem_append.mp hc with hc | hc
        · exact h.checks c hc
        · obtain rfl := List.mem_singleton.mp hc
          exact fun _ _ => hid
    · exact ⟨hfresh.deny id, hsaid.trans (onward_deny ..)⟩
  | no => exact ⟨h.deny id, onward_deny ..⟩
  | throws => exact ⟨h.deny id, onward_deny ..⟩

/-- A new attempt is one begun since. -/
theorem Fresh.admission (h : s.Fresh hooks since (id :: rest)) (queued : List M) (hgive : hooks.Give id replies)
    (ends : ℕ → Bool) : (s.admission id queued replies ends).Fresh hooks since rest ∧
      Onward hooks since s (s.admission id queued replies ends) := by
  let begun : Socket I M := { s with
    pending := s.pending.set id ⟨s.attempts, queued⟩, attempts := s.attempts + 1 }.say (.begun id s.attempts)
  have hbegun : begun.Fresh hooks since rest := by
    refine ⟨Nat.le_succ_of_le h.attempts, fun i a ha => ?_, h.checks⟩
    simp only [begun, say, OrderedMap.get_set] at ha
    split at ha
    · exact .inl (Option.some.inj ha ▸ h.attempts)
    · next hi =>
      exact (h.waiting i a ha).imp_right fun hmem => (List.mem_cons.mp hmem).resolve_left (Ne.symm hi)
  have hsaid : Onward hooks since s begun := .of_sessions rfl (fun _ _ hk => hk) rfl (by simp)
  rw [Socket.admission]
  split
  · next v hv =>
    obtain ⟨hid, hafter⟩ := hbegun.onId (a := ⟨s.attempts, queued⟩) (v := v) h.attempts hgive ends
      fun heq => hgive.1 (hv.trans (heq ▸ rfl))
    exact ⟨hid, hsaid.trans hafter⟩
  · refine ⟨⟨hbegun.attempts, hbegun.waiting, fun c hc => ?_⟩, hsaid.made, hsaid.sessions, hsaid.trace⟩
    rcases List.mem_append.mp hc with hc | hc
    · exact h.checks c hc
    · obtain rfl := List.mem_singleton.mp hc
      exact fun _ hb => by cases hb

theorem Fresh.receive (h : s.Fresh hooks since []) (m : M) (hgive : hooks.Give id replies) (ends : ℕ → Bool) :
    (s.receive id m replies ends).Fresh hooks since [] ∧ Onward hooks since s (s.receive id m replies ends) := by
  have hreceived : (s.say (.received id m)).Fresh hooks since [] := ⟨h.attempts, h.waiting, h.checks⟩
  have hsaid : Onward hooks since s (s.say (.received id m)) := onward_say s (by simp)
  rw [Socket.receive]
  split
  · obtain ⟨hdelivered, hafter⟩ := hreceived.deliver id m (ends 0)
    exact ⟨hdelivered, hsaid.trans hafter⟩
  split
  · next a ha =>
    refine ⟨hreceived.congr rfl (fun i b hb => ?_) fun _ hc => hc, hsaid.made, hsaid.sessions, hsaid.trace⟩
    simp only [OrderedMap.get_set] at hb
    split at hb
    · next hi =>
      obtain rfl := Option.some.inj hb
      exact ⟨a, hi ▸ ha, rfl⟩
    · exact ⟨b, hb, rfl⟩
  · have hone : (s.say (.received id m)).Fresh hooks since [id] :=
      ⟨h.attempts, fun i a ha => .inl ((h.waiting i a ha).resolve_right List.not_mem_nil), h.checks⟩
    obtain ⟨hadmitted, hafter⟩ := hone.admission [m] hgive ends
    exact ⟨hadmitted, hsaid.trans hafter⟩

theorem Fresh.leave (h : s.Fresh hooks since []) (id : I) :
    (s.leave id).Fresh hooks since [] ∧ Onward hooks since s (s.leave id) := by
  rw [Socket.leave]
  cases s.sessions.get id with
  | some n =>
    refine ⟨h.congr rfl (fun _ a ha => ⟨a, get_of_get_erase ha, rfl⟩) fun _ hc => hc, ?_⟩
    exact (onward_endSession id n s).trans (.of_sessions rfl (fun _ _ hk => hk) rfl (by simp))
  | none =>
    refine ⟨h.congr rfl (fun _ a ha => ⟨a, get_of_get_erase ha, rfl⟩) fun _ hc => hc, ?_⟩
    exact .of_sessions rfl (fun _ _ hk => hk) rfl (by simp)

theorem Fresh.settle (h : s.Fresh hooks since []) (i : ℕ) {c : Check I} (hc : c ∈ s.checks) {v : Verdict}
    (hgive : hooks.Give c.id replies) (hv : since ≤ c.token → v = .yes →
      (if c.byStore then hooks.byStore none c.id else hooks.byId none c.id) = true) (ends : ℕ → Bool) :
    (s.settle i c v replies ends).Fresh hooks since [] ∧ Onward hooks since s (s.settle i c v replies ends) := by
  have htaken : ({ s with checks := s.checks.eraseIdx i } : Socket I M).Fresh hooks since [] :=
    h.congr rfl (fun _ a ha => ⟨a, ha, rfl⟩) fun _ hd => List.mem_of_mem_eraseIdx hd
  have hsame : Onward hooks since s { s with checks := s.checks.eraseIdx i } :=
    ⟨Nat.le_refl _, fun _ _ => .inl, [], by simp, by simp⟩
  rw [Socket.settle]
  split
  · exact ⟨htaken, hsame⟩
  split
  · exact ⟨htaken, hsame⟩
  next a ha =>
  split
  · exact ⟨htaken, hsame⟩
  next hcurrent =>
  -- the verdict of the attempt that stands, and so one begun since
  have htoken : since ≤ a.token := (h.waiting c.id a ha).resolve_right List.not_mem_nil
  have hasked : since ≤ c.token := of_not_not hcurrent ▸ htoken
  split
  · next hb =>
    simp only [hb, if_true] at hv
    obtain ⟨hstore, hafter⟩ := htaken.onStore htoken (h.checks c hc hasked hb) ends (hv hasked)
    exact ⟨hstore, hsame.trans hafter⟩
  · next hb =>
    simp only [hb] at hv
    obtain ⟨hid, hafter⟩ := htaken.onId htoken hgive ends (hv hasked)
    exact ⟨hid, hsame.trans hafter⟩

/-- The stores waiting start over, each in an attempt begun since. -/
theorem Fresh.startOver {replies : I → Replies} {l : List (I × Attempt M)}
    (h : s.Fresh hooks since (l.map Prod.fst ++ rest)) (hgive : ∀ id, hooks.Give id (replies id))
    (ends : I → ℕ → Bool) :
    (l.foldl (fun s e => (s.say (.revalidated e.1)).admission e.1 e.2.queued (replies e.1) (ends e.1)) s).Fresh
      hooks since rest ∧ Onward hooks since s
        (l.foldl (fun s e => (s.say (.revalidated e.1)).admission e.1 e.2.queued (replies e.1) (ends e.1)) s) := by
  induction l generalizing s with
  | nil => exact ⟨h, .refl ..⟩
  | cons e l ih =>
    have hsaid : (s.say (.revalidated e.1)).Fresh hooks since (e.1 :: (l.map Prod.fst ++ rest)) :=
      ⟨h.attempts, h.waiting, h.checks⟩
    obtain ⟨hnext, hafter⟩ := hsaid.admission e.2.queued (hgive e.1) (ends e.1)
    obtain ⟨hrest, hlast⟩ := ih hnext
    exact ⟨hrest, ((onward_say s (by simp)).trans hafter).trans hlast⟩

theorem Fresh.revalidate {replies : I → Replies} (judged : I → Bool)
    (h : s.Fresh hooks since ((s.pending.entries.filter fun e => judged e.1).map Prod.fst ++ rest))
    (hgive : ∀ id, hooks.Give id (replies id)) (ends : I → ℕ → Bool) :
    (s.revalidate judged replies ends).Fresh hooks since rest ∧
      Onward hooks since s (s.revalidate judged replies ends) := by
  obtain ⟨hover, hafter⟩ := h.startOver hgive ends
  refine ⟨⟨hover.attempts, hover.waiting, hover.checks⟩, hafter.trans ⟨Nat.le_refl _, fun _ _ => .inl, _, rfl, ?_⟩⟩
  simp

theorem onward_rejudge (i : ℕ) (e : I × ℕ) (ok : Bool) (s : Socket I M) :
    Onward hooks since s (s.rejudge i e ok) := by
  have hsame : Onward hooks since s { s with judged := s.judged.eraseIdx i } :=
    ⟨Nat.le_refl _, fun _ _ => .inl, [], by simp, by simp⟩
  rw [rejudge]
  split
  · exact hsame
  · exact hsame.trans (onward_endSession ..)

theorem Fresh.rejudge (h : s.Fresh hooks since rest) (i : ℕ) (e : I × ℕ) (ok : Bool) :
    (s.rejudge i e ok).Fresh hooks since rest := by
  rw [Socket.rejudge]
  split <;> exact ⟨h.attempts, h.waiting, h.checks⟩

theorem Fresh.step (h : s.Fresh hooks since []) {e : Event I M} (hanswers : hooks.Answers since e s)
    (hstep : step e s = some s') : s'.Fresh hooks since [] ∧ Onward hooks since s s' := by
  cases e with
  | receive id m replies ends =>
    obtain rfl := Option.some.inj hstep
    split
    · exact ⟨h, .refl ..⟩
    · exact h.receive m hanswers ends
  | leave id =>
    obtain rfl := Option.some.inj hstep
    split
    · exact ⟨h, .refl ..⟩
    · exact h.leave id
  | settle i v replies ends =>
    obtain ⟨c, hc, rfl⟩ := Option.map_eq_some_iff.mp hstep
    obtain ⟨hgive, hv⟩ := hanswers c hc
    exact h.settle i (List.mem_of_getElem? hc) hgive hv ends
  | revalidate judged replies ends =>
    obtain rfl := Option.some.inj hstep
    split
    · exact ⟨h, .refl ..⟩
    · have hmore : s.Fresh hooks since ((s.pending.entries.filter fun e => judged e.1).map Prod.fst ++ []) :=
        ⟨h.attempts, fun id a ha => .inl ((h.waiting id a ha).resolve_right List.not_mem_nil), h.checks⟩
      exact hmore.revalidate judged hanswers ends
  | rejudge i ok =>
    obtain ⟨e, -, rfl⟩ := Option.map_eq_some_iff.mp hstep
    exact ⟨h.rejudge i e ok, onward_rejudge i e ok s⟩
  | evict id =>
    obtain ⟨n, -, rfl⟩ := Option.map_eq_some_iff.mp hstep
    exact ⟨⟨h.attempts, h.waiting, h.checks⟩, onward_endSession id n s⟩
  | close =>
    obtain rfl := Option.some.inj hstep
    exact ⟨h.congr rfl (fun _ _ ha => nomatch ha) fun _ hc => hc,
      .of_sessions rfl (fun _ _ hn => nomatch hn) rfl (by simp)⟩

/-- A session that stays after it was judged again was let in, or the hub was closed meanwhile. -/
theorem sessions_rejudge {i : ℕ} {e : I × ℕ} {ok : Bool}
    (hn : (s.rejudge i e ok).sessions.get id = some n) :
    s.sessions.get id = some n ∧ (e = (id, n) → ok = true ∨ s.closed = true) := by
  rw [rejudge] at hn
  split at hn
  · next hcond =>
    refine ⟨hn, ?_⟩
    rintro rfl
    simpa [show s.sessions.get id = some n from hn] using hcond
  · refine ⟨get_of_get_erase hn, ?_⟩
    rintro rfl
    have hgone := (OrderedMap.get_erase_self ..).symm.trans hn
    cases hgone

section Elsewhere

variable {i : I}

theorem sessions_deliverAll (hne : id ≠ i) (ms : List M) (ends : ℕ → Bool) (s : Socket I M) :
    (s.deliverAll id ms ends).sessions.get i = s.sessions.get i := by
  induction ms generalizing s ends with
  | nil => rfl
  | cons m ms ih =>
    rw [deliverAll, ih, deliver]
    split
    · rfl
    split
    · exact OrderedMap.get_erase_of_ne _ hne
    · rfl

theorem sessions_onStore (hne : id ≠ i) (a : Attempt M) (ends : ℕ → Bool) (v : Verdict) (s : Socket I M) :
    (s.onStore id a ends v).sessions.get i = s.sessions.get i := by
  cases v with
  | yes => exact (sessions_deliverAll hne ..).trans (OrderedMap.get_set_of_ne _ _ hne)
  | no => rfl
  | throws => rfl

/-- An attempt to open a store opens or ends no session of another. -/
theorem sessions_admission (hne : id ≠ i) (queued : List M) (replies : Replies) (ends : ℕ → Bool)
    (s : Socket I M) : (s.admission id queued replies ends).sessions.get i = s.sessions.get i := by
  rw [admission]
  split
  · next v _ =>
    cases v with
    | yes =>
      rw [onId]
      split
      · split
        · exact sessions_onStore hne ..
        · rfl
      · rfl
    | no => rfl
    | throws => rfl
  · rfl

theorem sessions_startOver {l : List (I × Attempt M)} (hne : ∀ e ∈ l, e.1 ≠ i) (replies : I → Replies)
    (ends : I → ℕ → Bool) (s : Socket I M) : (l.foldl (fun s e =>
      (s.say (.revalidated e.1)).admission e.1 e.2.queued (replies e.1) (ends e.1)) s).sessions.get i =
        s.sessions.get i := by
  induction l generalizing s with
  | nil => rfl
  | cons e l ih =>
    rw [List.foldl_cons, ih fun d hd => hne d (List.mem_cons_of_mem _ hd)]
    exact sessions_admission (hne e List.mem_cons_self) ..

/-- The sessions there are stay where stores start over. -/
theorem sessions_revalidate (h : s.Sound fun _ => []) (hn : s.sessions.get i = some n) (judged : I → Bool)
    (replies : I → Replies) (ends : I → ℕ → Bool) :
    (s.revalidate judged replies ends).sessions.get i = some n := by
  refine (sessions_startOver (fun e he => ?_) replies ends s).trans hn
  rintro rfl
  have ha := OrderedMap.mem_entries.mp (List.mem_filter.mp he).1
  exact nomatch ((h.each e.1).waiting e.2 ha).2.1.symm.trans hn

end Elsewhere

/-- A closed hub has no session. -/
def Shut (s : Socket I M) : Prop := s.closed = true → ∀ id, s.sessions.get id = none

theorem shut_of_closed (hclosed : s'.closed = s.closed) (hopen : s.closed = false) : s'.Shut :=
  fun hshut => absurd (hshut.symm.trans (hclosed.trans hopen)) Bool.noConfusion

theorem closed_startOver (replies : I → Replies) (ends : I → ℕ → Bool) (l : List (I × Attempt M))
    (s : Socket I M) : (l.foldl (fun s e =>
      (s.say (.revalidated e.1)).admission e.1 e.2.queued (replies e.1) (ends e.1)) s).closed = s.closed := by
  induction l generalizing s with
  | nil => rfl
  | cons e l ih => exact (ih _).trans (aside_admission ..).closed

theorem closed_receive (id : I) (m : M) (replies : Replies) (ends : ℕ → Bool) (s : Socket I M) :
    (s.receive id m replies ends).closed = s.closed := by
  rw [receive]
  split
  · exact (aside_deliverAll id [m] ends _).closed
  · split
    · rfl
    · exact (aside_admission ..).closed

theorem Shut.erase (h : s.Shut) (id : I) : ({ s with sessions := s.sessions.erase id } : Socket I M).Shut := by
  intro hc i
  refine Option.eq_none_iff_forall_ne_some.mpr fun n hn => ?_
  exact nomatch (h hc i).symm.trans (get_of_get_erase hn)

theorem Shut.rejudge (h : s.Shut) (i : ℕ) (e : I × ℕ) (ok : Bool) : (s.rejudge i e ok).Shut := by
  rw [Socket.rejudge]
  split
  · exact h
  · exact h.erase e.1

theorem Shut.step (h : s.Shut) {e : Event I M} (hstep : step e s = some s') : s'.Shut := by
  cases e with
  | receive id m replies ends =>
    obtain rfl := Option.some.inj hstep
    split
    · exact h
    · next hopen => exact shut_of_closed (closed_receive ..) (eq_false_of_ne_true hopen)
  | leave id =>
    obtain rfl := Option.some.inj hstep
    split
    · exact h
    · next hopen =>
      refine shut_of_closed ?_ (eq_false_of_ne_true hopen)
      rw [leave]
      split <;> rfl
  | settle i v replies ends =>
    obtain ⟨c, -, rfl⟩ := Option.map_eq_some_iff.mp hstep
    rw [settle]
    split
    · exact h
    next hopen =>
    split
    · exact h
    split
    · exact h
    split
    · exact shut_of_closed (aside_onStore ..).closed (eq_false_of_ne_true hopen)
    · exact shut_of_closed (aside_onId ..).closed (eq_false_of_ne_true hopen)
  | revalidate judged replies ends =>
    obtain rfl := Option.some.inj hstep
    split
    · exact h
    · next hopen => exact shut_of_closed (closed_startOver ..) (eq_false_of_ne_true hopen)
  | rejudge i ok =>
    obtain ⟨e, -, rfl⟩ := Option.map_eq_some_iff.mp hstep
    exact h.rejudge i e ok
  | evict id =>
    obtain ⟨n, -, rfl⟩ := Option.map_eq_some_iff.mp hstep
    exact h.erase id
  | close =>
    obtain rfl := Option.some.inj hstep
    exact fun _ _ => rfl

theorem made_le_of_step {e : Event I M} (hstep : step e s = some s') : s.made ≤ s'.made := by
  let yielding : Hooks I Unit := ⟨fun _ _ => true, fun _ _ => true⟩
  have hfresh : s.Fresh yielding 0 [] := ⟨Nat.zero_le _, fun _ _ _ => .inl (Nat.zero_le _), fun _ _ _ _ => rfl⟩
  refine (hfresh.step (e := e) ?_ hstep).2.made
  cases e <;> simp [Hooks.Answers, Hooks.Give, yielding]

theorem Sound.lt_of_handed (h : s.Sound fun _ => []) {m : M} (hmem : .handed n m ∈ s.trace) : n < s.made := by
  refine Nat.lt_of_not_le fun hle => ?_
  have hhanded : m ∈ handedTo n s.trace := List.mem_filterMap.mpr ⟨_, hmem, if_pos rfl⟩
  rw [h.fresh n hle] at hhanded
  exact nomatch hhanded

end Socket

namespace FollowerHub

variable {asks : M → Option N} {hooks : Hooks I C} {h h' call : FollowerHub I M N C} {s : Socket I M}
  {v : Vouch I N C} {yes taken : Bool} {i : ℕ}

omit [DecidableEq I] [DecidableEq N] in
/-- A vouch begins with its client's credential, on a message handed to its session. -/
theorem begun_of_vouchFor {trace : List (Obs I M)} {o : Obs I M} (ho : vouchFor asks trace o = some v) :
    v.stage = .credential ∧ ∃ m, o = .handed v.session m := by
  cases o with
  | handed n m =>
    obtain ⟨as, -, hv⟩ := Option.bind_eq_some_iff.mp ho
    obtain ⟨id, -, rfl⟩ := Option.map_eq_some_iff.mp hv
    exact ⟨rfl, m, rfl⟩
  | _ => exact nomatch ho

theorem mem_vouches_onward (hv : v ∈ (h.onward asks s).vouches) :
    v ∈ h.vouches ∨ v.stage = .credential ∧ ∃ m, .handed v.session m ∈ s.trace := by
  refine (List.mem_append.mp hv).imp_right fun hnew => ?_
  obtain ⟨o, ho, hbegun⟩ := List.mem_filterMap.mp hnew
  obtain ⟨hstage, m, rfl⟩ := begun_of_vouchFor hbegun
  exact ⟨hstage, m, List.mem_of_mem_drop ho⟩

theorem get_grants_onward {k : I × ℕ × N} {c : C} (hc : (h.onward asks s).grants.get k = some c) :
    h.grants.get k = some c ∧ s.sessions.get k.1 = some k.2.1 := by
  rw [onward, OrderedMap.get_filter] at hc
  obtain ⟨hget, hon⟩ := Option.filter_eq_some_iff.mp hc
  exact ⟨hget, of_decide_eq_true hon⟩

/-- What a hook's answer does: the vouch goes on to the next hook, lets its client in, or is over. -/
theorem verdict_cases (hstep : h.verdict i v yes taken = some h') :
    h' = { h with vouches := h.vouches.eraseIdx i } ∨
    (∃ c, v.stage = .byId c ∧ yes = true ∧ h' = { h with vouches := h.vouches.set i { v with stage := .byStore c } }) ∨
    ∃ c, v.stage = .byStore c ∧ yes = true ∧ h.socket.sessions.get v.id = some v.session ∧
      h' = { h with vouches := h.vouches.eraseIdx i, grants := h.grants.set (v.id, v.session, v.as) c
                    admitted := h.admitted ++ [v] } := by
  unfold verdict at hstep
  split at hstep
  · cases hstep
  · next c hstage => exact .inr (.inl ⟨c, hstage, rfl, (Option.some.inj hstep).symm⟩)
  · next c hstage =>
    rw [grant] at hstep
    split at hstep
    · exact .inl (Option.some.inj hstep).symm
    · next hcond =>
      simp only [Bool.or_eq_true, decide_eq_true_eq, not_or, not_not] at hcond
      exact .inr (.inr ⟨c, hstage, rfl, hcond.1.2, (Option.some.inj hstep).symm⟩)
  · exact .inl (Option.some.inj hstep).symm

/-- What a credential's verdict does: the vouch goes on to the first hook, or is over. -/
theorem credential_cases {client : Option C} (hstep : h.credential i v client = some h') :
    h' = { h with vouches := h.vouches.eraseIdx i } ∨
    ∃ c, h' = { h with vouches := h.vouches.set i { v with stage := .byId c } } := by
  unfold credential at hstep
  split at hstep
  · next c _ => exact .inr ⟨c, (Option.some.inj hstep).symm⟩
  · exact .inl (Option.some.inj hstep).symm
  · exact nomatch hstep

/-- A hub whose vouches are on sessions there have been, and whose clients are on sessions there are. -/
structure Sound (h : FollowerHub I M N C) : Prop where
  socket : h.socket.Sound fun _ => []
  shut : h.socket.Shut
  vouched : ∀ v ∈ h.vouches, v.session < h.socket.made
  granted : ∀ id n as c, h.grants.get (id, n, as) = some c → h.socket.sessions.get id = some n

theorem Sound.onward (hsound : h.Sound) (hs : s.Sound fun _ => []) (hshut : s.Shut)
    (hmade : h.socket.made ≤ s.made) : (h.onward asks s).Sound where
  socket := hs
  shut := hshut
  vouched v hv := by
    rcases mem_vouches_onward hv with hold | ⟨-, m, hhanded⟩
    · exact Nat.lt_of_lt_of_le (hsound.vouched v hold) hmade
    · exact hs.lt_of_handed hhanded
  granted id n as c hc := (get_grants_onward hc).2

theorem Sound.step (hsound : h.Sound) {e : HubEvent I M N C} (hstep : step asks e h = some h') : h'.Sound := by
  have hset : ∀ i, ∀ v ∈ h.vouches, ∀ stage, ∀ w ∈ h.vouches.set i { v with stage := stage },
      w.session < h.socket.made := by
    intro i v hv stage w hw
    rcases List.mem_or_eq_of_mem_set hw with hw | rfl
    · exact hsound.vouched w hw
    · exact hsound.vouched v hv
  cases e with
  | socket e =>
    obtain ⟨s, hs, rfl⟩ := Option.map_eq_some_iff.mp hstep
    exact hsound.onward (hsound.socket.step hs) (hsound.shut.step hs) (Socket.made_le_of_step hs)
  | credential i client =>
    obtain ⟨v, hv, hcredential⟩ := Option.bind_eq_some_iff.mp hstep
    rcases credential_cases hcredential with rfl | ⟨c, rfl⟩
    · exact ⟨hsound.socket, hsound.shut, fun w hw => hsound.vouched w (List.mem_of_mem_eraseIdx hw), hsound.granted⟩
    · exact ⟨hsound.socket, hsound.shut, hset i v (List.mem_of_getElem? hv) _, hsound.granted⟩
  | verdict i yes taken =>
    obtain ⟨v, hv, hverdict⟩ := Option.bind_eq_some_iff.mp hstep
    rcases verdict_cases hverdict with rfl | ⟨c, -, -, rfl⟩ | ⟨c, -, -, hon, rfl⟩
    · exact ⟨hsound.socket, hsound.shut, fun w hw => hsound.vouched w (List.mem_of_mem_eraseIdx hw), hsound.granted⟩
    · exact ⟨hsound.socket, hsound.shut, hset i v (List.mem_of_getElem? hv) _, hsound.granted⟩
    · refine ⟨hsound.socket, hsound.shut, fun w hw => hsound.vouched w (List.mem_of_mem_eraseIdx hw),
        fun id n as d hd => ?_⟩
      rw [OrderedMap.get_set] at hd
      split at hd
      · next hkey =>
        obtain ⟨rfl, rfl, -⟩ : v.id = id ∧ v.session = n ∧ v.as = as := by simpa using hkey
        exact hon
      · exact hsound.granted id n as d hd
  | ungrant id n as =>
    obtain rfl := Option.some.inj hstep
    exact ⟨hsound.socket, hsound.shut, hsound.vouched, fun i k a c hc =>
      hsound.granted i k a c (Socket.get_of_get_erase hc)⟩

theorem sound_start : (start : FollowerHub I M N C).Sound where
  socket := Socket.sound_start
  shut hc := nomatch hc
  vouched _ hv := nomatch hv
  granted _ _ _ _ hc := nomatch hc

theorem sound_of_reaches (hreach : Reaches (step asks) (fun _ _ => True) start h) : h.Sound :=
  hreach.invariant sound_start fun _ _ _ hsound _ hstep => hsound.step hstep

/-- What `revalidate` leaves as it is: a client granted on a session kept, whom the hooks no longer let in; and
a vouch on a session there that waits for the last hook's answer, or for the first one's where the last now says
yes. -/
structure Spares (hooks : Hooks I C) (call : FollowerHub I M N C) : Prop where
  granted : ∀ id n as c, call.grants.get (id, n, as) = some c → hooks.allow none id = true →
    hooks.allow (some c) id = true
  asked : ∀ v ∈ call.vouches, call.socket.sessions.get v.id = some v.session → ∀ c, v.stage ≠ .byStore c ∧
    (v.stage = .byId c → hooks.byStore (some c) v.id = false)

end FollowerHub

namespace Judging

variable {asks : M → Option N} {hooks : Hooks I C} {call : FollowerHub I M N C} {j j' : Judging I M N C}
  {s : Socket I M} {waiting : List (I × ℕ)}

/-- Whom a call leaves in, once it resolved: those the hooks let in now. And nobody, meanwhile, on an answer
that was in flight. -/
structure LeavesIn (hooks : Hooks I C) (call : FollowerHub I M N C) (j : Judging I M N C) : Prop where
  sessions : j.waiting = [] → ∀ id n, j.hub.socket.sessions.get id = some n → hooks.allow none id = true
  granted : j.waiting = [] → ∀ id n as c, j.hub.grants.get (id, n, as) = some c → hooks.allow (some c) id = true
  opened : ∃ since, j.hub.socket.trace = call.socket.trace ++ since ∧
    ∀ id token n, .opened id token n ∈ since → call.socket.attempts ≤ token
  admitted : ∃ since, j.hub.admitted = call.admitted ++ since ∧ ∀ v ∈ since, v ∉ call.vouches ∧
    ∀ c, v.stage = .byStore c → { v with stage := .byId c } ∉ call.vouches

/-- A hub since a call. -/
structure Since (hooks : Hooks I C) (call h : FollowerHub I M N C) : Prop where
  onward : Socket.Onward hooks call.socket.attempts call.socket h.socket
  shut : h.socket.Shut
  granted : ∀ id n as c, h.grants.get (id, n, as) = some c →
    h.socket.sessions.get id = some n ∧ (hooks.allow none id = true → hooks.allow (some c) id = true)
  vouched : ∀ v ∈ h.vouches, v ∈ call.vouches ∨ ∀ c, v.stage = .byStore c →
    { v with stage := .byId c } ∈ call.vouches ∨ hooks.byId (some c) v.id = true
  admitted : ∃ since, h.admitted = call.admitted ++ since ∧ ∀ v ∈ since, v ∉ call.vouches ∧
    ∀ c, v.stage = .byStore c → { v with stage := .byId c } ∉ call.vouches

theorem Since.refl (hsound : call.Sound) (hspares : call.Spares hooks) : Since hooks call call where
  onward := .refl ..
  shut := hsound.shut
  granted id n as c hc := ⟨hsound.granted id n as c hc, hspares.granted id n as c hc⟩
  vouched _ hv := .inl hv
  admitted := ⟨[], by simp, by simp⟩

/-- The socket moves on under a call. -/
theorem Since.socket {h : FollowerHub I M N C} (hsince : Since hooks call h)
    (honward : Socket.Onward hooks call.socket.attempts h.socket s) (hshut : s.Shut) :
    Since hooks call (h.onward asks s) where
  onward := hsince.onward.trans honward
  shut := hshut
  granted id n as c hc := by
    obtain ⟨hold, hn⟩ := FollowerHub.get_grants_onward hc
    exact ⟨hn, (hsince.granted id n as c hold).2⟩
  vouched v hv := by
    rcases FollowerHub.mem_vouches_onward hv with hold | ⟨hstage, -⟩
    · exact hsince.vouched v hold
    · exact .inr fun c hc => nomatch hstage.symm.trans hc
  admitted := hsince.admitted

/-- A client let in meanwhile is one the hooks let in now, on answers asked for since the call. -/
theorem Since.lets {h : FollowerHub I M N C} (hsince : Since hooks call h) (hsound : call.Sound)
    (hspares : call.Spares hooks) {v : Vouch I N C} {c : C} (hv : v ∈ h.vouches) (hstage : v.stage = .byStore c)
    (hon : h.socket.sessions.get v.id = some v.session)
    (hstore : v ∉ call.vouches → hooks.byStore (some c) v.id = true) :
    hooks.allow (some c) v.id = true ∧ v ∉ call.vouches ∧ { v with stage := .byId c } ∉ call.vouches := by
  -- a session of a vouch in flight at the call that is on now was on then
  have hthen : v.session < call.socket.made → call.socket.sessions.get v.id = some v.session :=
    fun hlt => (hsince.onward.sessions v.id v.session hon).resolve_right fun hnew => Nat.not_le_of_lt hlt hnew.1
  have hnew : v ∉ call.vouches := fun hmem =>
    (hspares.asked v hmem (hthen (hsound.vouched v hmem)) c).1 hstage
  have hfirst : { v with stage := .byId c } ∉ call.vouches := by
    intro hmem
    have hlt : v.session < call.socket.made := hsound.vouched { v with stage := .byId c } hmem
    have hrefused := (hspares.asked { v with stage := .byId c } hmem (hthen hlt) c).2 rfl
    exact absurd (hrefused.symm.trans (hstore hnew)) Bool.noConfusion
  have hid := ((hsince.vouched v hv).resolve_left hnew c hstage).resolve_left hfirst
  exact ⟨Bool.and_eq_true_iff.mpr ⟨hid, hstore hnew⟩, hnew, hfirst⟩

/-- A vouch goes on to the next question, asked now. -/
theorem Since.goesOn {h : FollowerHub I M N C} (hsince : Since hooks call h) {v : Vouch I N C} (i : ℕ)
    {stage : Stage C} (hstage : ∀ c, stage = .byStore c →
      { v with stage := .byId c } ∈ call.vouches ∨ hooks.byId (some c) v.id = true) :
    Since hooks call { h with vouches := h.vouches.set i { v with stage := stage } } := by
  refine ⟨hsince.onward, hsince.shut, hsince.granted, fun w hw => ?_, hsince.admitted⟩
  rcases List.mem_or_eq_of_mem_set hw with hw | rfl
  · exact hsince.vouched w hw
  · exact .inr hstage

theorem Since.over {h : FollowerHub I M N C} (hsince : Since hooks call h) (i : ℕ) :
    Since hooks call { h with vouches := h.vouches.eraseIdx i } :=
  ⟨hsince.onward, hsince.shut, hsince.granted, fun w hw => hsince.vouched w (List.mem_of_mem_eraseIdx hw),
    hsince.admitted⟩

theorem Since.verdict {h h' : FollowerHub I M N C} (hsince : Since hooks call h) (hsound : call.Sound)
    (hspares : call.Spares hooks) {i : ℕ} {v : Vouch I N C} {yes taken : Bool} (hv : v ∈ h.vouches)
    (hanswer : v ∉ call.vouches → yes = true → ∀ c, (v.stage = .byId c → hooks.byId (some c) v.id = true) ∧
      (v.stage = .byStore c → hooks.byStore (some c) v.id = true))
    (hstep : h.verdict i v yes taken = some h') : Since hooks call h' := by
  rcases FollowerHub.verdict_cases hstep with rfl | ⟨c, hstage, hyes, rfl⟩ | ⟨c, hstage, hyes, hon, rfl⟩
  · exact hsince.over i
  · refine hsince.goesOn i fun d hd => ?_
    obtain rfl := Stage.byStore.inj hd
    by_cases hold : { v with stage := .byId c } ∈ call.vouches
    · exact .inl hold
    · have hnew : v ∉ call.vouches := fun hmem => hold (hstage ▸ hmem)
      exact .inr ((hanswer hnew hyes c).1 hstage)
  · obtain ⟨hlet, hnew, hfirst⟩ := hsince.lets hsound hspares hv hstage hon fun hnew => (hanswer hnew hyes c).2 hstage
    obtain ⟨since, hsplit, hsome⟩ := hsince.admitted
    refine ⟨hsince.onward, hsince.shut, fun id n as d hd => ?_, (hsince.over i).vouched, since ++ [v], ?_,
      fun w hw => ?_⟩
    · rw [OrderedMap.get_set] at hd
      split at hd
      · next hkey =>
        obtain ⟨rfl, rfl, -⟩ : v.id = id ∧ v.session = n ∧ v.as = as := by simpa using hkey
        obtain rfl := Option.some.inj hd
        exact ⟨hon, fun _ => hlet⟩
      · exact hsince.granted id n as d hd
    · rw [hsplit, List.append_assoc]
    · rcases List.mem_append.mp hw with hw | hw
      · exact hsome w hw
      · obtain rfl := List.mem_singleton.mp hw
        refine ⟨hnew, fun d hd => ?_⟩
        obtain rfl := Stage.byStore.inj (hstage.symm.trans hd)
        exact hfirst

/-- A call on its way: what is on is let in, or its verdict is awaited. -/
structure Guarded (hooks : Hooks I C) (call : FollowerHub I M N C) (j : Judging I M N C) : Prop where
  fresh : j.hub.socket.Fresh hooks call.socket.attempts []
  since : Since hooks call j.hub
  on : ∀ id n, j.hub.socket.sessions.get id = some n → hooks.allow none id = true ∨ (id, n) ∈ j.waiting

theorem Guarded.leavesIn (h : j.Guarded hooks call) : j.LeavesIn hooks call := by
  have hon : j.waiting = [] → ∀ id n, j.hub.socket.sessions.get id = some n → hooks.allow none id = true := by
    intro hnone id n hn
    exact (h.on id n hn).resolve_right (hnone ▸ List.not_mem_nil)
  refine ⟨hon, fun hnone id n as c hc => ?_, h.since.onward.trace, h.since.admitted⟩
  obtain ⟨hn, hlet⟩ := h.since.granted id n as c hc
  exact hlet (hon hnone id n hn)

theorem guarded_revalidate {replies : I → Replies} (hsound : call.Sound) (hspares : call.Spares hooks)
    (hgive : ∀ id, hooks.Give id (replies id)) (ends : I → ℕ → Bool) :
    (call.revalidate asks replies ends).Guarded hooks call := by
  have hchecks : ∀ c ∈ call.socket.checks, call.socket.attempts ≤ c.token → c.byStore = true →
      hooks.byId none c.id = true := fun c hc hle => absurd (hsound.socket.tokens c hc) (Nat.not_lt_of_le hle)
  have hsince := Since.refl hsound hspares
  rw [FollowerHub.revalidate]
  split
  · next hclosed =>
    refine ⟨⟨Nat.le_refl _, fun id a ha => ?_, hchecks⟩, hsince, fun id n hn => ?_⟩
    · exact absurd (hclosed.symm.trans ((hsound.socket.each id).waiting a ha).1) Bool.noConfusion
    · exact nomatch (hsound.shut hclosed id).symm.trans hn
  · next hopen =>
    have hfresh : call.socket.Fresh hooks call.socket.attempts
        ((call.socket.pending.entries.filter fun _ => true).map Prod.fst ++ []) := by
      refine ⟨Nat.le_refl _, fun id a ha => .inr ?_, hchecks⟩
      rw [List.append_nil, List.filter_true]
      exact List.mem_map_of_mem (f := Prod.fst) (OrderedMap.mem_entries.mpr ha)
    obtain ⟨hover, honward⟩ := hfresh.revalidate (fun _ => true) hgive ends
    have hshut := hsound.shut.step (e := .revalidate (fun _ => true) replies ends) (congrArg some (if_neg hopen))
    refine ⟨⟨hover.attempts, hover.waiting, hover.checks⟩, ?_, fun id n hn => ?_⟩
    · exact hsince.socket ⟨honward.made, honward.sessions, honward.trace⟩ hshut
    · exact .inr (OrderedMap.mem_entries.mpr hn)

/-- A session judged is let in by the hooks, or gone. -/
theorem Guarded.judged (h : j.Guarded hooks call) {i : ℕ} {e : I × ℕ} {ok : Bool} (he : j.waiting[i]? = some e)
    (hok : ok = true → hooks.allow none e.1 = true) :
    Guarded hooks call
      ⟨j.hub.onward asks (j.hub.socket.rejudge j.hub.socket.judged.length e ok), j.waiting.eraseIdx i⟩ := by
  refine ⟨h.fresh.rejudge .., h.since.socket (Socket.onward_rejudge ..) (h.since.shut.rejudge _ e ok), fun id n hn => ?_⟩
  obtain ⟨hbefore, hjudged⟩ := Socket.sessions_rejudge hn
  rcases h.on id n hbefore with hallow | hmem
  · exact .inl hallow
  by_cases heq : e = (id, n)
  · rcases hjudged heq with hyes | hclosed
    · have hlet := hok hyes
      rw [heq] at hlet
      exact .inl hlet
    · exact nomatch (h.since.shut hclosed id).symm.trans hbefore
  · obtain ⟨k, hk⟩ := List.getElem?_of_mem hmem
    refine .inr (List.mem_eraseIdx_iff_getElem?.mpr ⟨k, ?_, hk⟩)
    rintro rfl
    exact heq (Option.some.inj (he.symm.trans hk))

theorem Guarded.step (h : j.Guarded hooks call) (hsound : call.Sound) (hspares : call.Spares hooks)
    {e : JudgingEvent I M N C} (hjudge : hooks.Judge call e j) (hstep : step asks e j = some j') :
    j'.Guarded hooks call := by
  cases e with
  | judged i ok =>
    obtain ⟨e, he, rfl⟩ := Option.map_eq_some_iff.mp hstep
    exact h.judged he (hjudge e he)
  | hub e =>
    obtain ⟨h', hh, rfl⟩ := Option.map_eq_some_iff.mp hstep
    cases e with
    | socket e =>
      obtain ⟨s, hs, rfl⟩ := Option.map_eq_some_iff.mp hh
      obtain ⟨hfresh, honward⟩ := h.fresh.step hjudge hs
      refine ⟨hfresh, h.since.socket honward (h.since.shut.step hs), fun id n hn => ?_⟩
      rcases honward.sessions id n hn with hold | ⟨-, hallow⟩
      · exact h.on id n hold
      · exact .inl hallow
    | credential i client =>
      obtain ⟨v, hv, hcredential⟩ := Option.bind_eq_some_iff.mp hh
      rcases FollowerHub.credential_cases hcredential with rfl | ⟨c, rfl⟩
      · exact ⟨h.fresh, h.since.over i, h.on⟩
      · exact ⟨h.fresh, h.since.goesOn i fun _ hd => (nomatch hd), h.on⟩
    | verdict i yes taken =>
      obtain ⟨v, hv, hverdict⟩ := Option.bind_eq_some_iff.mp hh
      have hsince := h.since.verdict hsound hspares (List.mem_of_getElem? hv) (hjudge v hv) hverdict
      have hsocket : h'.socket = j.hub.socket := by
        rcases FollowerHub.verdict_cases hverdict with rfl | ⟨c, -, -, rfl⟩ | ⟨c, -, -, -, rfl⟩ <;> rfl
      refine ⟨?_, hsince, ?_⟩
      · exact hsocket ▸ h.fresh
      · intro id n hn
        exact h.on id n (hsocket ▸ hn)
    | ungrant id n as =>
      obtain rfl := Option.some.inj hh
      refine ⟨h.fresh, ⟨h.since.onward, h.since.shut, fun i k a c hc => ?_, h.since.vouched, h.since.admitted⟩, h.on⟩
      exact h.since.granted i k a c (Socket.get_of_get_erase hc)

/-- What a call starts from, on a session there is. -/
theorem revalidate_keeps (hsound : call.Sound) (asks : M → Option N) (replies : I → Replies) (ends : I → ℕ → Bool)
    {id : I} {n : ℕ} (hn : call.socket.sessions.get id = some n) :
    ∃ s waiting begun, call.revalidate asks replies ends = ⟨call.onward asks s, waiting⟩ ∧
      (call.onward asks s).vouches = call.vouches ++ begun ∧ s.closed = false ∧ s.sessions.get id = some n := by
  have hopen : call.socket.closed = false := by
    refine eq_false_of_ne_true fun hclosed => ?_
    exact nomatch (hsound.shut hclosed id).symm.trans hn
  rw [FollowerHub.revalidate, if_neg (Bool.eq_false_iff.mp hopen)]
  refine ⟨_, _, _, rfl, rfl, ?_, ?_⟩
  · exact (Socket.closed_startOver ..).trans hopen
  · exact Socket.sessions_revalidate hsound.socket hn (fun _ => true) replies ends

/-- A yes of `authorize` lets its client in, on a session there is. -/
theorem admitted_of_yes (asks : M → Option N) {h : FollowerHub I M N C} {v : Vouch I N C} {c : C} {i : ℕ}
    (hv : h.vouches[i]? = some v) (hstage : v.stage = .byStore c) (hopen : h.socket.closed = false)
    (hn : h.socket.sessions.get v.id = some v.session) :
    ∃ h', h.step asks (.verdict i true true) = some h' ∧ h'.admitted = h.admitted ++ [v] := by
  have hgrant : ({ h with vouches := h.vouches.eraseIdx i }.grant v c true).admitted = h.admitted ++ [v] := by
    simp [FollowerHub.grant, hopen, hn]
  refine ⟨_, ?_, hgrant⟩
  simp [FollowerHub.step, hv, FollowerHub.verdict, hstage]

/-- The sessions judged, one after the other, as the hooks answer: a call resolves, and leaves in the clients
granted on a session kept. -/
theorem reaches_resolved {j₀ : Judging I M N C} {id : I} {n : ℕ} {as : N} {c : C}
    (h : Reaches (step asks) (hooks.Judge call) j₀ j) (hallow : hooks.allow none id = true)
    (hn : j.hub.socket.sessions.get id = some n) (hc : j.hub.grants.get (id, n, as) = some c) :
    ∃ j', Reaches (step asks) (hooks.Judge call) j₀ j' ∧ j'.waiting = [] ∧
      j'.hub.grants.get (id, n, as) = some c := by
  obtain ⟨hub, waiting⟩ := j
  induction waiting generalizing hub with
  | nil => exact ⟨_, h, rfl, hc⟩
  | cons e waiting ih =>
    let s := hub.socket.rejudge hub.socket.judged.length e (hooks.allow none e.1)
    have hstays : s.sessions.get id = some n := by
      simp only [s, Socket.rejudge]
      split
      · exact hn
      · next hcond =>
        refine (OrderedMap.get_erase_of_ne _ fun heq => hcond ?_).trans hn
        simp [heq, hallow]
    refine ih (hub.onward asks s) (h.next (.judged 0 (hooks.allow none e.1)) ?_ rfl) hstays ?_
    · intro d hd hok
      exact Option.some.inj hd ▸ hok
    · rw [FollowerHub.onward, OrderedMap.get_filter]
      exact Option.filter_eq_some_iff.mpr ⟨hc, decide_eq_true hstays⟩

/-- A call that leaves in whom the hooks let in finds nobody to spare: else there is a run that keeps such a client,
or one where the answer in flight is a yes. -/
theorem spares_of_leavesIn {replies : I → Replies} (hsound : call.Sound) (ends : I → ℕ → Bool)
    (hleaves : ∀ j, Reaches (step asks) (hooks.Judge call) (call.revalidate asks replies ends) j →
      j.LeavesIn hooks call) : call.Spares hooks := by
  refine ⟨fun id n as c hc hallow => ?_, fun v hv hn c => ?_⟩
  · have hn := hsound.granted id n as c hc
    obtain ⟨s, waiting, -, hstart, -, -, hstays⟩ := revalidate_keeps hsound asks replies ends hn
    have hkept : (call.onward asks s).grants.get (id, n, as) = some c := by
      rw [FollowerHub.onward, OrderedMap.get_filter]
      exact Option.filter_eq_some_iff.mpr ⟨hc, decide_eq_true hstays⟩
    rw [hstart] at hleaves
    have hcalled : Reaches (step asks) (hooks.Judge call) ⟨call.onward asks s, waiting⟩
        ⟨call.onward asks s, waiting⟩ := .start
    obtain ⟨j, hj, hnone, hstill⟩ := reaches_resolved hcalled hallow hstays hkept
    exact (hleaves j hj).granted hnone id n as c hstill
  · obtain ⟨s, waiting, begun, hstart, hvouches, hopen, hstays⟩ := revalidate_keeps hsound asks replies ends hn
    obtain ⟨i, hi⟩ : ∃ i, (call.onward asks s).vouches[i]? = some v := by
      rw [hvouches]
      exact List.getElem?_of_mem (List.mem_append_left _ hv)
    rw [hstart] at hleaves
    -- nobody is let in by the answers of a vouch that was in flight
    have hnobody : ∀ j w, Reaches (step asks) (hooks.Judge call) ⟨call.onward asks s, waiting⟩ j →
        j.hub.admitted = call.admitted ++ [w] → w ∉ call.vouches ∧
          ∀ c, w.stage = .byStore c → { w with stage := .byId c } ∉ call.vouches := by
      intro j w hj hadmitted
      obtain ⟨since, hsince, hall⟩ := (hleaves j hj).admitted
      exact hall w (List.append_cancel_left (hadmitted.symm.trans hsince) ▸ List.mem_singleton_self w)
    have hasked : hooks.Judge call (.hub (.verdict i true true)) ⟨call.onward asks s, waiting⟩ :=
      fun w hw hnew => absurd (Option.some.inj (hi.symm.trans hw) ▸ hv) hnew
    constructor
    · intro hstage
      obtain ⟨h', hstep, hadmitted⟩ := admitted_of_yes asks hi hstage hopen hstays
      have hlast : Reaches (step asks) (hooks.Judge call) ⟨call.onward asks s, waiting⟩ ⟨h', waiting⟩ :=
        Reaches.start.next _ hasked (congrArg (Option.map _) hstep)
      exact (hnobody ⟨h', waiting⟩ v hlast hadmitted).1 hv
    · intro hstage
      by_contra hyes
      let w : Vouch I N C := { v with stage := .byStore c }
      let h₁ : FollowerHub I M N C := { call.onward asks s with vouches := (call.onward asks s).vouches.set i w }
      have hw : h₁.vouches[i]? = some w := by
        have hlt : i < (call.onward asks s).vouches.length := (List.getElem?_eq_some_iff.mp hi).1
        simp [h₁, hlt]
      have hfirst : Reaches (step asks) (hooks.Judge call) ⟨call.onward asks s, waiting⟩ ⟨h₁, waiting⟩ := by
        refine Reaches.start.next _ hasked ?_
        simp [step, FollowerHub.step, hi, FollowerHub.verdict, hstage, h₁, w]
      have hlater : hooks.Judge call (.hub (.verdict i true true)) ⟨h₁, waiting⟩ := by
        intro x hx _ _ d
        obtain rfl := Option.some.inj (hw.symm.trans hx)
        refine ⟨fun hd => (nomatch hd), fun hd => ?_⟩
        obtain rfl := Stage.byStore.inj hd
        exact eq_true_of_ne_false hyes
      obtain ⟨h', hstep, hadmitted⟩ := admitted_of_yes (h := h₁) (v := w) (c := c) asks hw rfl hopen hstays
      have hlast := hfirst.next _ hlater (congrArg (Option.map _) hstep)
      exact (hnobody ⟨h', waiting⟩ w hlast hadmitted).2 c rfl (hstage ▸ hv)

/-- In every run from a call of `revalidate` on every store, in any order of the answers, whoever is left in once
it resolved is let in by the hooks now, and no answer that was in flight let anybody in, if and only if at the call
the hooks let in every client granted on a session kept, and no vouch on a session there waited for the last hook's
answer, nor for the first one's where the last says yes. -/
theorem leavesIn_iff {replies : I → Replies}
    (hreach : Reaches (FollowerHub.step asks) (fun _ _ => True) .start call)
    (hgive : ∀ id, hooks.Give id (replies id)) (ends : I → ℕ → Bool) :
    (∀ j, Reaches (step asks) (hooks.Judge call) (call.revalidate asks replies ends) j → j.LeavesIn hooks call) ↔
      call.Spares hooks := by
  have hsound := FollowerHub.sound_of_reaches hreach
  refine ⟨spares_of_leavesIn hsound ends, fun hspares j hj => Guarded.leavesIn ?_⟩
  refine hj.invariant (guarded_revalidate hsound hspares hgive ends) fun e _ _ hguarded hjudge hstep => ?_
  exact hguarded.step hsound hspares hjudge hstep

/-- Hooks that answer at once, and let in all but one client. -/
def answering : Replies := ⟨.now .yes, true, .now .yes⟩

def allBut (client : ℕ) : Hooks ℕ ℕ := ⟨fun who _ => who ≠ some client, fun who _ => who ≠ some client⟩

/-- A message that is a number asks for the client by that name, but zero. -/
def asksFor (m : ℕ) : Option ℕ := if m = 0 then none else some m

/-- A client let in on a session of its relay, and another whose credential is being judged. -/
def vouched : List (HubEvent ℕ ℕ ℕ ℕ) :=
  [.socket (.receive 0 0 answering fun _ => false), .socket (.receive 0 1 answering fun _ => false),
    .credential 0 (some 7), .verdict 0 true true, .verdict 0 true true,
    .socket (.receive 0 2 answering fun _ => false)]

theorem reaches_vouched : ∃ call : FollowerHub ℕ ℕ ℕ ℕ,
    Reaches (FollowerHub.step asksFor) (fun _ _ => True) .start call ∧
      call.grants.entries = [((0, 0, 1), 7)] ∧ call.vouches = [⟨0, 0, 2, .credential⟩] :=
  @Reaches.exists_of_replay (FollowerHub ℕ ℕ ℕ ℕ) (HubEvent ℕ ℕ ℕ ℕ) (FollowerHub.step asksFor) (fun _ _ => True)
    .start (fun _ _ => true) (fun _ _ _ => trivial) vouched
    (fun call => call.grants.entries = [((0, 0, 1), 7)] ∧ call.vouches = [⟨0, 0, 2, .credential⟩]) _
    (by decide +kernel)

theorem leavesIn_iff_vouched : ∃ call : FollowerHub ℕ ℕ ℕ ℕ, call.grants.get (0, 0, 1) = some 7 ∧
    ∀ j, Reaches (step asksFor) ((allBut 9).Judge call)
      (call.revalidate asksFor (fun _ => answering) fun _ _ => false) j → j.LeavesIn (allBut 9) call := by
  obtain ⟨call, hreach, hgrants, hvouches⟩ := reaches_vouched
  have hget : call.grants.get (0, 0, 1) = some 7 := OrderedMap.mem_entries.mp (by simp [hgrants])
  refine ⟨call, hget, (leavesIn_iff hreach (fun _ => ⟨fun _ => rfl, fun _ => rfl⟩) _).mpr ⟨?_, ?_⟩⟩
  · intro id n as c hc _
    have hmem := OrderedMap.mem_entries.mpr hc
    rw [hgrants] at hmem
    obtain ⟨-, rfl⟩ := Prod.mk.inj (List.mem_singleton.mp hmem)
    rfl
  · intro v hv _ c
    rw [hvouches] at hv
    obtain rfl := List.mem_singleton.mp hv
    exact ⟨fun hstage => (nomatch hstage), fun hstage => (nomatch hstage)⟩

/-- A client let in before, whom the hooks no longer let in, keeps its grant on its relay's session. -/
theorem grant_stays : ¬ ∀ (call : FollowerHub ℕ ℕ ℕ ℕ) (hooks : Hooks ℕ ℕ) (replies : ℕ → Replies)
    (ends : ℕ → ℕ → Bool), Reaches (FollowerHub.step asksFor) (fun _ _ => True) .start call →
    (∀ id, hooks.Give id (replies id)) →
    ∀ j, Reaches (step asksFor) (hooks.Judge call) (call.revalidate asksFor replies ends) j →
      j.LeavesIn hooks call := by
  intro h
  obtain ⟨call, hreach, hgrants, -⟩ := reaches_vouched
  have hget : call.grants.get (0, 0, 1) = some 7 := OrderedMap.mem_entries.mp (by simp [hgrants])
  have hall := h call (allBut 7) (fun _ => answering) (fun _ _ => false) hreach fun _ => ⟨fun _ => rfl, fun _ => rfl⟩
  have hspares := spares_of_leavesIn (FollowerHub.sound_of_reaches hreach) _ hall
  exact absurd (hspares.granted 0 0 1 7 hget rfl) (by decide)

end Judging

end LazyStorage.Hub
