import LazyStorage.Hub.Custody

/-! # A store is opened on its current attempt's yes

A hub opens one session for a store, on the yes of both hooks in an attempt nothing
disowned, and hands it what was heard, in order, until it ends.
-/
namespace LazyStorage.Hub

open Lib

variable {I M : Type} [DecidableEq I]

namespace Socket

variable {s s' : Socket I M} {o : Obs I M} {id : I} {n token : ℕ} {owed : I → List M} {m : M} {ms : List M}

/-- Queued messages are in hand once their queue is gone. -/
theorem Sound.unqueue (h : s.Sound (owing id [])) {a : Attempt M} (ha : s.pending.get id = some a) :
    ({ s with pending := s.pending.erase id } : Socket I M).Sound (owing id a.queued) := by
  obtain ⟨-, hnone, hheard, -⟩ := (h.each id).waiting a ha
  rw [owing_self, List.append_nil] at hheard
  refine ⟨h.kept, fun i => ?_, h.tokens, h.apart, h.fresh⟩
  by_cases hi : i = id
  · subst hi
    rw [owing_self]
    exact ⟨fun b hb => by simp at hb, fun n hn => (nomatch hnone.symm.trans hn), (h.each i).off,
      fun _ _ => hheard⟩
  · rw [owing_of_ne hi a.queued []]
    have hget : (s.pending.erase id).get i = s.pending.get i := OrderedMap.get_erase_of_ne _ (Ne.symm hi)
    have hat := h.each i
    exact ⟨fun b hb => hat.waiting b (hget ▸ hb), hat.on, hat.off, fun hn hb => hat.idle hn (hget ▸ hb)⟩

/-- Messages in hand are queued. -/
theorem Sound.queue (h : s.Sound (owing id ms)) {a : Attempt M} (ha : s.pending.get id = some a) :
    ({ s with pending := s.pending.set id { a with queued := a.queued ++ ms } } : Socket I M).Sound
      (owing id []) := by
  obtain ⟨hopen, hnone, hheard, htoken, hstands, hyes⟩ := (h.each id).waiting a ha
  rw [owing_self] at hheard
  refine ⟨h.kept, fun i => ?_, h.tokens, h.apart, h.fresh⟩
  by_cases hi : i = id
  · subst hi
    rw [owing_self]
    refine ⟨fun b hb => ?_, fun n hn => (nomatch hnone.symm.trans hn), (h.each i).off, fun _ hb => ?_⟩
    · obtain rfl := Option.some.inj ((OrderedMap.get_set_self ..).symm.trans hb)
      exact ⟨hopen, hnone, by rw [List.append_nil]; exact hheard, htoken, hstands, hyes⟩
    · exact nomatch (OrderedMap.get_set_self ..).symm.trans hb
  · rw [owing_of_ne hi [] ms]
    have hget : (s.pending.set id { a with queued := a.queued ++ ms }).get i = s.pending.get i :=
      OrderedMap.get_set_of_ne _ _ (Ne.symm hi)
    have hat := h.each i
    exact ⟨fun b hb => hat.waiting b (hget ▸ hb), hat.on, hat.off, fun hn hb => hat.idle hn (hget ▸ hb)⟩

theorem Sound.received (h : s.Sound (owing id [])) (m : M) :
    (s.say (.received id m)).Sound (owing id [m]) := by
  have hat := h.each id
  rw [owing_self] at hat
  refine h.next rfl trivial (fun i hi => ⟨fun _ => rfl, fun _ => if_neg (Ne.symm hi), rfl⟩) (fun _ => .inl rfl)
    (fun _ _ => rfl) (fun _ _ => rfl) (fun _ => .inl) rfl rfl (Nat.le_refl _) (Nat.le_refl _) ?_
  have hheard : heard id (s.say (.received id m)).trace = heard id s.trace ++ [m] := by
    simp [say, heardAfter]
  have hon : openOn id (s.say (.received id m)).trace = openOn id s.trace := openOn_concat ..
  constructor
  · intro a ha
    obtain ⟨hopen, hnone, hqueued, htoken, hstands, hyes⟩ := hat.waiting a ha
    rw [hheard, hqueued, List.append_nil]
    exact ⟨hopen, hnone, rfl, htoken, hstands.concat rfl, fun c hc hci hct hb => (hyes c hc hci hct hb).concat rfl⟩
  · intro n hn
    obtain ⟨hopen, hhanded, hlt⟩ := hat.on n hn
    rw [List.append_nil] at hhanded
    have hsame : handedTo n (s.say (.received id m)).trace = handedTo n s.trace := by
      simp [say, handedTo]
    rw [hon, hheard, hsame, hhanded]
    exact ⟨hopen, rfl, hlt⟩
  · intro hn
    rw [hon]
    exact hat.off hn
  · intro hn ha
    rw [hheard, hat.idle hn ha]
    rfl

/-- A store nothing waits on, and no session is on, starts over with nothing heard. -/
theorem Sound.forget (h : s.Sound (owing id ms)) (hnone : s.sessions.get id = none)
    (hidle : s.pending.get id = none) (hquiet : ∀ on, openAfter id on o = on)
    (hforgets : ∀ ms, heardAfter id ms o = []) (hspares : ∀ i, i ≠ id → o.Spares i)
    (hhanded : ∀ n, handedTo n [o] = []) (hmay : MayFollow s.trace o) : (s.say o).Sound (owing id []) := by
  refine h.next rfl hmay hspares (fun n => .inl (hhanded n)) (fun _ _ => rfl) (fun _ _ => rfl) (fun _ => .inl) rfl
    rfl (Nat.le_refl _) (Nat.le_refl _) ⟨fun a ha => (nomatch hidle.symm.trans ha),
      fun n hn => (nomatch hnone.symm.trans hn), fun _ => ?_, fun _ _ => ?_⟩
  · rw [say, openOn_concat, hquiet]
    exact (h.each id).off hnone
  · rw [say, heard_concat, hforgets]

theorem Sound.deny (h : s.Sound (owing id [])) {a : Attempt M} (ha : s.pending.get id = some a) :
    (s.deny id).Sound (owing id []) :=
  (h.unqueue ha).forget ((h.each id).waiting a ha).2.1 (OrderedMap.get_erase_self ..) (fun _ => rfl)
    (fun _ => if_pos rfl) (fun _ hi => ⟨fun _ => rfl, fun _ => if_neg (Ne.symm hi), rfl⟩) (fun _ => rfl) trivial

/-- A session ends, with whatever was in hand for it. -/
theorem Sound.endSession (h : s.Sound (owing id ms)) (hn : s.sessions.get id = some n) :
    (s.endSession id n).Sound (owing id []) := by
  obtain ⟨hon, -, -⟩ := (h.each id).on n hn
  have hnone : (s.endSession id n).sessions.get id = none := OrderedMap.get_erase_self ..
  refine h.next rfl trivial (fun i hi => ⟨fun _ => if_neg (Ne.symm hi), fun _ => if_neg (Ne.symm hi), rfl⟩)
    (fun _ => .inl rfl) (fun _ _ => rfl) (fun i hi => OrderedMap.get_erase_of_ne _ (Ne.symm hi))
    (fun k hk => (nomatch hnone.symm.trans hk)) rfl rfl (Nat.le_refl _) (Nat.le_refl _)
    ⟨fun a ha => ?_, fun k hk => (nomatch hnone.symm.trans hk), fun _ => ?_, fun _ _ => ?_⟩
  · exact nomatch ((h.each id).waiting a ha).2.1.symm.trans hn
  · simp [Socket.endSession, say, openAfter, hon]
  · simp [Socket.endSession, say, heardAfter]

theorem Sound.handed (h : s.Sound (owing id (m :: ms))) (hn : s.sessions.get id = some n) :
    (s.say (.handed n m)).Sound (owing id ms) := by
  have hat := h.each id
  rw [owing_self] at hat
  obtain ⟨hon, hheard, hlt⟩ := hat.on n hn
  have hnext : handedTo n (s.say (.handed n m)).trace = handedTo n s.trace ++ [m] := by
    simp [say, handedTo]
  have hsame : heard id (s.say (.handed n m)).trace = heard id s.trace := heard_concat ..
  refine h.next rfl ⟨id, hon, ms, by rw [← hheard, List.append_assoc]; rfl⟩ (fun i hi => ⟨fun _ => rfl, fun _ => rfl, rfl⟩)
    (fun k => ?_) (fun _ _ => rfl) (fun _ _ => rfl) (fun _ => .inl) rfl rfl (Nat.le_refl _) (Nat.le_refl _)
    ⟨fun a ha => absurd ((hat.waiting a ha).2.1.symm.trans hn) (by simp), fun k hk => ?_,
      fun hk => absurd (hk.symm.trans hn) (by simp), fun hk _ => absurd (hk.symm.trans hn) (by simp)⟩
  · by_cases hk : n = k
    · exact .inr (hk ▸ hn)
    · left
      simp [handedTo, hk]
  · obtain rfl := Option.some.inj (hn.symm.trans hk)
    rw [hnext, hsame, List.append_assoc]
    exact ⟨(openOn_concat ..).trans hon, hheard, hlt⟩

theorem Sound.deliver (h : s.Sound (owing id (m :: ms))) (hn : s.sessions.get id = some n) (ends : Bool) :
    (s.deliver id m ends).Sound (owing id (if ends then [] else ms)) := by
  rw [Socket.deliver, hn]
  cases ends with
  | true => exact (h.handed hn).endSession hn
  | false => exact h.handed hn

theorem deliverAll_of_none (hn : s.sessions.get id = none) (ms : List M) (ends : ℕ → Bool) :
    s.deliverAll id ms ends = s := by
  induction ms generalizing ends with
  | nil => rfl
  | cons m ms ih =>
    rw [deliverAll, Socket.deliver, hn]
    exact ih _

theorem Sound.deliverAll (h : s.Sound (owing id ms)) (hn : s.sessions.get id = some n) (ends : ℕ → Bool) :
    (s.deliverAll id ms ends).Sound (owing id []) := by
  induction ms generalizing s ends with
  | nil => exact h
  | cons m ms ih =>
    have hnext := h.deliver hn (ends 0)
    rw [Socket.deliverAll]
    cases hends : ends 0 with
    | true =>
      rw [hends] at hnext
      -- it ended on this one: the rest is handed to nobody
      have hnone : (s.deliver id m true).sessions.get id = none := by
        rw [Socket.deliver, hn]
        exact OrderedMap.get_erase_self ..
      rwa [deliverAll_of_none hnone]
    | false =>
      rw [hends] at hnext
      refine ih hnext ?_ _
      rwa [Socket.deliver, hn]

theorem Sound.openStore (h : s.Sound (owing id ms)) (hnone : s.sessions.get id = none)
    (hidle : s.pending.get id = none) (hstands : Stands id token [false, true] s.trace) :
    (s.openStore id token).Sound (owing id ms) := by
  have hat := h.each id
  rw [owing_self] at hat
  have hon : (s.openStore id token).sessions.get id = some s.made := OrderedMap.get_set_self ..
  refine h.next rfl ⟨hat.off hnone, h.fresh _ (Nat.le_refl _), hstands⟩
    (fun i hi => ⟨fun _ => if_neg (Ne.symm hi), fun _ => rfl, rfl⟩) (fun _ => .inl rfl) (fun _ _ => rfl)
    (fun i hi => OrderedMap.get_set_of_ne _ _ (Ne.symm hi)) (fun k hk => ?_) rfl rfl (Nat.le_refl _)
    (Nat.le_succ _) ⟨fun a ha => (nomatch hidle.symm.trans ha), fun k hk => ?_, fun hk => (nomatch hk.symm.trans hon),
      fun hk _ => (nomatch hk.symm.trans hon)⟩
  · obtain rfl := Option.some.inj (hon.symm.trans hk)
    exact .inr (Nat.le_refl _)
  · obtain rfl := Option.some.inj (hon.symm.trans hk)
    refine ⟨?_, ?_, Nat.lt_succ_self _⟩
    · simp [Socket.openStore, say, openAfter, hat.off hnone]
    · have hhanded : handedTo s.made (s.openStore id token).trace = [] :=
        (handedTo_concat ..).trans (by rw [h.fresh _ (Nat.le_refl _)]; rfl)
      have hsame : heard id (s.openStore id token).trace = heard id s.trace := heard_concat ..
      rw [hhanded, hsame, List.nil_append]
      exact (hat.idle hnone hidle).symm

/-- A new attempt takes over what is in hand. -/
theorem Sound.begin (h : s.Sound (owing id ms)) (hopen : s.closed = false) (hnone : s.sessions.get id = none)
    (hidle : s.pending.get id = none) :
    (({ s with pending := s.pending.set id ⟨s.attempts, ms⟩, attempts := s.attempts + 1 } : Socket I M).say
      (.begun id s.attempts)).Sound (owing id []) := by
  have hat := h.each id
  rw [owing_self] at hat
  refine h.next rfl trivial (fun i hi => ⟨fun _ => rfl, fun _ => rfl, rfl⟩) (fun _ => .inl rfl)
    (fun i hi => OrderedMap.get_set_of_ne _ _ (Ne.symm hi)) (fun _ _ => rfl) (fun _ => .inl) rfl rfl (Nat.le_succ _)
    (Nat.le_refl _) ⟨fun a ha => ?_, fun k hk => (nomatch hnone.symm.trans hk), fun hk => ?_, fun _ ha => ?_⟩
  · obtain rfl := Option.some.inj ((OrderedMap.get_set_self ..).symm.trans ha)
    refine ⟨hopen, hnone, ?_, Nat.lt_succ_self _, .begun .., fun c hc _ hct _ => ?_⟩
    · rw [List.append_nil]
      exact (heard_concat ..).trans (hat.idle hnone hidle)
    · exact absurd (h.tokens c hc) (hct ▸ Nat.lt_irrefl _)
  · exact (openOn_concat ..).trans (hat.off hk)
  · exact nomatch (OrderedMap.get_set_self ..).symm.trans ha

/-- Something said that opens nothing, is heard by nobody and disowns no attempt there is. -/
theorem Sound.say (h : s.Sound (owing id ms)) (hmay : MayFollow s.trace o) (hspares : ∀ i, i ≠ id → o.Spares i)
    (hopens : ∀ on, openAfter id on o = on) (hhears : ∀ ms, heardAfter id ms o = ms)
    (hdisowns : o.disowns id = false ∨ s.pending.get id = none) (hhanded : ∀ n, handedTo n [o] = []) :
    (s.say o).Sound (owing id ms) := by
  have hat := h.each id
  rw [owing_self] at hat
  refine h.next rfl hmay hspares (fun n => .inl (hhanded n)) (fun _ _ => rfl) (fun _ _ => rfl)
    (fun _ => .inl) rfl rfl (Nat.le_refl _) (Nat.le_refl _) ?_
  have hheard : heard id (s.say o).trace = heard id s.trace := (heard_concat ..).trans (hhears _)
  have hon : openOn id (s.say o).trace = openOn id s.trace := (openOn_concat ..).trans (hopens _)
  constructor
  · intro a ha
    obtain ⟨hopen, hnone, hqueued, htoken, hstands, hyes⟩ := hat.waiting a ha
    have hspared : o.disowns id = false := hdisowns.resolve_right fun hidle => nomatch hidle.symm.trans ha
    rw [hheard]
    exact ⟨hopen, hnone, hqueued, htoken, hstands.concat hspared,
      fun c hc hci hct hb => (hyes c hc hci hct hb).concat hspared⟩
  · intro n hn
    have hsame : handedTo n (s.say o).trace = handedTo n s.trace := by
      rw [Socket.say, handedTo_concat, hhanded, List.append_nil]
    rw [hon, hheard, hsame]
    exact hat.on n hn
  · intro hn
    rw [hon]
    exact hat.off hn
  · intro hn ha
    rw [hheard]
    exact hat.idle hn ha

theorem Sound.allowed (h : s.Sound (owing id [])) (token : ℕ) (byStore : Bool) :
    (s.say (.allowed token byStore)).Sound (owing id []) :=
  h.say trivial (fun _ _ => ⟨fun _ => rfl, fun _ => rfl, rfl⟩) (fun _ => rfl) (fun _ => rfl) (.inl rfl) fun _ => rfl

/-- A store is judged again while nothing waits on it. -/
theorem Sound.revalidated (h : s.Sound (owing id ms)) (hidle : s.pending.get id = none) :
    (s.say (.revalidated id)).Sound (owing id ms) :=
  h.say trivial (fun _ hi => ⟨fun _ => rfl, fun _ => rfl, decide_eq_false (Ne.symm hi)⟩) (fun _ => rfl) (fun _ => rfl)
    (.inr hidle) fun _ => rfl

theorem Sound.await (h : s.Sound owed) (c : Check I) (htoken : c.token < s.attempts)
    (hyes : ∀ a, s.pending.get c.id = some a → c.token = a.token → c.byStore = true →
      Stands c.id a.token [false] s.trace) :
    ({ s with checks := s.checks ++ [c] } : Socket I M).Sound owed where
  kept := h.kept
  each id := {
    waiting a ha := by
      obtain ⟨hopen, hnone, hqueued, hlt, hstands, hbefore⟩ := (h.each id).waiting a ha
      refine ⟨hopen, hnone, hqueued, hlt, hstands, fun d hd hdi hdt hb => ?_⟩
      rcases List.mem_append.mp hd with hd | hd
      · exact hbefore d hd hdi hdt hb
      · obtain rfl := List.mem_singleton.mp hd
        exact hdi ▸ hyes a (hdi ▸ ha) hdt hb
    on := (h.each id).on
    off := (h.each id).off
    idle := (h.each id).idle }
  tokens d hd := by
    rcases List.mem_append.mp hd with hd | hd
    · exact h.tokens d hd
    · exact List.mem_singleton.mp hd ▸ htoken
  apart := h.apart
  fresh := h.fresh

theorem Sound.onStore (h : s.Sound (owing id [])) {a : Attempt M} (ha : s.pending.get id = some a)
    (hyes : Stands id a.token [false] s.trace) (ends : ℕ → Bool) (v : Verdict) :
    (s.onStore id a ends v).Sound (owing id []) := by
  cases v with
  | yes =>
    have hnone := ((h.each id).waiting a ha).2.1
    have hopened := ((h.allowed a.token true).unqueue ha).openStore hnone (OrderedMap.get_erase_self ..)
      (hyes.allowed true)
    exact hopened.deliverAll (OrderedMap.get_set_self ..) ends
  | no => exact h.deny ha
  | throws => exact h.deny ha

theorem Sound.onId (h : s.Sound (owing id [])) {a : Attempt M} (ha : s.pending.get id = some a)
    (replies : Replies) (ends : ℕ → Bool) (v : Verdict) : (s.onId id a replies ends v).Sound (owing id []) := by
  obtain ⟨-, -, -, htoken, hstands, -⟩ := (h.each id).waiting a ha
  have hallowed := h.allowed a.token false
  have hyes : Stands id a.token [false] (s.say (.allowed a.token false)).trace := hstands.allowed false
  cases v with
  | yes =>
    rw [Socket.onId]
    split
    · split
      · exact hallowed.onStore ha hyes ends _
      · refine hallowed.await ⟨id, a.token, true⟩ htoken fun b hb _ _ => ?_
        obtain rfl := Option.some.inj (ha.symm.trans hb)
        exact hyes
    · exact hallowed.deny ha
  | no => exact h.deny ha
  | throws => exact h.deny ha

/-- An attempt with the queue of the one before it, if any. -/
theorem Sound.admission (h : ({ s with pending := s.pending.erase id } : Socket I M).Sound (owing id ms))
    (hopen : s.closed = false) (hnone : s.sessions.get id = none) (replies : Replies) (ends : ℕ → Bool) :
    (s.admission id ms replies ends).Sound (owing id []) := by
  have hbegun := h.begin hopen hnone (OrderedMap.get_erase_self ..)
  have hsame : (({ s with pending := s.pending.set id ⟨s.attempts, ms⟩, attempts := s.attempts + 1 } :
      Socket I M).say (.begun id s.attempts)).Sound (owing id []) := by
    refine hbegun.congr (fun i => ?_) (fun _ => rfl) rfl (fun _ hc => hc) rfl rfl rfl
    simp only [Socket.say, OrderedMap.get_set, OrderedMap.get_erase]
    split <;> rfl
  rw [Socket.admission]
  split
  · exact hsame.onId (OrderedMap.get_set_self ..) ..
  · exact hsame.await ⟨id, s.attempts, false⟩ (Nat.lt_succ_self _) fun _ _ _ hb => by cases hb

theorem Sound.erase_idle (h : s.Sound owed) (hidle : s.pending.get id = none) :
    ({ s with pending := s.pending.erase id } : Socket I M).Sound owed := by
  refine h.congr (fun i => ?_) (fun _ => rfl) rfl (fun _ hc => hc) rfl rfl rfl
  rw [OrderedMap.get_erase]
  split
  · next hi => rw [← hi, hidle]
  · rfl

/-- With the queue of a store gone, whatever it held is in hand. -/
theorem Sound.erased (h : s.Sound (owing id [])) :
    ∃ ms, ({ s with pending := s.pending.erase id } : Socket I M).Sound (owing id ms) := by
  cases ha : s.pending.get id with
  | some a => exact ⟨a.queued, h.unqueue ha⟩
  | none => exact ⟨[], h.erase_idle ha⟩

theorem Sound.receive (h : s.Sound (owing id [])) (hopen : s.closed = false) (m : M) (replies : Replies)
    (ends : ℕ → Bool) : (s.receive id m replies ends).Sound (owing id []) := by
  have hreceived := h.received m
  rw [Socket.receive]
  split
  · next hon =>
    obtain ⟨n, hn⟩ := Option.isSome_iff_exists.mp hon
    have hdelivered := hreceived.deliver hn (ends 0)
    rwa [ite_self] at hdelivered
  · next hoff =>
    have hnone : s.sessions.get id = none := Option.not_isSome_iff_eq_none.mp hoff
    split
    · next a ha => exact hreceived.queue ha
    · next ha => exact (hreceived.erase_idle ha).admission hopen hnone replies ends

theorem Sound.leave (h : s.Sound (owing id [])) : (s.leave id).Sound (owing id []) := by
  have hleft : ∀ t : Socket I M, t.Sound (owing id []) → t.sessions.get id = none →
      ({ t with pending := t.pending.erase id }.say (.left id) : Socket I M).Sound (owing id []) := by
    intro t ht hnone
    obtain ⟨ms, hms⟩ := ht.erased
    exact hms.forget hnone (OrderedMap.get_erase_self ..) (fun _ => rfl) (fun _ => if_pos rfl)
      (fun _ hi => ⟨fun _ => rfl, fun _ => if_neg (Ne.symm hi), decide_eq_false (Ne.symm hi)⟩) (fun _ => rfl) trivial
  rw [Socket.leave]
  cases hn : s.sessions.get id with
  | some n => exact hleft _ (h.endSession hn) (OrderedMap.get_erase_self ..)
  | none => exact hleft s h hn

theorem Sound.settle (h : s.Sound fun _ => []) (i : ℕ) {c : Check I} (hc : c ∈ s.checks) (v : Verdict)
    (replies : Replies) (ends : ℕ → Bool) : (s.settle i c v replies ends).Sound fun _ => [] := by
  rw [← owing_nil c.id] at h ⊢
  have herased : ({ s with checks := s.checks.eraseIdx i } : Socket I M).Sound (owing c.id []) :=
    h.congr (fun _ => rfl) (fun _ => rfl) rfl (fun _ hd => List.mem_of_mem_eraseIdx hd) rfl rfl rfl
  rw [Socket.settle]
  split
  · exact herased
  split
  · exact herased
  · next a ha =>
    split
    · exact herased
    next htoken =>
    obtain ⟨-, -, -, -, -, hyes⟩ := (h.each c.id).waiting a ha
    split
    · next hb => exact herased.onStore ha (hyes c hc rfl (of_not_not htoken).symm hb) ends v
    · exact herased.onId ha replies ends v

theorem Sound.close (h : s.Sound fun _ => []) : s.close.Sound fun _ => [] where
  kept := kept_concat.mpr ⟨h.kept, trivial⟩
  each _ := {
    waiting _ ha := nomatch ha
    on _ hn := nomatch hn
    off _ := openOn_concat ..
    idle _ _ := heard_concat .. }
  tokens := h.tokens
  apart _ _ _ hn := nomatch hn
  fresh n hn := (handedTo_concat ..).trans (by rw [h.fresh n hn]; rfl)

/-- What an attempt to open a store leaves of the rest. -/
structure Aside (id : I) (s s' : Socket I M) : Prop where
  closed : s'.closed = s.closed
  pending : ∀ i, i ≠ id → s'.pending.get i = s.pending.get i

theorem Aside.refl (id : I) (s : Socket I M) : Aside id s s := ⟨rfl, fun _ _ => rfl⟩

theorem Aside.trans {s'' : Socket I M} (h : Aside id s s') (h' : Aside id s' s'') : Aside id s s'' :=
  ⟨h'.closed.trans h.closed, fun i hi => (h'.pending i hi).trans (h.pending i hi)⟩

theorem aside_deny (id : I) (s : Socket I M) : Aside id s (s.deny id) :=
  ⟨rfl, fun _ hi => OrderedMap.get_erase_of_ne _ (Ne.symm hi)⟩

theorem aside_deliverAll (id : I) (ms : List M) (ends : ℕ → Bool) (s : Socket I M) :
    Aside id s (s.deliverAll id ms ends) := by
  induction ms generalizing s ends with
  | nil => exact .refl id s
  | cons m ms ih =>
    refine Aside.trans ?_ (ih _ (s.deliver id m (ends 0)))
    rw [deliver]
    split
    · exact .refl id s
    · split <;> exact ⟨rfl, fun _ _ => rfl⟩

theorem aside_onStore (id : I) (a : Attempt M) (ends : ℕ → Bool) (v : Verdict) (s : Socket I M) :
    Aside id s (s.onStore id a ends v) := by
  cases v with
  | yes =>
    refine Aside.trans ?_ (aside_deliverAll ..)
    exact ⟨rfl, fun _ hi => OrderedMap.get_erase_of_ne _ (Ne.symm hi)⟩
  | no => exact aside_deny id s
  | throws => exact aside_deny id s

theorem aside_onId (id : I) (a : Attempt M) (replies : Replies) (ends : ℕ → Bool) (v : Verdict)
    (s : Socket I M) : Aside id s (s.onId id a replies ends v) := by
  have hsay : Aside id s (s.say (.allowed a.token false)) := ⟨rfl, fun _ _ => rfl⟩
  cases v with
  | yes =>
    rw [onId]
    split
    · split
      · exact hsay.trans (aside_onStore ..)
      · exact ⟨rfl, fun _ _ => rfl⟩
    · exact hsay.trans (aside_deny ..)
  | no => exact aside_deny id s
  | throws => exact aside_deny id s

theorem aside_admission (id : I) (queued : List M) (replies : Replies) (ends : ℕ → Bool) (s : Socket I M) :
    Aside id s (s.admission id queued replies ends) := by
  have hset : Aside id s ({ s with
      pending := s.pending.set id ⟨s.attempts, queued⟩, attempts := s.attempts + 1 }.say (.begun id s.attempts)) :=
    ⟨rfl, fun _ hi => OrderedMap.get_set_of_ne _ _ (Ne.symm hi)⟩
  rw [admission]
  split
  · exact hset.trans (aside_onId ..)
  · exact ⟨hset.closed, hset.pending⟩

/-- The stores waiting for a verdict start over one after the other, each as it was until its turn. -/
theorem Sound.startOver {l : List (I × Attempt M)} (h : s.Sound fun _ => [])
    (hl : (l.map Prod.fst).Nodup) (hwait : ∀ e ∈ l, s.pending.get e.1 = some e.2) (replies : I → Replies)
    (ends : I → ℕ → Bool) :
    (l.foldl (fun s e => (s.say (.revalidated e.1)).admission e.1 e.2.queued (replies e.1) (ends e.1)) s).Sound
      fun _ => [] := by
  induction l generalizing s with
  | nil => exact h
  | cons e l ih =>
    obtain ⟨hne, hl⟩ := List.nodup_cons.mp hl
    have ha : s.pending.get e.1 = some e.2 := hwait e List.mem_cons_self
    obtain ⟨hopen, hnone, -⟩ := (h.each e.1).waiting e.2 ha
    rw [← owing_nil e.1] at h ih ⊢
    have hasked : ({ s.say (.revalidated e.1) with pending := s.pending.erase e.1 } : Socket I M).Sound
        (owing e.1 e.2.queued) := (h.unqueue ha).revalidated (OrderedMap.get_erase_self ..)
    refine ih (hasked.admission hopen hnone (replies e.1) (ends e.1)) hl fun d hd => ?_
    have hdne : d.1 ≠ e.1 := fun heq => hne (heq ▸ List.mem_map_of_mem hd)
    rw [(aside_admission ..).pending d.1 hdne]
    exact hwait d (List.mem_cons_of_mem _ hd)

theorem Sound.judgeAll {l : List (I × ℕ)} (h : s.Sound fun _ => [])
    (hidle : ∀ e ∈ l, s.pending.get e.1 = none) :
    ({ s with trace := s.trace ++ l.map fun e => .revalidated e.1 } : Socket I M).Sound fun _ => [] := by
  induction l generalizing s with
  | nil => simpa using h
  | cons e l ih =>
    rw [← owing_nil e.1] at h ih ⊢
    have hrest := ih (h.revalidated (hidle e List.mem_cons_self)) fun d hd => hidle d (List.mem_cons_of_mem _ hd)
    rw [Socket.say, List.append_assoc] at hrest
    exact hrest

theorem Sound.revalidate (h : s.Sound fun _ => []) (judged : I → Bool) (replies : I → Replies)
    (ends : I → ℕ → Bool) : (s.revalidate judged replies ends).Sound fun _ => [] := by
  have hover := h.startOver (Assoc.nodup_filter s.pending.nodup fun e => judged e.1)
    (fun e he => OrderedMap.mem_entries.mp (List.mem_filter.mp he).1) replies ends
  refine (hover.judgeAll fun e he => ?_).congr (fun _ => rfl) (fun _ => rfl) rfl (fun _ hc => hc) rfl rfl rfl
  -- a store with a session waits for nothing
  have hon := OrderedMap.mem_entries.mp (List.mem_filter.mp he).1
  refine Option.eq_none_iff_forall_ne_some.mpr fun a ha => ?_
  exact nomatch ((hover.each e.1).waiting a ha).2.1.symm.trans hon
theorem Sound.step (h : s.Sound fun _ => []) {e : Event I M} (hstep : step e s = some s') :
    s'.Sound fun _ => [] := by
  cases e with
  | receive i m replies ends =>
    obtain rfl := Option.some.inj hstep
    split
    · exact h
    · next hopen =>
      rw [← owing_nil i] at h ⊢
      exact h.receive (eq_false_of_ne_true hopen) m replies ends
  | leave i =>
    obtain rfl := Option.some.inj hstep
    split
    · exact h
    · rw [← owing_nil i] at h ⊢
      exact h.leave
  | settle i v replies ends =>
    obtain ⟨c, hc, rfl⟩ := Option.map_eq_some_iff.mp hstep
    exact h.settle i (List.mem_of_getElem? hc) v replies ends
  | revalidate judged replies ends =>
    obtain rfl := Option.some.inj hstep
    split
    · exact h
    · exact h.revalidate judged replies ends
  | rejudge i ok =>
    obtain ⟨e, -, rfl⟩ := Option.map_eq_some_iff.mp hstep
    have herased : ({ s with judged := s.judged.eraseIdx i } : Socket I M).Sound fun _ => [] :=
      h.congr (fun _ => rfl) (fun _ => rfl) rfl (fun _ hc => hc) rfl rfl rfl
    rw [rejudge]
    split
    · exact herased
    · next hcond =>
      have hon : s.sessions.get e.1 = some e.2 := by
        simp only [Bool.or_eq_true, decide_eq_true_eq, not_or, not_not] at hcond
        exact hcond.2
      rw [← owing_nil e.1] at herased ⊢
      exact herased.endSession hon
  | evict i =>
    obtain ⟨n, hn, rfl⟩ := Option.map_eq_some_iff.mp hstep
    rw [← owing_nil i] at h ⊢
    exact h.endSession hn
  | close =>
    obtain rfl := Option.some.inj hstep
    exact h.close

/-- In every run a store is opened where no session of it is, on both hooks' yes in an attempt that nothing
disowned since it began, and a session is handed, each once and in order, the messages heard for its store since
the first of its attempt, all of them while it is open. -/
theorem opened_on_its_yes (h : Reaches step (fun _ _ => True) start s) :
    Kept s.trace ∧ ∀ id n, (s.sessions.get id = some n ↔ n ∈ openOn id s.trace) ∧
      (n ∈ openOn id s.trace → openOn id s.trace = [n] ∧ handedTo n s.trace = heard id s.trace) := by
  have hsound : s.Sound fun _ => [] := h.invariant sound_start fun _ _ _ hs _ hstep => hs.step hstep
  refine ⟨hsound.kept, fun id n => ?_⟩
  have hat := hsound.each id
  cases hn : s.sessions.get id with
  | none =>
    rw [hat.off hn]
    simp
  | some k =>
    obtain ⟨hon, hheard, -⟩ := hat.on k hn
    rw [List.append_nil] at hheard
    rw [hon, List.mem_singleton, Option.some_inj]
    refine ⟨eq_comm, fun hk => ?_⟩
    subst hk
    exact ⟨rfl, hheard⟩

/-- A hook that answers through a promise, and what comes after it at once. -/
def asked : Replies := ⟨.promise, true, .now .yes⟩

/-- A store is left while its verdict is out and asked for again, judged again before either yes arrives. -/
def rejoined : List (Event ℕ ℕ) :=
  [.receive 0 5 asked fun _ => false, .leave 0, .receive 0 6 asked fun _ => false,
    .receive 0 7 asked fun _ => false, .revalidate (fun _ => true) (fun _ => asked) fun _ _ => false,
    .settle 0 .yes asked fun _ => false, .settle 0 .yes asked fun _ => false,
    .settle 0 .yes asked fun _ => false, .receive 0 8 asked fun _ => false]

theorem opened_on_its_yes_rejoined : ∃ s : Socket ℕ ℕ, s.sessions.get 0 = some 0 ∧ Kept s.trace ∧
    handedTo 0 s.trace = [6, 7, 8] := by
  obtain ⟨s, hreach, hon, hheard⟩ := @Reaches.exists_of_replay (Socket ℕ ℕ) (Event ℕ ℕ) step (fun _ _ => True)
    start (fun _ _ => true) (fun _ _ _ => trivial) rejoined
    (fun s => s.sessions.get 0 = some 0 ∧ heard 0 s.trace = [6, 7, 8]) _ (by decide +kernel)
  obtain ⟨hkept, hopen⟩ := opened_on_its_yes hreach
  exact ⟨s, hon, hkept, ((hopen 0 0).2 ((hopen 0 0).1.mp hon)).2.trans hheard⟩

/-- A session may end on the first of two messages queued for it: the second is handed to nobody. -/
theorem second_handed_to_nobody : ¬ ∀ s : Socket ℕ ℕ, Reaches step (fun _ _ => True) start s →
    ∀ before id token n after, s.trace = before ++ .opened id token n :: after →
      heard id before <+: handedTo n s.trace := by
  intro h
  obtain ⟨s, hreach, htrace⟩ := @Reaches.exists_of_replay (Socket ℕ ℕ) (Event ℕ ℕ) step (fun _ _ => True)
    start (fun _ _ => true) (fun _ _ _ => trivial)
    [.receive 0 5 asked fun _ => false, .receive 0 6 asked fun _ => false, .settle 0 .yes asked fun _ => true]
    (fun s => s.trace = [.received 0 5, .begun 0 0, .received 0 6, .allowed 0 false, .allowed 0 true,
      .opened 0 0 0, .handed 0 5, .ended 0 0]) _ (by decide +kernel)
  have hall := h s hreach [.received 0 5, .begun 0 0, .received 0 6, .allowed 0 false, .allowed 0 true] 0 0 0
    [.handed 0 5, .ended 0 0] htrace
  rw [htrace] at hall
  exact absurd hall (by decide)

end Socket

end LazyStorage.Hub
