import LazyStorage.Server.Presence

/-! # What clients are told of who is there

A step of the store is seen, of each speaker, as one of four things: it stays, joins,
shares or leaves, noted if it does. From a whole list on, what a client was told is
right but for what is noted, and a flush makes up for that.
-/
namespace LazyStorage.Server.Presence

open Lib

variable {N R U J : Type} [DecidableEq N]

/-- The session it is, or is on. -/
def Speaker.link : Speaker N → ℕ
  | .session n | .grant n _ _ => n

def Speaker.number : Speaker N → ℕ
  | .session n => n
  | .grant _ _ k => k

namespace Roster

variable {s s' : Roster N R U J} {p q : Speaker N}

/-- Whether a speaker is the session, listed, or the grant of its place. -/
def place (s : Roster N R U J) : Speaker N → Bool
  | .session n => (s.sessions.get n).any (·.listed)
  | .grant n as k => ((s.sessions.get n).bind (·.grants)).bind (·.get as) = some k

theorem mem_listedPeers : p ∈ s.listedPeers ↔ s.place p = true ∧ (s.part p).replicaId.isSome = true := by
  rw [listedPeers, List.mem_filter, and_congr_left_iff]
  intro _
  rw [List.mem_flatMap]
  cases p with
  | session n =>
    rw [place, Option.any_eq_true]
    constructor
    · rintro ⟨⟨n', t⟩, hmem, hp⟩
      rcases List.mem_append.mp hp with hp | hp
      · split at hp
        · next hlisted =>
          obtain rfl := Speaker.session.inj (List.mem_singleton.mp hp)
          exact ⟨t, OrderedMap.mem_entries.mp hmem, hlisted⟩
        · simp at hp
      · cases hgs : t.grants <;> simp [hgs] at hp
    · rintro ⟨t, hget, hlisted⟩
      exact ⟨(n, t), OrderedMap.mem_entries.mpr hget, by simp [hlisted]⟩
  | grant n as k =>
    rw [place, decide_eq_true_eq]
    constructor
    · rintro ⟨⟨n', t⟩, hmem, hp⟩
      rcases List.mem_append.mp hp with hp | hp
      · split at hp <;> simp at hp
      · cases hgs : t.grants with
        | none => simp [hgs] at hp
        | some gs =>
          simp only [hgs, Option.elim_some, List.mem_map] at hp
          obtain ⟨g, hg, heq⟩ := hp
          obtain ⟨rfl, rfl, rfl⟩ := Speaker.grant.inj heq
          rw [OrderedMap.mem_entries.mp hmem, Option.bind_some, hgs, Option.bind_some]
          exact OrderedMap.mem_entries.mp hg
    · intro h
      obtain ⟨gs, hgs, hk⟩ := Option.bind_eq_some_iff.mp h
      obtain ⟨t, hget, hgs⟩ := Option.bind_eq_some_iff.mp hgs
      refine ⟨(n, t), OrderedMap.mem_entries.mpr hget, List.mem_append_right _ ?_⟩
      simp only [hgs, Option.elim_some, List.mem_map]
      exact ⟨(as, k), OrderedMap.mem_entries.mpr hk, rfl⟩

theorem mem_peers {x : Peer R U J} : x ∈ s.peers ↔ ∃ p ∈ s.listedPeers,
    (s.part p).replicaId = some x.replicaId ∧ x.user = (s.part p).user ∧ x.data = (s.part p).shared := by
  rw [peers, List.mem_filterMap]
  refine exists_congr fun p => and_congr_right fun _ => ?_
  rw [peerOf, Option.map_eq_some_iff]
  constructor
  · rintro ⟨r, hr, rfl⟩
    exact ⟨hr, rfl, rfl⟩
  · rintro ⟨hr, huser, hdata⟩
    exact ⟨x.replicaId, hr, by rw [← huser, ← hdata]⟩

@[simp] theorem part_setPart (p q : Speaker N) (x : Part R U J) (s : Roster N R U J) :
    (s.setPart p x).part q = if p = q then x else s.part q := by
  rw [part, setPart, OrderedMap.get_set]
  split <;> rfl

@[simp] theorem part_setSession (n : ℕ) (t : Session N) (p : Speaker N) (s : Roster N R U J) :
    (s.setSession n t).part p = s.part p := rfl

@[simp] theorem part_noteChange (p q : Speaker N) (what : Change) (s : Roster N R U J) :
    (s.noteChange p what).part q = s.part q := rfl

@[simp] theorem sessions_noteChange (p : Speaker N) (what : Change) (s : Roster N R U J) :
    (s.noteChange p what).sessions = s.sessions := rfl

@[simp] theorem place_noteChange (p q : Speaker N) (what : Change) (s : Roster N R U J) :
    (s.noteChange p what).place q = s.place q := by
  cases q <;> rfl

@[simp] theorem place_setPart (p q : Speaker N) (x : Part R U J) (s : Roster N R U J) :
    (s.setPart p x).place q = s.place q := by
  cases q <;> rfl

theorem noted_noteChange (p q : Speaker N) (what : Change) (s : Roster N R U J) :
    (s.noteChange p what).noted.get q =
      if p = q then some (((s.noted.get p).getD ⟨false, false, false⟩).add what) else s.noted.get q :=
  OrderedMap.get_set ..

/-- What happens to one speaker in a step. -/
inductive Moves (s s' : Roster N R U J) (p : Speaker N) : Prop
  | stays (hlisted : p ∈ s'.listedPeers ↔ p ∈ s.listedPeers) (hnoted : s'.noted.get p = s.noted.get p)
      (hpart : p ∈ s.listedPeers ∨ (s.noted.get p).isSome = true →
        (s'.part p).replicaId = (s.part p).replicaId ∧ (s'.part p).shared = (s.part p).shared)
  | joins (hbefore : s.noted.get p = none) (hnew : p ∉ s.listedPeers) (hlisted : p ∈ s'.listedPeers) {e : Noted}
      (hnoted : s'.noted.get p = some e) (hjoined : e.joined = true) (hleft : e.left = false)
  | shares (hbefore : p ∈ s.listedPeers) (hlisted : p ∈ s'.listedPeers)
      (hid : (s'.part p).replicaId = (s.part p).replicaId) {e : Noted} (hnoted : s'.noted.get p = some e)
      (hshared : e.shared = true) (hleft : e.left = false)
      (hjoined : (s.noted.get p).any (·.joined) = true → e.joined = true)
  | leaves (hbefore : p ∈ s.listedPeers) (hlisted : p ∉ s'.listedPeers) (hid : (s'.part p).replicaId = (s.part p).replicaId)
      (hnoted : s'.noted.get p = some ⟨false, true, false⟩)

/-- What is kept of sessions and grants. -/
structure Founded (s : Roster N R U J) : Prop where
  speaks : ∀ p, (s.part p).speaksFor = (s.part p).replicaId
  opened : ∀ n t, s.sessions.get n = some t → n < s.made
  granted : ∀ n as k, s.place (.grant n as k) = true → (s.part (.grant n as k)).replicaId.isSome = true ∧ k < s.made

/-- What is kept of a roster whatever clients were told. -/
structure Sane (s : Roster N R U J) : Prop extends Founded s where
  noted : ∀ p e, s.noted.get p = some e → p.number < s.made ∧ (s.part p).replicaId.isSome = true ∧
    (e.left = true ↔ p ∉ s.listedPeers) ∧ (e.left = false → e.joined = true ∨ e.shared = true)

theorem Founded.number_lt (h : s.Founded) (hp : p ∈ s.listedPeers) : p.number < s.made := by
  have hplace := (mem_listedPeers.mp hp).1
  cases p with
  | session n =>
    obtain ⟨t, ht, -⟩ := Option.any_eq_true .. |>.mp hplace
    exact h.opened n t ht
  | grant n as k => exact (h.granted n as k hplace).2

theorem Founded.noteChange (h : s.Founded) (p : Speaker N) (what : Change) : (s.noteChange p what).Founded :=
  ⟨h.speaks, h.opened, fun n as k hk => h.granted n as k (by rwa [place_noteChange] at hk)⟩

/-- One speaker's part changes, what it speaks for apart. -/
theorem Founded.setPart (h : s.Founded) {x : Part R U J}
    (hid : (s.part p).replicaId.isSome = true → x.replicaId.isSome = true) (hspeaks : x.speaksFor = x.replicaId) :
    (s.setPart p x).Founded := by
  refine ⟨fun q => ?_, h.opened, fun n as k hk => ?_⟩
  · rw [part_setPart]
    split
    · exact hspeaks
    · exact h.speaks q
  · rw [place_setPart] at hk
    obtain ⟨hsome, hlt⟩ := h.granted n as k hk
    rw [part_setPart]
    split
    · next hp => exact ⟨hid (hp ▸ hsome), hlt⟩
    · exact ⟨hsome, hlt⟩

theorem Sane.moves (h : s.Sane) (hmoves : ∀ p, Moves s s' p) (hmade : s.made ≤ s'.made) (hfounded : s'.Founded) :
    s'.Sane where
  toFounded := hfounded
  noted p e he := by
    cases hmoves p with
    | stays hlisted hnoted hpart =>
      have hbefore := hnoted.symm.trans he
      obtain ⟨hlt, hid, hleft, hwhy⟩ := h.noted p e hbefore
      rw [(hpart (.inr (hbefore ▸ rfl))).1, hlisted]
      exact ⟨Nat.lt_of_lt_of_le hlt hmade, hid, hleft, hwhy⟩
    | joins _ _ hlisted hnoted hjoined hleft =>
      obtain rfl := Option.some.inj (hnoted.symm.trans he)
      exact ⟨hfounded.number_lt hlisted, (mem_listedPeers.mp hlisted).2, by simp [hleft, hlisted], fun _ => .inl hjoined⟩
    | shares hbefore hlisted _ hnoted hshared hleft _ =>
      obtain rfl := Option.some.inj (hnoted.symm.trans he)
      exact ⟨Nat.lt_of_lt_of_le (h.number_lt hbefore) hmade, (mem_listedPeers.mp hlisted).2, by simp [hleft, hlisted],
        fun _ => .inr hshared⟩
    | leaves hbefore hlisted hid hnoted =>
      obtain rfl := Option.some.inj (hnoted.symm.trans he)
      rw [hid]
      exact ⟨Nat.lt_of_lt_of_le (h.number_lt hbefore) hmade, (mem_listedPeers.mp hbefore).2, by simp [hlisted], nofun⟩

/-- Nothing else is read of what was sent. -/
theorem Sane.sends (h : s.Sane) (sent : Option (List (Message R U J))) :
    ({ s with sent := sent } : Roster N R U J).Sane :=
  ⟨⟨h.speaks, h.opened, h.granted⟩, h.noted⟩

/-- Nothing is noted after a flush. -/
theorem Sane.flushed (h : s.Sane) : ({ s with noted := .empty } : Roster N R U J).Sane where
  speaks := h.speaks
  opened := h.opened
  granted := h.granted
  noted _ _ he := nomatch he

/-- A step that says nothing to clients, and notes what it does. -/
structure Steps (s s' : Roster N R U J) : Prop where
  sane : s'.Sane
  moves : ∀ p, Moves s s' p
  sent : s'.sent = s.sent

theorem Moves.same (hplace : s'.place p = s.place p) (hpart : s'.part p = s.part p)
    (hnoted : s'.noted.get p = s.noted.get p) : Moves s s' p :=
  .stays (by rw [mem_listedPeers, mem_listedPeers, hplace, hpart]) hnoted fun _ => by rw [hpart]; exact ⟨rfl, rfl⟩

/-- What has no replica is neither listed nor noted. -/
theorem Sane.quiet (h : s.Sane) (hid : (s.part p).replicaId = none) : p ∉ s.listedPeers ∧ s.noted.get p = none := by
  constructor
  · intro hp
    simp [mem_listedPeers, hid] at hp
  · refine Option.eq_none_iff_forall_ne_some.mpr fun e he => ?_
    have hsome := (h.noted p e he).2.1
    simp [hid] at hsome

theorem Steps.refl (h : s.Sane) : Steps s s := ⟨h, fun _ => .same rfl rfl rfl, rfl⟩

/-- What a client was told, but for what is noted. -/
structure Tells (s : Roster N R U J) (m : R → Option (Peer R U J)) : Prop where
  here : ∀ p ∈ s.listedPeers, ∀ r, (s.part p).replicaId = some r →
    (s.noted.get p).any (·.joined) = true ∨ (m r).isSome = true
  there : ∀ r x, m r = some x →
    (∃ p ∈ s.listedPeers, (s.part p).replicaId = some r ∧ ((s.part p).shared = x.data ∨ (s.noted.get p).isSome = true)) ∨
      ∃ p e, s.noted.get p = some e ∧ e.left = true ∧ (s.part p).replicaId = some r

theorem Tells.sends {m : R → Option (Peer R U J)} (h : s.Tells m) (sent : Option (List (Message R U J))) :
    ({ s with sent := sent } : Roster N R U J).Tells m :=
  ⟨h.here, h.there⟩

theorem Tells.moves {m : R → Option (Peer R U J)} (h : s.Tells m) (hsane : s.Sane) (hmoves : ∀ p, Moves s s' p) :
    s'.Tells m := by
  constructor
  · intro p hp r hr
    cases hmoves p with
    | stays hlisted hnoted hpart =>
      have hold := hlisted.mp hp
      rw [hnoted]
      exact h.here p hold r ((hpart (.inl hold)).1 ▸ hr)
    | joins _ _ _ hnoted hjoined _ =>
      left
      rw [hnoted]
      exact hjoined
    | shares hold _ hid hnoted _ _ hjoined =>
      rcases h.here p hold r (hid ▸ hr) with hold | hm
      · left
        rw [hnoted]
        exact hjoined hold
      · exact .inr hm
    | leaves _ hnot => exact absurd hp hnot
  · intro r x hx
    rcases h.there r x hx with ⟨p, hp, hr, hdata⟩ | ⟨p, e, he, hleft, hr⟩
    · cases hmoves p with
      | stays hlisted hnoted hpart =>
        obtain ⟨hid, hshared⟩ := hpart (.inl hp)
        left
        rw [← hid] at hr
        rw [← hshared, ← hnoted] at hdata
        exact ⟨p, hlisted.mpr hp, hr, hdata⟩
      | joins _ hnew => exact absurd hp hnew
      | shares _ hlisted hid hnoted => exact .inl ⟨p, hlisted, hid ▸ hr, .inr (hnoted ▸ rfl)⟩
      | leaves _ _ hid hnoted => exact .inr ⟨p, _, hnoted, rfl, hid ▸ hr⟩
    · have hgone := (hsane.noted p e he).2.2.1.mp hleft
      right
      cases hmoves p with
      | stays _ hnoted hpart =>
        refine ⟨p, e, hnoted ▸ he, hleft, ?_⟩
        rw [(hpart (.inr (he ▸ rfl))).1]
        exact hr
      | joins hbefore => exact nomatch hbefore.symm.trans he
      | shares hold => exact absurd hold hgone
      | leaves _ _ hid hnoted => exact ⟨p, _, hnoted, rfl, hid ▸ hr⟩

theorem steps_openSession (h : s.Sane) (user : Option U) (mayFollow : Bool) :
    Steps s (s.openSession user mayFollow) := by
  have hnew : s.sessions.get s.made = none :=
    Option.eq_none_iff_forall_ne_some.mpr fun t ht => Nat.lt_irrefl _ (h.opened _ t ht)
  have hsessions : ∀ n, (s.openSession user mayFollow).sessions.get n =
      if s.made = n then some ⟨mayFollow, true, none⟩ else s.sessions.get n := fun n => OrderedMap.get_set ..
  have hpart : ∀ p, (s.openSession user mayFollow).part p =
      if .session s.made = p then ⟨user, none, none, none⟩ else s.part p := fun p => part_setPart ..
  have hplace : ∀ n as k, (s.openSession user mayFollow).place (.grant n as k) = s.place (.grant n as k) := by
    intro n as k
    rw [place, place, hsessions]
    split
    · next hn => rw [← hn, hnew]; rfl
    · rfl
  have hmoves : ∀ p, Moves s (s.openSession user mayFollow) p := by
    intro p
    by_cases hp : .session s.made = p
    · have hnone : s.noted.get p = none := by
        refine Option.eq_none_iff_forall_ne_some.mpr fun e he => ?_
        exact absurd (h.noted p e he).1 (hp ▸ Nat.lt_irrefl _)
      have hbefore : p ∉ s.listedPeers := fun hl => absurd (h.number_lt hl) (hp ▸ Nat.lt_irrefl _)
      refine .stays (iff_of_false (fun hl => ?_) hbefore) rfl fun hknown => ?_
      · simp [mem_listedPeers, hpart, hp] at hl
      · exact absurd hknown (by simp [hbefore, hnone])
    · refine .same ?_ (by rw [hpart, if_neg hp]) rfl
      cases p with
      | session n => rw [place, place, hsessions, if_neg fun hn : s.made = n => hp (hn ▸ rfl)]
      | grant n as k => exact hplace n as k
  refine ⟨h.moves hmoves (Nat.le_succ _) ⟨fun p => ?_, fun n t ht => ?_, fun n as k hk => ?_⟩, hmoves, rfl⟩
  · rw [hpart]
    split
    · rfl
    · exact h.speaks p
  · rw [hsessions] at ht
    split at ht
    · next hn => exact hn ▸ Nat.lt_succ_self _
    · exact Nat.lt_succ_of_lt (h.opened n t ht)
  · obtain ⟨hid, hlt⟩ := h.granted n as k (hplace n as k ▸ hk)
    rw [hpart, if_neg (by simp)]
    exact ⟨hid, Nat.lt_succ_of_lt hlt⟩

/-- One speaker's part changes, and nothing a client is told of it. -/
theorem Sane.setPart (h : s.Sane) {x : Part R U J} (hid : x.replicaId = (s.part p).replicaId)
    (hspeaks : x.speaksFor = x.replicaId) (hshared : x.shared = (s.part p).shared ∨ (s.part p).replicaId = none) :
    Steps s (s.setPart p x) := by
  have hsame : ∀ q, ((s.setPart p x).part q).replicaId = (s.part q).replicaId := by
    intro q
    rw [part_setPart]
    split
    · next hq => rw [hid, hq]
    · rfl
  have hmoves : ∀ q, Moves s (s.setPart p x) q := by
    intro q
    refine .stays (by rw [mem_listedPeers, mem_listedPeers, place_setPart, hsame]) rfl fun hknown => ⟨hsame q, ?_⟩
    rw [part_setPart]
    split
    · next hq =>
      subst hq
      rcases hshared with hshared | hnone
      · exact hshared
      · obtain ⟨hbefore, hnoted⟩ := h.quiet hnone
        simp [hbefore, hnoted] at hknown
    · rfl
  exact ⟨h.moves hmoves (Nat.le_refl _) (h.toFounded.setPart (fun hs => hid ▸ hs) hspeaks), hmoves, rfl⟩

/-- A listed peer shares. -/
theorem Sane.noteShare (h : s.Sane) (hp : p ∈ s.listedPeers) {x : Part R U J}
    (hid : x.replicaId = (s.part p).replicaId) (hspeaks : x.speaksFor = x.replicaId) :
    Steps s ((s.setPart p x).noteChange p .share) := by
  have hmoves : ∀ q, Moves s ((s.setPart p x).noteChange p .share) q := by
    intro q
    by_cases hq : p = q
    · subst hq
      have hnoted := noted_noteChange p p .share (s.setPart p x)
      rw [if_pos rfl] at hnoted
      have hpart : ((s.setPart p x).noteChange p .share).part p = x := by simp
      refine .shares hp ?_ (by rw [hpart, hid]) hnoted rfl ?_ ?_
      · rw [mem_listedPeers, place_noteChange, place_setPart, hpart, hid]
        exact mem_listedPeers.mp hp
      · cases he : s.noted.get p with
        | none => simp [Roster.setPart, he, Noted.add]
        | some e =>
          have hleft := (h.noted p e he).2.2.1
          simpa [Roster.setPart, he, Noted.add, hp] using hleft
      · intro hjoined
        cases he : s.noted.get p with
        | none => simp [he] at hjoined
        | some e => simpa [Roster.setPart, he, Noted.add] using hjoined
    · refine .same ?_ ?_ ?_
      · rw [place_noteChange, place_setPart]
      · rw [part_noteChange, part_setPart, if_neg hq]
      · rw [noted_noteChange, if_neg hq]
        rfl
  refine ⟨h.moves hmoves (Nat.le_refl _) ?_, hmoves, rfl⟩
  exact (h.toFounded.setPart (fun hs => hid ▸ hs) hspeaks).noteChange p .share

theorem Sane.setShared [DecidableEq J] (h : s.Sane) (hplace : s.place p = true) (data : Option J) :
    Steps s (s.setShared p data) := by
  have hspeaks := h.speaks p
  rw [Roster.setShared]
  split
  · next hcond =>
    have hid := (Bool.and_eq_true_iff.mp hcond).2
    exact h.noteShare (mem_listedPeers.mpr ⟨hplace, hid⟩) rfl hspeaks
  · next hcond =>
    refine h.setPart rfl hspeaks ?_
    by_cases hchanges : (s.part p).changes data = true
    · right
      simpa [hchanges] using hcond
    · left
      have hsame : (s.part p).shared = data := by simpa [Part.changes] using hchanges
      exact hsame.symm

/-- A new peer, or one that is there now. -/
theorem Sane.noteJoin (h : s.Sane) (hmade : s.made ≤ s'.made) (hsent : s'.sent = s.sent) (hfounded : s'.Founded)
    (hnew : p ∉ s.listedPeers) (hbefore : s.noted.get p = none) (hlisted : p ∈ s'.listedPeers)
    (hnoted : s'.noted = s.noted)
    (hrest : ∀ q, p ≠ q → s'.place q = s.place q ∧ s'.part q = s.part q) : Steps s (s'.noteChange p .join) := by
  have hmoves : ∀ q, Moves s (s'.noteChange p .join) q := by
    intro q
    by_cases hq : p = q
    · subst hq
      have hnow := noted_noteChange p p .join s'
      rw [if_pos rfl, hnoted, hbefore] at hnow
      refine .joins hbefore hnew ?_ hnow rfl rfl
      rw [mem_listedPeers, place_noteChange]
      exact mem_listedPeers.mp hlisted
    · obtain ⟨hplace, hpart⟩ := hrest q hq
      refine .same (by rw [place_noteChange, hplace]) (by rw [part_noteChange, hpart]) ?_
      rw [noted_noteChange, if_neg hq, hnoted]
  exact ⟨h.moves hmoves hmade (hfounded.noteChange p .join), hmoves, hsent⟩

/-- Places go, and the peers that had them are noted to have left. -/
theorem Sane.leave (h : s.Sane) (gone : Speaker N → Bool) (hplace : ∀ q, s'.place q = (s.place q && !gone q))
    (hpart : ∀ q, s'.part q = s.part q)
    (hleft : ∀ q, gone q = true → q ∈ s.listedPeers → s'.noted.get q = some ⟨false, true, false⟩)
    (hkept : ∀ q, gone q = false ∨ q ∉ s.listedPeers → s'.noted.get q = s.noted.get q)
    (hopened : ∀ n t, s'.sessions.get n = some t → n < s.made) (hmade : s'.made = s.made)
    (hsent : s'.sent = s.sent) : Steps s s' := by
  have hlisted : ∀ q, q ∈ s'.listedPeers ↔ q ∈ s.listedPeers ∧ gone q = false := by
    intro q
    rw [mem_listedPeers, mem_listedPeers, hplace, hpart, Bool.and_eq_true, Bool.not_eq_true']
    exact and_right_comm
  have hmoves : ∀ q, Moves s s' q := by
    intro q
    cases hq : gone q with
    | false => exact .same (by rw [hplace, hq, Bool.not_false, Bool.and_true]) (hpart q) (hkept q (.inl hq))
    | true =>
      have hnot : q ∉ s'.listedPeers := fun hl => by simp [hlisted, hq] at hl
      by_cases hin : q ∈ s.listedPeers
      · exact .leaves hin hnot (by rw [hpart]) (hleft q hq hin)
      · exact .stays (iff_of_false hnot hin) (hkept q (.inr hin)) fun _ => by rw [hpart]; exact ⟨rfl, rfl⟩
  refine ⟨h.moves hmoves (Nat.le_of_eq hmade.symm) ⟨fun q => ?_, hmade ▸ hopened, fun n as k hk => ?_⟩, hmoves, hsent⟩
  · rw [hpart]
    exact h.speaks q
  · rw [hplace, Bool.and_eq_true] at hk
    rw [hpart, hmade]
    exact h.granted n as k hk.1

theorem steps_ungrant (h : s.Sane) (n : ℕ) (as : N) : Steps s (s.ungrant n as) := by
  rw [ungrant]
  split
  · exact .refl h
  next t ht =>
  split
  · exact .refl h
  next gs hgs =>
  split
  · exact .refl h
  next k hk =>
  refine h.leave (fun q => decide (q = .grant n as k)) (fun q => ?_) (fun _ => rfl) (fun q hq _ => ?_)
    (fun q hq => ?_) (fun m t' ht' => ?_) rfl rfl
  · cases q with
    | session m =>
      simp only [place, setSession, sessions_noteChange, OrderedMap.get_set]
      split
      · next hm => simp [← hm, ht]
      · simp
    | grant m as' k' =>
      simp only [place, setSession, sessions_noteChange, OrderedMap.get_set]
      split
      · next hm =>
        subst hm
        simp only [Option.bind_some, ht, hgs, OrderedMap.get_erase]
        split
        · next has =>
          subst has
          simp [hk, eq_comm]
        · next has => simp [Ne.symm has]
      · next hm => simp [Ne.symm hm]
  · rw [of_decide_eq_true hq, noted_noteChange, if_pos rfl]
    rfl
  · rw [noted_noteChange, if_neg]
    · rfl
    · rintro rfl
      have hin : s.place (.grant n as k) = true := by simp [place, ht, hgs, hk]
      have hlisted := mem_listedPeers.mpr ⟨hin, (h.granted n as k hin).1⟩
      simp [hlisted] at hq
  · rw [sessions_noteChange, setSession, OrderedMap.get_set] at ht'
    split at ht'
    · next hm => exact hm ▸ h.opened n t ht
    · exact h.opened m t' ht'

/-- What it notes that all of some grants leave. -/
theorem foldl_noteLeave (n : ℕ) (l : List (N × ℕ)) (s : Roster N R U J) :
    let s' := l.foldl (fun s g => s.noteChange (.grant n g.1 g.2) .leave) s
    s'.parts = s.parts ∧ s'.sessions = s.sessions ∧ s'.made = s.made ∧ s'.sent = s.sent ∧
      (∀ m, s'.noted.get (.session m) = s.noted.get (.session m)) ∧
      ∀ m as k, s'.noted.get (.grant m as k) =
        if m = n ∧ (as, k) ∈ l then some ⟨false, true, false⟩ else s.noted.get (.grant m as k) := by
  induction l generalizing s with
  | nil => simp
  | cons g l ih =>
    obtain ⟨hparts, hsessions, hmade, hsent, hsession, hgrant⟩ := ih (s.noteChange (.grant n g.1 g.2) .leave)
    refine ⟨hparts, hsessions, hmade, hsent, fun m => ?_, fun m as k => ?_⟩
    · rw [List.foldl_cons, hsession, noted_noteChange, if_neg (by simp)]
    · rw [List.foldl_cons, hgrant, noted_noteChange]
      by_cases hl : m = n ∧ (as, k) ∈ l
      · rw [if_pos hl, if_pos ⟨hl.1, List.mem_cons_of_mem _ hl.2⟩]
      rw [if_neg hl]
      by_cases hg : Speaker.grant n g.1 g.2 = .grant m as k
      · obtain ⟨rfl, rfl, rfl⟩ := Speaker.grant.inj hg
        rw [if_pos rfl, if_pos ⟨rfl, List.mem_cons_self⟩]
        rfl
      · rw [if_neg hg, if_neg]
        rintro ⟨rfl, hmem⟩
        rcases List.mem_cons.mp hmem with heq | hmem
        · exact hg (heq ▸ rfl)
        · exact hl ⟨rfl, hmem⟩

theorem ite_noteLeave (c : Bool) (p : Speaker N) (s : Roster N R U J) :
    let s' := if c then s.noteChange p .leave else s
    s'.parts = s.parts ∧ s'.sessions = s.sessions ∧ s'.made = s.made ∧ s'.sent = s.sent ∧
      ∀ q, s'.noted.get q = if p = q ∧ c = true then some ⟨false, true, false⟩ else s.noted.get q := by
  cases c with
  | false => simp
  | true =>
    refine ⟨rfl, rfl, rfl, rfl, fun q => ?_⟩
    rw [if_pos rfl, noted_noteChange]
    simp [Noted.add]

theorem steps_close (h : s.Sane) (n : ℕ) : Steps s (s.close n) := by
  rw [close]
  split
  · exact .refl h
  next t ht =>
  have hsession : Speaker.session n ∈ s.listedPeers ↔
      ((s.part (.session n)).replicaId.isSome && t.listed) = true := by
    simp [mem_listedPeers, place, ht, and_comm]
  have hgrant : ∀ as k, Speaker.grant n as k ∈ s.listedPeers ↔ (as, k) ∈ t.grants.elim [] (·.entries) := by
    intro as k
    have hplace : s.place (.grant n as k) = true ↔ (as, k) ∈ t.grants.elim [] (·.entries) := by
      cases hgs : t.grants <;> simp [place, ht, hgs, OrderedMap.mem_entries]
    rw [mem_listedPeers, ← hplace]
    exact and_iff_left_of_imp fun hin => (h.granted n as k hin).1
  obtain ⟨hparts₂, hsessions₂, hmade₂, hsent₂, hnoted₂⟩ := ite_noteLeave
    ((s.part (.session n)).replicaId.isSome && t.listed) (.session n)
    ({ s with sessions := s.sessions.erase n } : Roster N R U J)
  change Steps s ((t.grants.elim [] (·.entries)).foldl (fun s g => s.noteChange (.grant n g.1 g.2) .leave)
    (if ((s.part (.session n)).replicaId.isSome && t.listed) = true then
      ({ s with sessions := s.sessions.erase n } : Roster N R U J).noteChange (.session n) .leave
    else { s with sessions := s.sessions.erase n }))
  generalize (if ((s.part (.session n)).replicaId.isSome && t.listed) = true then
      ({ s with sessions := s.sessions.erase n } : Roster N R U J).noteChange (.session n) .leave
    else { s with sessions := s.sessions.erase n }) = s₂ at *
  obtain ⟨hparts, hsessions, hmade, hsent, hnotedS, hnotedG⟩ := foldl_noteLeave n (t.grants.elim [] (·.entries)) s₂
  generalize (t.grants.elim [] (·.entries)).foldl (fun s g => s.noteChange (.grant n g.1 g.2) .leave) s₂ = s' at *
  rw [hparts₂] at hparts
  rw [hsessions₂] at hsessions
  refine h.leave (fun q => decide (q.link = n)) (fun q => ?_) (fun q => ?_) (fun q hq hl => ?_) (fun q hq => ?_)
    (fun m t' ht' => ?_) (hmade.trans hmade₂) (hsent.trans hsent₂)
  · cases q with
    | session m =>
      rw [place, place, hsessions, OrderedMap.get_erase, Speaker.link]
      split
      · next hm => simp [hm]
      · next hm => simp [Ne.symm hm]
    | grant m as k =>
      rw [place, place, hsessions, OrderedMap.get_erase, Speaker.link]
      split
      · next hm => simp [hm]
      · next hm => simp [Ne.symm hm]
  · rw [part, part, hparts]
  · obtain hq := of_decide_eq_true hq
    cases q with
    | session m =>
      obtain rfl : m = n := hq
      rw [hnotedS, hnoted₂, if_pos ⟨rfl, hsession.mp hl⟩]
    | grant m as k =>
      obtain rfl : m = n := hq
      rw [hnotedG, if_pos ⟨rfl, (hgrant as k).mp hl⟩]
  · cases q with
    | session m =>
      rw [hnotedS, hnoted₂, if_neg]
      rintro ⟨heq, hcond⟩
      obtain rfl := Speaker.session.inj heq
      rcases hq with hq | hq
      · simp [Speaker.link] at hq
      · exact hq (hsession.mpr hcond)
    | grant m as k =>
      rw [hnotedG, if_neg, hnoted₂, if_neg (by simp)]
      rintro ⟨rfl, hmem⟩
      rcases hq with hq | hq
      · simp [Speaker.link] at hq
      · exact hq ((hgrant as k).mpr hmem)
  · rw [hsessions, OrderedMap.get_erase] at ht'
    split at ht'
    · exact nomatch ht'
    · exact h.opened m t' ht'

/-- Whether two rosters are one but for what no client is told of. -/
structure Same (s s' : Roster N R U J) : Prop where
  place : ∀ q, s'.place q = s.place q
  part : ∀ q, s'.part q = s.part q
  noted : s'.noted = s.noted
  sent : s'.sent = s.sent
  made : s'.made = s.made

theorem Same.listed (h : Same s s') : p ∈ s'.listedPeers ↔ p ∈ s.listedPeers := by
  rw [mem_listedPeers, mem_listedPeers, h.place, h.part]

theorem Same.sane (h : Same s s') (hsane : s.Sane) (hopened : ∀ n t, s'.sessions.get n = some t → n < s.made) :
    s'.Sane where
  speaks q := by
    rw [h.part]
    exact hsane.speaks q
  opened := h.made ▸ hopened
  granted n as k hk := by
    rw [h.part, h.made]
    exact hsane.granted n as k (h.place _ ▸ hk)
  noted q e he := by
    rw [h.part, h.made, h.listed]
    exact hsane.noted q e (h.noted ▸ he)

/-- A step goes on from where it changed nothing yet. -/
theorem Steps.after {s'' : Roster N R U J} (h : Same s s') (hsteps : Steps s' s'') : Steps s s'' := by
  refine ⟨hsteps.sane, fun p => ?_, hsteps.sent.trans h.sent⟩
  cases hsteps.moves p with
  | stays hlisted hnoted hpart =>
    rw [h.listed] at hlisted hpart
    rw [h.noted] at hnoted hpart
    rw [h.part] at hpart
    exact .stays hlisted hnoted hpart
  | joins hbefore hnew hlisted hnoted hjoined hleft =>
    exact .joins (h.noted ▸ hbefore) (h.listed.not.mp hnew) hlisted hnoted hjoined hleft
  | shares hbefore hlisted hid hnoted hshared hleft hjoined =>
    rw [h.part] at hid
    rw [h.noted] at hjoined
    exact .shares (h.listed.mp hbefore) hlisted hid hnoted hshared hleft hjoined
  | leaves hbefore hlisted hid hnoted =>
    rw [h.part] at hid
    exact .leaves (h.listed.mp hbefore) hlisted hid hnoted

/-- A session keeps its place and its grants theirs. -/
theorem same_setSession {n : ℕ} {t t' : Session N} (ht : s.sessions.get n = some t) (hlisted : t'.listed = t.listed)
    (hgrants : ∀ as, t'.grants.bind (·.get as) = t.grants.bind (·.get as)) : Same s (s.setSession n t') := by
  refine ⟨fun q => ?_, fun _ => rfl, rfl, rfl, rfl⟩
  cases q with
  | session m =>
    rw [place, place, setSession, OrderedMap.get_set]
    split
    · next hm => rw [← hm, ht, Option.any_some, Option.any_some, hlisted]
    · rfl
  | grant m as k =>
    rw [place, place, setSession, OrderedMap.get_set]
    split
    · next hm => rw [← hm, ht, Option.bind_some, Option.bind_some, hgrants]
    · rfl

theorem opened_setSession (h : s.Founded) {n : ℕ} {t : Session N} (ht : s.sessions.get n = some t) (t' : Session N) :
    ∀ m u, (s.setSession n t').sessions.get m = some u → m < s.made := by
  intro m u hu
  rw [setSession, OrderedMap.get_set] at hu
  split at hu
  · next hm => exact hm ▸ h.opened n t ht
  · exact h.opened m u hu

theorem claim_ok [DecidableEq R] {x : Part R U J} {replica : R} {taken : Bool}
    (h : claimReplica x replica taken = none) : x.speaksFor = none ∨ x.speaksFor = some replica := by
  cases hfor : x.speaksFor with
  | none => exact .inl rfl
  | some r =>
    right
    by_contra hne
    have hr : r ≠ replica := fun heq => hne (heq ▸ rfl)
    simp [claimReplica, hfor, hr] at h

theorem steps_newGrant (h : s.Sane) {n : ℕ} {as : N} {t : Session N} {gs : OrderedMap N ℕ}
    (ht : s.sessions.get n = some t) (hgs : t.grants = some gs) (hk : gs.get as = none) (user : Option U)
    (replica : R) : Steps s (s.newGrant n as t gs user replica) := by
  have hplace : ∀ q, q ≠ .grant n as s.made → (({ s with made := s.made + 1 }.setSession n
      { t with grants := some (gs.set as s.made) }).setPart (.grant n as s.made)
        ⟨user, some replica, some replica, none⟩ : Roster N R U J).place q = s.place q := by
    intro q hq
    rw [place_setPart]
    cases q with
    | session m =>
      rw [place, place, setSession, OrderedMap.get_set]
      split
      · next hm => rw [← hm, ht]; rfl
      · rfl
    | grant m as' k' =>
      rw [place, place, setSession, OrderedMap.get_set]
      split
      · next hm =>
        subst hm
        rw [ht, Option.bind_some, Option.bind_some, Option.bind_some, hgs, Option.bind_some, OrderedMap.get_set]
        split
        · next has =>
          subst has
          have hk' : s.made ≠ k' := fun heq => hq (heq ▸ rfl)
          simp [hk, hk']
        · rfl
      · rfl
  refine h.noteJoin (Nat.le_succ _) rfl ⟨fun q => ?_, fun m u hu => ?_, fun m as' k' hin => ?_⟩
    (fun hl => Nat.lt_irrefl _ (h.number_lt hl))
    (Option.eq_none_iff_forall_ne_some.mpr fun e he => Nat.lt_irrefl _ (h.noted _ e he).1) ?_ rfl
    fun q hq => ⟨hplace q (Ne.symm hq), ?_⟩
  · rw [part_setPart]
    split
    · rfl
    · exact h.speaks q
  · exact Nat.lt_succ_of_lt (opened_setSession h.toFounded ht _ m u hu)
  · rw [part_setPart]
    split
    · next heq =>
      obtain ⟨-, -, rfl⟩ := Speaker.grant.inj heq
      exact ⟨rfl, Nat.lt_succ_self _⟩
    · next hne =>
      rw [hplace _ (Ne.symm hne)] at hin
      obtain ⟨hid, hlt⟩ := h.granted m as' k' hin
      exact ⟨hid, Nat.lt_succ_of_lt hlt⟩
  · rw [mem_listedPeers, part_setPart, if_pos rfl]
    exact ⟨by simp [place, setSession, Roster.setPart], rfl⟩
  · rw [part_setPart, if_neg hq]
    rfl

theorem steps_grant [DecidableEq R] (h : s.Sane) (n : ℕ) (as : N) (user : Option U) (replica : R) (taken : Bool) :
    Steps s (s.grant n as user replica taken) := by
  rw [grant]
  split
  · exact .refl h
  next t ht =>
  dsimp only
  split
  · exact .refl h
  next gs hgs =>
  have hget : ∀ as, gs.get as = t.grants.bind (·.get as) := by
    intro as
    split at hgs
    · next hcond =>
      obtain rfl := Option.some.inj hgs
      simp only [Bool.and_eq_true, Option.isNone_iff_eq_none] at hcond
      rw [hcond.1]
      rfl
    · rw [hgs, Option.bind_some]
  have hsame : Same s (s.setSession n { t with grants := some gs }) := same_setSession ht rfl hget
  have hsane := hsame.sane h (opened_setSession h.toFounded ht _)
  refine Steps.after hsame ?_
  split
  · next k hk =>
    split
    · exact .refl hsane
    next hclaim =>
    have hin : s.place (.grant n as k) = true := by
      rw [hget] at hk
      cases hg : t.grants <;> simp_all [place]
    refine hsane.setPart rfl ?_ (.inl rfl)
    have hid := (h.granted n as k hin).1
    have hspeaks := h.speaks (.grant n as k)
    rcases claim_ok hclaim with hfor | hfor
    · rw [← hspeaks, show (s.part (.grant n as k)).speaksFor = none from hfor] at hid
      exact nomatch hid
    · exact hfor.symm.trans hspeaks
  · next hk =>
    split
    · exact .refl hsane
    exact steps_newGrant hsane (OrderedMap.get_set_self ..) rfl hk user replica

/-- Whether a hello that waits for its answer has nothing to note: that of a listed session whose grants are all
gone again. -/
def Unheld [DecidableEq R] [DecidableEq J] (n : ℕ) (replica : R) (follower : Bool) (share : Option (Option J))
    (taken : Bool) (s : Roster N R U J) : Prop :=
  ∀ t ∈ s.sessions.get n, t.listed = true → t.grants.any (·.size = 0) = true →
    claimReplica (s.part (.session n)) replica taken = none →
      if (s.part (.session n)).replicaId.isNone then follower = true
      else share.any (s.part (.session n)).changes = false

omit [DecidableEq N] in
theorem Part.named {x : Part R U J} {r : R} (hid : x.replicaId = some r) (hspeaks : x.speaksFor = some r) :
    ({ x with speaksFor := some r, replicaId := some r } : Part R U J) = x := by
  cases x
  cases hid
  cases hspeaks
  rfl

omit [DecidableEq N] in
theorem Part.elim_share (share : Option (Option J)) (x : Part R U J) :
    (share.elim x x.share).replicaId = x.replicaId ∧ (share.elim x x.share).speaksFor = x.speaksFor := by
  cases share <;> exact ⟨rfl, rfl⟩

theorem setSession_of_get {n : ℕ} {t : Session N} (ht : s.sessions.get n = some t) : s.setSession n t = s := by
  rw [setSession, OrderedMap.set_of_get _ ht]

/-- A session that is no peer says who it is, and is none yet. -/
theorem Sane.name (h : s.Sane) {n : ℕ} {t : Session N} (ht : s.sessions.get n = some t)
    (hid : (s.part (.session n)).replicaId = none) (t' : Session N) (hlisted : t'.listed = false)
    (hgrants : ∀ as, t'.grants.bind (·.get as) = t.grants.bind (·.get as)) {x : Part R U J}
    (hspeaks : x.speaksFor = x.replicaId) : Steps s ((s.setSession n t').setPart (.session n) x) := by
  have hplace : ∀ q, q ≠ .session n → ((s.setSession n t').setPart (.session n) x).place q = s.place q := by
    intro q hq
    rw [place_setPart]
    cases q with
    | session m =>
      rw [place, place, setSession, OrderedMap.get_set_of_ne _ _ fun hm : n = m => hq (hm ▸ rfl)]
    | grant m as k =>
      rw [place, place, setSession, OrderedMap.get_set]
      split
      · next hm => rw [← hm, ht, Option.bind_some, Option.bind_some, hgrants]
      · rfl
  have hmoves : ∀ q, Moves s ((s.setSession n t').setPart (.session n) x) q := by
    intro q
    by_cases hq : q = .session n
    · subst hq
      obtain ⟨hbefore, hnoted⟩ := h.quiet hid
      refine .stays (iff_of_false (fun hl => ?_) hbefore) rfl fun hknown => ?_
      · have hin := (mem_listedPeers.mp hl).1
        simp [place, setSession, Roster.setPart, hlisted] at hin
      · simp [hbefore, hnoted] at hknown
    · refine .same (hplace q hq) ?_ rfl
      rw [part_setPart, if_neg (Ne.symm hq), part_setSession]
  refine ⟨h.moves hmoves (Nat.le_refl _) ⟨fun q => ?_, opened_setSession h.toFounded ht t', fun m as k hk => ?_⟩,
    hmoves, rfl⟩
  · rw [part_setPart]
    split
    · exact hspeaks
    · exact h.speaks q
  · rw [hplace _ (by simp)] at hk
    rw [part_setPart, if_neg (by simp)]
    exact h.granted m as k hk

instance [DecidableEq R] [DecidableEq J] (n : ℕ) (replica : R) (follower : Bool) (share : Option (Option J))
    (taken : Bool) (s : Roster N R U J) : Decidable (s.Unheld n replica follower share taken) :=
  inferInstanceAs (Decidable (∀ t ∈ s.sessions.get n, t.listed = true → t.grants.any (·.size = 0) = true →
    claimReplica (s.part (.session n)) replica taken = none →
      if (s.part (.session n)).replicaId.isNone then follower = true
      else share.any (s.part (.session n)).changes = false))

theorem steps_hello [DecidableEq R] [DecidableEq J] (h : s.Sane) {n : ℕ} {replica : R} {follower : Bool}
    {share : Option (Option J)} {taken : Bool} (hok : s.Unheld n replica follower share taken) :
    Steps s (s.hello n replica follower share taken) := by
  rw [hello]
  split
  · exact .refl h
  next t ht =>
  split
  · exact .refl h
  dsimp only
  split
  · exact steps_close h n
  · exact .refl h
  next hclaim =>
  specialize hok t ht
  have hspeaks := h.speaks (.session n)
  cases hid : (s.part (.session n)).replicaId with
  | none =>
    cases follower with
    | true =>
      have hgrants : ∀ as, (some (t.grants.getD .empty)).bind (·.get as) = t.grants.bind (·.get as) := by
        intro as
        cases t.grants <;> rfl
      simpa using h.name ht hid ⟨t.mayFollow, false, some (t.grants.getD .empty)⟩ rfl hgrants rfl
    | false =>
      cases hlisted : t.listed with
      | false =>
        simpa [hlisted] using h.name ht hid t hlisted (fun _ => rfl) rfl
      | true =>
        have hheld : t.grants.any (·.size = 0) = false := by
          by_contra hheld
          have hfollower := hok hlisted (by simpa using hheld) hclaim
          simp [hid] at hfollower
        obtain ⟨hnew, hbefore⟩ := h.quiet hid
        obtain ⟨hreplica, hfor⟩ := Part.elim_share share
          { s.part (.session n) with speaksFor := some replica, replicaId := some replica }
        simp only [Option.isNone_none, Bool.and_false, Bool.false_eq_true, if_false, hlisted, hheld, if_true,
          setSession_of_get ht]
        refine h.noteJoin (Nat.le_refl _) rfl (h.toFounded.setPart (fun _ => by rw [hreplica]; rfl) (hfor.trans hreplica.symm))
          hnew hbefore ?_ rfl fun q hq => ⟨place_setPart .., by rw [part_setPart, if_neg hq]⟩
        rw [mem_listedPeers, place_setPart, part_setPart, if_pos rfl, hreplica]
        exact ⟨by simp [place, ht, hlisted], rfl⟩
  | some r =>
    have hr : r = replica := by
      rw [hid] at hspeaks
      rcases claim_ok hclaim with hfor | hfor
      · exact nomatch hfor.symm.trans hspeaks
      · exact Option.some.inj (hspeaks.symm.trans hfor)
    subst hr
    simp only [Option.isNone_some, Bool.false_and, Bool.false_eq_true, if_false, setSession_of_get ht,
      Part.named hid (hspeaks.trans hid)]
    cases hlisted : t.listed with
    | false =>
      have hsame : Steps s (s.setPart (.session n) (s.part (.session n))) := h.setPart rfl hspeaks (.inl rfl)
      simpa using hsame
    | true =>
      have hin : Speaker.session n ∈ s.listedPeers :=
        mem_listedPeers.mpr ⟨by simp [place, ht, hlisted], by rw [hid]; rfl⟩
      have hshare := Part.elim_share share (s.part (.session n))
      have hstill : share.any (s.part (.session n)).changes = false →
          (share.elim (s.part (.session n)) (s.part (.session n)).share).shared = (s.part (.session n)).shared := by
        intro hnone
        cases share with
        | none => rfl
        | some data =>
          have hsame : (s.part (.session n)).shared = data := by simpa [Part.changes] using hnone
          exact hsame.symm
      have hspeaks' := hshare.2.trans (hspeaks.trans hshare.1.symm)
      simp only [Bool.true_and, if_true]
      split
      · next hheld =>
        have hquiet := hok hlisted hheld hclaim
        simp only [hid, Option.isNone_some, Bool.false_eq_true, if_false] at hquiet
        exact h.setPart hshare.1 hspeaks' (.inl (hstill hquiet))
      · split
        · exact h.noteShare hin hshare.1 hspeaks'
        · next hchanges => exact h.setPart hshare.1 hspeaks' (.inl (hstill (eq_false_of_ne_true hchanges)))

end Roster

end LazyStorage.Server.Presence
