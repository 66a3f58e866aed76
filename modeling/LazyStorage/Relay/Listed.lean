import LazyStorage.Relay.Grants

/-! # A client is listed only while it is there

What either side holds of one client, and what is on its way about it, goes through
few stages: a client's name is its own, and it is asked for once at a time. Where
nothing is on its way, the server's grants are of the clients on the store that were
let in, if no client leaves while it is asked for.
-/
namespace LazyStorage.Relay

open Lib

variable {N : Type}

/-- All there is of one client, on both sides and on its way. -/
structure View (N : Type) where
  known : Bool
  here : Bool
  standing : Option Standing
  up : List (Up N)
  judging : ℕ
  granted : Bool
  down : List (Down N)

/-- How far a client has come. -/
inductive Stage (as : N) : View N → Prop
  | unknown : Stage as ⟨false, false, none, [], 0, false, []⟩
  | arrived : Stage as ⟨true, true, none, [], 0, false, []⟩
  | pending : Stage as ⟨true, true, some .pending, [], 0, false, []⟩
  | asked : Stage as ⟨true, true, some .asked, [.vouch as], 0, false, []⟩
  | judged : Stage as ⟨true, true, some .asked, [], 1, false, []⟩
  | answered (limited : Bool) : Stage as ⟨true, true, some .asked, [], 0, false, [.refused as limited]⟩
  | letIn : Stage as ⟨true, true, some .asked, [], 0, true, [.admitted as]⟩
  | letInOnce : Stage as ⟨true, true, some .asked, [], 0, false, [.admitted as, .revoked as]⟩
  | admitted : Stage as ⟨true, true, some .admitted, [], 0, true, []⟩
  | revoked : Stage as ⟨true, true, some .admitted, [], 0, false, [.revoked as]⟩
  | leaving : Stage as ⟨true, false, none, [.leave as], 0, true, []⟩
  | crossing : Stage as ⟨true, false, none, [.leave as], 0, false, [.revoked as]⟩
  | crossed : Stage as ⟨true, false, none, [.leave as], 0, false, []⟩
  | tooLate : Stage as ⟨true, false, none, [], 0, false, [.revoked as]⟩
  | gone : Stage as ⟨true, false, none, [], 0, false, []⟩

namespace View

variable {as : N} {v : View N}

def vouch (as : N) (v : View N) : View N :=
  { v with standing := some .asked, up := v.up ++ [.vouch as] }

def leave (as : N) (synced : Bool) (v : View N) : View N :=
  { v with
    here := false
    standing := none
    up := if v.standing = some .admitted ∧ synced then v.up ++ [.leave as] else v.up }

/-- A message from the server, taken from the way down. -/
def hear (msg : Down N) (v : View N) : View N :=
  let v := { v with down := v.down.tail }
  match msg with
  | .admitted _ => if v.standing.isSome then { v with standing := some .admitted } else v
  | .refused _ true => if v.standing.isSome then { v with standing := some .pending } else v
  | .refused _ false | .revoked _ =>
    if v.standing.isSome then { v with here := false, standing := none } else v

def settle (as : N) (ok : Bool) (v : View N) : View N :=
  if ok then { v with judging := v.judging - 1, granted := true, down := v.down ++ [.admitted as] }
  else { v with judging := v.judging - 1, down := v.down ++ [.refused as false] }

end View

namespace Stage

variable {as : N} {v : View N}

theorem come (h : Stage as v) (hnew : v.known = false) : Stage as { v with known := true, here := true } := by
  cases h with
  | unknown => exact .arrived
  | _ => cases hnew

theorem vouch (h : Stage as v) (hhere : v.here = true)
    (hopen : v.standing = none ∨ v.standing = some .pending) : Stage as (v.vouch as) := by
  cases h with
  | arrived => exact .asked
  | pending => exact .asked
  | asked | judged | answered | letIn | letInOnce | admitted | revoked => simp at hopen
  | _ => cases hhere

theorem leave (h : Stage as v) (hhere : v.here = true) {synced : Bool} (hasked : v.standing ≠ some .asked)
    (hsynced : v.standing = some .admitted → synced = true) : Stage as (v.leave as synced) := by
  cases h with
  | arrived => exact .gone
  | pending => exact .gone
  | admitted =>
    rw [hsynced rfl]
    exact .leaving
  | revoked =>
    rw [hsynced rfl]
    exact .crossing
  | asked | judged | answered | letIn | letInOnce => exact absurd rfl hasked
  | _ => cases hhere

/-- The first message on the way down, heard. -/
theorem hear (h : Stage as v) {msg : Down N} {rest : List (Down N)} (hdown : v.down = msg :: rest) :
    Stage as (v.hear msg) := by
  cases h with
  | answered limited =>
    obtain ⟨rfl, -⟩ := List.cons.inj hdown
    cases limited
    · exact .gone
    · exact .pending
  | letIn =>
    obtain ⟨rfl, -⟩ := List.cons.inj hdown
    exact .admitted
  | letInOnce =>
    obtain ⟨rfl, -⟩ := List.cons.inj hdown
    exact .revoked
  | revoked =>
    obtain ⟨rfl, -⟩ := List.cons.inj hdown
    exact .gone
  | crossing =>
    obtain ⟨rfl, -⟩ := List.cons.inj hdown
    exact .crossed
  | tooLate =>
    obtain ⟨rfl, -⟩ := List.cons.inj hdown
    exact .gone
  | _ => cases hdown

/-- The first message on the way up, a vouch: refused at once, or judged. -/
theorem receive_vouch (h : Stage as v) {rest : List (Up N)} (hup : v.up = .vouch as :: rest)
    (limited : Bool) : Stage as (if limited then { v with up := rest, down := v.down ++ [.refused as true] }
      else { v with up := rest, judging := v.judging + 1 }) := by
  cases h with
  | asked =>
    obtain ⟨-, rfl⟩ := List.cons.inj hup
    cases limited
    · exact .judged
    · exact .answered true
  | leaving | crossing | crossed => simp at hup
  | _ => cases hup

theorem receive_leave (h : Stage as v) {rest : List (Up N)} (hup : v.up = .leave as :: rest) :
    Stage as { v with up := rest, granted := false } := by
  cases h with
  | leaving =>
    obtain ⟨-, rfl⟩ := List.cons.inj hup
    exact .gone
  | crossing =>
    obtain ⟨-, rfl⟩ := List.cons.inj hup
    exact .tooLate
  | crossed =>
    obtain ⟨-, rfl⟩ := List.cons.inj hup
    exact .gone
  | asked => simp at hup
  | _ => cases hup

theorem settle (h : Stage as v) (hjudging : v.judging ≠ 0) (ok : Bool) : Stage as (v.settle as ok) := by
  cases h with
  | judged =>
    cases ok
    · exact .answered false
    · exact .letIn
  | _ => exact absurd rfl hjudging

theorem revoke (h : Stage as v) (hgranted : v.granted = true) :
    Stage as { v with granted := false, down := v.down ++ [.revoked as] } := by
  cases h with
  | letIn => exact .letInOnce
  | admitted => exact .revoked
  | leaving => exact .crossing
  | _ => cases hgranted

/-- Nothing on its way, and nothing judged: who is granted is here and let in. -/
theorem quiet (h : Stage as v) (hup : v.up = []) (hjudging : v.judging = 0) (hdown : v.down = []) :
    v.granted = true ↔ v.here = true ∧ v.standing = some .admitted := by
  cases h <;> simp_all

end Stage

namespace Down

def about : Down N → N
  | admitted as | refused as _ | revoked as => as

@[simp] theorem about_admitted (as : N) : (admitted as).about = as := rfl

@[simp] theorem about_refused (as : N) (limited : Bool) : (refused as limited).about = as := rfl

@[simp] theorem about_revoked (as : N) : (revoked as).about = as := rfl

end Down

variable [DecidableEq N]

namespace Up

/-- Whether a message moves a client's grant. -/
def moves (as : N) (msg : Up N) : Bool := msg = .vouch as || msg = .leave as

end Up

namespace Link

/-- What a link holds of one client. -/
def view (l : Link N) (as : N) : View N where
  known := l.used.contains as
  here := l.sessions.contains as
  standing := l.grants.get as
  up := l.up.filter (·.moves as)
  judging := l.judging.count as
  granted := l.granted.contains as
  down := l.down.filter (·.about = as)

/-- Each client is at a stage of its own. -/
def Staged (l : Link N) : Prop := ∀ as, Stage as (l.view as)

variable {l l' : Link N} {as : N}

theorem staged_start : (start : Link N).Staged := fun _ => .unknown

/-- What moves one client alone. -/
theorem Staged.of_one (as : N) (h : l.Staged) (hother : ∀ b, b ≠ as → l'.view b = l.view b)
    (hone : Stage as (l'.view as)) : l'.Staged := by
  intro b
  by_cases hb : b = as
  · exact hb ▸ hone
  · rw [hother b hb]
    exact h b

theorem Staged.come (h : l.Staged) (hnew : as ∉ l.used) :
    ({ l with used := as :: l.used, sessions := as :: l.sessions } : Link N).Staged := by
  refine h.of_one as (fun b hb => by simp [view, hb]) ?_
  have hview : ({ l with used := as :: l.used, sessions := as :: l.sessions } : Link N).view as =
      { l.view as with known := true, here := true } := by simp [view]
  rw [hview]
  exact (h as).come (by simpa [view] using hnew)

/-- One asked for, who was not. -/
theorem Staged.vouch (h : l.Staged) (hhere : as ∈ l.sessions)
    (hopen : l.grants.get as = none ∨ l.grants.get as = some .pending) : (l.vouch as).Staged := by
  refine h.of_one as (fun b hb => ?_) ?_
  · simp [view, Link.vouch, Up.moves, OrderedMap.get_set, Ne.symm hb]
  have hview : (l.vouch as).view as = (l.view as).vouch as := by
    simp [view, Link.vouch, View.vouch, Up.moves]
  rw [hview]
  exact (h as).vouch (by simpa [view] using hhere) hopen

/-- Who is asked for, or was, is on the store. -/
theorem Staged.here (h : l.Staged) (hthere : l.grants.get as ≠ none) : as ∈ l.sessions := by
  have hone := h as
  generalize hv : l.view as = v at hone
  have hhere : (l.view as).here = v.here := by rw [hv]
  have hstanding : l.grants.get as = v.standing := by rw [← hv]; rfl
  cases hone <;> simp_all [view]

theorem filter_vouches {names : List N} (hnodup : names.Nodup) (p : N → Bool) (as : N) :
    ((names.filter p).map Up.vouch).filter (·.moves as) =
      if as ∈ names ∧ p as = true then [.vouch as] else [] := by
  induction names with
  | nil => simp
  | cons b names ih =>
    rw [List.nodup_cons] at hnodup
    have hrest := ih hnodup.2
    by_cases hp : p b = true
    · rw [List.filter_cons_of_pos hp, List.map_cons, List.filter_cons, hrest]
      by_cases hb : b = as
      · subst hb
        simp [Up.moves, hnodup.1, hp]
      · simp [Up.moves, hb, Ne.symm hb]
    · rw [List.filter_cons_of_neg hp, hrest]
      by_cases hb : b = as
      · subst hb
        simp [hnodup.1, hp]
      · simp [Ne.symm hb]

/-- Whoever waits asked for. -/
theorem Staged.vouchPending (h : l.Staged) (synced : Bool) :
    ({ l.vouchPending with synced := synced } : Link N).Staged := by
  intro as
  have hview : ({ l.vouchPending with synced := synced } : Link N).view as =
      if l.grants.get as = some .pending then (l.view as).vouch as else l.view as := by
    have hup := filter_vouches l.grants.nodup (fun as => l.grants.get as = some .pending) as
    simp only [view, Link.vouchPending, View.vouch, List.filter_append, OrderedMap.get_mapVal]
    rw [OrderedMap.keys, hup]
    by_cases hpending : l.grants.get as = some .pending
    · have hkey : as ∈ l.grants.entries.map Prod.fst := l.grants.mem_keys.mpr (by simp [hpending])
      simp [hpending, hkey]
    · cases hg : l.grants.get as <;> simp_all
  rw [hview]
  split_ifs with hpending
  · have hthere : l.grants.get as ≠ none := by simp [hpending]
    exact (h as).vouch (by simpa [view] using h.here hthere) (.inr hpending)
  · exact h as

theorem Staged.leave (h : l.Staged) (hhere : as ∈ l.sessions) (hasked : l.grants.get as ≠ some .asked)
    (hsynced : l.grants.get as = some .admitted → l.synced = true) : (l.leave as).Staged := by
  refine h.of_one as (fun b hb => ?_) ?_
  · unfold Link.leave
    dsimp only
    split_ifs <;> simp [view, Up.moves, OrderedMap.get_erase, hb, Ne.symm hb]
  have hview : (l.leave as).view as = (l.view as).leave as l.synced := by
    unfold Link.leave View.leave
    dsimp only
    split_ifs <;> simp_all [view, Up.moves]
  rw [hview]
  exact (h as).leave (by simpa [view] using hhere) hasked hsynced

theorem Staged.revoke (h : l.Staged) (hgranted : as ∈ l.granted) : (l.revoke as).Staged := by
  refine h.of_one as (fun b hb => ?_) ?_
  · simp [view, Link.revoke, hb, Ne.symm hb]
  have hview : (l.revoke as).view as =
      { l.view as with granted := false, down := (l.view as).down ++ [.revoked as] } := by
    simp [view, Link.revoke]
  rw [hview]
  exact (h as).revoke (by simpa [view] using hgranted)

theorem Staged.settle (h : l.Staged) {i : ℕ} (hi : l.judging[i]? = some as) (ok : Bool) :
    (l.settle as i ok).Staged := by
  obtain ⟨hlt, hget⟩ := List.getElem?_eq_some_iff.mp hi
  have hcount : ∀ b, (l.judging.eraseIdx i).count b + (if as = b then 1 else 0) = l.judging.count b := by
    intro b
    have hperm := (List.getElem_cons_eraseIdx_perm hlt).count_eq b
    rw [hget, List.count_cons] at hperm
    simpa using hperm
  refine h.of_one as (fun b hb => ?_) ?_
  · have hb' := hcount b
    rw [if_neg (Ne.symm hb), Nat.add_zero] at hb'
    unfold Link.settle
    dsimp only
    split_ifs <;> simp [view, hb', hb, Ne.symm hb]
  have hview : (l.settle as i ok).view as = (l.view as).settle as ok := by
    have hself := hcount as
    rw [if_pos rfl] at hself
    unfold Link.settle View.settle
    dsimp only
    split_ifs <;> simp_all [view] <;> omega
  rw [hview]
  refine (h as).settle ?_ ok
  exact Nat.ne_of_gt (List.count_pos_iff.mpr (List.mem_of_getElem? hi))

theorem Staged.receive (h : l.Staged) {msg : Up N} {rest : List (Up N)} (hup : l.up = msg :: rest)
    (limited : Bool) : ({ l with up := rest }.receive msg limited).Staged := by
  cases msg with
  | op as =>
    intro b
    have hview : ({ l with up := rest }.receive (.op as) limited).view b = l.view b := by
      simp [view, Link.receive, hup, Up.moves]
    rw [hview]
    exact h b
  | vouch as =>
    refine h.of_one as (fun b hb => ?_) ?_
    · unfold Link.receive
      dsimp only
      split_ifs <;> simp [view, hup, Up.moves, Ne.symm hb]
    have hfirst : (l.view as).up = .vouch as :: rest.filter (·.moves as) := by
      simp [view, hup, Up.moves]
    have hview : ({ l with up := rest }.receive (.vouch as) limited).view as =
        if limited then { l.view as with
          up := rest.filter (·.moves as), down := (l.view as).down ++ [.refused as true] }
        else { l.view as with up := rest.filter (·.moves as), judging := (l.view as).judging + 1 } := by
      unfold Link.receive
      dsimp only
      split_ifs <;> simp [view]
    rw [hview]
    exact (h as).receive_vouch hfirst limited
  | leave as =>
    refine h.of_one as (fun b hb => ?_) ?_
    · simp [view, Link.receive, hup, Up.moves, hb, Ne.symm hb]
    have hfirst : (l.view as).up = .leave as :: rest.filter (·.moves as) := by
      simp [view, hup, Up.moves]
    have hview : ({ l with up := rest }.receive (.leave as) limited).view as =
        { l.view as with up := rest.filter (·.moves as), granted := false } := by
      simp [view, Link.receive]
    rw [hview]
    exact (h as).receive_leave hfirst

/-- Who is refused leaves, and nothing is said. -/
theorem turnAway_eq (l : Link N) (as : N) : l.turnAway as =
    { l with sessions := l.sessions.filter (· ≠ as), grants := (l.grants.set as .refused).erase as } := by
  simp [turnAway, Link.leave]

theorem Staged.hear (h : l.Staged) {msg : Down N} {rest : List (Down N)} (hdown : l.down = msg :: rest) :
    ({ l with down := rest }.fromUpstream msg).Staged := by
  refine h.of_one msg.about (fun b hb => ?_) ?_
  · rcases msg with as | ⟨as, limited⟩ | as <;> simp only [Down.about_admitted, Down.about_refused,
      Down.about_revoked] at hb
    · unfold Link.fromUpstream
      dsimp only
      split_ifs <;> simp [view, hdown, OrderedMap.get_set, Ne.symm hb]
    · cases limited <;> unfold Link.fromUpstream <;> dsimp only <;> split_ifs <;>
        simp [turnAway_eq, view, hdown, OrderedMap.get_set, OrderedMap.get_erase, hb, Ne.symm hb]
    · unfold Link.fromUpstream
      dsimp only
      split_ifs <;> simp [turnAway_eq, view, hdown, OrderedMap.get_set, OrderedMap.get_erase, hb, Ne.symm hb]
  have hfirst : (l.view msg.about).down = msg :: rest.filter (·.about = msg.about) := by
    simp [view, hdown]
  have hview : ({ l with down := rest }.fromUpstream msg).view msg.about = (l.view msg.about).hear msg := by
    rcases msg with as | ⟨as, limited⟩ | as
    · unfold Link.fromUpstream View.hear
      dsimp only [Down.about_admitted]
      cases hg : l.grants.get as <;> simp [view, hdown, hg]
    · cases limited <;> unfold Link.fromUpstream View.hear <;> dsimp only [Down.about_refused] <;>
        cases hg : l.grants.get as <;> simp [turnAway_eq, view, hdown, hg]
    · unfold Link.fromUpstream View.hear
      dsimp only [Down.about_revoked]
      cases hg : l.grants.get as <;> simp [turnAway_eq, view, hdown, hg]
  rw [hview]
  exact (h msg.about).hear hfirst

/-- Each step moves each client from stage to stage. -/
theorem Staged.step (h : l.Staged) {e : Event N} (hleaves : LeavesHeard e l) (hstep : l.step e = some l') :
    l'.Staged := by
  cases e with
  | come as =>
    obtain ⟨hnew, hs⟩ := Option.ite_none_left_eq_some.mp hstep
    exact Option.some.inj hs ▸ h.come hnew
  | hello as =>
    obtain ⟨hhere, hs⟩ := Option.ite_none_right_eq_some.mp hstep
    obtain rfl := Option.some.inj hs
    unfold tryHello
    split
    · next hg => exact h.vouch hhere (.inl hg)
    · next hg => exact h.vouch hhere (.inr hg)
    · exact h
  | retry as =>
    obtain ⟨hg, hs⟩ := Option.ite_none_right_eq_some.mp hstep
    exact Option.some.inj hs ▸ h.vouch (h.here (by simp [hg])) (.inr hg)
  | op as =>
    obtain ⟨-, hs⟩ := Option.ite_none_right_eq_some.mp hstep
    obtain rfl := Option.some.inj hs
    intro b
    have hview : ({ l with up := l.up ++ [.op as] } : Link N).view b = l.view b := by
      simp [view, Up.moves]
    exact hview ▸ h b
  | leave as =>
    obtain ⟨hhere, hs⟩ := Option.ite_none_right_eq_some.mp hstep
    obtain ⟨hasked, hsynced⟩ := hleaves as rfl
    exact Option.some.inj hs ▸ h.leave hhere hasked hsynced
  | fallBehind => exact Option.some.inj hstep ▸ h.vouchPending false
  | catchUp => exact Option.some.inj hstep ▸ h.vouchPending true
  | receive limited =>
    cases hup : l.up with
    | nil => simp [Link.step, hup] at hstep
    | cons msg rest =>
      simp only [Link.step, hup, Option.some.injEq] at hstep
      exact hstep ▸ h.receive hup limited
  | settle i ok =>
    obtain ⟨as, hi, rfl⟩ := Option.map_eq_some_iff.mp hstep
    exact h.settle hi ok
  | revoke as =>
    obtain ⟨hgranted, hs⟩ := Option.ite_none_right_eq_some.mp hstep
    exact Option.some.inj hs ▸ h.revoke hgranted
  | hear =>
    cases hdown : l.down with
    | nil => simp [Link.step, hdown] at hstep
    | cons msg rest =>
      simp only [Link.step, hdown, Option.some.injEq] at hstep
      exact hstep ▸ h.hear hdown

/-- Where no client leaves while it is asked for, nor, let in, while the relay catches up, the server
lists a relay's clients only while they are there. -/
theorem listed_while_there (h : Reaches step LeavesHeard start l) (hquiet : l.Quiet) : l.Agrees := by
  have hstaged : l.Staged := h.invariant staged_start fun _ _ _ hl hok hs => hl.step hok hs
  obtain ⟨hup, hjudging, hdown⟩ := hquiet
  intro as
  have hiff := (hstaged as).quiet (by simp [view, hup]) (by simp [view, hjudging]) (by simp [view, hdown])
  simpa [view] using hiff

/-- A client comes and is let in, another as well, which leaves. -/
def visits : List (Event ℕ) :=
  [.catchUp, .come 1, .hello 1, .come 2, .hello 2, .receive false, .receive false, .settle 1 true,
    .settle 0 true, .hear, .hear, .leave 2, .receive false]

instance (l : Link ℕ) (e : Event ℕ) : Decidable (LeavesHeard e l) :=
  match e with
  | .leave as => decidable_of_iff (l.grants.get as ≠ some .asked ∧
      (l.grants.get as = some .admitted → l.synced = true)) (by simp [LeavesHeard])
  | .come _ | .hello _ | .retry _ | .op _ | .fallBehind | .catchUp | .receive _ | .settle _ _ | .revoke _ |
    .hear => .isTrue (by simp [LeavesHeard])

theorem listed_while_there_at_visits : ∃ l : Link ℕ, l.granted = [1] ∧ l.Agrees := by
  obtain ⟨l, hreach, hgranted, hquiet⟩ := @Reaches.exists_of_replay (Link ℕ) (Event ℕ) step LeavesHeard
    start (fun e l => decide (LeavesHeard e l)) (fun e l h => of_decide_eq_true h) visits
    (fun l => l.granted = [1] ∧ l.up = [] ∧ l.judging = [] ∧ l.down = []) _ (by decide +kernel)
  exact ⟨l, hgranted, listed_while_there hreach hquiet⟩

/-- A client that leaves while it is asked for is let in, and stays. -/
theorem gone_and_listed : ∃ l : Link ℕ,
    replay step [.catchUp, .come 1, .hello 1, .leave 1, .receive false, .settle 0 true, .hear] start = some l ∧
      l.Quiet ∧ ¬ l.Agrees := by
  refine ⟨_, rfl, ⟨rfl, rfl, rfl⟩, fun h => ?_⟩
  have hlisted := (h 1).mp (by decide)
  exact absurd hlisted.1 (by decide)

end Link

end LazyStorage.Relay
