import LazyStorage.Client.Connected

/-! # One socket, and only when it is wanted

As long as the app does not connect or close from a listener that is being told
`connecting`, a connection has no live socket but the current one, none that it
was told to do without, and never gives up on one it was told to have.
-/
namespace LazyStorage.Client.Connection

open Lib

variable {M : Type} {opts : Options} {s s' : Connection M}

def Work.makes : Work M → Bool
  | .makeSocket => true
  | _ => false

def Work.undrops : Work M → Bool
  | .undrop => true
  | _ => false

/-- What the work left says of sockets: how many are to be made, and how often everyone is to have heard of a drop. -/
abbrev toMake (s : Connection M) : ℕ := s.todo.countP Work.makes

abbrev toUndrop (s : Connection M) : ℕ := s.todo.countP Work.undrops

/-- A call that may change whether a socket is wanted. -/
def Event.turns : Event M → Bool
  | .call .connect => true
  | .call .close => true
  | _ => false

/-- The app connects and closes at any time but while `connecting` is being told. -/
def Settled (e : Event M) (s : Connection M) : Prop := e.turns = true → s.toMake = 0

instance decidableSettled (e : Event M) (s : Connection M) : Decidable (Settled e s) :=
  inferInstanceAs (Decidable (e.turns = true → s.toMake = 0))

/-- Sockets are made one at a time, for as long as one is wanted. -/
structure Kept (opts : Options) (s : Connection M) : Prop where
  live : ∀ (c : ℕ) (k : Socket), s.sockets[c]? = some k → k.live = true →
    s.conn = some c ∨ .closeSocket c ∈ s.todo
  once : s.toMake ≤ 1 ∧ s.toUndrop ≤ 1
  making : s.toMake = 1 →
    s.conn = none ∧ s.closedByUser = false ∧ s.ended = none ∧ s.retry = none ∧ s.dropping = false
  dropping : s.dropping = true ↔ s.toUndrop = 1
  dropped : s.dropping = true → s.conn = none ∧ s.retry = none
  unwanted : s.closedByUser = true ∨ s.ended.isSome = true → s.conn = none ∧ s.retry = none
  retrying : s.retry.isSome = true → s.conn = none
  up : s.closedByUser = false → s.ended = none → opts.reconnect.isSome = true →
    s.conn.isSome = true ∨ s.retry.isSome = true ∨ s.toMake = 1 ∨ s.toUndrop = 1
  status : s.status = .offline ↔ s.conn = none ∧ s.toMake = 0

theorem toMake_cons {work : Work M} {rest : List (Work M)} (hhead : s.todo = work :: rest) :
    s.toMake = rest.countP Work.makes + if work.makes then 1 else 0 := by
  rw [toMake, hhead, List.countP_cons]

theorem toUndrop_cons {work : Work M} {rest : List (Work M)} (hhead : s.todo = work :: rest) :
    s.toUndrop = rest.countP Work.undrops + if work.undrops then 1 else 0 := by
  rw [toUndrop, hhead, List.countP_cons]

namespace Kept

/-- While nothing is being made, the status says whether there is a socket. -/
theorem offline_iff (h : s.Kept opts) (hmake : s.toMake = 0) : s.status = .offline ↔ s.conn = none := by
  rw [h.status, hmake]
  simp

theorem retry_eq (h : s.Kept opts) {c : ℕ} (hconn : s.conn = some c) : s.retry = none := by
  by_contra hsome
  rw [h.retrying (Option.isSome_iff_ne_none.mpr hsome)] at hconn
  cases hconn

/-- Where the next work closes no socket, a live one that is not current is closed by what is left after it. -/
theorem live_rest {work : Work M} {rest : List (Work M)} (h : s.Kept opts) (hhead : s.todo = work :: rest)
    (hcloses : ∀ c, work ≠ .closeSocket c) {c : ℕ} {k : Socket} (hk : s.sockets[c]? = some k) (hl : k.live = true) :
    s.conn = some c ∨ .closeSocket c ∈ rest := by
  refine (h.live c k hk hl).imp_right fun hc => ?_
  rw [hhead] at hc
  exact (List.mem_cons.mp hc).resolve_left fun heq => hcloses c heq.symm

/-- The work left may change, if it makes the same and no live socket is left over. -/
theorem works (h : s.Kept opts) (hconn : s'.conn = s.conn) (hstatus : s'.status = s.status) (hended : s'.ended = s.ended)
    (hclosed : s'.closedByUser = s.closedByUser) (hretry : s'.retry = s.retry) (hdropping : s'.dropping = s.dropping)
    (hmake : s'.toMake = s.toMake) (hundrop : s'.toUndrop = s.toUndrop)
    (hlive : ∀ (c : ℕ) (k : Socket), s'.sockets[c]? = some k → k.live = true →
      s.conn = some c ∨ .closeSocket c ∈ s'.todo) : s'.Kept opts where
  live := by
    rw [hconn]
    exact hlive
  once := by
    rw [hmake, hundrop]
    exact h.once
  making := by
    rw [hmake, hconn, hclosed, hended, hretry, hdropping]
    exact h.making
  dropping := by
    rw [hdropping, hundrop]
    exact h.dropping
  dropped := by
    rw [hdropping, hconn, hretry]
    exact h.dropped
  unwanted := by
    rw [hclosed, hended, hconn, hretry]
    exact h.unwanted
  retrying := by
    rw [hretry, hconn]
    exact h.retrying
  up := by
    rw [hclosed, hended, hconn, hretry, hmake, hundrop]
    exact h.up
  status := by
    rw [hstatus, hconn, hmake]
    exact h.status

/-- What is kept of listeners, clients and timers for pings makes no difference. -/
theorem also (h : s.Kept opts) (hconn : s'.conn = s.conn) (hsockets : s'.sockets = s.sockets)
    (hstatus : s'.status = s.status) (hended : s'.ended = s.ended) (hclosed : s'.closedByUser = s.closedByUser)
    (hretry : s'.retry = s.retry) (hdropping : s'.dropping = s.dropping) (htodo : s'.todo = s.todo) : s'.Kept opts := by
  apply h.works hconn hstatus hended hclosed hretry hdropping
  · rw [toMake, htodo]
  · rw [toUndrop, htodo]
  · rw [hsockets, htodo]
    exact h.live

/-- Telling the app something makes no difference yet. -/
theorem tells (h : s.Kept opts) (what : Told M) : (s.tell what s.todo).Kept opts :=
  h.works rfl rfl rfl rfl rfl rfl (List.countP_cons_of_neg (by simp [Work.makes]))
    (List.countP_cons_of_neg (by simp [Work.undrops])) fun c k hk hl =>
      (h.live c k hk hl).imp_right (List.mem_cons_of_mem _)

/-- Other work was done in place of some of it. -/
theorem pops {work : Work M} {rest : List (Work M)} (h : s.Kept opts) (todo : List (Work M)) (hhead : s.todo = work :: rest)
    (hmakes : todo.countP Work.makes = if work.makes then 1 else 0)
    (hundrops : todo.countP Work.undrops = if work.undrops then 1 else 0)
    (hcloses : ∀ c, work ≠ .closeSocket c) (told : List (Told M)) :
    ({ s with todo := todo ++ rest, told } : Connection M).Kept opts := by
  refine h.works rfl rfl rfl rfl rfl rfl ?_ ?_ fun c k hk hl => ?_
  · rw [toMake_cons hhead, toMake, List.countP_append, hmakes, Nat.add_comm]
  · rw [toUndrop_cons hhead, toUndrop, List.countP_append, hundrops, Nat.add_comm]
  · exact (h.live_rest hhead hcloses hk hl).imp_right (List.mem_append_right _)

end Kept

/-- A status told changes nothing else, and what is to follow comes before the work left. -/
theorem setStatus_fields (next : Status) (rest : List (Work M)) (s : Connection M) :
    (s.setStatus next rest).status = next ∧ (s.setStatus next rest).conn = s.conn ∧
      (s.setStatus next rest).sockets = s.sockets ∧ (s.setStatus next rest).ended = s.ended ∧
      (s.setStatus next rest).closedByUser = s.closedByUser ∧ (s.setStatus next rest).retry = s.retry ∧
      (s.setStatus next rest).dropping = s.dropping ∧
      (s.setStatus next rest).toMake = rest.countP Work.makes + s.toMake ∧
      (s.setStatus next rest).toUndrop = rest.countP Work.undrops + s.toUndrop ∧
      ∀ c, .closeSocket c ∈ (s.setStatus next rest).todo ↔ .closeSocket c ∈ rest ++ s.todo := by
  unfold setStatus
  split_ifs with hsame
  · exact ⟨hsame, rfl, rfl, rfl, rfl, rfl, rfl, List.countP_append, List.countP_append, fun c => Iff.rfl⟩
  · refine ⟨rfl, rfl, rfl, rfl, rfl, rfl, rfl, ?_, ?_, fun c => by simp⟩
    · exact (List.countP_cons_of_neg (by simp [Work.makes])).trans List.countP_append
    · exact (List.countP_cons_of_neg (by simp [Work.undrops])).trans List.countP_append

/-- A socket that is done with is not among the live ones. -/
theorem live_modify {sockets : List Socket} {c d : ℕ} {k : Socket} {f : Socket → Socket} (hf : ∀ k, (f k).live = false)
    (hk : (sockets.modify c f)[d]? = some k) (hlive : k.live = true) : c ≠ d ∧ sockets[d]? = some k := by
  by_cases hd : c = d
  · subst hd
    rw [List.getElem?_modify_eq] at hk
    obtain ⟨before, -, rfl⟩ := Option.map_eq_some_iff.mp hk
    rw [hf] at hlive
    cases hlive
  · rw [List.getElem?_modify_ne _ _ hd] at hk
    exact ⟨hd, hk⟩

namespace Kept

/-! ## What the app calls -/

/-- A socket is wanted, and there is one already or one is made. -/
theorem openSocket (hlive : ∀ (c : ℕ) (k : Socket), s.sockets[c]? = some k → k.live = true →
      s.conn = some c ∨ .closeSocket c ∈ s.todo)
    (hmake : s.toMake = 0) (hundrop : s.toUndrop = 0) (hdropping : s.dropping = false) (hended : s.ended = none)
    (hclosed : s.closedByUser = false) (hretry : s.retry = none) (hstatus : s.status = .offline ↔ s.conn = none) :
    s.openSocket.Kept opts := by
  unfold Connection.openSocket
  split_ifs with hconn
  · refine ⟨hlive, by omega, by omega, ?_, ?_, ?_, ?_, fun _ _ _ => .inl hconn, ?_⟩
    · rw [hdropping, hundrop]
      simp
    · simp [hdropping]
    · simp [hclosed, hended]
    · simp [hretry]
    · rw [hstatus, hmake]
      simp
  have hnone : s.conn = none := by simpa using hconn
  obtain ⟨hstatus', hconn', hsockets', hended', hclosed', hretry', hdropping', hmake', hundrop', hclosing⟩ :=
    setStatus_fields .connecting [.makeSocket] s
  have hone : (s.setStatus .connecting [.makeSocket]).toMake = 1 := by
    rw [hmake', hmake]
    rfl
  have hzero : (s.setStatus .connecting [.makeSocket]).toUndrop = 0 := by
    rw [hundrop', hundrop]
    rfl
  refine ⟨fun c k hk hl => ?_, by omega, fun _ => ?_, ?_, ?_, ?_, ?_, fun _ _ _ => ?_, ?_⟩
  · rw [hsockets'] at hk
    rw [hconn', hclosing]
    exact (hlive c k hk hl).imp_right (List.mem_append_right _)
  · rw [hconn', hclosed', hended', hretry', hdropping']
    exact ⟨hnone, hclosed, hended, hretry, hdropping⟩
  · rw [hdropping', hdropping, hzero]
    simp
  · simp [hdropping', hdropping]
  · simp [hclosed', hclosed, hended', hended]
  · simp [hretry', hretry]
  · exact .inr (.inr (.inl hone))
  · rw [hstatus', hone]
    simp

theorem toUndrop_eq (h : s.Kept opts) (hdropping : s.dropping = false) : s.toUndrop = 0 := by
  have hone := h.dropping
  rw [hdropping] at hone
  have hle := h.once.2
  by_contra hne
  cases hone.mpr (by omega)

theorem connect (h : s.Kept opts) (hmake : s.toMake = 0) : (s.connect opts).Kept opts := by
  unfold Connection.connect
  split_ifs with hdropping
  · exact h.also rfl rfl rfl rfl rfl rfl rfl rfl
  · have hnot : s.dropping = false := by simpa using hdropping
    exact openSocket h.live hmake (h.toUndrop_eq hnot) hnot rfl rfl rfl (h.offline_iff hmake)

/-- The connection is done with the current socket, if one is: no other is live. -/
theorem close (h : s.Kept opts) (hmake : s.toMake = 0) : s.close.Kept opts := by
  unfold Connection.close
  obtain ⟨hstatus', hconn', hsockets', hended', hclosed', hretry', hdropping', hmake', hundrop', hclosing⟩ :=
    setStatus_fields .offline [.each .onClose] { s with
      closedByUser := true
      wanted := false
      watching := false
      retry := none
      keepalive := false
      conn := none
      sockets := s.conn.elim s.sockets fun c => s.sockets.modify c fun k => { k with closed := true } }
  refine ⟨fun c k hk hl => ?_, ?_, fun hone => ?_, ?_, ?_, ?_, ?_, fun hopen => ?_, ?_⟩
  · right
    rw [hclosing]
    apply List.mem_append_right
    rw [hsockets'] at hk
    cases hconn : s.conn with
    | none =>
      simp only [hconn, Option.elim_none] at hk
      exact (h.live c k hk hl).resolve_left (by simp [hconn])
    | some d =>
      simp only [hconn, Option.elim_some] at hk
      obtain ⟨hd, hk⟩ := live_modify (fun _ => by simp [Socket.live]) hk hl
      exact (h.live c k hk hl).resolve_left (by simpa [hconn] using hd)
  · rw [hmake', hundrop']
    exact ⟨by simpa [Work.makes] using h.once.1, by simpa [Work.undrops] using h.once.2⟩
  · rw [hmake'] at hone
    have hzero : s.toMake = 1 := by simpa [Work.makes] using hone
    omega
  · rw [hdropping', hundrop']
    simpa [Work.undrops] using h.dropping
  · simp [hconn', hretry']
  · simp [hconn', hretry']
  · simp [hconn']
  · rw [hclosed'] at hopen
    cases hopen
  · rw [hstatus', hconn', hmake']
    simpa [Work.makes] using hmake

/-- The current socket is gone, or closed once everyone has heard: what to do next is decided then. -/
theorem drops {t : Connection M} {c : ℕ} {rest : List (Work M)} (h : s.Kept opts)
    (hconn : s.conn = some c) (htodo' : t.todo = []) (hretry : t.retry = s.retry)
    (hlive : ∀ (d : ℕ) (k : Socket), t.sockets[d]? = some k → k.live = true → .closeSocket d ∈ rest)
    (hmakes : rest.countP Work.makes = 0) (hundrops : rest.countP Work.undrops = 0) : (t.dropped rest).Kept opts := by
  unfold Connection.dropped
  obtain ⟨hstatus', hconn', hsockets', hended', hclosed', hretry', hdropping', hmake', hundrop', hclosing⟩ :=
    setStatus_fields .offline (.each .onClose :: .turnedAway :: .undrop :: rest)
      { t with conn := none, keepalive := false, dropping := true }
  have hnone : t.retry = none := hretry.trans (h.retry_eq hconn)
  have hzero : (Connection.setStatus .offline (.each .onClose :: .turnedAway :: .undrop :: rest)
      { t with conn := none, keepalive := false, dropping := true }).toMake = 0 := by
    rw [hmake', toMake, htodo']
    simpa [Work.makes] using hmakes
  have hone : (Connection.setStatus .offline (.each .onClose :: .turnedAway :: .undrop :: rest)
      { t with conn := none, keepalive := false, dropping := true }).toUndrop = 1 := by
    rw [hundrop', toUndrop, htodo', List.countP_cons, List.countP_cons, List.countP_cons, hundrops]
    rfl
  refine ⟨fun d k hk hl => ?_, by omega, by omega, ?_, fun _ => ?_, fun _ => ?_, fun _ => hconn', fun _ _ _ => ?_, ?_⟩
  · rw [hsockets'] at hk
    rw [hclosing]
    simp [hlive d k hk hl]
  · rw [hdropping', hone]
    simp
  · exact ⟨hconn', hretry'.trans hnone⟩
  · exact ⟨hconn', hretry'.trans hnone⟩
  · exact .inr (.inr (.inr hone))
  · rw [hstatus', hconn', hzero]
    simp

/-! ## What the interpreter does -/

/-- Nothing is open and nothing is under way but a retry, if one is wanted. -/
theorem rests (hlive : ∀ (c : ℕ) (k : Socket), s.sockets[c]? = some k → k.live = true → .closeSocket c ∈ s.todo)
    (hmake : s.toMake = 0) (hundrop : s.toUndrop = 0) (hdropping : s.dropping = false) (hconn : s.conn = none)
    (hstatus : s.status = .offline) (hunwanted : s.closedByUser = true ∨ s.ended.isSome = true → s.retry = none)
    (hup : s.closedByUser = false → s.ended = none → opts.reconnect.isSome = true → s.retry.isSome = true) :
    s.Kept opts where
  live c k hk hl := .inr (hlive c k hk hl)
  once := by omega
  making := by omega
  dropping := by
    rw [hdropping, hundrop]
    simp
  dropped hd := by
    rw [hdropping] at hd
    cases hd
  unwanted h := ⟨hconn, hunwanted h⟩
  retrying _ := hconn
  up hclosed hended hreconnect := .inr (.inl (hup hclosed hended hreconnect))
  status := by
    rw [hconn, hmake]
    simpa using hstatus

/-- Everyone has heard of the drop: the socket is opened again, or tried again later, or left. -/
theorem undrop {rest : List (Work M)} (h : s.Kept opts) (hhead : s.todo = .undrop :: rest) :
    (Connection.undrop opts { s with todo := rest }).Kept opts := by
  have hcount : s.toUndrop = rest.countP Work.undrops + 1 := toUndrop_cons hhead
  have hzero : rest.countP Work.undrops = 0 := by
    have := h.once.2
    omega
  have hdropping : s.dropping = true := h.dropping.mpr (by rw [hcount, hzero])
  obtain ⟨hconn, hretry⟩ := h.dropped hdropping
  have hmakes : s.toMake = rest.countP Work.makes := toMake_cons hhead
  have hmake : rest.countP Work.makes = 0 := by
    have hle := h.once.1
    by_contra hne
    obtain ⟨-, -, -, -, hnot⟩ := h.making (by omega)
    rw [hdropping] at hnot
    cases hnot
  have hstatus : s.status = .offline := h.status.mpr ⟨hconn, hmakes.trans hmake⟩
  have hlive : ∀ (c : ℕ) (k : Socket), s.sockets[c]? = some k → k.live = true →
      s.conn = some c ∨ .closeSocket c ∈ rest := fun c k hk hl => h.live_rest hhead (by simp) hk hl
  have hnot : ∀ (c : ℕ) (k : Socket), s.sockets[c]? = some k → k.live = true → .closeSocket c ∈ rest :=
    fun c k hk hl => (hlive c k hk hl).resolve_left (by simp [hconn])
  unfold Connection.undrop
  dsimp only
  split_ifs with hwanted hmeant
  · unfold Connection.connect
    rw [if_neg (by simp)]
    refine openSocket hlive hmake hzero rfl rfl rfl rfl ?_
    simp [hstatus, hconn]
  · simp only [Bool.and_eq_true, Option.isNone_iff_eq_none, Bool.not_eq_true'] at hmeant
    split
    · next min max hreconnect =>
      refine rests hnot hmake hzero rfl hconn hstatus (fun hunwanted => ?_) fun _ _ _ => rfl
      simp [scheduleRetry, hmeant.1, hmeant.2] at hunwanted
    · next hreconnect =>
      refine rests hnot hmake hzero rfl hconn hstatus (fun _ => hretry) fun _ _ hsome => ?_
      rw [hreconnect] at hsome
      cases hsome
  · refine rests hnot hmake hzero rfl hconn hstatus (fun _ => hretry) fun hclosed hended _ => ?_
    have hmeant' : (s.ended.isNone && !s.closedByUser) = true := by
      rw [show s.closedByUser = false from hclosed, show s.ended = none from hended]
      rfl
    exact (hmeant hmeant').elim

/-- The socket that was to be made. -/
theorem makesSocket {rest : List (Work M)} (h : s.Kept opts) (hhead : s.todo = .makeSocket :: rest) :
    ({ s with
        todo := rest
        conn := some s.sockets.length
        sockets := s.sockets ++ [⟨false, false, false⟩] } : Connection M).Kept opts := by
  have hcount : s.toMake = rest.countP Work.makes + 1 := toMake_cons hhead
  have hundrops : s.toUndrop = rest.countP Work.undrops := toUndrop_cons hhead
  have hle := h.once.1
  obtain ⟨hconn, hclosed, hended, hretry, hdropping⟩ := h.making (by omega)
  have hzero : rest.countP Work.makes = 0 := by omega
  have hnone : rest.countP Work.undrops = 0 := hundrops.symm.trans (h.toUndrop_eq hdropping)
  refine ⟨fun c k hk hl => ?_, ⟨by simp [toMake, hzero], by simp [toUndrop, hnone]⟩, fun hone => ?_, ?_, ?_, ?_, ?_,
    fun _ _ _ => .inl rfl, ?_⟩
  · rcases Nat.lt_or_ge c s.sockets.length with hlt | hge
    · rw [List.getElem?_append_left hlt] at hk
      exact .inr ((h.live_rest hhead (by simp) hk hl).resolve_left (by simp [hconn]))
    · left
      have hlast := (List.getElem?_eq_some_iff.mp hk).1
      rw [List.length_append, List.length_singleton] at hlast
      exact congrArg some (by omega)
  · have hbad : rest.countP Work.makes = 1 := hone
    omega
  · simp [toUndrop, hnone, hdropping]
  · simp [hdropping]
  · simp [hclosed, hended]
  · simp [hretry]
  · refine iff_of_false (fun hoffline => ?_) (by simp)
    have hmakes := (h.status.mp hoffline).2
    omega

/-- A socket closed that is no longer the current one. -/
theorem closesSocket {c : ℕ} {rest : List (Work M)} (h : s.Kept opts) (hhead : s.todo = .closeSocket c :: rest) :
    ({ s with
        todo := rest
        sockets := s.sockets.modify c fun k => { k with closed := true } } : Connection M).Kept opts := by
  refine h.works rfl rfl rfl rfl rfl rfl (toMake_cons hhead).symm (toUndrop_cons hhead).symm fun d k hk hl => ?_
  obtain ⟨hd, hk⟩ := live_modify (fun _ => by simp [Socket.live]) hk hl
  refine (h.live d k hk hl).imp_right fun hclose => ?_
  rw [hhead] at hclose
  rcases List.mem_cons.mp hclose with heq | hclose
  · cases heq
    exact (hd rfl).elim
  · exact hclose

theorem run {work : Work M} {rest : List (Work M)} (h : s.Kept opts) (hhead : s.todo = work :: rest)
    (hs : s.run opts work rest = some s') : s'.Kept opts := by
  cases work with
  | told what => cases hs
  | statusFrom status listener =>
    simp only [Connection.run] at hs
    split at hs
    · next k _ =>
      obtain rfl := Option.some.inj hs
      exact h.pops [.told (.status k status), .statusFrom status (k + 1)] hhead rfl rfl (by simp) _
    · obtain rfl := Option.some.inj hs
      exact h.pops [] hhead rfl rfl (by simp) _
  | closedFrom reason listener =>
    simp only [Connection.run] at hs
    split at hs
    · next k _ =>
      obtain rfl := Option.some.inj hs
      exact h.pops [.told (.closed k reason), .closedFrom reason (k + 1)] hhead rfl rfl (by simp) _
    · obtain rfl := Option.some.inj hs
      exact h.pops [] hhead rfl rfl (by simp) _
  | each hook =>
    obtain rfl := Option.some.inj hs
    exact h.pops [.eachOf hook s.clients] hhead rfl rfl (by simp) _
  | eachOf hook clients =>
    cases clients with
    | nil =>
      obtain rfl := Option.some.inj hs
      exact h.pops [] hhead rfl rfl (by simp) _
    | cons client clients =>
      obtain rfl := Option.some.inj hs
      exact h.pops [.told (.hook client hook s.conn), .eachOf hook clients] hhead rfl rfl (by simp) _
  | turnedAway =>
    simp only [Connection.run] at hs
    split at hs
    · next reason _ =>
      obtain rfl := Option.some.inj hs
      exact h.pops [.each (.onClosed reason), .closedFrom reason 0] hhead rfl rfl (by simp) _
    · obtain rfl := Option.some.inj hs
      exact h.pops [] hhead rfl rfl (by simp) _
  | undrop =>
    obtain rfl := Option.some.inj hs
    exact h.undrop hhead
  | makeSocket =>
    obtain rfl := Option.some.inj hs
    exact h.makesSocket hhead
  | startKeepalive =>
    have hdone := h.pops [] hhead rfl rfl (by simp) s.told
    simp only [Connection.run] at hs
    split_ifs at hs
    · obtain rfl := Option.some.inj hs
      exact hdone.also rfl rfl rfl rfl rfl rfl rfl rfl
    · obtain rfl := Option.some.inj hs
      exact hdone.also rfl rfl rfl rfl rfl rfl rfl rfl
  | closeSocket c =>
    obtain rfl := Option.some.inj hs
    exact h.closesSocket hhead

theorem send (h : s.Kept opts) (msg : Outgoing M) : (s.send msg).Kept opts := by
  unfold Connection.send
  split
  · split_ifs
    · exact h.also rfl rfl rfl rfl rfl rfl rfl rfl
    · exact h
  · exact h

theorem call {call : Call M} (h : s.Kept opts) (hsettled : Settled (.call call) s) (hs : s.call opts call = some s') :
    s'.Kept opts := by
  cases call with
  | connect =>
    obtain rfl := Option.some.inj hs
    exact h.connect (hsettled rfl)
  | close =>
    obtain rfl := Option.some.inj hs
    exact h.close (hsettled rfl)
  | attach storeId handler =>
    simp only [Connection.call, Option.ite_none_left_eq_some, Option.some.injEq] at hs
    obtain ⟨-, rfl⟩ := hs
    have hattached : ({ s with handlers := s.handlers.set storeId handler } : Connection M).Kept opts :=
      h.also rfl rfl rfl rfl rfl rfl rfl rfl
    unfold Connection.attach
    dsimp only
    split_ifs
    · exact hattached.tells _
    · exact hattached
  | detach client =>
    obtain rfl := Option.some.inj hs
    unfold Connection.detach
    split_ifs
    · apply send
      exact h.also rfl rfl rfl rfl rfl rfl rfl rfl
    · exact h
  | send client msg =>
    obtain rfl := Option.some.inj hs
    exact h.send _
  | onStatus =>
    obtain rfl := Option.some.inj hs
    exact h.also rfl rfl rfl rfl rfl rfl rfl rfl
  | onClosed =>
    obtain rfl := Option.some.inj hs
    exact h.also rfl rfl rfl rfl rfl rfl rfl rfl
  | off listener =>
    obtain rfl := Option.some.inj hs
    exact h.also rfl rfl rfl rfl rfl rfl rfl rfl

/-! ## What sockets and timers report -/

/-- Nothing is left to do: no socket is being made or dropped. -/
theorem idle (h : s.Kept opts) (htodo : s.todo = []) : s.toMake = 0 ∧ s.toUndrop = 0 ∧ s.dropping = false := by
  have hmake : s.toMake = 0 := by rw [toMake, htodo, List.countP_nil]
  have hundrop : s.toUndrop = 0 := by rw [toUndrop, htodo, List.countP_nil]
  refine ⟨hmake, hundrop, ?_⟩
  by_contra hdropping
  have hone := h.dropping.mp (by simpa using hdropping)
  omega

/-- With nothing left to do, only the current socket is live. -/
theorem current (h : s.Kept opts) (htodo : s.todo = []) {c : ℕ} {k : Socket} (hk : s.sockets[c]? = some k)
    (hlive : k.live = true) : s.conn = some c :=
  (h.live c k hk hlive).resolve_right (by simp [htodo])

theorem only (h : s.Kept opts) (htodo : s.todo = []) {c d : ℕ} {k : Socket} (hconn : s.conn = some c)
    (hk : s.sockets[d]? = some k) (hlive : k.live = true) : d = c :=
  Option.some.inj ((h.current htodo hk hlive).symm.trans hconn)

theorem onopen {c : ℕ} (h : s.Kept opts) (htodo : s.todo = []) :
    (Connection.onopen opts c
      { s with sockets := s.sockets.modify c fun k => { k with opened := true } }).Kept opts := by
  have hlive : ∀ (d : ℕ) (k : Socket), (s.sockets.modify c fun k => { k with opened := true })[d]? = some k →
      k.live = true → s.conn = some d := by
    intro d k hk hl
    rw [List.getElem?_modify] at hk
    obtain ⟨before, hbefore, rfl⟩ := Option.map_eq_some_iff.mp hk
    refine h.current htodo hbefore ?_
    by_cases hd : c = d
    · simpa [hd, Socket.live] using hl
    · simpa [hd] using hl
  unfold Connection.onopen
  dsimp only
  split_ifs with hconn
  · exact h.works rfl rfl rfl rfl rfl rfl rfl rfl fun d k hk hl => .inl (hlive d k hk hl)
  have hconn : s.conn = some c := by simpa using hconn
  obtain ⟨hmake, hundrop, hdropping⟩ := h.idle htodo
  obtain ⟨hstatus', hconn', hsockets', hended', hclosed', hretry', hdropping', hmake', hundrop', -⟩ :=
    setStatus_fields .online [.startKeepalive, .each .onOpen] { s with
      sockets := s.sockets.modify c fun k => { k with opened := true }
      retryDelay := (opts.reconnect.map Prod.fst).getD 0
      quiet := 0 }
  refine ⟨fun d k hk hl => ?_, ?_, fun hone => ?_, ?_, fun hd => ?_, fun hunwanted => ?_, fun hr => ?_,
    fun _ _ _ => ?_, ?_⟩
  · rw [hsockets'] at hk
    exact .inl (hconn'.trans (hlive d k hk hl))
  · rw [hmake', hundrop']
    exact ⟨by simpa [Work.makes] using h.once.1, by simpa [Work.undrops] using h.once.2⟩
  · rw [hmake'] at hone
    have hbad : s.toMake = 1 := by simpa [Work.makes] using hone
    omega
  · rw [hdropping', hundrop']
    simpa [Work.undrops] using h.dropping
  · rw [hdropping', show s.dropping = false from hdropping] at hd
    cases hd
  · rw [hclosed', hended'] at hunwanted
    have hnone := (h.unwanted hunwanted).1
    rw [hconn] at hnone
    cases hnone
  · rw [hretry', show s.retry = none from h.retry_eq hconn] at hr
    cases hr
  · left
    rw [hconn', show s.conn = some c from hconn]
    rfl
  · rw [hstatus', hconn']
    simp [hconn]

theorem onmessage {c : ℕ} (h : s.Kept opts) (htodo : s.todo = []) (msg : Incoming M) : (s.onmessage c msg).Kept opts := by
  unfold Connection.onmessage
  split_ifs with hconn
  · exact h
  have hconn : s.conn = some c := by simpa using hconn
  dsimp only
  cases msg with
  | noise => exact h.also rfl rfl rfl rfl rfl rfl rfl rfl
  | closed reason =>
    dsimp only
    split_ifs
    · exact h.also rfl rfl rfl rfl rfl rfl rfl rfl
    · refine h.drops hconn htodo rfl (fun d k hk hl => ?_) rfl rfl
      rw [h.only htodo hconn hk hl]
      exact List.mem_singleton_self _
  | store id msg =>
    have hheard : ({ s with heard := true, quiet := 0 } : Connection M).Kept opts :=
      h.also rfl rfl rfl rfl rfl rfl rfl rfl
    dsimp only
    split
    · exact hheard.tells _
    · exact hheard

theorem onclose {c : ℕ} (h : s.Kept opts) (htodo : s.todo = []) (unauthorized : Option String) :
    (Connection.onclose c unauthorized
      { s with sockets := s.sockets.modify c fun k => { k with gone := true } }).Kept opts := by
  have hlive : ∀ (d : ℕ) (k : Socket), (s.sockets.modify c fun k => { k with gone := true })[d]? = some k →
      k.live = true → c ≠ d ∧ s.conn = some d := by
    intro d k hk hl
    obtain ⟨hd, hk⟩ := live_modify (fun _ => by simp [Socket.live]) hk hl
    exact ⟨hd, h.current htodo hk hl⟩
  unfold Connection.onclose
  dsimp only
  split_ifs with hconn
  · exact h.works rfl rfl rfl rfl rfl rfl rfl rfl fun d k hk hl => .inl (hlive d k hk hl).2
  · have hconn : s.conn = some c := by simpa using hconn
    refine h.drops hconn htodo rfl (fun d k hk hl => ?_) rfl rfl
    obtain ⟨hne, hd⟩ := hlive d k hk hl
    rw [hconn] at hd
    exact (hne (Option.some.inj hd)).elim

theorem onTick (h : s.Kept opts) (htodo : s.todo = []) : s.onTick.Kept opts := by
  unfold Connection.onTick
  split
  · exact h
  · next c hconn =>
    by_cases hs : s.status ≠ .online
    · rw [if_pos hs]
      exact h
    · rw [if_neg hs]
      dsimp only
      generalize (if s.heard = true then 0 else s.silent + 1) = silent
      split_ifs
      · refine h.drops hconn htodo rfl (fun d k hk hl => ?_) rfl rfl
        rw [h.only htodo hconn hk hl]
        exact List.mem_singleton_self _
      · apply send
        exact h.also rfl rfl rfl rfl rfl rfl rfl rfl

theorem retries (h : s.Kept opts) (htodo : s.todo = []) (hretry : s.retry.isSome = true) :
    (Connection.openSocket { s with retry := none }).Kept opts := by
  have hwanted : s.closedByUser = false ∧ s.ended = none := by
    by_contra hnot
    have hnone : s.retry = none := by
      refine (h.unwanted ?_).2
      cases hclosed : s.closedByUser with
      | true => exact .inl rfl
      | false => exact .inr (Option.isSome_iff_ne_none.mpr fun hended => hnot ⟨hclosed, hended⟩)
    rw [hnone] at hretry
    cases hretry
  obtain ⟨hmake, hundrop, hdropping⟩ := h.idle htodo
  exact openSocket h.live hmake hundrop hdropping hwanted.2 hwanted.1 rfl (h.offline_iff hmake)

theorem onWake (h : s.Kept opts) (htodo : s.todo = []) (hidden : Bool) : (s.onWake opts hidden).Kept opts := by
  unfold Connection.onWake
  split_ifs with hasleep
  · exact h
  · simp only [Bool.or_eq_true, not_or, Bool.not_eq_true, Option.isSome_eq_false_iff, Option.isNone_iff_eq_none] at hasleep
    obtain ⟨⟨⟨-, hclosed⟩, hended⟩, -⟩ := hasleep
    obtain ⟨hmake, hundrop, hdropping⟩ := h.idle htodo
    split
    · exact h
    · exact openSocket h.live hmake hundrop hdropping hended hclosed rfl (h.offline_iff hmake)

theorem step {e : Event M} (h : s.Kept opts) (hsettled : Settled e s) (hs : s.step opts e = some s') : s'.Kept opts := by
  cases e with
  | call call =>
    simp only [Connection.step, Option.ite_none_right_eq_some] at hs
    exact h.call hsettled hs.2
  | returns =>
    simp only [Connection.step] at hs
    split at hs
    · next hhead =>
      obtain rfl := Option.some.inj hs
      exact h.pops [] hhead rfl rfl (by simp) _
    · cases hs
  | runs =>
    simp only [Connection.step] at hs
    split at hs
    · next hhead => exact h.run hhead hs
    · cases hs
  | opened c =>
    simp only [Connection.step, Option.ite_none_right_eq_some, Option.some.injEq] at hs
    obtain ⟨⟨htodo, -⟩, rfl⟩ := hs
    exact h.onopen htodo
  | message c msg =>
    simp only [Connection.step, Option.ite_none_right_eq_some, Option.some.injEq] at hs
    obtain ⟨⟨htodo, -⟩, rfl⟩ := hs
    exact h.onmessage htodo msg
  | gone c unauthorized =>
    simp only [Connection.step, Option.ite_none_right_eq_some, Option.some.injEq] at hs
    obtain ⟨⟨htodo, -⟩, rfl⟩ := hs
    exact h.onclose htodo unauthorized
  | retries =>
    simp only [Connection.step, Option.ite_none_right_eq_some, Option.some.injEq] at hs
    obtain ⟨⟨htodo, hretry⟩, rfl⟩ := hs
    exact h.retries htodo hretry
  | ticks =>
    simp only [Connection.step, Option.ite_none_right_eq_some, Option.some.injEq] at hs
    obtain ⟨⟨htodo, -⟩, rfl⟩ := hs
    exact h.onTick htodo
  | wakes hidden =>
    simp only [Connection.step, Option.ite_none_right_eq_some, Option.some.injEq] at hs
    obtain ⟨⟨htodo, -⟩, rfl⟩ := hs
    exact h.onWake htodo hidden

end Kept

theorem kept_create : (create opts : Connection M).Kept opts where
  live c k hk _ := by
    rw [show (create opts : Connection M).sockets[c]? = none from rfl] at hk
    cases hk
  once := ⟨Nat.zero_le 1, Nat.zero_le 1⟩
  making hone := by cases hone
  dropping := iff_of_false (fun hd => by cases hd) (fun hone => by cases hone)
  dropped hd := by cases hd
  unwanted _ := ⟨rfl, rfl⟩
  retrying _ := rfl
  up hclosed := by cases hclosed
  status := iff_of_true rfl ⟨rfl, rfl⟩

/-- As long as nobody connects or closes from a listener being told `connecting`: once everyone has heard, the current
socket is the one that is live; none is, and none will be tried, when the app closed or the server turned it away; else,
where the app has it reconnect, there is one or it is to be tried again, and never both. -/
theorem one_socket_while_wanted (h : Reaches (step opts) Settled (create opts) s) (htodo : s.todo = []) :
    (∀ c, s.conn = some c ↔ ∃ k, s.sockets[c]? = some k ∧ k.live = true) ∧
      (s.closedByUser = true ∨ s.ended.isSome = true → s.conn = none ∧ s.retry = none) ∧
      (s.closedByUser = false → s.ended = none → opts.reconnect.isSome = true →
        s.conn.isSome = true ∨ s.retry.isSome = true) ∧
      (s.retry.isSome = true → s.conn = none) ∧
      (s.status = .offline ↔ s.conn = none) := by
  have hsound : s.Sound := h.invariant sound_create fun _ _ _ hbefore _ hs => hbefore.step hs
  have hkept : s.Kept opts := h.invariant kept_create fun _ _ _ hbefore hsettled hs => hbefore.step hsettled hs
  obtain ⟨hmake, hundrop, -⟩ := hkept.idle htodo
  refine ⟨fun c => ⟨fun hc => hsound.current c hc, ?_⟩, hkept.unwanted, fun hclosed hended hreconnect => ?_,
    hkept.retrying, hkept.offline_iff hmake⟩
  · rintro ⟨k, hk, hlive⟩
    exact hkept.current htodo hk hlive
  · have hup := hkept.up hclosed hended hreconnect
    rw [hmake, hundrop] at hup
    simpa using hup

/-- A socket that opened is lost, and the app connects again from the `onClose` of a client: a second one is up. -/
theorem one_socket_while_wanted_again : ∃ s : Connection ℕ, s.conn = some 1 ∧ s.status = .online ∧
    s.sockets = [⟨true, true, false⟩, ⟨true, false, false⟩] ∧
    ((∀ c, s.conn = some c ↔ ∃ k, s.sockets[c]? = some k ∧ k.live = true) ∧
      (s.closedByUser = true ∨ s.ended.isSome = true → s.conn = none ∧ s.retry = none) ∧
      (s.closedByUser = false → s.ended = none → (some (500, 10000) : Option (ℕ × ℕ)).isSome = true →
        s.conn.isSome = true ∨ s.retry.isSome = true) ∧
      (s.retry.isSome = true → s.conn = none) ∧
      (s.status = .offline ↔ s.conn = none)) := by
  obtain ⟨s, hrun, htodo, hends⟩ := @Reaches.exists_of_replay _ _ (step ⟨some (500, 10000), true, true⟩) Settled
    (create ⟨some (500, 10000), true, true⟩) (fun (e : Event ℕ) s => decide (Settled e s))
    (fun _ _ h => of_decide_eq_true h)
    [.call (.attach "a" 0), .call .connect, .runs, .runs, .opened 0, .runs, .runs, .runs, .runs, .returns, .runs,
      .gone 0 none, .runs, .runs, .runs, .call .connect, .returns, .runs, .runs, .runs, .runs, .runs, .opened 1, .runs,
      .runs, .runs, .runs, .returns, .runs]
    (fun s => s.todo = [] ∧ s.conn = some 1 ∧ s.status = .online ∧
      s.sockets = [⟨true, true, false⟩, ⟨true, false, false⟩]) inferInstance
    (by decide +kernel)
  exact ⟨s, hends.1, hends.2.1, hends.2.2, one_socket_while_wanted hrun htodo⟩

/-- Closed from a listener that is being told `connecting`, the connection makes its socket all the same. -/
example : (replay (step ⟨none, false, false⟩) [.call .onStatus, .call .connect, .runs, .call .close, .runs, .returns,
    .runs, .runs, .runs, .returns, .runs, .runs] (create ⟨none, false, false⟩ : Connection ℕ)).any
      (fun s => s.todo = [] ∧ s.closedByUser = true ∧ s.conn = some 0) = true := by
  decide +kernel

end LazyStorage.Client.Connection
