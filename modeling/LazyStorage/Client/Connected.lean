import LazyStorage.Client.Connection

/-! # What the clients of a connection hear

A client is handed a message only by the socket it was last told had opened, with
no word of its end since, whoever calls the connection back and when.
-/
namespace LazyStorage.Client.Connection

open Lib

variable {M : Type} {opts : Options} {s s' : Connection M}

/-- What a client is told of sockets: that one opened, or that it is gone, and the one that was current then. -/
def Told.life (client : Attached) : Told M → Option (Bool × Option ℕ)
  | .hook other called conn => if other = client then some (called = .onOpen, conn) else none
  | _ => none

/-- What a client was told of sockets last. -/
def lastLife (client : Attached) (told : List (Told M)) : Option (Bool × Option ℕ) := told.findSome? (Told.life client)

/-- Work that is not left while the socket is open: telling clients that it is gone, and making another. -/
def Work.parts : Work M → Bool
  | .each hook => hook ≠ .onOpen
  | .eachOf hook _ => hook ≠ .onOpen
  | .turnedAway => true
  | .makeSocket => true
  | _ => false

/-- Whether work is to tell a client that a socket opened. -/
def Work.opens (client : Attached) : Work M → Bool
  | .each hook => hook = .onOpen
  | .eachOf hook clients => hook = .onOpen ∧ client ∈ clients
  | _ => false

/-- The current socket is one that opened. -/
def IsOpen (s : Connection M) : Prop := ∃ c k, s.conn = some c ∧ s.sockets[c]? = some k ∧ k.opened = true

/-- While the socket is open nobody is told that it is gone, and every client was told that it opened, or is about to
be. -/
structure Sound (s : Connection M) : Prop where
  current : ∀ c ∈ s.conn, ∃ k, s.sockets[c]? = some k ∧ k.live = true
  closing : ∀ c, .closeSocket c ∈ s.todo → c < s.sockets.length ∧ s.conn ≠ some c
  online : s.status = .online ↔ s.IsOpen
  together : s.status = .online → ∀ work ∈ s.todo, work.parts = false
  reached : s.status = .online → ∀ client ∈ s.clients,
    lastLife client s.told = some (true, s.conn) ∨ ∃ work ∈ s.todo, work.opens client = true
  handed : ∀ client msg conn older, .message client msg conn :: older <:+ s.told →
    conn.isSome = true ∧ lastLife client older = some (true, conn)
  sent : ∀ out ∈ s.sent, ∃ k, s.sockets[out.1]? = some k ∧ k.opened = true

namespace Sound

/-- The same socket is current: what is left to show is what the clients hear. -/
theorem same (h : s.Sound) (hconn : s'.conn = s.conn) (hstatus : s'.status = s.status) (hsockets : s'.sockets = s.sockets)
    (hclosing : ∀ c, .closeSocket c ∈ s'.todo → .closeSocket c ∈ s.todo)
    (hparts : ∀ work ∈ s'.todo, work.parts = true → ∃ work ∈ s.todo, work.parts = true)
    (hreached : s.status = .online → ∀ client ∈ s'.clients,
      lastLife client s'.told = some (true, s.conn) ∨ ∃ work ∈ s'.todo, work.opens client = true)
    (hhanded : ∀ client msg conn older, .message client msg conn :: older <:+ s'.told →
      conn.isSome = true ∧ lastLife client older = some (true, conn))
    (hsent : ∀ out ∈ s'.sent, ∃ k, s.sockets[out.1]? = some k ∧ k.opened = true) : s'.Sound where
  current := by
    rw [hconn, hsockets]
    exact h.current
  closing c hc := by
    rw [hconn, hsockets]
    exact h.closing c (hclosing c hc)
  online := by
    rw [hstatus, IsOpen, hconn, hsockets]
    exact h.online
  together hs work hwork := by
    by_contra hyes
    obtain ⟨before, hbefore, hparted⟩ := hparts work hwork (by simpa using hyes)
    rw [h.together (hstatus ▸ hs) before hbefore] at hparted
    cases hparted
  reached hs := by
    rw [hconn]
    exact hreached (hstatus ▸ hs)
  handed := hhanded
  sent := by
    rw [hsockets]
    exact hsent

/-- The work left may change, if no socket more is closed and no client is left out. -/
theorem works (h : s.Sound) (hconn : s'.conn = s.conn) (hstatus : s'.status = s.status)
    (hsockets : s'.sockets = s.sockets) (hhandlers : s'.handlers = s.handlers) (htold : s'.told = s.told)
    (hsent : s'.sent = s.sent) (hclosing : ∀ c, .closeSocket c ∈ s'.todo → .closeSocket c ∈ s.todo)
    (hparts : ∀ work ∈ s'.todo, work.parts = true → ∃ work ∈ s.todo, work.parts = true)
    (hopens : ∀ client ∈ s.clients, ∀ work ∈ s.todo, work.opens client = true →
      ∃ work ∈ s'.todo, work.opens client = true) : s'.Sound := by
  refine h.same hconn hstatus hsockets hclosing hparts (fun hs client hclient => ?_) (htold ▸ h.handed) (hsent ▸ h.sent)
  rw [clients, hhandlers] at hclient
  rw [htold]
  rcases h.reached hs client hclient with hlast | ⟨work, hwork, hopen⟩
  · exact .inl hlast
  · exact .inr (hopens client hclient work hwork hopen)

/-- What is kept of credentials, timers and the page makes no difference. -/
theorem also (h : s.Sound) (hconn : s'.conn = s.conn) (hstatus : s'.status = s.status)
    (hsockets : s'.sockets = s.sockets) (hhandlers : s'.handlers = s.handlers) (htold : s'.told = s.told)
    (hsent : s'.sent = s.sent) (htodo : s'.todo = s.todo) : s'.Sound := by
  apply h.works hconn hstatus hsockets hhandlers htold hsent
  · intro c hc
    rwa [htodo] at hc
  · intro work hwork hparts
    rw [htodo] at hwork
    exact ⟨work, hwork, hparts⟩
  · intro client _ work hwork hopen
    rw [htodo]
    exact ⟨work, hwork, hopen⟩

/-- The next thing to do was done, and left `todo` in its place. -/
theorem pops {work : Work M} {rest : List (Work M)} (h : s.Sound) (todo : List (Work M)) (hhead : s.todo = work :: rest)
    (hclosing : ∀ c, .closeSocket c ∉ todo) (hparts : ∀ task ∈ todo, task.parts = true → work.parts = true)
    (hopens : ∀ client ∈ s.clients, work.opens client = true → ∃ task ∈ todo, task.opens client = true) :
    ({ s with todo := todo ++ rest } : Connection M).Sound := by
  refine h.works rfl rfl rfl rfl rfl rfl (fun c hc => ?_) (fun task htask hyes => ?_) fun client hclient task htask hyes => ?_
  · rw [hhead]
    rcases List.mem_append.mp hc with hc | hc
    · exact (hclosing c hc).elim
    · exact List.mem_cons_of_mem _ hc
  · rw [hhead]
    rcases List.mem_append.mp htask with htask | htask
    · exact ⟨work, List.mem_cons_self, hparts task htask hyes⟩
    · exact ⟨task, List.mem_cons_of_mem _ htask, hyes⟩
  · rw [hhead] at htask
    rcases List.mem_cons.mp htask with rfl | htask
    · obtain ⟨next, hnext, hyes⟩ := hopens client hclient hyes
      exact ⟨next, List.mem_append_left _ hnext, hyes⟩
    · exact ⟨task, List.mem_append_right _ htask, hyes⟩

/-- Work that owes no client a word of a socket's opening is done with. -/
theorem done {work : Work M} {rest : List (Work M)} (h : s.Sound) (hhead : s.todo = work :: rest)
    (hopens : ∀ client ∈ s.clients, work.opens client = false) : ({ s with todo := rest } : Connection M).Sound := by
  apply h.pops [] hhead
  · intro c hc
    cases hc
  · intro task htask
    cases htask
  · intro client hclient hyes
    rw [hopens client hclient] at hyes
    cases hyes

/-- Something is told, and clients may have come or gone: each that is left was told that the socket opened, or is now,
or will be. -/
theorem hears (h : s.Sound) (what : Told M) {rest : List (Work M)} (hconn : s'.conn = s.conn)
    (hstatus : s'.status = s.status) (hsockets : s'.sockets = s.sockets) (hsent : s'.sent = s.sent)
    (htold : s'.told = what :: s.told) (htodo : s'.todo = .told what :: rest)
    (hclosing : ∀ c, .closeSocket c ∈ rest → .closeSocket c ∈ s.todo)
    (hparts : ∀ work ∈ rest, work.parts = true → ∃ work ∈ s.todo, work.parts = true)
    (hlife : s.status = .online → ∀ client, what.life client = none ∨ what.life client = some (true, s.conn))
    (hreached : s.status = .online → ∀ client ∈ s'.clients, lastLife client s.told = some (true, s.conn) ∨
      what.life client = some (true, s.conn) ∨ ∃ work ∈ rest, work.opens client = true)
    (hmessage : ∀ client msg conn, what = .message client msg conn →
      conn.isSome = true ∧ lastLife client s.told = some (true, conn)) : s'.Sound := by
  apply h.same hconn hstatus hsockets
  · intro c hc
    rw [htodo] at hc
    rcases List.mem_cons.mp hc with hc | hc
    · cases hc
    · exact hclosing c hc
  · intro work hwork hyes
    rw [htodo] at hwork
    rcases List.mem_cons.mp hwork with rfl | hwork
    · cases hyes
    · exact hparts work hwork hyes
  · intro hs client hclient
    rw [htold, htodo, lastLife, List.findSome?_cons]
    rcases hreached hs client hclient with hbefore | hnow | ⟨work, hwork, hopen⟩
    · left
      rcases hlife hs client with hnone | hsome
      · rw [hnone]
        exact hbefore
      · rw [hsome]
    · rw [hnow]
      exact .inl rfl
    · exact .inr ⟨work, List.mem_cons_of_mem _ hwork, hopen⟩
  · intro client msg conn older holder
    rw [htold] at holder
    rcases List.suffix_cons_iff.mp holder with heq | hsuffix
    · obtain ⟨hwhat, rfl⟩ := List.cons.inj heq
      exact hmessage client msg conn hwhat.symm
    · exact h.handed client msg conn older hsuffix
  · rw [hsent]
    exact h.sent

/-- A state where no socket is open: what was told and sent stays right. -/
theorem down (h : s.Sound) (hstatus : s'.status ≠ .online)
    (hcurrent : ∀ c ∈ s'.conn, ∃ k, s'.sockets[c]? = some k ∧ k.live = true ∧ k.opened = false)
    (hclosing : ∀ c, .closeSocket c ∈ s'.todo → c < s'.sockets.length ∧ s'.conn ≠ some c)
    (htold : s'.told = s.told) (hsent : s'.sent = s.sent)
    (hsockets : ∀ (c : ℕ) (k : Socket), s.sockets[c]? = some k → k.opened = true →
      ∃ k', s'.sockets[c]? = some k' ∧ k'.opened = true) :
    s'.Sound where
  current c hc := by
    obtain ⟨k, hk, hlive, -⟩ := hcurrent c hc
    exact ⟨k, hk, hlive⟩
  closing := hclosing
  online := by
    refine iff_of_false hstatus ?_
    rintro ⟨c, k, hc, hk, hopened⟩
    obtain ⟨k', hk', -, hclosed⟩ := hcurrent c hc
    rw [hk] at hk'
    obtain rfl := Option.some.inj hk'
    rw [hopened] at hclosed
    cases hclosed
  together hs := (hstatus hs).elim
  reached hs := (hstatus hs).elim
  handed := htold ▸ h.handed
  sent out hout := by
    obtain ⟨k, hk, hopened⟩ := h.sent out (hsent ▸ hout)
    exact hsockets _ k hk hopened

/-- What becomes of a socket that is not the current one, if it opened for good. -/
theorem elsewhere {c : ℕ} {f : Socket → Socket} (h : s.Sound) (hc : s.conn ≠ some c)
    (hf : ∀ k, k.opened = true → (f k).opened = true) :
    ({ s with sockets := s.sockets.modify c f } : Connection M).Sound := by
  have hsame : ∀ d ∈ s.conn, (s.sockets.modify c f)[d]? = s.sockets[d]? := by
    intro d hd
    rw [List.getElem?_modify_ne]
    rintro rfl
    exact hc hd
  have hopen : ({ s with sockets := s.sockets.modify c f } : Connection M).IsOpen ↔ s.IsOpen := by
    constructor
    · rintro ⟨d, k, hd, hk, hopened⟩
      exact ⟨d, k, hd, (hsame d hd).symm.trans hk, hopened⟩
    · rintro ⟨d, k, hd, hk, hopened⟩
      exact ⟨d, k, hd, (hsame d hd).trans hk, hopened⟩
  refine ⟨fun d hd => ?_, fun d hd => ?_, h.online.trans hopen.symm, h.together, h.reached, h.handed, fun out hout => ?_⟩
  · obtain ⟨k, hk, hlive⟩ := h.current d hd
    exact ⟨k, (hsame d hd).trans hk, hlive⟩
  · obtain ⟨hlt, hne⟩ := h.closing d hd
    exact ⟨by simpa using hlt, hne⟩
  · obtain ⟨k, hk, hopened⟩ := h.sent out hout
    by_cases heq : out.1 = c
    · refine ⟨f k, ?_, hf k hopened⟩
      rw [heq] at hk ⊢
      simp [List.getElem?_modify_eq, hk]
    · refine ⟨k, ?_, hopened⟩
      rw [← hk]
      exact List.getElem?_modify_ne _ _ (Ne.symm heq)

theorem setStatus {next : Status} {rest : List (Work M)} (h : s.Sound) (hnext : next ≠ .online)
    (hcurrent : ∀ c ∈ s'.conn, ∃ k, s'.sockets[c]? = some k ∧ k.live = true ∧ k.opened = false)
    (hclosing : ∀ c, .closeSocket c ∈ rest ++ s'.todo → c < s'.sockets.length ∧ s'.conn ≠ some c)
    (htold : s'.told = s.told) (hsent : s'.sent = s.sent)
    (hsockets : ∀ (c : ℕ) (k : Socket), s.sockets[c]? = some k → k.opened = true →
      ∃ k', s'.sockets[c]? = some k' ∧ k'.opened = true) : (s'.setStatus next rest).Sound := by
  unfold Connection.setStatus
  split_ifs with hsame
  · exact h.down (by rw [← hsame] at hnext; exact hnext) hcurrent hclosing htold hsent hsockets
  · refine h.down hnext hcurrent (fun c hc => ?_) htold hsent hsockets
    rcases List.mem_cons.mp hc with hc | hc
    · cases hc
    · exact hclosing c hc

/-! ## What the app calls -/

theorem openSocket (h : s.Sound) : s.openSocket.Sound := by
  unfold Connection.openSocket
  split_ifs with hconn
  · exact h
  · have hnone : s.conn = none := by simpa using hconn
    refine h.setStatus (by decide) (by simp [hnone]) (fun c hc => h.closing c ?_) rfl rfl
      fun c k hk hopened => ⟨k, hk, hopened⟩
    rcases List.mem_append.mp hc with hc | hc
    · simp at hc
    · exact hc

theorem connect (h : s.Sound) : (s.connect opts).Sound := by
  unfold Connection.connect
  split_ifs
  · exact h.also rfl rfl rfl rfl rfl rfl rfl
  · apply openSocket
    exact h.also rfl rfl rfl rfl rfl rfl rfl

theorem dropped {t : Connection M} {rest : List (Work M)} (h : s.Sound)
    (hclosing : ∀ c, .closeSocket c ∈ rest ++ t.todo → c < t.sockets.length) (htold : t.told = s.told)
    (hsent : t.sent = s.sent) (hsockets : ∀ (c : ℕ) (k : Socket), s.sockets[c]? = some k → k.opened = true →
      ∃ k', t.sockets[c]? = some k' ∧ k'.opened = true) : (t.dropped rest).Sound := by
  refine h.setStatus (by decide) (by simp) (fun c hc => ⟨hclosing c ?_, by simp⟩) htold hsent hsockets
  simpa using hc

theorem close (h : s.Sound) : s.close.Sound := by
  have hkeep : ∀ (c : ℕ) (k : Socket), s.sockets[c]? = some k → k.opened = true → ∃ k', (s.conn.elim s.sockets fun c =>
      s.sockets.modify c fun k => { k with closed := true })[c]? = some k' ∧ k'.opened = true := by
    intro c k hk hopened
    cases s.conn with
    | none => exact ⟨k, hk, hopened⟩
    | some d =>
      rw [Option.elim_some, List.getElem?_modify, hk]
      by_cases hd : d = c
      · exact ⟨_, rfl, by simpa [hd] using hopened⟩
      · exact ⟨_, rfl, by simpa [hd] using hopened⟩
  refine h.setStatus (by decide) (by simp) (fun c hc => ⟨?_, by simp⟩) rfl rfl hkeep
  have hlt := (h.closing c (by simpa using hc)).1
  cases hconn : s.conn with
  | none => simpa [hconn] using hlt
  | some d => simpa [hconn] using hlt

theorem send (h : s.Sound) (msg : Outgoing M) : (s.send msg).Sound := by
  unfold Connection.send
  split
  · next c hc =>
    split_ifs with hs
    · refine ⟨h.current, h.closing, h.online, h.together, h.reached, h.handed, fun out hout => ?_⟩
      rcases List.mem_append.mp hout with hout | hout
      · exact h.sent out hout
      · obtain rfl := List.mem_singleton.mp hout
        obtain ⟨d, k, hd, hk, hopened⟩ := h.online.mp hs
        rw [hc] at hd
        obtain rfl := Option.some.inj hd
        exact ⟨k, hk, hopened⟩
    · exact h
  · exact h

theorem mem_clients {client : Attached} : client ∈ s.clients ↔ s.handlers.get client.store = some client.handler := by
  rw [← OrderedMap.mem_entries, clients, List.mem_map]
  constructor
  · rintro ⟨e, he, rfl⟩
    exact he
  · intro he
    exact ⟨_, he, rfl⟩

theorem attach (h : s.Sound) (client : Attached) : (s.attach client).Sound := by
  have hmem : ∀ other ∈ ({ s with handlers := s.handlers.set client.store client.handler } : Connection M).clients,
      other = client ∨ other ∈ s.clients := by
    intro other hother
    rw [mem_clients, OrderedMap.get_set] at hother
    split_ifs at hother with hstore
    · left
      obtain ⟨store, handler⟩ := other
      obtain rfl := Option.some.inj hother
      obtain rfl := hstore
      rfl
    · exact .inr (mem_clients.mpr hother)
  unfold Connection.attach
  dsimp only
  split_ifs with hs
  · refine h.hears (.hook client .onOpen s.conn) rfl rfl rfl rfl rfl rfl (fun c hc => hc) (fun work hwork hyes =>
      ⟨work, hwork, hyes⟩) (fun _ other => ?_) (fun _ other hother => ?_) (by simp)
    · by_cases hother : client = other
      · exact .inr (by simp [Told.life, hother])
      · exact .inl (by simp [Told.life, hother])
    · rcases hmem other hother with rfl | hbefore
      · exact .inr (.inl (by simp [Told.life]))
      · rcases h.reached hs other hbefore with hlast | hopen
        · exact .inl hlast
        · exact .inr (.inr hopen)
  · exact h.same rfl rfl rfl (fun c hc => hc) (fun work hwork hyes => ⟨work, hwork, hyes⟩) (fun hs' => (hs hs').elim)
      h.handed h.sent

theorem detach (h : s.Sound) (client : Attached) : (s.detach client).Sound := by
  unfold Connection.detach
  split_ifs
  · apply send
    refine h.same rfl rfl rfl (fun c hc => hc) (fun work hwork hyes => ⟨work, hwork, hyes⟩) (fun hs other hother => ?_)
      h.handed h.sent
    rw [mem_clients, OrderedMap.get_erase] at hother
    split_ifs at hother
    exact h.reached hs other (mem_clients.mpr hother)
  · exact h

theorem call {call : Call M} (h : s.Sound) (hs : s.call opts call = some s') : s'.Sound := by
  cases call with
  | connect =>
    obtain rfl := Option.some.inj hs
    exact h.connect
  | close =>
    obtain rfl := Option.some.inj hs
    exact h.close
  | attach storeId handler =>
    simp only [Connection.call, Option.ite_none_left_eq_some, Option.some.injEq] at hs
    obtain ⟨-, rfl⟩ := hs
    exact h.attach _
  | detach client =>
    obtain rfl := Option.some.inj hs
    exact h.detach client
  | send client msg =>
    obtain rfl := Option.some.inj hs
    exact h.send _
  | onStatus =>
    obtain rfl := Option.some.inj hs
    exact h.also rfl rfl rfl rfl rfl rfl rfl
  | onClosed =>
    obtain rfl := Option.some.inj hs
    exact h.also rfl rfl rfl rfl rfl rfl rfl
  | off listener =>
    obtain rfl := Option.some.inj hs
    exact h.also rfl rfl rfl rfl rfl rfl rfl

/-! ## What the interpreter does -/

theorem undrop (h : s.Sound) : (s.undrop opts).Sound := by
  unfold Connection.undrop
  dsimp only
  split_ifs
  · apply connect
    exact h.also rfl rfl rfl rfl rfl rfl rfl
  · split
    · exact h.also rfl rfl rfl rfl rfl rfl rfl
    · exact h.also rfl rfl rfl rfl rfl rfl rfl
  · exact h.also rfl rfl rfl rfl rfl rfl rfl

/-- A listener is told. -/
theorem notifies {work next : Work M} {rest : List (Work M)} (h : s.Sound) (hhead : s.todo = work :: rest)
    (what : Told M) (hwork : ∀ client, work.opens client = false) (hlife : ∀ client, what.life client = none)
    (hnext : next.parts = false) (hclosing : ∀ c, .closeSocket c ≠ next)
    (hmessage : ∀ client msg conn, what ≠ .message client msg conn) :
    (Connection.tell what (next :: rest) { s with todo := rest }).Sound := by
  refine h.hears what rfl rfl rfl rfl rfl rfl (fun c hc => ?_) (fun task htask hyes => ?_) (fun _ client => .inl (hlife client))
    (fun hs client hclient => ?_) fun client msg conn heq => (hmessage client msg conn heq).elim
  · rw [hhead]
    exact List.mem_cons_of_mem _ ((List.mem_cons.mp hc).resolve_left (hclosing c))
  · rw [hhead]
    rcases List.mem_cons.mp htask with rfl | htask
    · rw [hnext] at hyes
      cases hyes
    · exact ⟨task, List.mem_cons_of_mem _ htask, hyes⟩
  · rcases h.reached hs client hclient with hlast | ⟨task, htask, hopen⟩
    · exact .inl hlast
    · rw [hhead] at htask
      rcases List.mem_cons.mp htask with rfl | htask
      · rw [hwork client] at hopen
        cases hopen
      · exact .inr (.inr ⟨task, List.mem_cons_of_mem _ htask, hopen⟩)

/-- A client is told, the first of those left. -/
theorem tellsNext {hook : Hook} {client : Attached} {clients : List Attached} {rest : List (Work M)} (h : s.Sound)
    (hhead : s.todo = .eachOf hook (client :: clients) :: rest) :
    (Connection.tell (.hook client hook s.conn) (.eachOf hook clients :: rest) { s with todo := rest }).Sound := by
  refine h.hears (.hook client hook s.conn) rfl rfl rfl rfl rfl rfl (fun c hc => ?_) (fun task htask hyes => ?_)
    (fun hs other => ?_) (fun hs other hother => ?_) (by simp)
  · rw [hhead]
    exact List.mem_cons_of_mem _ ((List.mem_cons.mp hc).resolve_left (by simp))
  · rw [hhead]
    rcases List.mem_cons.mp htask with rfl | htask
    · exact ⟨_, List.mem_cons_self, hyes⟩
    · exact ⟨task, List.mem_cons_of_mem _ htask, hyes⟩
  · have hopens := h.together hs _ (hhead ▸ List.mem_cons_self)
    have hhook : hook = .onOpen := by simpa [Work.parts] using hopens
    by_cases hother : client = other
    · exact .inr (by simp [Told.life, hother, hhook])
    · exact .inl (by simp [Told.life, hother])
  · rcases h.reached hs other hother with hlast | ⟨task, htask, hopen⟩
    · exact .inl hlast
    · right
      rw [hhead] at htask
      rcases List.mem_cons.mp htask with rfl | htask
      · obtain ⟨rfl, hmem⟩ : hook = .onOpen ∧ other ∈ client :: clients := by simpa [Work.opens] using hopen
        rcases List.mem_cons.mp hmem with rfl | hmem
        · exact .inl (by simp [Told.life])
        · exact .inr ⟨_, List.mem_cons_self, by simp [Work.opens, hmem]⟩
      · exact .inr ⟨task, List.mem_cons_of_mem _ htask, hopen⟩

/-- No socket is made while one is open. -/
theorem makesSocket {rest : List (Work M)} (h : s.Sound) (hhead : s.todo = .makeSocket :: rest) :
    ({ s with
        todo := rest
        conn := some s.sockets.length
        sockets := s.sockets ++ [⟨false, false, false⟩] } : Connection M).Sound := by
  have hdown : s.status ≠ .online := by
    intro hs
    have hnone := h.together hs _ (hhead ▸ List.mem_cons_self)
    cases hnone
  refine h.down hdown (fun c hc => ?_) (fun c hc => ?_) rfl rfl fun c k hk hopened => ⟨k, ?_, hopened⟩
  · obtain rfl := Option.some.inj hc
    exact ⟨⟨false, false, false⟩, by simp, rfl, rfl⟩
  · obtain ⟨hlt, -⟩ := h.closing c (hhead ▸ List.mem_cons_of_mem _ hc)
    refine ⟨by simp; omega, fun heq => ?_⟩
    have := Option.some.inj heq
    omega
  · rw [List.getElem?_append_left (List.getElem?_eq_some_iff.mp hk).1]
    exact hk

theorem run {work : Work M} {rest : List (Work M)} (h : s.Sound) (hhead : s.todo = work :: rest)
    (hs : s.run opts work rest = some s') : s'.Sound := by
  cases work with
  | told what => cases hs
  | statusFrom status listener =>
    simp only [Connection.run] at hs
    split at hs
    · obtain rfl := Option.some.inj hs
      exact h.notifies hhead _ (fun _ => rfl) (fun _ => rfl) rfl (by simp) (by simp)
    · obtain rfl := Option.some.inj hs
      exact h.done hhead fun _ _ => rfl
  | closedFrom reason listener =>
    simp only [Connection.run] at hs
    split at hs
    · obtain rfl := Option.some.inj hs
      exact h.notifies hhead _ (fun _ => rfl) (fun _ => rfl) rfl (by simp) (by simp)
    · obtain rfl := Option.some.inj hs
      exact h.done hhead fun _ _ => rfl
  | each hook =>
    obtain rfl := Option.some.inj hs
    apply h.pops [.eachOf hook s.clients] hhead (by simp)
    · intro task htask hyes
      obtain rfl := List.mem_singleton.mp htask
      exact hyes
    · intro client hclient hyes
      have hhook : hook = .onOpen := by simpa [Work.opens] using hyes
      exact ⟨_, List.mem_singleton_self _, by simp [Work.opens, hhook, hclient]⟩
  | eachOf hook clients =>
    cases clients with
    | nil =>
      obtain rfl := Option.some.inj hs
      exact h.done hhead fun _ _ => by simp [Work.opens]
    | cons client clients =>
      obtain rfl := Option.some.inj hs
      exact h.tellsNext hhead
  | turnedAway =>
    simp only [Connection.run] at hs
    split at hs
    · next reason _ =>
      obtain rfl := Option.some.inj hs
      exact h.pops [.each (.onClosed reason), .closedFrom reason 0] hhead (by simp) (fun _ _ _ => rfl)
        (fun _ _ hyes => by cases hyes)
    · obtain rfl := Option.some.inj hs
      exact h.done hhead fun _ _ => rfl
  | undrop =>
    obtain rfl := Option.some.inj hs
    exact (h.done hhead fun _ _ => rfl).undrop
  | makeSocket =>
    obtain rfl := Option.some.inj hs
    exact h.makesSocket hhead
  | startKeepalive =>
    have hdone := h.done hhead fun _ _ => rfl
    simp only [Connection.run] at hs
    split_ifs at hs
    · obtain rfl := Option.some.inj hs
      exact hdone.also rfl rfl rfl rfl rfl rfl rfl
    · obtain rfl := Option.some.inj hs
      exact hdone.also rfl rfl rfl rfl rfl rfl rfl
  | closeSocket c =>
    obtain rfl := Option.some.inj hs
    exact (h.done hhead fun _ _ => rfl).elsewhere (h.closing c (hhead ▸ List.mem_cons_self)).2 fun _ hopened => hopened

/-! ## What sockets and timers report -/

/-- A socket opened. Those attached are told, whatever the listeners of the status do first. -/
theorem onopen {c : ℕ} {k : Socket} (h : s.Sound) (htodo : s.todo = []) (hk : s.sockets[c]? = some k)
    (hshut : k.opened = false) :
    (Connection.onopen opts c
      { s with sockets := s.sockets.modify c fun k => { k with opened := true } }).Sound := by
  unfold Connection.onopen
  dsimp only
  split_ifs with hconn
  · exact h.elsewhere hconn fun _ _ => rfl
  have hconn : s.conn = some c := by simpa using hconn
  have hat : ∀ f : Socket → Socket, (s.sockets.modify c f)[c]? = some (f k) := fun f => by
    rw [List.getElem?_modify_eq, hk]
    rfl
  have hstatus : s.status ≠ .online := by
    intro hs
    obtain ⟨d, k', hd, hk', hopened⟩ := h.online.mp hs
    rw [hconn] at hd
    obtain rfl := Option.some.inj hd
    rw [hk] at hk'
    obtain rfl := Option.some.inj hk'
    rw [hshut] at hopened
    cases hopened
  unfold Connection.setStatus
  rw [if_neg hstatus, htodo]
  refine ⟨fun d hd => ?_, by simp, iff_of_true rfl ⟨c, _, hconn, hat _, rfl⟩, by simp [Work.parts], fun _ client _ => ?_,
    h.handed, fun out hout => ?_⟩
  · obtain rfl := Option.some.inj (hconn.symm.trans hd)
    obtain ⟨k', hk', hlive⟩ := h.current c hd
    rw [hk] at hk'
    obtain rfl := Option.some.inj hk'
    exact ⟨_, hat _, hlive⟩
  · right
    exact ⟨.each .onOpen, by simp, rfl⟩
  · obtain ⟨k', hk', hopened⟩ := h.sent out hout
    by_cases heq : c = out.1
    · exact ⟨_, by rw [← heq]; exact hat _, rfl⟩
    · exact ⟨k', by rw [List.getElem?_modify_ne _ _ heq]; exact hk', hopened⟩

/-- A message: for a store, it goes to the client attached there, who was told that this socket opened. -/
theorem onmessage {c : ℕ} {k : Socket} (h : s.Sound) (htodo : s.todo = []) (hk : s.sockets[c]? = some k)
    (hopened : k.opened = true) (msg : Incoming M) : (s.onmessage c msg).Sound := by
  unfold Connection.onmessage
  split_ifs with hconn
  · exact h
  have hconn : s.conn = some c := by simpa using hconn
  dsimp only
  cases msg with
  | noise => exact h.also rfl rfl rfl rfl rfl rfl rfl
  | closed reason =>
    dsimp only
    split_ifs
    · exact h.also rfl rfl rfl rfl rfl rfl rfl
    · refine h.dropped (fun d hd => ?_) rfl rfl fun d k hk hopened => ⟨k, hk, hopened⟩
      obtain rfl : d = c := by simpa [htodo] using hd
      exact (List.getElem?_eq_some_iff.mp hk).1
  | store id msg =>
    dsimp only
    split
    · next handler hget =>
      have hs : s.status = .online := h.online.mpr ⟨c, k, hconn, hk, hopened⟩
      refine h.hears (.message ⟨id, handler⟩ msg s.conn) rfl rfl rfl rfl rfl rfl (fun c hc => hc)
        (fun work hwork hyes => ⟨work, hwork, hyes⟩) (fun _ _ => .inl rfl) (fun hs other hother => ?_) ?_
      · rcases h.reached hs other hother with hlast | hopen
        · exact .inl hlast
        · exact .inr (.inr hopen)
      · intro client msg conn heq
        obtain ⟨rfl, rfl, rfl⟩ := Told.message.inj heq
        refine ⟨by simp [hconn], ?_⟩
        rcases h.reached hs ⟨id, handler⟩ (mem_clients.mpr hget) with hlast | ⟨work, hwork, -⟩
        · exact hlast
        · rw [htodo] at hwork
          cases hwork
    · exact h.also rfl rfl rfl rfl rfl rfl rfl

theorem onclose {c : ℕ} (h : s.Sound) (htodo : s.todo = []) (unauthorized : Option String) :
    (Connection.onclose c unauthorized
      { s with sockets := s.sockets.modify c fun k => { k with gone := true } }).Sound := by
  have hkeep : ∀ (d : ℕ) (k : Socket), s.sockets[d]? = some k → k.opened = true →
      ∃ k', (s.sockets.modify c fun k => { k with gone := true })[d]? = some k' ∧ k'.opened = true := by
    intro d k hk hopened
    rw [List.getElem?_modify, hk]
    by_cases hd : c = d
    · exact ⟨_, rfl, by simpa [hd] using hopened⟩
    · exact ⟨_, rfl, by simpa [hd] using hopened⟩
  unfold Connection.onclose
  dsimp only
  by_cases hconn : s.conn ≠ some c
  · rw [if_pos hconn]
    exact h.elsewhere hconn fun _ hopened => hopened
  · rw [if_neg hconn]
    exact h.dropped (by simp [htodo]) rfl rfl hkeep

theorem onTick (h : s.Sound) (htodo : s.todo = []) : s.onTick.Sound := by
  unfold Connection.onTick
  split
  · exact h
  · next c hconn =>
    by_cases hs : s.status ≠ .online
    · rw [if_pos hs]
      exact h
    · rw [if_neg hs]
      dsimp only
      generalize (if s.heard = true then 0 else s.silent + 1) = silent
      split_ifs
      · refine h.dropped (fun d hd => ?_) rfl rfl fun d k hk hopened => ⟨k, hk, hopened⟩
        obtain rfl : d = c := by simpa [htodo] using hd
        obtain ⟨k, hk, -⟩ := h.current d hconn
        exact (List.getElem?_eq_some_iff.mp hk).1
      · apply send
        exact h.also rfl rfl rfl rfl rfl rfl rfl

theorem onWake (h : s.Sound) (hidden : Bool) : (s.onWake opts hidden).Sound := by
  unfold Connection.onWake
  split_ifs
  · exact h
  · split
    · exact h
    · apply openSocket
      exact h.also rfl rfl rfl rfl rfl rfl rfl

theorem step {e : Event M} (h : s.Sound) (hs : s.step opts e = some s') : s'.Sound := by
  cases e with
  | call call =>
    simp only [Connection.step, Option.ite_none_right_eq_some] at hs
    exact h.call hs.2
  | returns =>
    simp only [Connection.step] at hs
    split at hs
    · next hhead =>
      obtain rfl := Option.some.inj hs
      exact h.done hhead fun _ _ => rfl
    · cases hs
  | runs =>
    simp only [Connection.step] at hs
    split at hs
    · next hhead => exact h.run hhead hs
    · cases hs
  | opened c =>
    simp only [Connection.step, Option.ite_none_right_eq_some, Option.any_eq_true, Option.some.injEq] at hs
    obtain ⟨⟨htodo, k, hk, hshut⟩, rfl⟩ := hs
    exact h.onopen htodo hk (by simp at hshut; exact hshut.1)
  | message c msg =>
    simp only [Connection.step, Option.ite_none_right_eq_some, Option.any_eq_true, Option.some.injEq] at hs
    obtain ⟨⟨htodo, k, hk, hopened⟩, rfl⟩ := hs
    exact h.onmessage htodo hk (by simp at hopened; exact hopened.1) msg
  | gone c unauthorized =>
    simp only [Connection.step, Option.ite_none_right_eq_some, Option.some.injEq] at hs
    obtain ⟨⟨htodo, -⟩, rfl⟩ := hs
    exact h.onclose htodo unauthorized
  | retries =>
    simp only [Connection.step, Option.ite_none_right_eq_some, Option.some.injEq] at hs
    obtain ⟨-, rfl⟩ := hs
    apply openSocket
    exact h.also rfl rfl rfl rfl rfl rfl rfl
  | ticks =>
    simp only [Connection.step, Option.ite_none_right_eq_some, Option.some.injEq] at hs
    obtain ⟨⟨htodo, -⟩, rfl⟩ := hs
    exact h.onTick htodo
  | wakes hidden =>
    simp only [Connection.step, Option.ite_none_right_eq_some, Option.some.injEq] at hs
    obtain ⟨-, rfl⟩ := hs
    exact h.onWake hidden

end Sound

theorem sound_create : (create opts : Connection M).Sound where
  current := nofun
  closing := nofun
  online := iff_of_false nofun nofun
  together := nofun
  reached := nofun
  handed client msg conn older h := by
    have hnil := List.suffix_nil.mp h
    cases hnil
  sent := nofun

/-- Whoever calls the connection back from what it is told, and whatever sockets report when: a client is handed a message
only by the socket it was last told had opened; the status says online just when the current socket opened, and then, with
nothing left to tell, every client has been told so and of no end since. -/
theorem handed_by_the_open_socket (h : Reaches (step opts) (fun _ _ => True) (create opts) s) :
    (∀ client msg conn older, .message client msg conn :: older <:+ s.told →
        conn.isSome = true ∧ lastLife client older = some (true, conn)) ∧
      (s.status = .online ↔ s.IsOpen) ∧
      (s.status = .online → s.todo = [] → ∀ client ∈ s.clients, lastLife client s.told = some (true, s.conn)) ∧
      ∀ out ∈ s.sent, ∃ k, s.sockets[out.1]? = some k ∧ k.opened = true := by
  have hsound : s.Sound := h.invariant sound_create fun _ _ _ hbefore _ hs => hbefore.step hs
  refine ⟨hsound.handed, hsound.online, fun hs htodo client hclient => ?_, hsound.sent⟩
  rcases hsound.reached hs client hclient with hlast | ⟨work, hwork, -⟩
  · exact hlast
  · rw [htodo] at hwork
    cases hwork

/-- Of two clients the first closes the connection from its `onOpen` and connects it again; both are on the socket that
came then, and a message is handed to the second. -/
theorem handed_by_the_open_socket_of_two : ∃ s : Connection ℕ, s.status = .online ∧ s.conn = some 1 ∧ s.todo = [] ∧
    .message ⟨"b", 1⟩ 7 (some 1) ∈ s.told ∧
    ((∀ client msg conn older, .message client msg conn :: older <:+ s.told →
        conn.isSome = true ∧ lastLife client older = some (true, conn)) ∧
      (s.status = .online ↔ s.IsOpen) ∧
      (s.status = .online → s.todo = [] → ∀ client ∈ s.clients, lastLife client s.told = some (true, s.conn)) ∧
      ∀ out ∈ s.sent, ∃ k, s.sockets[out.1]? = some k ∧ k.opened = true) := by
  obtain ⟨s, hrun, hends⟩ := @Reaches.exists_of_replay _ _ (step ⟨some (500, 10000), true, true⟩) (fun _ _ => True)
    (create ⟨some (500, 10000), true, true⟩) (fun (_ : Event ℕ) _ => true) (fun _ _ _ => trivial)
    [.call (.attach "a" 0), .call (.attach "b" 1), .call .connect, .runs, .runs, .opened 0, .runs, .runs, .runs, .runs,
      .call .close, .runs, .runs, .runs, .returns, .runs, .returns, .runs, .call .connect, .runs, .runs, .returns, .runs,
      .returns, .runs, .opened 1, .runs, .runs, .runs, .runs, .returns, .runs, .returns, .runs,
      .message 1 (.store "b" 7), .returns]
    (fun s => s.status = .online ∧ s.conn = some 1 ∧ s.todo = [] ∧ .message ⟨"b", 1⟩ 7 (some 1) ∈ s.told) inferInstance
    (by decide +kernel)
  exact ⟨s, hends.1, hends.2.1, hends.2.2.1, hends.2.2.2, handed_by_the_open_socket hrun⟩

end LazyStorage.Client.Connection
