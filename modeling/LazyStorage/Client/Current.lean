import LazyStorage.Client.Bringing

/-! # A base is the state at the version it says

On a link that may be lost, but loses no message on its own, the base of a client
is at all times what the store held at the version the client last heard, and once
nothing is on the way to a synced client it is what the store holds. Hellos are
said where none is unanswered, or the store's log is such as may be trusted twice.
-/
namespace LazyStorage.Server

/-- A message that is to be answered with what was missed. -/
def Up.isHello : Up → Bool
  | .hello _ _ _ _ _ => true
  | _ => false

variable {sh : Core.Shape} {deltaLog : ℕ} {commits : List Commit} {d : Core.Doc sh}

/-- What the store held at its last version is what it holds. -/
theorem StoodAt.equals (h : StoodAt commits (Saved.ofCommits commits).version d)
    (hchronicle : Chronicle sh deltaLog commits) : d.Equals (Saved.docAt sh commits) := by
  obtain ⟨pre, ⟨rest, rfl⟩, hversion, hd⟩ := h
  have hnone : logged rest = [] := by
    rw [← hchronicle.length_logged, ← (hchronicle.of_prefix (List.prefix_append _ _)).length_logged, logged_append,
      List.length_append] at hversion
    exact List.eq_nil_of_length_eq_zero (by omega)
  obtain ⟨x, hx, hshows⟩ := hchronicle.replays
  rw [hnone] at hx
  obtain rfl := Except.ok.inj hx
  intro key
  rw [← hd key]
  exact Core.Doc.Equals.of_shows hshows key

/-- Entries logged are numbered from one. -/
theorem Store.Told.number {U : Type} {opts : Options sh U} {st : Store sh} {exact : Prop} (h : st.Told opts exact)
    {i : ℕ} {entry : LogEntry} (hentry : (logged st.commits)[i]? = some entry) : entry.v = i + 1 := by
  have hi : ((logged st.commits).map LogEntry.v)[i]? = some entry.v := by
    rw [List.getElem?_map, hentry]
    rfl
  rw [h.tells.chronicle.versions, List.getElem?_range' (by
    rw [← h.tells.chronicle.length_logged]
    exact (List.getElem?_eq_some_iff.mp hentry).1)] at hi
  have hv := Option.some.inj hi
  omega

theorem Store.Broadcasts.version {U : Type} {opts : Options sh U} {st st' : Store sh} {entries : List LogEntry} {exact : Prop}
    (h : st.Broadcasts st' entries) (hbefore : st.Told opts exact) (hafter : st'.Told opts exact) :
    st'.version = st.version + entries.length := by
  obtain ⟨new, hcommits, rfl, -⟩ := h.more
  rw [← hafter.length_logged, ← hbefore.length_logged, hcommits, logged_append, List.length_append]

theorem HostEvent.lasts_of_spares {U : Type} {e : HostEvent U} {replica : String} (h : e.spares replica = true) :
    e.lasts = true := by
  cases e with
  | reload known epoch => cases h
  | migrate => cases h
  | _ => rfl

end LazyStorage.Server

namespace LazyStorage.Client

open Lib LazyStorage.Core LazyStorage.Server

variable {sh : Shape} {U : Type} {opts : Options sh U} {epoch : String} {again : Prop}

/-- An unsynced client says nothing but hellos. -/
theorem Mirror.nothing_meant {c : Mirror sh} {msgs : List Up} (hsynced : c.synced = false)
    (hmeant : ∀ msg ∈ msgs, c.Meant msg) (hno : ∀ msg ∈ msgs, msg.isHello = false) : msgs = [] := by
  apply List.eq_nil_iff_forall_not_mem.mpr
  intro msg hmsg
  have hmean := hmeant msg hmsg
  cases msg with
  | hello replica ops since clocks follower => cases hno _ hmsg
  | op as op =>
    have hyes := hmean.2
    rw [hsynced] at hyes
    cases hyes
  | leave as => exact hmean

namespace System

/-- No hello is said and not answered: the client would be synced by the answer. -/
def Lone (s : System sh U) : Prop :=
  s.client.synced = false ∧ (∀ msg ∈ s.up, msg.isHello = false) ∧ ∀ msg ∈ s.down, msg.answers = none

/-- The link loses nothing but itself, the server's own writes make nothing the log does not say, and a hello is said
where none is unanswered, or entries may be had `again`. -/
def Steady (again : Prop) (e : Event U) (s : System sh U) : Prop :=
  (again → repeatableLog (logged s.host.store.commits) (Saved.docAt sh []) = true) ∧
    match e with
    | .lose _ => False
    | .host (.own w) => w.makesNothing s.host.store.doc = true
    | .retry => s.client.linked = true → again ∨ s.Lone
    | .wantPresence => s.client.linked = true → again ∨ s.Lone
    | _ => True

/-- The client stands where it says, and what is on the way to it brings it to where the store is. -/
structure Current (opts : Options sh U) (epoch : String) (again : Prop) (s : System sh U) : Prop where
  told : s.host.store.Told opts False
  known : ∀ entry ∈ logged s.host.store.commits, entry.Known sh
  quiet : s.host.store.effects = []
  life : s.host.store.epoch = epoch
  plain : ∀ session ∈ s.session, session.Plain
  off : s.client.linked = false → s.client.synced = false ∧ s.session = none ∧ s.up = [] ∧ s.down = []
  stands : s.client.Stands s.host.store.commits epoch
  way : ∃ f q, Brings sh s.host.store.commits epoch again s.client.synced s.client.heard s.down f q ∧
    (s.session.isSome = true → f = true → q = some s.host.store.version)
  meant : ∀ msg ∈ s.up, s.client.Meant msg
  lone : ¬again → ∀ msg ∈ s.up, msg.isHello = true →
    s.up = [msg] ∧ s.client.synced = false ∧ ∀ msg ∈ s.down, msg.answers = none

namespace Current

variable {s s' : System sh U}

theorem chronicle (h : Current opts epoch again s) : Chronicle sh opts.deltaLog s.host.store.commits :=
  h.told.tells.chronicle

/-- What a client that has heard the store has heard is no later than it is. -/
theorem heard_le (h : Current opts epoch again s) : ∀ v ∈ s.client.heard, v ≤ s.host.store.version := fun v hv => by
  have hle := (Mirror.stood_of_heard h.stands hv).le h.chronicle
  rwa [h.told.tells.version] at hle

/-- The client does what leaves its base, and says what it may. -/
theorem acts (h : Current opts epoch again s) (c : Mirror sh) (said : List Up) (hbase : c.base = s.client.base)
    (hknown : c.known = s.client.known) (hsynced : c.synced = s.client.synced) (hlinked : c.linked = s.client.linked)
    (hoff : c.linked = false → said = []) (hmeant : ∀ msg ∈ said, c.Meant msg)
    (hlone : ∀ msg ∈ said, msg.isHello = true → said = [msg] ∧ (again ∨ s.Lone)) :
    Current opts epoch again (s.act (c, said)) where
  told := h.told
  known := h.known
  quiet := h.quiet
  life := h.life
  plain := h.plain
  off hl := by
    obtain ⟨hs, hsession, hup, hdown⟩ := h.off (hlinked ▸ hl)
    refine ⟨hsynced.trans hs, hsession, ?_, hdown⟩
    change s.up ++ said = []
    rw [hup, hoff hl]
    rfl
  stands := h.stands.same hknown hbase fun hs => hsynced ▸ hs
  way := by
    change ∃ f q, Brings sh _ _ _ c.synced c.heard _ f q ∧ _
    rw [hsynced, Mirror.heard, hknown, ← Mirror.heard]
    exact h.way
  meant msg hmsg := by
    rcases List.mem_append.mp hmsg with hmsg | hmsg
    · exact (Mirror.GoesOn.same hlinked hknown hsynced).meant (h.meant msg hmsg)
    · exact hmeant msg hmsg
  lone hagain msg hmsg hhello := by
    change s.up ++ said = [msg] ∧ c.synced = false ∧ _
    rcases List.mem_append.mp hmsg with hmsg | hmsg
    · obtain ⟨hup, hs, hdown⟩ := h.lone hagain msg hmsg hhello
      have hnone : said = [] := by
        apply Mirror.nothing_meant (hsynced.trans hs) hmeant
        intro other hother
        cases hkind : other.isHello with
        | false => rfl
        | true =>
          have hno := ((hlone other hother hkind).2.resolve_left hagain).2.1 msg hmsg
          rw [hhello] at hno
          cases hno
      rw [hup, hnone]
      exact ⟨rfl, hsynced.trans hs, hdown⟩
    · obtain ⟨hsaid, hfree⟩ := hlone msg hmsg hhello
      obtain ⟨hs, hup, hdown⟩ := hfree.resolve_left hagain
      refine ⟨?_, hsynced.trans hs, hdown⟩
      rw [Mirror.nothing_meant hs h.meant hup, hsaid]
      rfl

/-- A client that says hello. -/
theorem hails (h : Current opts epoch again s) {c : Mirror sh} (hbase : c.base = s.client.base)
    (hknown : c.known = s.client.known) (hsynced : c.synced = s.client.synced) (hlinked : c.linked = s.client.linked)
    (hon : c.linked = true) (hfree : again ∨ s.Lone) : Current opts epoch again (s.act c.hello) := by
  apply h.acts c.hello.1 c.hello.2 hbase hknown hsynced hlinked
  · intro hoff
    rw [show c.hello.1.linked = true from hon] at hoff
    cases hoff
  · exact Mirror.meant_hello c
  · intro msg hmsg _
    obtain rfl := List.mem_singleton.mp hmsg
    exact ⟨rfl, hfree⟩

/-- The link lost: nothing is on the way, and the client has what it has. -/
theorem cuts (h : Current opts epoch again s) {c : Mirror sh} (hstands : c.Stands s.host.store.commits epoch)
    (hsynced : c.synced = false) (acked : List ℕ) : Current opts epoch again { s.cut with client := c, acked } where
  told := h.told
  known := h.known
  quiet := h.quiet
  life := h.life
  plain := by simp [cut]
  off _ := ⟨hsynced, rfl, rfl, rfl⟩
  stands := hstands
  way := ⟨_, _, .done _ _, by simp [cut]⟩
  meant := by simp [cut]
  lone := by simp [cut]

end Current

/-- The store has had a turn: what it said goes after what is on the way. -/
def turned (host : Host sh) (session : Option (Session U)) (up : List Up) (said : List Down) (history : History)
    (s : System sh U) : System sh U :=
  { s with host, session, up, down := s.down ++ said, history }

namespace Current

variable {s s' : System sh U} {host : Host sh} {session : Option (Session U)} {up : List Up} {said msgs : List Down}
  {entries : List LogEntry}

/-- What the store said of the entries it made brings a client on that will be synced, and no other. -/
theorem way_told (h : Current opts epoch again s) (hlive : s.session.isSome = true) {st : Store sh}
    (htold : st.Told opts False) (hbroadcasts : s.host.store.Broadcasts st entries) (hsaid : Says entries msgs) :
    ∃ f q, Brings sh st.commits epoch again s.client.synced s.client.heard (s.down ++ msgs) f q ∧
      (f = true → q = some st.version) ∧
      (f = false → s.client.synced = false ∧ q = s.client.heard) ∧
      (s.client.synced = false → (∀ msg ∈ s.down, msg.answers = none) → f = false) := by
  obtain ⟨f, q, hbrings, hq⟩ := h.way
  obtain ⟨new, hcommits, hnew, -⟩ := hbroadcasts.more
  have hrest : (logged st.commits).drop s.host.store.version = entries ++ [] := by
    rw [hcommits, logged_append, hnew, ← h.told.length_logged, List.drop_left, List.append_nil]
  have hmore := hbrings.more new
  rw [← hcommits] at hmore
  obtain ⟨q', hcomes, hsynced, hwaits⟩ : ∃ q', Brings sh st.commits epoch again f q msgs f q' ∧ _ ∧ _ :=
    Brings.told hsaid (fun i entry => htold.number) (hq hlive) hrest
  refine ⟨f, q', hmore.append hcomes, fun hf => ?_, fun hf => ?_, fun hs hnone => ?_⟩
  · rw [hsynced hf, hbroadcasts.version h.told htold]
  · rw [hwaits hf]
    exact hbrings.back hf
  · exact (hbrings.unanswered hs hnone).1

/-- A turn of the store's. -/
theorem turns (h : Current opts epoch again s) (host : Host sh) (session : Option (Session U)) (up : List Up)
    (said : List Down) (history : History) {entries : List LogEntry} (hhost : host.store.Told opts False)
    (hbroadcasts : s.host.store.Broadcasts host.store entries) (hplain : ∀ t ∈ session, t.Plain)
    (hoff : s.client.linked = false → session = none ∧ up = [] ∧ said = [])
    (hway : ∃ f q, Brings sh host.store.commits epoch again s.client.synced s.client.heard (s.down ++ said) f q ∧
      (session.isSome = true → f = true → q = some host.store.version))
    (hup : ∀ msg ∈ up, msg ∈ s.up)
    (hlone : ¬again → ∀ msg ∈ up, msg.isHello = true → up = s.up ∧ ∀ msg ∈ said, msg.answers = none) :
    Current opts epoch again (s.turned host session up said history) where
  told := hhost
  known := by
    obtain ⟨new, hcommits, rfl, hknown⟩ := hbroadcasts.more
    intro entry hentry
    change entry ∈ logged host.store.commits at hentry
    rw [hcommits, logged_append] at hentry
    exact (List.mem_append.mp hentry).elim (h.known entry) (hknown entry)
  quiet := hbroadcasts.effects
  life := hbroadcasts.epoch.trans h.life
  plain := hplain
  off hl := by
    obtain ⟨hs, -, -, hdown⟩ := h.off hl
    obtain ⟨hsession, hnone, hsaid⟩ := hoff hl
    refine ⟨hs, hsession, hnone, ?_⟩
    change s.down ++ said = []
    rw [hdown, hsaid]
    rfl
  stands := by
    obtain ⟨new, hcommits, -, -⟩ := hbroadcasts.more
    change s.client.Stands host.store.commits epoch
    rw [hcommits]
    exact h.stands.more new
  way := hway
  meant msg hmsg := h.meant msg (hup msg hmsg)
  lone hagain msg hmsg hhello := by
    obtain ⟨hall, hs, hdown⟩ := h.lone hagain msg (hup msg hmsg) hhello
    obtain ⟨hsame, hsaid⟩ := hlone hagain msg hmsg hhello
    refine ⟨hsame.trans hall, hs, fun other hother => ?_⟩
    exact (List.mem_append.mp hother).elim (hdown other) (hsaid other)

theorem idle {st : Store sh} (effects : List LogEntry) (buckets : OrderedMap String Bucket) (h : st.Told opts False) :
    ({ st with effects, buckets } : Store sh).Told opts False := h.of_eq rfl rfl rfl rfl rfl rfl rfl

/-- A message read off the link says that it is up, and where hellos are lone it was the only one or none is left. -/
theorem reads (h : Current opts epoch again s) {msg : Up} (hup : s.up = msg :: up) :
    (s.client.linked = false → False) ∧ (∀ other ∈ up, other ∈ s.up) ∧
      (¬again → ∀ other ∈ up, other.isHello = true → False) := by
  refine ⟨fun hl => ?_, fun other hother => hup ▸ List.mem_cons_of_mem _ hother, fun hagain other hother hhello => ?_⟩
  · have hnone := (h.off hl).2.2.1
    rw [hup] at hnone
    cases hnone
  · have hall := (h.lone hagain other (hup ▸ List.mem_cons_of_mem _ hother) hhello).1
    rw [hup] at hall
    obtain ⟨-, rfl⟩ := List.cons.inj hall
    cases hother

/-- A turn at the store for a message of the client's: what it made is told, then the answer. -/
theorem hears (h : Current opts epoch again s) {msg : Up} (hup : s.up = msg :: up) {turn : Session.Turn sh U}
    {answer : List Down} {f : Bool} {q : Option ℕ} (htold : turn.store.Told opts False)
    (hbroadcasts : s.host.store.Broadcasts turn.store entries) (hplain : ∀ t ∈ turn.session, t.Plain)
    (hsaid : turn.said = msgs ++ answer)
    (hbrings : Brings sh turn.store.commits epoch again s.client.synced s.client.heard (s.down ++ msgs) f q)
    (hanswer : ∃ f' q', Brings sh turn.store.commits epoch again f q answer f' q' ∧
      (turn.session.isSome = true → f' = true → q' = some turn.store.version)) :
    Current opts epoch again
      (s.turned { s.host with store := turn.store } turn.session up turn.said (s.history ++ turn.history)) := by
  obtain ⟨hon, hmem, hnone⟩ := h.reads hup
  obtain ⟨f', q', hanswer, hq'⟩ := hanswer
  apply h.turns _ _ _ _ _ htold hbroadcasts hplain (fun hl => (hon hl).elim) _ hmem
  · exact fun hagain other hother hhello => (hnone hagain other hother hhello).elim
  · refine ⟨f', q', ?_, hq'⟩
    rw [hsaid, ← List.append_assoc]
    exact hbrings.append hanswer

/-- An op: what it made is told before its acknowledgement. -/
theorem takes (h : Current opts epoch again s) (hn : 1 ≤ opts.deltaLog) (others : List String) {op : Op}
    (hup : s.up = .op none op :: up) {session : Session U} (hsession : s.session = some session) :
    let turn := session.receive opts others s.host.wall (.op none op) s.host.store
    Current opts epoch again
      (s.turned { s.host with store := turn.store } turn.session up turn.said (s.history ++ turn.history)) := by
  have hplain := h.plain session hsession
  obtain ⟨-, hsynced⟩ := h.meant (.op none op) (hup ▸ List.mem_cons_self)
  have htold : (session.receive opts others s.host.wall (.op none op) s.host.store).store.Told opts False :=
    (keeps_told hn False).receive idle _ session h.told
  obtain ⟨entries, answer, hbroadcasts, ⟨session', hsession', hplain'⟩, hsaid, hanswer⟩ :=
    receive_op opts others s.host.wall hplain h.quiet op
  obtain ⟨f, q, hbrings, hq, hwaits, -⟩ := h.way_told (by rw [hsession]; rfl) htold hbroadcasts (.patches entries)
  have hf : f = true := by
    cases hkind : f with
    | true => rfl
    | false =>
      rw [(hwaits hkind).1] at hsynced
      cases hsynced
  refine h.hears hup htold hbroadcasts (fun t ht => ?_) hsaid hbrings ⟨f, q, ?_, fun _ => hq⟩
  · rw [hsession'] at ht
    exact Option.some.inj ht ▸ hplain'
  · rcases hanswer with ⟨refusal, rfl⟩ | ⟨time, lost, rfl⟩
    · exact .refusal (.done _ _)
    · rw [hq hf, hf]
      exact .ack le_rfl (.done _ _)

/-- A hello: what its ops made is told before its answer, which brings the client to where the store is. -/
theorem hailed (h : Current opts epoch again s) (hn : 1 ≤ opts.deltaLog) (others : List String) {replica : String}
    {ops : List Op} {since : Option (ℕ × String)} {clocks : Bool}
    (hup : s.up = .hello replica ops since clocks false :: up) {session : Session U} (hsession : s.session = some session) :
    let turn := session.receive opts others s.host.wall (.hello replica ops since clocks false) s.host.store
    Current opts epoch again
      (s.turned { s.host with store := turn.store } turn.session up turn.said (s.history ++ turn.history)) := by
  intro turn
  have hplain := h.plain session hsession
  obtain ⟨-, hsince⟩ := h.meant (.hello replica ops since clocks false) (hup ▸ List.mem_cons_self)
  have htold : turn.store.Told opts False := (keeps_told hn False).receive idle _ session h.told
  obtain ⟨entries, msgs, hbroadcasts, hsaid, hends⟩ :=
    receive_hello opts others s.host.wall hplain h.quiet replica ops since clocks
  obtain ⟨f, q, hbrings, hq, hwaits, hunanswered⟩ := h.way_told (by rw [hsession]; rfl) htold hbroadcasts hsaid
  rcases hends with ⟨⟨session', hsession', hplain'⟩, hanswer⟩ | ⟨hsession', message, hanswer⟩
  · have hplains : ∀ t ∈ turn.session, t.Plain := fun t ht => by
      rw [hsession'] at ht
      exact Option.some.inj ht ▸ hplain'
    rcases hanswer with hanswer | ⟨lost, hanswer⟩
    · rw [← List.append_nil msgs] at hanswer
      exact h.hears hup htold hbroadcasts hplains hanswer hbrings ⟨f, q, .done _ _, fun _ => hq⟩
    · have hle : ∀ v ∈ q, v ≤ turn.store.version := fun v hv => by
        cases hkind : f with
        | true =>
          rw [hq hkind] at hv
          exact (Option.some.inj hv).ge
        | false =>
          rw [(hwaits hkind).2] at hv
          rw [hbroadcasts.version h.told htold]
          exact (h.heard_le v hv).trans (Nat.le_add_right _ _)
      have hfrom : ∀ said ∈ since, (f = false → q = some said.1) ∧ (f = true → again) := fun said hsaid => by
        obtain ⟨v, hv, -, hsame⟩ := hsince said hsaid
        refine ⟨fun hf => ?_, fun hf => ?_⟩
        · rw [(hwaits hf).2, hsame (hwaits hf).1]
          exact hv
        · by_contra hagain
          obtain ⟨-, hs, hnone⟩ := h.lone hagain _ (hup ▸ List.mem_cons_self) rfl
          rw [hunanswered hs hnone] at hf
          cases hf
      have hcomes := brings_catchUp htold hq hle hfrom s.host.wall replica clocks lost
      rw [hbroadcasts.epoch, h.life] at hcomes
      exact h.hears hup htold hbroadcasts hplains hanswer hbrings ⟨true, _, hcomes, fun _ _ => rfl⟩
  · have hnone : turn.session = none := hsession'
    exact h.hears hup htold hbroadcasts (by simp [hnone]) hanswer hbrings ⟨f, q, .closed (.done _ _), by simp [hnone]⟩

/-- The store takes a message off the link. -/
theorem receives (h : Current opts epoch again s) (hn : 1 ≤ opts.deltaLog) (others : List String) {msg : Up}
    (hup : s.up = msg :: up) : Current opts epoch again (s.receive opts others msg up) := by
  have hmeant := h.meant msg (hup ▸ List.mem_cons_self)
  unfold System.receive
  cases hsession : s.session with
  | none =>
    obtain ⟨hon, hmem, hnone⟩ := h.reads hup
    obtain ⟨f, q, hbrings, -⟩ := h.way
    have hsame := h.turns s.host none up [] s.history h.told (.of_same rfl rfl h.quiet) (by simp)
      (fun hl => (hon hl).elim) ⟨f, q, by rwa [List.append_nil], nofun⟩ hmem
      (fun hagain other hother hhello => (hnone hagain other hother hhello).elim)
    simpa [turned] using hsame
  | some session =>
    cases msg with
    | leave as => exact hmeant.elim
    | op as op =>
      obtain ⟨rfl, -⟩ := hmeant
      exact h.takes hn others hup hsession
    | hello replica ops since clocks follower =>
      obtain ⟨rfl, -⟩ := hmeant
      exact h.hailed hn others hup hsession

/-- The client takes a message off the link, and comes on by it. -/
theorem delivers (h : Current opts epoch again s)
    (hrepeat : again → repeatableLog (logged s.host.store.commits) (Saved.docAt sh []) = true) (now : ℤ) {msg : Down}
    {down : List Down} (hdown : s.down = msg :: down) : Current opts epoch again (s.deliver now msg down) := by
  obtain ⟨f, q, hbrings, hq⟩ := h.way
  rw [hdown] at hbrings
  obtain ⟨hstands, hends⟩ := Mirror.handles h.chronicle h.known hrepeat h.stands hbrings now
  unfold System.deliver
  dsimp only
  generalize (s.acked ++ msg.upTo.elim [] fun n => (s.client.outbox.filter (·.seq ≤ n)).map Op.seq) = acked
  generalize s.client.handle msg now = out at hstands hends
  rcases hends with ⟨hoff, hsynced, hsaid⟩ | ⟨hgoes, hbrings, hsame, hsaid⟩
  · rw [if_neg (by rw [hoff]; simp)]
    exact h.cuts hstands hsynced acked
  have hon : out.1.linked = true := by
    rw [hgoes.linked]
    by_contra hoff
    have hnone := (h.off (Bool.eq_false_iff.mpr hoff)).2.2.2
    rw [hdown] at hnone
    cases hnone
  rw [if_pos hon]
  refine ⟨h.told, h.known, h.quiet, h.life, h.plain, fun hoff => ?_, hstands, ⟨f, q, hbrings, hq⟩, fun other hother => ?_,
    fun hagain other hother hhello => ?_⟩
  · rw [show out.1.linked = false from hoff] at hon
    cases hon
  · rcases List.mem_append.mp hother with hother | hother
    · exact hgoes.meant (h.meant other hother)
    · obtain ⟨hsynced, op, rfl⟩ := hsaid other hother
      exact ⟨rfl, hsynced⟩
  · rcases List.mem_append.mp hother with hother | hother
    · obtain ⟨hall, hsynced, hnone⟩ := h.lone hagain other hother hhello
      rw [hdown] at hnone
      have hstill : out.1.synced = false := (hsame (hnone msg List.mem_cons_self)).trans hsynced
      refine ⟨?_, hstill, fun other hother => hnone other (List.mem_cons_of_mem _ hother)⟩
      have hsilent : out.2 = [] := by
        apply List.eq_nil_iff_forall_not_mem.mpr
        intro said hmem
        have hyes := (hsaid said hmem).1
        rw [hstill] at hyes
        cases hyes
      change s.up ++ out.2 = [other]
      rw [hsilent, List.append_nil, hall]
    · obtain ⟨-, op, rfl⟩ := hsaid other hother
      cases hhello

/-- What others do at the store is told a client that follows. -/
theorem hosts (h : Current opts epoch again s) (hn : 1 ≤ opts.deltaLog) {e : HostEvent U} {host : Host sh}
    (hspares : e.spares s.client.replica = true) (hown : ∀ w, e = .own w → w.makesNothing s.host.store.doc = true)
    (hs : s.host.step opts e = some host) : Current opts epoch again (s.hear host) := by
  have hlasts := HostEvent.lasts_of_spares hspares
  have hbroadcasts : s.host.store.Broadcasts host.store.flushEffects.1 host.store.effects :=
    .of_enters (Host.enters hlasts hs) h.quiet
  have htold : host.store.flushEffects.1.Told opts False := by
    refine idle [] host.store.buckets ((keeps_told hn False).step hown (fun _ _ _ => ?_) hs h.told)
    exact False.elim
  have hnone : ∀ msg ∈ if s.session.any Session.follows then host.store.flushEffects.2 else [], msg.answers = none := by
    intro msg hmsg
    split_ifs at hmsg
    · obtain ⟨entry, -, rfl⟩ := List.mem_map.mp hmsg
      rfl
    · cases hmsg
  apply h.turns { host with store := host.store.flushEffects.1 } s.session s.up _ s.history htold hbroadcasts h.plain
  · intro hoff
    obtain ⟨-, hsession, hup, -⟩ := h.off hoff
    exact ⟨hsession, hup, by rw [hsession]; rfl⟩
  · cases hsession : s.session with
    | none =>
      obtain ⟨f, q, hbrings, -⟩ := h.way
      obtain ⟨new, hcommits, -⟩ := hbroadcasts.more
      have hmore := hbrings.more new
      rw [← hcommits] at hmore
      exact ⟨f, q, by simpa using hmore, nofun⟩
    | some session =>
      obtain ⟨f, q, hbrings, hq, -⟩ := h.way_told (by rw [hsession]; rfl) htold hbroadcasts (.patches _)
      refine ⟨f, q, ?_, fun _ => hq⟩
      rw [Option.any_some, (h.plain session hsession).follows, if_pos rfl]
      exact hbrings
  · exact fun _ hmsg => hmsg
  · exact fun _ _ _ _ => ⟨rfl, hnone⟩

/-- The link is up: a session is opened for it, and the client says hello. -/
theorem opens (h : Current opts epoch again s) (user : Option U) (writes : Bool) :
    Current opts epoch again (act s.client.onOpen { s.cut with
      session := some (.create user false writes)
      host := { s.host with store := s.host.store.commitNow } }) := by
  let opened : Mirror sh := { s.client with linked := true, synced := false }
  have hcut : Current opts epoch again { s.cut with client := opened } :=
    h.cuts (c := opened) (h.stands.same rfl rfl (by simp [opened])) rfl s.acked
  have hopened := hcut.turns { s.host with store := s.host.store.commitNow } (some (.create user false writes)) [] []
    s.history h.told.commitNow (.of_same rfl Store.commits_commitNow h.quiet)
    (fun t ht => by cases ht; exact ⟨rfl, rfl⟩) (fun hoff => by cases hoff) ⟨_, _, .done _ _, by simp [opened]⟩ (by simp)
    (by simp)
  have hlone : Lone (({ s.cut with client := opened } : System sh U).turned
      { s.host with store := s.host.store.commitNow } (some (.create user false writes)) [] [] s.history) :=
    ⟨rfl, by simp [turned], by simp [turned, cut]⟩
  exact hopened.hails (c := opened) rfl rfl rfl rfl rfl (.inr hlone)

/-- One event: the client goes on standing where it says. -/
theorem step (h : Current opts epoch again s) (hn : 1 ≤ opts.deltaLog) {e : Event U} (hsteady : Steady again e s)
    (hs : s.step opts e = some s') : Current opts epoch again s' := by
  obtain ⟨hrepeat, hsteady⟩ := hsteady
  cases e with
  | edit changes now =>
    simp only [System.step, Option.ite_none_left_eq_some, Option.some.injEq] at hs
    obtain ⟨-, rfl⟩ := hs
    apply h.acts (s.client.edit changes now).1 (s.client.edit changes now).2 rfl rfl rfl rfl
    · intro hoff
      have hlive : s.client.live = false := by
        rw [Mirror.live, show s.client.linked = false from hoff]
        rfl
      simp [Mirror.edit, hlive]
    · intro msg hmsg
      simp only [Mirror.edit] at hmsg
      split_ifs at hmsg with hlive
      · obtain rfl := List.mem_singleton.mp hmsg
        simp only [Mirror.live, Bool.and_eq_true] at hlive
        exact ⟨rfl, hlive.1.2⟩
      · cases hmsg
    · intro msg hmsg hhello
      simp only [Mirror.edit] at hmsg
      split_ifs at hmsg
      · obtain rfl := List.mem_singleton.mp hmsg
        cases hhello
      · cases hmsg
  | retry =>
    simp only [System.step, Option.ite_none_right_eq_some, Option.some.injEq] at hs
    obtain ⟨-, rfl⟩ := hs
    unfold Mirror.retry
    dsimp only
    split_ifs with hon
    · exact h.hails (c := { s.client with retrying := false }) rfl rfl rfl rfl hon (hsteady hon)
    · exact h.acts _ [] rfl rfl rfl rfl (fun _ => rfl) (by simp) (by simp)
  | wantPresence =>
    obtain rfl := Option.some.inj hs
    unfold Mirror.wantPresence
    split_ifs with hon
    · have hon := (Bool.and_eq_true_iff.mp hon).1
      exact h.hails rfl rfl rfl rfl hon (hsteady hon)
    · exact h.acts _ [] rfl rfl rfl rfl (fun _ => rfl) (by simp) (by simp)
  | opens user writes =>
    simp only [System.step, Option.ite_none_left_eq_some, Option.some.injEq] at hs
    obtain ⟨-, rfl⟩ := hs
    exact h.opens user writes
  | closes =>
    simp only [System.step, Option.ite_none_right_eq_some, Option.some.injEq] at hs
    obtain ⟨-, rfl⟩ := hs
    exact h.cuts (c := s.client.onClose) (h.stands.same rfl rfl (by simp [Mirror.onClose])) rfl s.acked
  | hangsUp =>
    obtain rfl := Option.some.inj hs
    obtain ⟨f, q, hbrings, -⟩ := h.way
    have hsame := h.turns s.host none s.up [] s.history h.told (.of_same rfl rfl h.quiet) (by simp)
      (fun hoff => ⟨rfl, (h.off hoff).2.2.1, rfl⟩) ⟨f, q, by rwa [List.append_nil], by simp⟩ (fun _ hmsg => hmsg)
      (fun _ _ _ _ => ⟨rfl, by simp⟩)
    simpa [turned] using hsame
  | receive others =>
    simp only [System.step] at hs
    split at hs
    · cases hs
    · next msg up hup =>
      obtain rfl := Option.some.inj hs
      exact h.receives hn others hup
  | deliver now =>
    simp only [System.step] at hs
    split at hs
    · cases hs
    · next msg down hdown =>
      obtain rfl := Option.some.inj hs
      exact h.delivers hrepeat now hdown
  | lose i => exact hsteady.elim
  | host e =>
    simp only [System.step, Option.ite_none_right_eq_some, Option.map_eq_some_iff] at hs
    obtain ⟨hspares, host, hhost, rfl⟩ := hs
    refine h.hosts hn hspares (fun w hw => ?_) hhost
    subst hw
    exact hsteady

/-- With nothing on the way a synced client has what the store holds. -/
theorem settled (h : Current opts epoch again s) (hsynced : s.client.synced = true) (hsession : s.session.isSome = true)
    (hdown : s.down = []) :
    s.client.known.v = s.host.store.version ∧ s.client.base.Equals s.host.store.doc := by
  obtain ⟨f, q, hbrings, hq⟩ := h.way
  rw [hdown, hsynced, Mirror.heard_of_synced h.stands hsynced] at hbrings
  cases hbrings with
  | done =>
    have hv : s.client.known.v = s.host.store.version := Option.some.inj (hq hsession rfl)
    have hstood := (h.stands.stood _ (h.stands.synced hsynced)).2
    refine ⟨hv, fun key => ?_⟩
    rw [hv, ← h.told.tells.version] at hstood
    rw [hstood.equals h.chronicle key]
    refine Doc.Equals.of_shows (Doc.shows_iff.mpr fun k => ?_) key
    simp [Doc.get, h.told.tells.records k]

end Current

end System

end LazyStorage.Client
