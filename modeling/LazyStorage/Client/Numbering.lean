import LazyStorage.Client.Lifetime
import LazyStorage.Client.Acknowledged
import Mathlib.Data.List.Induction

/-! # How a client numbers its ops

A client counts its ops on from what its storage kept. The store takes an op for
one it has when its number is not above the last of its replica, so what was
kept must not be behind what was sent: an answer that says how far the store has
got does not move the count.
-/
namespace LazyStorage.Server

open Lib LazyStorage.Core

variable {sh : Shape} {U : Type} {opts : Options sh U} {st : Store sh} {r : String} {m : ℕ}

/-- A store that has a replica's ops up to a number at most, and nothing to store beyond it. -/
structure Store.UpTo (r : String) (m : ℕ) (st : Store sh) : Prop where
  known : ∀ e, st.replicas.get r = some e → e.seq ≤ m
  stored : ∀ c ∈ st.commits, ∀ e, c.replica = some (r, e) → e.seq ≤ m

namespace Store.UpTo

theorem seqOf (h : st.UpTo r m) : st.seqOf r ≤ m := by
  unfold Store.seqOf
  cases hr : st.replicas.get r with
  | none => simp
  | some e => simpa using h.known e hr

theorem of_same {st' : Store sh} (h : st.UpTo r m) (hreplicas : st'.replicas = st.replicas)
    (hcommits : st'.commits = st.commits) : st'.UpTo r m :=
  ⟨fun e he => h.known e (hreplicas ▸ he), fun c hc => h.stored c (hcommits ▸ hc)⟩

theorem commit (h : st.UpTo r m) {c : Commit} (hc : ∀ e, c.replica = some (r, e) → e.seq ≤ m) :
    (Store.commit opts c st).UpTo r m := by
  refine ⟨fun e he => h.known e (by rwa [replicas_commit] at he), fun c' hc' e he => ?_⟩
  rw [commits_commit] at hc'
  rcases List.mem_append.mp hc' with hc' | hc'
  · exact h.stored c' hc' e he
  · rw [List.mem_singleton.mp hc'] at he
    exact hc e he

theorem rememberReplica {id : String} {entry : Replica} (h : st.UpTo r m)
    (hentry : id = r → entry.seq ≤ m) (live : List String) :
    (st.rememberReplica opts live id entry).UpTo r m := by
  refine ⟨fun e he => ?_, ?_⟩
  · rcases of_rememberReplica he with ⟨rfl, rfl⟩ | he
    · exact hentry rfl
    · exact h.known e he
  · have hset : (st.setReplica id entry).UpTo r m := by
      refine ⟨fun e he => ?_, h.stored⟩
      simp only [Store.setReplica, OrderedMap.get_set] at he
      split_ifs at he with hid
      · exact Option.some.inj he ▸ hentry hid
      · exact h.known e he
    unfold Store.rememberReplica
    dsimp only
    split_ifs
    · exact hset.stored
    · rw [commits_commit]
      intro c hc e he
      rcases List.mem_append.mp hc with hc | hc
      · exact h.stored c hc e he
      · rw [List.mem_singleton.mp hc] at he
        cases he

theorem landed {applied : List Change} {ts : ℕ} {replica : Option (String × Replica)}
    {op : Option (String × ℕ)} (h : st.UpTo r m) (hreplica : ∀ e, replica = some (r, e) → e.seq ≤ m) :
    (st.landed opts applied ts replica op).UpTo r m := by
  unfold Store.landed
  dsimp only
  split_ifs
  · cases replica with
    | none => exact h
    | some _ => exact h.commit hreplica
  · refine UpTo.commit ?_ ?_
    · exact h.of_same rfl rfl
    · exact hreplica
  · refine UpTo.commit ?_ ?_
    · exact h.of_same rfl rfl
    · exact hreplica

theorem quiet {st' : Store sh} (h : st.UpTo r m) (hq : Quiet st st') : st'.UpTo r m :=
  h.of_same hq.replicas hq.commits

/-- A commit that sets no replica. -/
theorem records {st' : Store sh} {forget : List String} {op : Option (String × ℕ)} (h : st.UpTo r m)
    (hrec : Records none forget op st st') : st'.UpTo r m := by
  refine ⟨fun e he => ?_, fun c' hc' e he => ?_⟩
  · rw [hrec.replicas, recalled] at he
    split_ifs at he
    exact h.known e he
  · obtain ⟨c, hcommits, hnone, -, -⟩ := hrec.commits
    rw [hcommits] at hc'
    rcases List.mem_append.mp hc' with hc' | hc'
    · exact h.stored c' hc' e he
    · rw [List.mem_singleton.mp hc', hnone] at he
      cases he

theorem compact (h : st.UpTo r m) (now : ℕ) : (st.compact opts now).UpTo r m := by
  rcases @compact_cases sh U opts st now with hq | ⟨retention, -, hrec⟩
  · exact h.quiet hq
  · exact h.records hrec

theorem own {now : ℕ} {w : OwnWrite} {out : Store sh × List Change} (h : st.UpTo r m)
    (hown : st.own opts now w = .ok out) : out.1.UpTo r m := by
  rcases own_cases hown with hq | hrec
  · exact h.quiet hq
  · exact h.records hrec

/-- A replica that is remembered after some commits was set by one of them. -/
theorem of_ofCommits {commits : List Commit} {e : Replica}
    (h : (Saved.ofCommits commits).replicas.get r = some e) :
    ∃ c ∈ commits, c.replica = some (r, e) := by
  induction commits using List.reverseRecOn with
  | nil => simp [Saved.ofCommits, Saved.empty] at h
  | append_singleton commits c ih =>
    rw [Saved.ofCommits_append, Saved.commit_replicas] at h
    unfold recalled at h
    split_ifs at h
    cases hc : c.replica with
    | none =>
      rw [hc] at h
      obtain ⟨c', hmem, hc'⟩ := ih h
      exact ⟨c', by simp [hmem], hc'⟩
    | some set =>
      rw [hc] at h
      dsimp only at h
      split_ifs at h with hid
      · exact ⟨c, by simp, by rw [hc, ← hid, ← Option.some.inj h]⟩
      · obtain ⟨c', hmem, hc'⟩ := ih h
        exact ⟨c', by simp [hmem], hc'⟩

theorem load (h : st.UpTo r m) (known : ℕ) (epoch : String) (now : ℕ) :
    (Store.load opts known epoch now st.stored).UpTo r m := by
  have hrestored : (Store.restored opts known epoch st.stored).UpTo r m := by
    refine ⟨fun e he => ?_, fun c hc e he => ?_⟩
    · obtain ⟨c, hc, hset⟩ := of_ofCommits he
      exact h.stored c (List.mem_append_left _ hc) e hset
    · exact h.stored c (List.mem_append_left _ (by simpa [commits, restored] using hc)) e he
  have hcompacted : ∀ st' : Store sh, st'.UpTo r m → (st'.compact opts now).commitNow.UpTo r m :=
    fun st' h' => (h'.compact now).of_same rfl (commits_commitNow)
  unfold Store.load
  dsimp only
  apply hcompacted
  split_ifs
  · exact hrestored.commit (by simp [Store.nothing])
  · exact hrestored

/-- A judged op takes its replica to its number. -/
theorem judged {mid : Store sh} {live : List String} {now : ℕ} {op : Op} {speaker : Speaker U}
    {lost : List Lost} (h : st.UpTo r m) (hop : op.replica = r → op.seq ≤ m)
    (hjudged : st.judged opts live now op speaker = .ok (mid, lost)) : mid.UpTo r m := by
  unfold Store.judged at hjudged
  dsimp only at hjudged
  split at hjudged
  · cases hjudged
  · obtain ⟨rfl, -⟩ := Prod.mk.inj (Except.ok.inj hjudged)
    refine UpTo.landed (UpTo.rememberReplica ?_ hop live) fun e he => ?_
    · exact h.of_same rfl rfl
    · obtain ⟨rfl, rfl⟩ := Prod.mk.inj (Option.some.inj he)
      exact hop rfl

theorem taken (h : st.UpTo r m) (live : List String) (now : ℕ) (user : Option U)
    (replica : String) : (st.takeReplica opts live now user replica).UpTo r m := by
  have hentry : ∀ key, replica = r → (st.entryTaken now key replica).seq ≤ m := by
    rintro key rfl
    exact h.seqOf
  unfold takeReplica
  split
  · next key _ _ =>
    refine UpTo.commit (h.rememberReplica (hentry key) live) fun e he => ?_
    obtain ⟨rfl, rfl⟩ := Prod.mk.inj (Option.some.inj he)
    exact hentry key rfl
  · exact h

end Store.UpTo

/-- Whatever a store does, it has a replica's ops up to the highest that came at most. -/
theorem keeps_upTo (opts : Options sh U) (r : String) (m : ℕ) :
    KeepsFor opts (fun op => op.replica = r → op.seq ≤ m) (fun _ _ => True) (fun _ _ => True)
      (Store.UpTo r m) where
  judged hop h _ hjudged := h.judged hop hjudged
  forbidden h _ := h.of_same rfl rfl
  taken live now user replica h := h.taken live now user replica
  own h _ hown := h.own hown
  compact now h := h.compact now
  flush h := h.of_same rfl Store.commits_commitNow
  migrated h _ hout := Store.migrateOne_keeps (fun _ h => h.of_same rfl rfl)
    (fun _ h => h.commit (by simp [Store.nothing])) (fun _ _ _ h hown => h.own hown)
    (fun _ h => h.of_same rfl Store.commits_commitNow) h hout
  load known epoch now h := h.load known epoch now

theorem upTo_idle {st : Store sh} (effects : List LogEntry) (buckets : OrderedMap String Bucket)
    (h : st.UpTo r m) : ({ st with effects, buckets } : Store sh).UpTo r m := h.of_same rfl rfl

end LazyStorage.Server

namespace LazyStorage.Client

open Lib LazyStorage.Core LazyStorage.Server

variable {sh : Shape} {U : Type}

/-- The ops of some messages. -/
def opsOf (msgs : List Up) : List Op := msgs.flatMap Up.ops

/-- Where a client has counted to by what was kept of it: another replica's count is no use. -/
def Kept.count (replica : String) (saved : Kept) : ℕ :=
  if saved.replica = replica then saved.seq else 0

namespace System

/-- What the client says as it takes the next messages off the link. -/
def uttersNext (now : ℤ) : ℕ → System sh U → List Up
  | 0, _ => []
  | n + 1, s =>
    match s.down with
    | [] => []
    | msg :: down => (s.client.handle msg now).2 ++ (s.deliver now msg down).uttersNext now n

/-- What the client says in an event. -/
def utters (e : Event U) (s : System sh U) : List Up :=
  match e with
  | .edit changes now => (s.client.edit changes now).2
  | .retry => s.client.retry.2
  | .wantPresence => s.client.wantPresence.2
  | .opens _ _ => s.client.onOpen.2
  | .deliver now => s.uttersNext now 1
  | _ => []

end System

namespace Life

/-- The link with a fetched snapshot in the place of the message that pointed to it. -/
def landing (held : ℕ) (body : Fetched) (seq serverNow : ℕ) (lost : List (ℕ × List Lost))
    (down : List Down) (s : System sh U) : System sh U :=
  { s with down := .snapshot body.records seq body.v body.epoch serverNow lost ::
    ((down.take held).filter fun msg => !inFetched body.v msg) ++ down.drop held }

/-- What the client says in an event. -/
def utters (e : LifeEvent U) (s : Life sh U) : List Up :=
  match e with
  | .link e => s.system.utters e
  | .landed held now =>
    match s.fetched, s.system.down with
    | some body, .snapshot _ seq _ _ serverNow lost :: down =>
      (landing held body seq serverNow lost down s.system).uttersNext now
        (((down.take held).filter fun msg => !inFetched body.v msg).length + 1)
    | _, _ => []
  | .failed held now =>
    match s.system.down with
    | .snapshot _ _ _ _ _ _ :: down =>
      let system := { s.system with down }
      system.uttersNext now held ++ (system.deliverNext now held).client.hello.2
    | _ => []
  | _ => []

/-- How far the store has got, by the answers the client takes off the link in an event. -/
def hears (e : LifeEvent U) (s : Life sh U) : List ℕ :=
  match e with
  | .link (.deliver _) => (s.system.down.take 1).filterMap Down.answers
  | .landed held _ => (s.system.down.take (held + 1)).filterMap Down.answers
  | .failed held _ => ((s.system.down.drop 1).take held).filterMap Down.answers
  | _ => []

end Life

/-- A client and its store, with every op of its own the client ever put on a link, and every
answer it heard: nothing reads them. What was put on a link may still get to the store once the
link is lost. -/
structure Numbered (sh : Shape) (U : Type) where
  life : Life sh U
  sent : List Op
  heard : List ℕ

namespace Numbered

variable (opts : Options sh U)

def start (host : Host sh) (replica : String) (wantsClocks : Bool) : Numbered sh U :=
  ⟨Life.start host replica wantsClocks, [], []⟩

/-- Whether an op that comes to the store is another replica's, or one the client sent. -/
def owned (e : LifeEvent U) (s : Numbered sh U) : Bool :=
  match e with
  | .host _ (.deliver op _ _) => op.replica ≠ s.life.system.client.replica || op ∈ s.sent
  | _ => true

def step (e : LifeEvent U) (s : Numbered sh U) : Option (Numbered sh U) :=
  if s.owned e then
    (s.life.step opts e).map fun life =>
      ⟨life, s.sent ++ opsOf (s.life.utters e), s.heard ++ s.life.hears e⟩
  else none

/-- What a client is built on counts as far as every op it sent, and every op kept with it. -/
def Restores (e : LifeEvent U) (s : Numbered sh U) : Prop :=
  match e with
  | .build _ saved =>
    (∀ op ∈ s.sent, op.seq ≤ saved.count s.life.system.client.replica) ∧
      (saved.replica = s.life.system.client.replica → ∀ op ∈ saved.ops, op.seq ≤ saved.seq)
  | _ => True

end Numbered

/-- A message that is no other replica's hello. -/
def Hails (replica : String) (msg : Up) : Prop :=
  ∀ r ops since clocks follower, msg = .hello r ops since clocks follower → r = replica

/-- What the client does next, its count at `n` at least: all it has pending and all it says is
numbered within its count. -/
structure Within (replica : String) (n : ℕ) (out : Mirror sh × List Up) : Prop where
  who : out.1.replica = replica
  seq : n ≤ out.1.seq
  pending : ∀ op ∈ out.1.outbox, op.seq ≤ out.1.seq
  said : ∀ msg ∈ out.2, Hails replica msg ∧ ∀ op ∈ msg.ops, op.seq ≤ out.1.seq

namespace Mirror

variable {c : Mirror sh}

theorem within_quiet {c' : Mirror sh} (h : ∀ op ∈ c.outbox, op.seq ≤ c.seq)
    (hreplica : c'.replica = c.replica) (hseq : c'.seq = c.seq)
    (houtbox : ∀ op ∈ c'.outbox, op ∈ c.outbox) : Within c.replica c.seq (c', []) :=
  ⟨hreplica, hseq.ge, fun op hop => hseq ▸ h op (houtbox op hop), by simp⟩

theorem within_hello (h : ∀ op ∈ c.outbox, op.seq ≤ c.seq) : Within c.replica c.seq c.hello := by
  refine ⟨rfl, le_rfl, h, fun msg hmsg => ?_⟩
  obtain rfl := List.mem_singleton.mp hmsg
  refine ⟨fun r ops since clocks follower heq => ?_, fun op hop => ?_⟩
  · cases heq
    rfl
  · exact h op (List.mem_of_mem_take hop)

theorem within_edit (h : ∀ op ∈ c.outbox, op.seq ≤ c.seq) (changes : List Change) (now : ℤ) :
    Within c.replica c.seq (c.edit changes now) := by
  refine ⟨rfl, Nat.le_succ _, fun op hop => ?_, fun msg hmsg => ?_⟩
  · rcases List.mem_append.mp hop with hop | hop
    · have hmem := (supersede_from changes c.outbox).1.subset (List.mem_map_of_mem hop)
      obtain ⟨older, holder, hseq⟩ := List.mem_map.mp hmem
      exact hseq ▸ (h older holder).trans (Nat.le_succ _)
    · rw [List.mem_singleton.mp hop]
      exact le_rfl
  · simp only [edit] at hmsg
    split_ifs at hmsg
    · obtain rfl := List.mem_singleton.mp hmsg
      refine ⟨fun _ _ _ _ _ heq => (by cases heq), fun op hop => ?_⟩
      rw [List.mem_singleton.mp hop]
      exact le_rfl
    · cases hmsg

theorem within_retry (h : ∀ op ∈ c.outbox, op.seq ≤ c.seq) : Within c.replica c.seq c.retry := by
  unfold retry
  dsimp only
  split_ifs
  · exact @within_hello _ { c with retrying := false } h
  · exact within_quiet h rfl rfl fun _ hop => hop

theorem within_wantPresence (h : ∀ op ∈ c.outbox, op.seq ≤ c.seq) :
    Within c.replica c.seq c.wantPresence := by
  unfold wantPresence
  split_ifs
  · exact within_hello h
  · exact within_quiet h rfl rfl fun _ hop => hop

theorem within_onOpen (h : ∀ op ∈ c.outbox, op.seq ≤ c.seq) : Within c.replica c.seq c.onOpen :=
  @within_hello _ { c with linked := true, synced := false } h

/-- An answer landed: what is pending past it goes out, and the count stays. -/
theorem within_caughtUp (h : ∀ op ∈ c.outbox, op.seq ≤ c.seq) {seq v serverNow : ℕ} {epoch : String}
    {now : ℤ} {applyToBase : Mirror sh → Mirror sh} (happly : ∀ c, System.SameOps c (applyToBase c)) :
    Within c.replica c.seq (c.caughtUp seq v epoch serverNow now applyToBase) := by
  have hsame := happly (acknowledge seq { c with clock := c.clock.adopt serverNow now })
  have hpending : ∀ op ∈ (c.caughtUp seq v epoch serverNow now applyToBase).1.outbox,
      op.seq ≤ c.seq := by
    intro op hop
    have hop' : op ∈ (applyToBase (acknowledge seq
      { c with clock := c.clock.adopt serverNow now })).outbox := hop
    rw [hsame.outbox] at hop'
    exact h op (List.mem_of_mem_filter hop')
  have hseq : (c.caughtUp seq v epoch serverNow now applyToBase).1.seq = c.seq := hsame.seq
  refine ⟨hsame.replica, hseq.ge, fun op hop => hseq ▸ hpending op hop, fun msg hmsg => ?_⟩
  have hlive : ∃ op ∈ (c.caughtUp seq v epoch serverNow now applyToBase).1.outbox,
      .op none op = msg := by
    simp only [caughtUp] at hmsg
    split_ifs at hmsg
    · obtain ⟨op, hop, hmsg⟩ := List.mem_map.mp hmsg
      exact ⟨op, List.mem_of_mem_filter hop, hmsg⟩
    · cases hmsg
  obtain ⟨op, hop, rfl⟩ := hlive
  refine ⟨fun _ _ _ _ _ heq => (nomatch heq), fun op' hop' => ?_⟩
  rw [List.mem_singleton.mp hop', hseq]
  exact hpending op hop

/-- Whatever the store says, the client's count stays where it is. -/
theorem within_handle (h : ∀ op ∈ c.outbox, op.seq ≤ c.seq) (msg : Down) (now : ℤ) :
    Within c.replica c.seq (c.handle msg now) := by
  cases msg with
  | snapshot records seq v epoch serverNow lost =>
    exact within_caughtUp h fun c => ⟨rfl, rfl, rfl, rfl, rfl, rfl⟩
  | delta ops seq v epoch serverNow lost => exact within_caughtUp h (System.sameOps_entries ops)
  | patch changes v ts =>
    simp only [handle]
    split_ifs
    · exact within_quiet h rfl rfl fun _ hop => hop
    · exact @within_hello _ { c with synced := false } h
    · exact within_quiet h rfl rfl fun _ hop => hop
  | ack as replica seq v serverNow lost =>
    exact within_quiet h rfl rfl fun _ hop => List.mem_of_mem_filter hop
  | error as replica seq refusal =>
    simp only [handle]
    split_ifs
    · exact within_quiet h rfl rfl fun _ hop => hop
    · cases seq with
      | none => exact within_quiet h rfl rfl fun _ hop => hop
      | some seq => exact within_quiet h rfl rfl fun _ hop => List.mem_of_mem_eraseP hop
  | closed code message =>
    simp only [handle]
    split_ifs
    · exact within_quiet h rfl rfl fun _ hop => hop
    · exact within_quiet h rfl rfl fun _ hop => hop
  | revoked as code message => exact within_quiet h rfl rfl fun _ hop => hop

end Mirror

theorem opsOf_append (msgs more : List Up) : opsOf (msgs ++ more) = opsOf msgs ++ opsOf more :=
  List.flatMap_append

namespace System

/-- The client counts past all it sent, the store has no more than that, and the answers on the way
say no more. -/
structure Counted (replica : String) (sent : List Op) (s : System sh U) : Prop where
  who : s.client.replica = replica
  pending : ∀ op ∈ s.client.outbox, op.seq ≤ s.client.seq
  counted : ∀ op ∈ sent, op.seq ≤ s.client.seq
  up : ∀ msg ∈ s.up, Hails replica msg ∧ ∀ op ∈ msg.ops, op ∈ sent
  store : ∀ m, (∀ op ∈ sent, op.seq ≤ m) → s.host.store.UpTo replica m
  down : ∀ m, (∀ op ∈ sent, op.seq ≤ m) → ∀ msg ∈ s.down, ∀ n, msg.answers = some n → n ≤ m

namespace Counted

variable {opts : Options sh U} {replica : String} {sent : List Op} {s : System sh U}

theorem act (h : s.Counted replica sent) {out : Mirror sh × List Up}
    (hout : Within replica s.client.seq out) : (s.act out).Counted replica (sent ++ opsOf out.2) := by
  have hsent : ∀ m, (∀ op ∈ sent ++ opsOf out.2, op.seq ≤ m) → ∀ op ∈ sent, op.seq ≤ m :=
    fun m hm op hop => hm op (List.mem_append_left _ hop)
  refine ⟨hout.who, hout.pending, fun op hop => ?_, fun msg hmsg => ?_,
    fun m hm => h.store m (hsent m hm), fun m hm => h.down m (hsent m hm)⟩
  · rcases List.mem_append.mp hop with hop | hop
    · exact (h.counted op hop).trans hout.seq
    · obtain ⟨msg, hmsg, hop⟩ := List.mem_flatMap.mp hop
      exact (hout.said msg hmsg).2 op hop
  · rcases List.mem_append.mp hmsg with hmsg | hmsg
    · exact (h.up msg hmsg).imp_right fun hops op hop => List.mem_append_left _ (hops op hop)
    · exact ⟨(hout.said msg hmsg).1, fun op hop =>
        List.mem_append_right _ (List.mem_flatMap.mpr ⟨msg, hmsg, hop⟩)⟩

theorem cut (h : s.Counted replica sent) : s.cut.Counted replica sent :=
  { h with up := by simp [System.cut], down := by simp [System.cut] }

/-- The same answers, or fewer, on the way. -/
theorem awaits (h : s.Counted replica sent) {down : List Down}
    (hdown : ∀ msg ∈ down, ∃ old ∈ s.down, old.answers = msg.answers) :
    ({ s with down } : System sh U).Counted replica sent :=
  { h with
    down := fun m hm msg hmsg n hn => by
      obtain ⟨old, hold, heq⟩ := hdown msg hmsg
      exact h.down m hm old hold n (heq.trans hn) }

theorem deliver (h : s.Counted replica sent) (now : ℤ) (msg : Down) (down : List Down)
    (hdown : ∀ x ∈ down, x ∈ s.down) :
    (s.deliver now msg down).Counted replica (sent ++ opsOf (s.client.handle msg now).2) := by
  have hhandle : Within replica s.client.seq (s.client.handle msg now) :=
    h.who ▸ Mirror.within_handle h.pending msg now
  have hrest : ∀ acked, ({ s with down, acked } : System sh U).Counted replica sent := by
    intro acked
    have hawaits := h.awaits fun x hx => ⟨x, hdown x hx, rfl⟩
    exact { hawaits with }
  have hacts := fun acked => (hrest acked).act hhandle
  unfold System.deliver
  dsimp only
  split_ifs
  · exact hacts _
  · exact (hacts _).cut

theorem deliverNext (h : s.Counted replica sent) (now : ℤ) (n : ℕ) :
    (s.deliverNext now n).Counted replica (sent ++ opsOf (s.uttersNext now n)) := by
  induction n generalizing s sent with
  | zero => simpa [System.deliverNext, uttersNext, opsOf] using h
  | succ n ih =>
    cases hdown : s.down with
    | nil => simpa [System.deliverNext, uttersNext, hdown, opsOf] using h
    | cons msg down =>
      simp only [System.deliverNext, uttersNext, hdown]
      rw [opsOf_append, ← List.append_assoc]
      exact ih (h.deliver now msg down fun x hx => hdown ▸ List.mem_cons_of_mem msg hx)

theorem stored (h : s.Counted replica sent) (host : Host sh)
    (hhost : ∀ m, (∀ op ∈ sent, op.seq ≤ m) → host.store.UpTo replica m) :
    ({ s with host } : System sh U).Counted replica sent := { h with store := hhost }

theorem hear (h : s.Counted replica sent) {host : Host sh}
    (hhost : ∀ m, (∀ op ∈ sent, op.seq ≤ m) → host.store.UpTo replica m) :
    (s.hear host).Counted replica sent where
  who := h.who
  pending := h.pending
  counted := h.counted
  up := h.up
  store m hm := upTo_idle [] _ (hhost m hm)
  down m hm msg hmsg n hn := by
    rcases List.mem_append.mp hmsg with hmsg | hmsg
    · exact h.down m hm msg hmsg n hn
    · have hplain := said_patches (Q := fun msg => msg.answers = none) (fun _ h => h) _ _ msg hmsg
      rw [hplain] at hn
      cases hn

theorem receive (h : s.Counted replica sent) (others : List String) {msg : Up} {up : List Up}
    (hup : s.up = msg :: up) : (s.receive opts others msg up).Counted replica sent := by
  have hfirst := h.up msg (by simp [hup])
  have hrest : ∀ x ∈ up, Hails replica x ∧ ∀ op ∈ x.ops, op ∈ sent :=
    fun x hx => h.up x (by simp [hup, hx])
  unfold System.receive
  split
  · exact { h with up := hrest }
  · next session _ =>
    have hstore : ∀ m, (∀ op ∈ sent, op.seq ≤ m) →
        (session.receive opts others s.host.wall msg s.host.store).store.UpTo replica m :=
      fun m hm => (keeps_upTo opts replica m).receive upTo_idle msg session
        (fun op hop _ => hm op (hfirst.2 op hop)) (h.store m hm)
    refine ⟨h.who, h.pending, h.counted, hrest, hstore, fun m hm said hsaid n hn => ?_⟩
    rcases List.mem_append.mp hsaid with hsaid | hsaid
    · exact h.down m hm said hsaid n hn
    · revert n
      refine said_receive (Q := fun said => ∀ n, said.answers = some n → n ≤ m) ?_ msg session ?_
        said hsaid
      · intro said hnone n hn
        rw [hnone] at hn
        cases hn
      · intro r ops since clocks follower hmsg lost n hn
        obtain rfl := hfirst.1 r ops since clocks follower hmsg
        have hanswers : ((session.receive opts others s.host.wall msg s.host.store).store.catchUp
            s.host.wall r clocks since lost).answers =
            some ((session.receive opts others s.host.wall msg s.host.store).store.seqOf r) := by
          unfold Store.catchUp
          dsimp only
          split <;> rfl
        rw [hanswers] at hn
        exact Option.some.inj hn ▸ (hstore m hm).seqOf

theorem step {e : Event U} {s' : System sh U} (h : s.Counted replica sent)
    (hs : s.step opts e = some s') : s'.Counted replica (sent ++ opsOf (s.utters e)) := by
  have hnothing : sent ++ opsOf [] = sent := List.append_nil sent
  cases e with
  | edit changes now =>
    obtain ⟨-, hs⟩ := Option.ite_none_left_eq_some.mp hs
    exact Option.some.inj hs ▸ h.act (h.who ▸ Mirror.within_edit h.pending changes now)
  | retry =>
    obtain ⟨-, hs⟩ := Option.ite_none_right_eq_some.mp hs
    exact Option.some.inj hs ▸ h.act (h.who ▸ Mirror.within_retry h.pending)
  | wantPresence =>
    exact Option.some.inj hs ▸ h.act (h.who ▸ Mirror.within_wantPresence h.pending)
  | opens user writes =>
    obtain ⟨-, hs⟩ := Option.ite_none_left_eq_some.mp hs
    have hcut : ∀ session, ({ s.cut with session, host := { s.host with store :=
        s.host.store.commitNow } } : System sh U).Counted replica sent := by
      intro session
      have hstored := h.cut.stored { s.host with store := s.host.store.commitNow }
        fun m hm => (keeps_upTo opts replica m).flush (h.store m hm)
      exact { hstored with }
    exact Option.some.inj hs ▸ (hcut _).act (h.who ▸ Mirror.within_onOpen h.pending)
  | closes =>
    obtain ⟨-, hs⟩ := Option.ite_none_right_eq_some.mp hs
    have hcut := h.cut
    have hclosed : ({ s.cut with client := s.client.onClose } : System sh U).Counted replica sent :=
      { hcut with }
    exact Option.some.inj hs ▸ hnothing.symm ▸ hclosed
  | hangsUp => exact Option.some.inj hs ▸ hnothing.symm ▸ { h with }
  | receive others =>
    simp only [System.step] at hs
    split at hs
    · cases hs
    · next msg up hup => exact Option.some.inj hs ▸ hnothing.symm ▸ h.receive others hup
  | deliver now =>
    simp only [System.step] at hs
    split at hs
    · cases hs
    · next msg down hdown =>
      have hnext := h.deliverNext now 1
      simp only [System.deliverNext, hdown] at hnext
      exact Option.some.inj hs ▸ hnext
  | lose i =>
    obtain ⟨-, hs⟩ := Option.ite_none_right_eq_some.mp hs
    exact Option.some.inj hs ▸ hnothing.symm ▸ h.awaits fun msg hmsg =>
      ⟨msg, List.mem_of_mem_eraseIdx hmsg, rfl⟩
  | host e =>
    obtain ⟨hspares, hs⟩ := Option.ite_none_right_eq_some.mp hs
    obtain ⟨host, hhost, rfl⟩ := Option.map_eq_some_iff.mp hs
    refine hnothing.symm ▸ h.hear fun m hm => (keeps_upTo opts replica m).step ?_
      (fun _ _ => trivial) (fun _ _ _ => trivial) hhost (h.store m hm)
    rintro op speaker live rfl hop
    rw [HostEvent.spares, h.who] at hspares
    exact absurd hop (of_decide_eq_true hspares)

end Counted

end System

namespace Life

variable {opts : Options sh U} {replica : String} {sent : List Op} {s s' : Life sh U}

theorem counted_link {e : Event U} (h : s.system.Counted replica sent) (hs : s.link opts e = some s') :
    s'.system.Counted replica (sent ++ opsOf (s.system.utters e)) := by
  have hstep : ∀ {f : System sh U → Life sh U}, (∀ x, (f x).system = x) →
      (s.system.step opts e).map f = some s' →
      s'.system.Counted replica (sent ++ opsOf (s.system.utters e)) := by
    intro f hf hs
    obtain ⟨system, hsystem, rfl⟩ := Option.map_eq_some_iff.mp hs
    rw [hf]
    exact h.step hsystem
  unfold Life.link at hs
  split at hs
  · obtain ⟨-, hs⟩ := Option.ite_none_left_eq_some.mp hs
    exact hstep (fun _ => rfl) hs
  all_goals exact hstep (fun _ => rfl) hs

section Fetch

variable {held : ℕ} {now : ℤ} {records : List (RecordKey × Entry)} {seq v : ℕ} {epoch : String}
  {serverNow : ℕ} {lost : List (ℕ × List Lost)} {down : List Down}
  (hdown : s.system.down = .snapshot records seq v epoch serverNow lost :: down)
include hdown

theorem utters_landed {body : Fetched} (hbody : s.fetched = some body) :
    s.utters (.landed held now) = (landing held body seq serverNow lost down s.system).uttersNext now
      (((down.take held).filter fun msg => !inFetched body.v msg).length + 1) := by
  simp only [utters, hbody, hdown]

theorem utters_failed : s.utters (.failed held now) =
    ({ s.system with down } : System sh U).uttersNext now held ++
      (({ s.system with down } : System sh U).deliverNext now held).client.hello.2 := by
  simp only [utters, hdown]

/-- A fetched snapshot lands as the message that pointed to it would have. -/
theorem counted_landing (h : s.system.Counted replica sent) (held : ℕ) (body : Fetched) :
    (landing held body seq serverNow lost down s.system).Counted replica sent := by
  refine h.awaits fun msg hmsg => ?_
  rcases List.mem_cons.mp hmsg with rfl | hmsg
  · exact ⟨.snapshot records seq v epoch serverNow lost, hdown ▸ List.mem_cons_self, rfl⟩
  · refine ⟨msg, hdown ▸ List.mem_cons_of_mem _ ?_, rfl⟩
    rcases List.mem_append.mp hmsg with hmsg | hmsg
    · exact List.mem_of_mem_take (List.mem_of_mem_filter hmsg)
    · exact List.mem_of_mem_drop hmsg

end Fetch

theorem counted_build (h : s.system.Counted replica sent) (cache : Bool) (saved : Kept)
    (hcount : ∀ op ∈ sent, op.seq ≤ saved.count replica)
    (hkept : saved.replica = replica → ∀ op ∈ saved.ops, op.seq ≤ saved.seq) :
    ({ s.system.cut with
      client := Mirror.build sh replica s.system.client.wantsClocks cache saved } :
        System sh U).Counted replica sent := by
  have hcut := h.cut
  have hclient : (Mirror.build sh replica s.system.client.wantsClocks cache saved).replica = replica ∧
      (Mirror.build sh replica s.system.client.wantsClocks cache saved).seq = saved.count replica ∧
      ∀ op ∈ (Mirror.build sh replica s.system.client.wantsClocks cache saved).outbox,
        saved.replica = replica ∧ op ∈ saved.ops := by
    unfold Mirror.build Kept.count
    dsimp only
    by_cases hmine : saved.replica = replica
    · rw [if_neg (not_not.mpr hmine), if_pos hmine]
      split
      · split_ifs <;> exact ⟨rfl, rfl, fun op hop => ⟨hmine, hop⟩⟩
      · exact ⟨rfl, rfl, fun op hop => ⟨hmine, hop⟩⟩
    · rw [if_pos hmine, if_neg hmine]
      exact ⟨rfl, rfl, fun op hop => absurd hop List.not_mem_nil⟩
  obtain ⟨hwho, hseq, houtbox⟩ := hclient
  refine { hcut with who := hwho, pending := fun op hop => ?_, counted := fun op hop => ?_ }
  · obtain ⟨hmine, hop⟩ := houtbox op hop
    have hle := hkept hmine op hop
    rwa [hseq, Kept.count, if_pos hmine]
  · rw [hseq]
    exact hcount op hop

theorem counted_step {e : LifeEvent U} (h : s.system.Counted replica sent)
    (howned : ∀ wall op speaker live, e = .host wall (.deliver op speaker live) →
      op.replica = replica → op ∈ sent)
    (hrestores : ∀ cache saved, e = .build cache saved → (∀ op ∈ sent, op.seq ≤ saved.count replica) ∧
      (saved.replica = replica → ∀ op ∈ saved.ops, op.seq ≤ saved.seq))
    (hs : s.step opts e = some s') : s'.system.Counted replica (sent ++ opsOf (s.utters e)) := by
  have hnothing : sent ++ opsOf [] = sent := List.append_nil sent
  cases e with
  | link e => exact counted_link h hs
  | host wall e =>
    obtain ⟨host, hhost, rfl⟩ := Option.map_eq_some_iff.mp hs
    have hkept : ∀ m, (∀ op ∈ sent, op.seq ≤ m) → host.store.UpTo replica m :=
      fun m hm => (keeps_upTo opts replica m).step
        (fun op speaker live he hop => hm op (howned wall op speaker live
          (congrArg (LifeEvent.host wall) he) hop))
        (fun _ _ => trivial) (fun _ _ _ => trivial) hhost (h.store m hm)
    refine hnothing.symm ▸ ?_
    split
    · have hstored := h.stored host hkept
      exact { hstored with }
    · exact h.hear hkept
  | build cache saved =>
    obtain ⟨hcount, hkept⟩ := hrestores cache saved rfl
    have hbuilt := counted_build h cache saved hcount hkept
    exact Option.some.inj hs ▸ hnothing.symm ▸ h.who.symm ▸ hbuilt
  | fetch =>
    simp only [Life.step] at hs
    split at hs
    · have hstored := h.stored { s.system.host with store := s.system.host.store.commitNow }
        fun m hm => (keeps_upTo opts replica m).flush (h.store m hm)
      exact Option.some.inj hs ▸ hnothing.symm ▸ hstored
    · cases hs
  | landed held now =>
    simp only [Life.step] at hs
    split at hs
    · next body records seq v epoch serverNow lost down hbody hdown =>
      rw [utters_landed hdown hbody]
      exact Option.some.inj hs ▸ (counted_landing hdown h held body).deliverNext now _
    · cases hs
  | failed held now =>
    simp only [Life.step] at hs
    split at hs
    · next down hdown =>
      rw [utters_failed hdown]
      have hrest : ({ s.system with down } : System sh U).Counted replica sent :=
        h.awaits fun msg hmsg => ⟨msg, hdown ▸ List.mem_cons_of_mem _ hmsg, rfl⟩
      have hnext := hrest.deliverNext now held
      rw [opsOf_append, ← List.append_assoc]
      exact Option.some.inj hs ▸ hnext.act (hnext.who ▸ Mirror.within_hello hnext.pending)
    · cases hs
  | closed held now =>
    simp only [Life.step] at hs
    split at hs
    · next code message _ _ =>
      have hclosed := h.deliver now (.closed code message) (s.system.down.drop (held + 1))
        fun x hx => List.mem_of_mem_drop hx
      have hsilent : (s.system.client.handle (.closed code message) now).2 = [] := by
        simp only [Mirror.handle]
        split_ifs <;> rfl
      rw [hsilent] at hclosed
      exact Option.some.inj hs ▸ hclosed
    · cases hs

/-- What the client hears was on the way to it. -/
theorem answers_of_hears {e : LifeEvent U} {n : ℕ} (h : n ∈ s.hears e) :
    ∃ msg ∈ s.system.down, msg.answers = some n := by
  have hfrom : ∀ l : List Down, (∀ x ∈ l, x ∈ s.system.down) → n ∈ l.filterMap Down.answers →
      ∃ msg ∈ s.system.down, msg.answers = some n := by
    intro l hl hn
    obtain ⟨msg, hmsg, heq⟩ := List.mem_filterMap.mp hn
    exact ⟨msg, hl msg hmsg, heq⟩
  unfold hears at h
  split at h
  · exact hfrom _ (fun _ hx => List.mem_of_mem_take hx) h
  · exact hfrom _ (fun _ hx => List.mem_of_mem_take hx) h
  · exact hfrom _ (fun _ hx => List.mem_of_mem_drop (List.mem_of_mem_take hx)) h
  · cases h

end Life

/-- A store made anew knows no replica. -/
theorem upTo_create (opts : Options sh U) (known : ℕ) (epoch : String) (wall : ℕ) (r : String) (m : ℕ) :
    (Host.create opts known epoch wall).store.UpTo r m := by
  have hempty : (Store.restored opts known epoch []).UpTo r m :=
    ⟨fun e he => by simp [Store.restored, Saved.ofCommits, Saved.empty] at he,
      fun c hc => by simp [Store.restored, Store.commits] at hc⟩
  exact hempty.load known epoch wall

/-- Whatever happens to a client, its storage, its link and its store, late ops and lost commits
among it: as long as the client is never built on a count behind an op it sent, or behind one kept
with it, its next op is numbered above every answer it heard, and above the last op of its replica
the store has. -/
theorem numbered_past_answers {opts : Options sh U} {known wall : ℕ} {epoch replica : String}
    {wantsClocks : Bool} {s : Numbered sh U}
    (hr : Reaches (Numbered.step opts) (fun e s => s.Restores e)
      (Numbered.start (Host.create opts known epoch wall) replica wantsClocks) s)
    (changes : List Change) (now : ℤ) :
    ∃ op, (s.life.system.client.edit changes now).1.outbox =
        supersede changes s.life.system.client.outbox ++ [op] ∧
      (∀ n ∈ s.heard, n < op.seq) ∧ s.life.system.host.store.seqOf replica < op.seq := by
  have hcounted : s.life.system.Counted replica s.sent ∧
      ∀ m, (∀ op ∈ s.sent, op.seq ≤ m) → ∀ n ∈ s.heard, n ≤ m := by
    refine hr.invariant (P := fun s => s.life.system.Counted replica s.sent ∧
      ∀ m, (∀ op ∈ s.sent, op.seq ≤ m) → ∀ n ∈ s.heard, n ≤ m) ⟨?_, ?_⟩ ?_
    · exact ⟨rfl, fun _ h => absurd h List.not_mem_nil, fun _ h => absurd h List.not_mem_nil,
        fun _ h => absurd h List.not_mem_nil, fun m _ => upTo_create opts known epoch wall replica m,
        fun _ _ _ h => absurd h List.not_mem_nil⟩
    · exact fun _ _ _ h => absurd h List.not_mem_nil
    · rintro e s s' ⟨h, hheard⟩ hrestores hs
      obtain ⟨howned, hs⟩ := Option.ite_none_right_eq_some.mp hs
      obtain ⟨life, hlife, rfl⟩ := Option.map_eq_some_iff.mp hs
      refine ⟨Life.counted_step h ?_ ?_ hlife, fun m hm n hn => ?_⟩
      · rintro wall op speaker live rfl hop
        simpa [Numbered.owned, h.who, hop] using howned
      · rintro cache saved rfl
        simpa only [Numbered.Restores, h.who] using hrestores
      · have hsent : ∀ op ∈ s.sent, op.seq ≤ m := fun op hop => hm op (List.mem_append_left _ hop)
        rcases List.mem_append.mp hn with hn | hn
        · exact hheard m hsent n hn
        · obtain ⟨msg, hmsg, hanswer⟩ := Life.answers_of_hears hn
          exact h.down m hsent msg hmsg n hanswer
  obtain ⟨hcounted, hheard⟩ := hcounted
  refine ⟨_, rfl, fun n hn => ?_, ?_⟩
  · exact Nat.lt_succ_of_le (hheard _ hcounted.counted n hn)
  · exact Nat.lt_succ_of_le (hcounted.store _ hcounted.counted).seqOf

namespace Numbered

instance (e : LifeEvent U) (s : Numbered sh U) : Decidable (s.Restores e) :=
  match e with
  | .build _ _ => inferInstanceAs (Decidable (_ ∧ _))
  | .link _ | .host _ _ | .fetch | .landed _ _ | .failed _ _ | .closed _ _ => isTrue trivial

/-- A client makes a task, which the store has before the page is closed. It is built again over
what its storage kept, and answered. -/
def reopened (count : ℕ) : List (LifeEvent Unit) :=
  [.link (.opens (some ()) true), .link (.receive []), .link (.deliver 5),
    .link (.edit (newTask "t1") 6), .link (.receive []), .build true ⟨"c", count, [], none, ⟨none, 0⟩⟩,
    .link (.opens (some ()) true), .link (.receive []), .link (.deliver 7)]

/-- The same edit, its number kept. -/
theorem numbered_past_answers_on_board :
    ∃ s : Numbered board Unit, s.heard = [0, 1] ∧
      ∃ op, (s.life.system.client.edit (newTask "t2") 8).1.outbox =
          supersede (newTask "t2") s.life.system.client.outbox ++ [op] ∧
        (∀ n ∈ s.heard, n < op.seq) ∧ s.life.system.host.store.seqOf "c" < op.seq := by
  have hrun : (replay (fun e s => if decide (s.Restores e) then step (ruled .allow) e s else none)
      (reopened 1) (start (Host.create (ruled .allow) 0 "e" 5) "c" true)).any
        (fun s => s.heard = [0, 1]) = true := by
    decide +kernel
  obtain ⟨s, hs, hheard⟩ := (Option.any_eq_true _ _).mp hrun
  exact ⟨s, of_decide_eq_true hheard, numbered_past_answers
    (.of_replay (fun _ _ h => of_decide_eq_true h) .start hs) _ 8⟩

/-- A client whose storage did not keep the number of its first op, which the store has: told so, it
gives its next op the same number, and the store takes it for the first. -/
theorem stale_count_reused :
    ∃ s : Numbered board Unit,
      Reaches (step (ruled .allow)) (fun _ _ => True)
        (start (Host.create (ruled .allow) 0 "e" 5) "c" true) s ∧
      1 ∈ s.heard ∧ (s.life.system.client.edit (newTask "t2") 8).1.outbox.map Op.seq = [1] ∧
      ∀ op ∈ (s.life.system.client.edit (newTask "t2") 8).1.outbox,
        howOf (s.life.system.host.store.apply (ruled .allow) [] 8 op ⟨some (), true, none, none⟩).2.2 =
          .duplicate :=
  Reaches.exists_of_replay (fun _ _ => true) (fun _ _ _ => trivial) (reopened 0) (by decide +kernel)

end Numbered

end LazyStorage.Client
