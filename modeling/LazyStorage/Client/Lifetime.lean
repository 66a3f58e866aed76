import LazyStorage.Client.Link
import LazyStorage.Client.Stamping
import LazyStorage.Server.Time

/-! # A client over its whole life

A client and its store as before, with what else may happen to them: the store
is loaded anew, the client is built again over what its storage kept, and a
snapshot is fetched over HTTP while the messages that follow it wait. The wall
clocks of both read whatever they read.
-/
namespace LazyStorage.Server

open Lib LazyStorage.Core

variable {sh : Shape} {U : Type} {opts : Options sh U} {st : Store sh}

/-- A snapshot holds no time past the store's own. -/
theorem timely_catchUp (h : st.Timed) (now : ℕ) (replica : String) (clocks : Bool)
    (since : Option (ℕ × String)) (lost : List (ℕ × List Lost)) :
    (st.catchUp now replica clocks since lost).Timely := by
  have hsnapshot : ∀ r ∈ st.snapshotRecords clocks, ∀ t ∈ r.2.clock.times, t ≤ st.clock.time now := by
    intro r hr t ht
    obtain ⟨⟨k, e⟩, he, rfl⟩ := List.mem_map.mp hr
    have hk := OrderedMap.mem_entries.mp he
    cases clocks with
    | true => exact (h.records k e hk t ht).trans (st.clock.le_time now)
    | false => simp at ht
  unfold Store.catchUp
  dsimp only
  split
  · trivial
  · exact hsnapshot

theorem timed_idle {st : Store sh} (effects : List LogEntry) (buckets : OrderedMap String Bucket)
    (h : st.doc.Sound ∧ st.Timed) :
    ({ st with effects, buckets } : Store sh).doc.Sound ∧
      ({ st with effects, buckets } : Store sh).Timed :=
  ⟨h.1, h.2.of_eq rfl rfl rfl⟩

theorem timed_commitNow {st : Store sh} (h : st.doc.Sound ∧ st.Timed) :
    st.commitNow.doc.Sound ∧ st.commitNow.Timed :=
  ⟨h.1, h.2.of_eq rfl rfl rfl⟩

section Said

variable {Q : Down → Prop} (hplain : ∀ msg : Down, msg.answers = none → Q msg)
include hplain

theorem said_patches (st : Store sh) (follows : Bool) :
    ∀ msg ∈ (if follows then st.flushEffects.2 else []), Q msg := by
  intro msg hmsg
  cases follows with
  | false => simp at hmsg
  | true =>
    obtain ⟨e, -, rfl⟩ := List.mem_map.mp hmsg
    exact hplain _ rfl

theorem said_tellOp {others : List String} {now : ℕ} {follows : Bool} {told : Told sh U} (op : Op)
    (h : ∀ msg ∈ told.said, Q msg) : ∀ msg ∈ (tellOp opts others now follows told op).said, Q msg := by
  intro msg hmsg
  unfold tellOp at hmsg
  split at hmsg <;> rcases List.mem_append.mp hmsg with hmsg | hmsg
  · exact h msg hmsg
  · exact said_patches hplain _ follows msg hmsg
  · exact h msg hmsg
  · rw [List.mem_singleton.mp hmsg]
    exact hplain _ rfl

theorem said_welcome {others : List String} {now : ℕ} (replica : String) (ops : List Op)
    (since : Option (ℕ × String)) (clocks follower : Bool) (s : Session U)
    (hanswer : ∀ lost, Q ((s.welcome opts others now replica ops since clocks follower
      st).store.catchUp now replica clocks since lost)) :
    ∀ msg ∈ (s.welcome opts others now replica ops since clocks follower st).said, Q msg := by
  have htold : ∀ (follows : Bool) (start : Told sh U) (live : List String),
      (∀ msg ∈ start.said, Q msg) →
      ∀ msg ∈ ((ops.take helloOps).foldl (tellOp opts live now follows) start).said, Q msg := by
    intro follows start live hstart
    exact List.foldlRecOn _ _ (motive := fun told : Told sh U => ∀ msg ∈ told.said, Q msg) hstart
      fun told htold op _ => said_tellOp hplain op htold
  unfold Session.welcome at hanswer ⊢
  dsimp only at hanswer ⊢
  generalize (if s.replica.isNone && follower then some (s.grants.getD .empty) else s.grants) = grants
    at hanswer ⊢
  intro msg hmsg
  split_ifs at hanswer hmsg <;> rcases List.mem_append.mp hmsg with hmsg | hmsg
  · exact htold _ _ _ (fun _ h => absurd h List.not_mem_nil) msg hmsg
  · obtain ⟨seq, -, rfl⟩ := List.mem_map.mp hmsg
    exact hplain _ rfl
  · exact htold _ _ _ (fun _ h => absurd h List.not_mem_nil) msg hmsg
  · rw [List.mem_singleton.mp hmsg]
    exact hanswer _

/-- All a session says but what answers a hello is plain. -/
theorem said_receive {others : List String} {now : ℕ} (msg : Up) (s : Session U)
    (hanswer : ∀ replica ops since clocks follower, msg = .hello replica ops since clocks follower →
      ∀ lost, Q ((s.receive opts others now msg st).store.catchUp now replica clocks since lost)) :
    ∀ said ∈ (s.receive opts others now msg st).said, Q said := by
  have hlive : ∀ (op : Op) (as : Option String) (speaker : Speaker U) (live : List String),
      (liveOp opts live now op as speaker st).2.2.1.answers = none := by
    intro op as speaker live
    unfold liveOp
    dsimp only
    split
    · rfl
    split
    · rfl
    split <;> rfl
  have hop : ∀ (s' : Session U) (op : Op) (as : Option String) (speaker : Speaker U)
      (live : List String),
      ∀ said ∈ (Session.afterOp s' (liveOp opts live now op as speaker st)).said, Q said := by
    intro s' op as speaker live said hsaid
    rcases List.mem_append.mp hsaid with hsaid | hsaid
    · exact said_patches hplain _ _ said hsaid
    · rw [List.mem_singleton.mp hsaid]
      exact hplain _ (hlive op as speaker live)
  cases msg with
  | hello replica ops since clocks follower =>
    have hthis := hanswer replica ops since clocks follower rfl
    simp only [Session.receive, Session.hello] at hthis ⊢
    split
    · exact fun said hsaid => List.mem_singleton.mp hsaid ▸ hplain _ rfl
    · next hfollow =>
      rw [if_neg hfollow] at hthis
      split
      · split <;> exact fun said hsaid => List.mem_singleton.mp hsaid ▸ hplain _ rfl
      · next hclaim =>
        rw [hclaim] at hthis
        dsimp only at hthis ⊢
        split
        · exact fun said hsaid => List.mem_singleton.mp hsaid ▸ hplain _ rfl
        · next hlimit =>
          rw [if_neg hlimit] at hthis
          exact said_welcome hplain replica ops since clocks follower s hthis
  | op as op =>
    cases as with
    | none => exact hop _ op none _ _
    | some as =>
      simp only [Session.receive]
      split
      · exact fun said hsaid => List.mem_singleton.mp hsaid ▸ hplain _ rfl
      · exact hop _ op (some as) _ _
  | leave as => simp [Session.receive]

end Said

theorem timely_of_plain (msg : Down) (h : msg.answers = none) : msg.Timely := by
  cases msg <;> trivial

/-- What a session says is timely, the store being so. -/
theorem timely_receive {others : List String} {now : ℕ} (msg : Up) (s : Session U)
    (h : st.doc.Sound ∧ st.Timed) :
    ∀ said ∈ (s.receive opts others now msg st).said, said.Timely :=
  said_receive timely_of_plain msg s fun _ _ _ _ _ _ _ =>
    timely_catchUp (keeps_timed.receive timed_idle msg s h).2 _ _ _ _ _

end LazyStorage.Server

namespace LazyStorage.Client

open Lib LazyStorage.Core LazyStorage.Server

/-- A store's snapshot as it is served over HTTP. -/
structure Fetched where
  records : List (RecordKey × Entry)
  v : ℕ
  epoch : String

/-- A client, its store, and what was answered to a fetch under way: the message that pointed to it
is the next on the link, and those after it wait. -/
structure Life (sh : Shape) (U : Type) where
  system : System sh U
  fetched : Option Fetched

inductive LifeEvent (U : Type)
  | link (e : Event U)
  | host (wall : ℕ) (e : HostEvent U)
  | build (cache : Bool) (saved : Kept)
  | fetch
  | landed (held : ℕ) (now : ℤ)
  | failed (held : ℕ) (now : ℤ)
  | closed (held : ℕ) (now : ℤ)

variable {sh : Shape} {U : Type}

namespace System

/-- The client takes the next messages off the link, one after the other. -/
def deliverNext (now : ℤ) : ℕ → System sh U → System sh U
  | 0, s => s
  | n + 1, s =>
    match s.down with
    | [] => s
    | msg :: down => (s.deliver now msg down).deliverNext now n

end System

/-- A patch that a fetched snapshot already has. -/
def inFetched (v : ℕ) : Down → Bool
  | .patch _ v' _ => v' ≤ v
  | _ => false

namespace Life

variable (opts : Options sh U)

def start (host : Host sh) (replica : String) (wantsClocks : Bool) : Life sh U :=
  ⟨System.start host replica wantsClocks, none⟩

/-- A fetched snapshot in the place of the message that pointed to it, then what waited for it,
without the patches it already has. -/
def land (held : ℕ) (now : ℤ) (body : Fetched) (seq serverNow : ℕ) (lost : List (ℕ × List Lost))
    (down : List Down) (s : System sh U) : System sh U :=
  let waited := (down.take held).filter fun msg => !inFetched body.v msg
  (s.deliver now (.snapshot body.records seq body.v body.epoch serverNow lost)
    (waited ++ down.drop held)).deliverNext now waited.length

/-- A link that comes up or goes down lets go of a fetch, and a message waits for it. -/
def link (e : Event U) (s : Life sh U) : Option (Life sh U) :=
  match e with
  | .deliver _ => if s.fetched.isSome then none else (s.system.step opts e).map ({ s with system := · })
  | .opens _ _ => (s.system.step opts e).map (⟨·, none⟩)
  | .closes => (s.system.step opts e).map (⟨·, none⟩)
  | _ => (s.system.step opts e).map ({ s with system := · })

def step (e : LifeEvent U) (s : Life sh U) : Option (Life sh U) :=
  match e with
  | .link e => s.link opts e
  | .host wall e =>
    (Host.turn opts (wall, e) s.system.host).map fun host =>
      match e with
      -- the process is another: nothing of its sessions is left
      | .reload _ _ => { s with system := { s.system with host, session := none } }
      | _ => { s with system := s.system.hear host }
  | .build cache saved =>
    let client := Mirror.build sh s.system.client.replica s.system.client.wantsClocks cache saved
    some ⟨{ s.system.cut with client }, none⟩
  | .fetch =>
    match s.fetched, s.system.down with
    | none, .snapshot _ _ _ _ _ _ :: _ =>
      let store := s.system.host.store.commitNow
      some ⟨{ s.system with host := { s.system.host with store } },
        some ⟨store.snapshotRecords s.system.client.wantsClocks, store.version, store.epoch⟩⟩
    | _, _ => none
  | .landed held now =>
    match s.fetched, s.system.down with
    | some body, .snapshot _ seq _ _ serverNow lost :: down =>
      some ⟨land held now body seq serverNow lost down s.system, none⟩
    | _, _ => none
  | .failed held now =>
    match s.system.down with
    | .snapshot _ _ _ _ _ _ :: down =>
      let system := { s.system with down }.deliverNext now held
      some ⟨system.act system.client.hello, none⟩
    | _ => none
  | .closed held now =>
    -- the store's end does not wait for a fetch: what did is dropped with it
    match s.fetched, s.system.down[held]? with
    | some _, some (.closed code message) =>
      some ⟨s.system.deliver now (.closed code message) (s.system.down.drop (held + 1)), none⟩
    | _, _ => none

/-- Nothing that is built on or fetched holds a time the client's clock has not seen: no kept op or
record has one, and a fetched snapshot none past what the message that pointed to it said. -/
def Seen (e : LifeEvent U) (s : Life sh U) : Prop :=
  match e with
  | .build cache saved => saved.replica = s.system.client.replica →
      (∀ op ∈ saved.ops, op.ts = 0) ∧ (cache = true → ∀ records, saved.records = some records →
        ∀ r ∈ records, ∀ t ∈ r.2.clock.times, t ≤ 1)
  | .landed _ _ => ∀ body, s.fetched = some body → ∀ records seq v epoch serverNow lost down,
      s.system.down = .snapshot records seq v epoch serverNow lost :: down →
      ∀ r ∈ body.records, ∀ t ∈ r.2.clock.times,
        t ≤ serverNow ∨ t ≤ s.system.client.clock.highest + 1
  | _ => True

end Life

/-- The client is stamped after all it has, the store's time is not behind, and what is on the way
says so. -/
structure System.Ordered (s : System sh U) : Prop where
  client : s.client.Stamped
  host : s.host.store.doc.Sound ∧ s.host.store.Timed
  down : ∀ msg ∈ s.down, msg.Timely

namespace System

variable {opts : Options sh U} {s : System sh U}

theorem Ordered.deliver (h : s.Ordered) {msg : Down} {down : List Down} (now : ℤ)
    (hclient : (s.client.handle msg now).1.Stamped) (hdown : ∀ m ∈ down, m.Timely) :
    (s.deliver now msg down).Ordered := by
  unfold System.deliver
  dsimp only
  split_ifs
  · exact ⟨hclient, h.host, hdown⟩
  · exact ⟨hclient, h.host, by simp [cut]⟩

theorem Ordered.deliverNext (h : s.Ordered) (now : ℤ) (n : ℕ) : (s.deliverNext now n).Ordered := by
  induction n generalizing s with
  | zero => exact h
  | succ n ih =>
    unfold System.deliverNext
    split
    · exact h
    · next msg down hdown =>
      apply ih
      have hall : ∀ m ∈ msg :: down, m.Timely := hdown ▸ h.down
      exact h.deliver now (h.client.handle (hall msg (by simp)) now)
        fun m hm => hall m (List.mem_cons_of_mem msg hm)

theorem Ordered.hear (h : s.Ordered) {host : Host sh}
    (hhost : host.store.doc.Sound ∧ host.store.Timed) : (s.hear host).Ordered where
  client := h.client
  host := timed_idle [] _ hhost
  down msg hmsg := by
    rcases List.mem_append.mp hmsg with hmsg | hmsg
    · exact h.down msg hmsg
    · exact said_patches timely_of_plain _ _ msg hmsg

theorem Ordered.receive (h : s.Ordered) (others : List String) (msg : Up) (up : List Up) :
    (s.receive opts others msg up).Ordered := by
  unfold System.receive
  split
  · exact ⟨h.client, h.host, h.down⟩
  · next session _ =>
    refine ⟨h.client, ?_, fun said hsaid => ?_⟩
    · exact keeps_timed.receive timed_idle msg session h.host
    · rcases List.mem_append.mp hsaid with hsaid | hsaid
      · exact h.down said hsaid
      · exact timely_receive msg session h.host said hsaid

theorem Ordered.step {e : Event U} {s' : System sh U} (h : s.Ordered) (hs : s.step opts e = some s') :
    s'.Ordered := by
  cases e with
  | edit changes now =>
    obtain ⟨-, hs⟩ := Option.ite_none_left_eq_some.mp hs
    exact Option.some.inj hs ▸ ⟨h.client.edit changes now, h.host, h.down⟩
  | retry =>
    obtain ⟨-, hs⟩ := Option.ite_none_right_eq_some.mp hs
    exact Option.some.inj hs ▸ ⟨h.client.retry, h.host, h.down⟩
  | wantPresence => exact Option.some.inj hs ▸ ⟨h.client.wantPresence, h.host, h.down⟩
  | opens user writes =>
    obtain ⟨-, hs⟩ := Option.ite_none_left_eq_some.mp hs
    exact Option.some.inj hs ▸ ⟨h.client.onOpen, timed_commitNow h.host, by simp [act, cut]⟩
  | closes =>
    obtain ⟨-, hs⟩ := Option.ite_none_right_eq_some.mp hs
    exact Option.some.inj hs ▸ ⟨h.client.onClose, h.host, by simp [cut]⟩
  | hangsUp => exact Option.some.inj hs ▸ ⟨h.client, h.host, h.down⟩
  | receive others =>
    simp only [System.step] at hs
    split at hs
    · cases hs
    · exact Option.some.inj hs ▸ h.receive others _ _
  | deliver now =>
    simp only [System.step] at hs
    split at hs
    · cases hs
    · next msg down hdown =>
      have hall : ∀ m ∈ msg :: down, m.Timely := hdown ▸ h.down
      exact Option.some.inj hs ▸ h.deliver now (h.client.handle (hall msg (by simp)) now)
        fun m hm => hall m (List.mem_cons_of_mem msg hm)
  | lose i =>
    obtain ⟨-, hs⟩ := Option.ite_none_right_eq_some.mp hs
    exact Option.some.inj hs ▸ ⟨h.client, h.host, fun m hm =>
      h.down m (List.mem_of_mem_eraseIdx hm)⟩
  | host e =>
    obtain ⟨-, hs⟩ := Option.ite_none_right_eq_some.mp hs
    obtain ⟨host, hhost, rfl⟩ := Option.map_eq_some_iff.mp hs
    exact h.hear (keeps_timed.step (fun _ _ => trivial) (fun _ _ _ => trivial) hhost h.host)

end System

namespace Life

variable {opts : Options sh U} {s s' : Life sh U}

theorem ordered_link {e : Event U} (h : s.system.Ordered) (hs : s.link opts e = some s') :
    s'.system.Ordered := by
  have hstep : ∀ {f : System sh U → Life sh U}, (∀ x, (f x).system = x) →
      (s.system.step opts e).map f = some s' → s'.system.Ordered := by
    intro f hf hs
    obtain ⟨system, hsystem, rfl⟩ := Option.map_eq_some_iff.mp hs
    rw [hf]
    exact h.step hsystem
  unfold Life.link at hs
  split at hs
  · obtain ⟨-, hs⟩ := Option.ite_none_left_eq_some.mp hs
    exact hstep (fun _ => rfl) hs
  all_goals exact hstep (fun _ => rfl) hs

theorem ordered_step {e : LifeEvent U} (h : s.system.Ordered) (hseen : s.Seen e)
    (hs : s.step opts e = some s') : s'.system.Ordered := by
  cases e with
  | link e => exact ordered_link h hs
  | host wall e =>
    obtain ⟨host, hhost, rfl⟩ := Option.map_eq_some_iff.mp hs
    have hkept := keeps_timed.step (fun _ _ => trivial) (fun _ _ _ => trivial) hhost h.host
    split
    · exact ⟨h.client, hkept, h.down⟩
    · exact h.hear hkept
  | build cache saved =>
    exact Option.some.inj hs ▸ ⟨Mirror.stamped_build hseen, h.host, by simp [System.cut]⟩
  | fetch =>
    simp only [Life.step] at hs
    split at hs
    · exact Option.some.inj hs ▸ ⟨h.client, timed_commitNow h.host, h.down⟩
    · cases hs
  | landed held now =>
    simp only [Life.step] at hs
    split at hs
    · next body records seq v epoch serverNow lost down hbody hdown =>
      have hall := hdown ▸ h.down
      have hsnapshot : (s.system.client.handle
          (.snapshot body.records seq body.v body.epoch serverNow lost) now).1.Stamped :=
        h.client.snapshot now (hseen body hbody _ _ _ _ _ _ _ hdown)
      refine Option.some.inj hs ▸ System.Ordered.deliverNext (h.deliver now hsnapshot ?_) now _
      intro m hm
      apply hall m
      apply List.mem_cons_of_mem
      rcases List.mem_append.mp hm with hm | hm
      · exact List.mem_of_mem_take (List.mem_of_mem_filter hm)
      · exact List.mem_of_mem_drop hm
    · cases hs
  | failed held now =>
    simp only [Life.step] at hs
    split at hs
    · next down hdown =>
      have hall := hdown ▸ h.down
      have hrest : ({ s.system with down } : System sh U).Ordered :=
        ⟨h.client, h.host, fun m hm => hall m (List.mem_cons_of_mem _ hm)⟩
      have hnext := hrest.deliverNext now held
      exact Option.some.inj hs ▸ ⟨hnext.client.hello, hnext.host, hnext.down⟩
    · cases hs
  | closed held now =>
    simp only [Life.step] at hs
    split at hs
    · next code message _ _ =>
      have htimely : Down.Timely (.closed code message) := trivial
      exact Option.some.inj hs ▸ h.deliver now (h.client.handle htimely now)
        fun m hm => h.down m (List.mem_of_mem_drop hm)
    · cases hs

end Life

/-- Whatever the wall clocks of a client and its store read: as long as nothing the client is built
on, and nothing it fetches, holds a time its clock has not seen, its next op is stamped at or after
every time in its base, and after every op it has pending. -/
theorem stamped_after_all {opts : Options sh U} {epoch replica : String} {wall : ℕ}
    {wantsClocks : Bool} {s : Life sh U}
    (hr : Reaches (Life.step opts) (fun e s => s.Seen e)
      (Life.start (Host.start opts epoch wall) replica wantsClocks) s)
    (changes : List Change) (now : ℤ) :
    ∃ op, (s.system.client.edit changes now).1.outbox =
        supersede changes s.system.client.outbox ++ [op] ∧
      (∀ k e, s.system.client.base.records.get k = some e → ∀ t ∈ e.clock.times, t ≤ op.ts) ∧
      ∀ older ∈ s.system.client.outbox, older.ts < op.ts := by
  have hordered : s.system.Ordered := by
    refine hr.invariant (P := fun s => s.system.Ordered) ?_ fun e s s' h hseen hs =>
      Life.ordered_step h hseen hs
    exact ⟨Mirror.stamped_create replica wantsClocks,
      ⟨(sound_of_load 0 epoch wall [] False).1, Store.timed_load 0 epoch wall []⟩, by
        simp [Life.start, System.start]⟩
  have hstamp := s.system.client.clock.lt_stamp now
  refine ⟨⟨s.system.client.replica, s.system.client.seq + 1, (s.system.client.clock.stamp now).1,
    changes⟩, rfl, fun k e hk t ht => ?_, fun older hold => ?_⟩
  · exact (hordered.client.base k e hk t ht).trans hstamp
  · exact lt_of_le_of_lt (hordered.client.outbox older hold) hstamp

/-- A field of a task set. -/
def edited (field : String) : List Change := [⟨"tasks", some "t1", [field], .set (.str field)⟩]

/-- The server makes a task at 1000. A client whose wall clock reads 5 hears of it and edits it. -/
def heardSlowly : List (LifeEvent Unit) :=
  [.host 1000 (.own discussed), .link (.opens (some ()) true), .link (.receive []),
    .link (.deliver 5), .link (.edit (edited "title") 6)]

/-- Built again over what it kept, the client stamps its next op by its slow wall clock: below the
op it has pending, and below the task. -/
theorem restored_stamps_behind :
    ∃ s : Life board Unit, Reaches (Life.step (ruled .allow)) (fun _ _ => True)
        (Life.start (Host.start (ruled .allow) "e" 5) "c" true) s ∧
      ¬ ∃ op, (s.system.client.edit (edited "note") 7).1.outbox =
          supersede (edited "note") s.system.client.outbox ++ [op] ∧
        (∀ k e, s.system.client.base.records.get k = some e → ∀ t ∈ e.clock.times, t ≤ op.ts) ∧
        ∀ older ∈ s.system.client.outbox, older.ts < op.ts := by
  have hrun : (replay (fun e s => if true then Life.step (ruled .allow) e s else none) heardSlowly
      (Life.start (Host.start (ruled .allow) "e" 5) "c" true)).any (fun s =>
        let c := Mirror.build board "c" true true s.system.client.kept
        s.system.client.replica = "c" && s.system.client.wantsClocks &&
          c.outbox.any (fun op => op.ts = 1001) &&
          (c.edit (edited "note") 7).1.outbox.getLast?.any (fun op => op.ts = 7)) = true := by
    decide +kernel
  obtain ⟨s, hs, hends⟩ := (Option.any_eq_true _ _).mp hrun
  simp only [Bool.and_eq_true, decide_eq_true_eq] at hends
  obtain ⟨⟨⟨hreplica, hclocks⟩, hkept⟩, hnext⟩ := hends
  refine ⟨_, .next (.build true s.system.client.kept)
    (.of_replay (fun _ _ _ => trivial) .start hs) trivial rfl, ?_⟩
  rintro ⟨op, hop, -, hbefore⟩
  rw [hreplica, hclocks] at hop hbefore
  obtain ⟨older, hmem, hts⟩ := List.any_eq_true.mp hkept
  have hlate := hbefore older hmem
  rw [hop, List.getLast?_concat, Option.any_some, decide_eq_true_eq] at hnext
  rw [of_decide_eq_true hts, hnext] at hlate
  omega

/-- Whether the client goes on as it is, with what its link brings. -/
def LifeEvent.linked : LifeEvent U → Bool
  | .link _ => true
  | .host _ _ => true
  | _ => false

/-- The same edit, made before the client is built again. -/
theorem stamped_after_all_on_board :
    ∃ s : Life board Unit, s.system.client.outbox.map Op.ts = [1001] ∧
      ∃ op, (s.system.client.edit (edited "note") 7).1.outbox =
          supersede (edited "note") s.system.client.outbox ++ [op] ∧
        (∀ k e, s.system.client.base.records.get k = some e → ∀ t ∈ e.clock.times, t ≤ op.ts) ∧
        ∀ older ∈ s.system.client.outbox, older.ts < op.ts := by
  have hlinked : ∀ (e : LifeEvent Unit) (s : Life board Unit), e.linked = true → s.Seen e := by
    intro e s he
    cases e <;> trivial
  have hrun : (replay (fun e s => if e.linked then Life.step (ruled .allow) e s else none) heardSlowly
      (Life.start (Host.start (ruled .allow) "e" 5) "c" true)).any (fun s =>
        s.system.client.outbox.map Op.ts = [1001]) = true := by
    decide +kernel
  obtain ⟨s, hs, hends⟩ := (Option.any_eq_true _ _).mp hrun
  exact ⟨s, of_decide_eq_true hends, stamped_after_all (.of_replay hlinked .start hs) _ 7⟩

end LazyStorage.Client
