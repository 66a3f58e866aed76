import LazyStorage.Core.Reported
import LazyStorage.Server.Delta

/-! # What a turn enters in the log

Whatever a store does in a turn, its commits go on from those it made, and what they
enter in the log is what is to be broadcast, in the same order: changes of records
the shape has. A session that follows is told of each before the answer that counts
it.
-/
namespace LazyStorage.Server

open Lib LazyStorage.Core

variable {sh : Shape} {U : Type} {opts : Options sh U}

/-- Changes of records the shape has. -/
def LogEntry.Known (sh : Shape) (entry : LogEntry) : Prop := ∀ ch ∈ entry.changes, ch.Known sh

/-- Whether an event leaves the store in place. -/
def HostEvent.lasts : HostEvent U → Bool
  | .reload _ _ => false
  | .migrate => false
  | _ => true

namespace Store

/-- One store goes on from another: what it entered in the log since waits to be broadcast after what did. -/
structure Enters (st st' : Store sh) : Prop where
  epoch : st'.epoch = st.epoch
  more : ∃ new, st'.commits = st.commits ++ new ∧ st'.effects = st.effects ++ logged new ∧
    ∀ entry ∈ logged new, entry.Known sh

namespace Enters

variable {st st' st'' : Store sh}

theorem of_same (hepoch : st'.epoch = st.epoch) (hcommits : st'.commits = st.commits)
    (heffects : st'.effects = st.effects) : Enters st st' :=
  ⟨hepoch, [], by simp [hcommits], by simp [heffects, logged], by simp [logged]⟩

theorem refl (st : Store sh) : Enters st st := of_same rfl rfl rfl

theorem trans (h : Enters st st') (h' : Enters st' st'') : Enters st st'' := by
  obtain ⟨new, hcommits, heffects, hknown⟩ := h.more
  obtain ⟨more, hcommits', heffects', hknown'⟩ := h'.more
  refine ⟨h'.epoch.trans h.epoch, new ++ more, ?_, ?_, fun entry hentry => ?_⟩
  · rw [hcommits', hcommits, List.append_assoc]
  · rw [heffects', heffects, logged_append, List.append_assoc]
  · rw [logged_append] at hentry
    exact (List.mem_append.mp hentry).elim (hknown entry) (hknown' entry)

@[simp] theorem effects_commit (c : Commit) : (commit opts c st).effects = st.effects := by
  unfold commit
  dsimp only
  split_ifs <;> rfl

/-- A commit with nothing for the log. -/
theorem commit (h : Enters st st') {c : Commit} (hlog : c.log = none) : Enters st (commit opts c st') := by
  refine h.trans ⟨epoch_commit c, [st'.dated c], commits_commit c, ?_, ?_⟩
  · simp [dated, hlog]
  · simp [dated, hlog]

theorem commitNow (st : Store sh) : Enters st st.commitNow := of_same rfl commits_commitNow rfl

theorem throttle (now : ℕ) (key : String) (st : Store sh) : Enters st (st.throttle opts now key).1 := by
  obtain ⟨buckets, heq⟩ := Store.throttle_eq opts st now key
  rw [heq]
  exact of_same rfl rfl rfl

theorem landed (h : Enters st st') {applied : List Change} (hknown : ∀ ch ∈ applied, ch.Known sh) (ts : ℕ)
    (replica : Option (String × Replica)) (op : Option (String × ℕ)) :
    Enters st (st'.landed opts applied ts replica op) := by
  unfold Store.landed
  split
  · cases replica with
    | none => exact h
    | some r => exact h.commit rfl
  · refine h.trans ⟨epoch_commit _, _, commits_commit _, ?_, ?_⟩
    · simp [dated]
    · simpa [dated, LogEntry.Known] using hknown

theorem rememberReplica (live : List String) (id : String) (entry : Replica) (st : Store sh) :
    Enters st (st.rememberReplica opts live id entry) := by
  unfold Store.rememberReplica
  dsimp only
  split_ifs
  · exact of_same rfl rfl rfl
  · apply commit
    · exact of_same rfl rfl rfl
    · rfl

theorem effects_takeReplica (live : List String) (now : ℕ) (user : Option U) (replica : String) (st : Store sh) :
    (st.takeReplica opts live now user replica).effects = st.effects := by
  unfold Store.takeReplica
  split
  · rw [effects_commit]
    unfold Store.rememberReplica
    dsimp only
    split_ifs
    · rfl
    · rw [effects_commit]
      rfl
  · rfl

theorem takeReplica (live : List String) (now : ℕ) (user : Option U) (replica : String) (st : Store sh) :
    Enters st (st.takeReplica opts live now user replica) := by
  unfold Store.takeReplica
  split
  · exact (rememberReplica live replica _ st).commit rfl
  · exact refl st

theorem compact (now : ℕ) (st : Store sh) : Enters st (st.compact opts now) := by
  unfold Store.compact
  dsimp only
  split
  · exact of_same rfl rfl rfl
  · split_ifs
    · exact of_same rfl rfl rfl
    · apply commit
      · exact of_same rfl rfl rfl
      · rfl

theorem maybeCompact (now : ℕ) (st : Store sh) : Enters st (st.maybeCompact opts now) := by
  unfold Store.maybeCompact
  dsimp only
  split_ifs
  · exact compact now st
  · exact refl st

theorem judged {mid : Store sh} {live : List String} {now : ℕ} {op : Op} {speaker : Speaker U}
    {lost : List Lost} (hadmits : st.Admits opts now op speaker)
    (hjudged : st.judged opts live now op speaker = .ok (mid, lost)) : Enters st mid := by
  unfold Store.judged at hjudged
  dsimp only at hjudged
  split at hjudged
  · cases hjudged
  next doc applied lost' hjudge =>
  obtain ⟨rfl, -⟩ := Prod.mk.inj (Except.ok.inj hjudged)
  obtain ⟨out, hout, rfl, -⟩ := applied_of_judged hjudge
  have hknown := applied_known hout fun ch hch => (Told.accepts_of_admits hadmits ch hch).known
  apply landed _ hknown
  apply trans _ (rememberReplica live op.replica _ _)
  exact of_same rfl rfl rfl

theorem apply (live : List String) (now : ℕ) (op : Op) (speaker : Speaker U) :
    Enters st (st.apply opts live now op speaker).1 := by
  have happlies := @Store.applies sh U opts st live now op speaker
  generalize st.apply opts live now op speaker = res at happlies
  cases happlies with
  | refused => exact refl st
  | duplicate => exact refl st
  | forbidden => exact of_same rfl rfl rfl
  | decided hadmits hjudged => exact (judged hadmits hjudged).trans (maybeCompact now _)

theorem of_apply {live : List String} {now : ℕ} {op : Op} {speaker : Speaker U}
    {res : Store sh × Speaker U × Except Refusal (List Lost × Bool)}
    (h : st.apply opts live now op speaker = res) : Enters st res.1 := h ▸ apply live now op speaker

theorem own {now : ℕ} {w : OwnWrite} {out : Store sh × List Change} (hown : st.own opts now w = .ok out) :
    Enters st out.1 := by
  obtain ⟨list, out', hw, ha, rfl⟩ := Store.of_own hown
  have hknown := applied_known ha fun ch hch =>
    (Shape.accepts_of_assertChange ((OwnWrite.of_accepted hw).2 ch hch)).known
  apply landed _ hknown
  exact of_same rfl rfl rfl

theorem known (h : Enters st st') (hknown : ∀ entry ∈ logged st.commits, entry.Known sh) :
    ∀ entry ∈ logged st'.commits, entry.Known sh := by
  obtain ⟨new, hcommits, -, hnew⟩ := h.more
  intro entry hentry
  rw [hcommits, logged_append] at hentry
  exact (List.mem_append.mp hentry).elim (hknown entry) (hnew entry)

end Enters

end Store

/-- What leaves the store in place has it go on. -/
theorem Host.enters {e : HostEvent U} {h h' : Host sh} (hlasts : e.lasts = true)
    (hs : h.step opts e = some h') : h.store.Enters h'.store := by
  cases e with
  | wait ms =>
    cases hs
    exact .refl _
  | deliver op speaker live =>
    cases hs
    exact .apply live h.wall op speaker
  | hello replica speaker live =>
    simp only [Host.step] at hs
    split at hs
    · cases hs
      exact .refl _
    · cases hs
      exact .takeReplica live h.wall speaker.user replica _
  | own w =>
    simp only [Host.step] at hs
    split at hs
    · cases hs
      exact .refl _
    · next out hout =>
      cases hs
      exact .own hout
  | compact =>
    cases hs
    exact .compact h.wall _
  | flush =>
    cases hs
    exact .commitNow _
  | reload known epoch => cases hlasts
  | migrate => cases hlasts

/-! ## What is said in a turn -/

/-- Messages that tell of entries of the log in order, and refusals between them. -/
inductive Says : List LogEntry → List Down → Prop
  | nil : Says [] []
  | patch {entries : List LogEntry} {msgs : List Down} (entry : LogEntry) : Says entries msgs →
      Says (entry :: entries) (.patch entry.changes entry.v entry.ts :: msgs)
  | refusal {entries : List LogEntry} {msgs : List Down} (as replica : Option String) (seq : Option ℕ)
      (refusal : Refusal) : Says entries msgs → Says entries (.error as replica seq refusal :: msgs)

namespace Says

variable {entries more : List LogEntry} {msgs others : List Down}

theorem append (h : Says entries msgs) (h' : Says more others) : Says (entries ++ more) (msgs ++ others) := by
  induction h with
  | nil => exact h'
  | patch entry _ ih => exact .patch entry ih
  | refusal as replica seq refusal _ ih => exact .refusal as replica seq refusal ih

theorem patches (entries : List LogEntry) :
    Says entries (entries.map fun e => .patch e.changes e.v e.ts) := by
  induction entries with
  | nil => exact .nil
  | cons entry entries ih => exact .patch entry ih

end Says

/-- One store goes on from another and has nothing left to broadcast: what it entered in the log since is told. -/
structure Store.Broadcasts (st st' : Store sh) (entries : List LogEntry) : Prop where
  epoch : st'.epoch = st.epoch
  effects : st'.effects = []
  more : ∃ new, st'.commits = st.commits ++ new ∧ logged new = entries ∧ ∀ entry ∈ entries, entry.Known sh

namespace Store.Broadcasts

variable {st st' st'' : Store sh} {entries more : List LogEntry}

theorem of_same (hepoch : st'.epoch = st.epoch) (hcommits : st'.commits = st.commits)
    (heffects : st'.effects = []) : Broadcasts st st' [] :=
  ⟨hepoch, heffects, [], by simp [hcommits], rfl, by simp⟩

theorem trans (h : Broadcasts st st' entries) (h' : Broadcasts st' st'' more) : Broadcasts st st'' (entries ++ more) := by
  obtain ⟨new, hcommits, rfl, hknown⟩ := h.more
  obtain ⟨new', hcommits', rfl, hknown'⟩ := h'.more
  refine ⟨h'.epoch.trans h.epoch, h'.effects, new ++ new', ?_, logged_append _ _, fun entry hentry => ?_⟩
  · rw [hcommits', hcommits, List.append_assoc]
  · exact (List.mem_append.mp hentry).elim (hknown entry) (hknown' entry)

/-- Where nothing waits after, nothing was entered. -/
theorem of_quiet (h : st.Enters st') (heffects : st.effects = []) (hafter : st'.effects = []) :
    Broadcasts st st' [] := by
  obtain ⟨new, hcommits, hnew, -⟩ := h.more
  rw [heffects, hafter, List.nil_append] at hnew
  exact ⟨h.epoch, hafter, new, hcommits, hnew.symm, by simp⟩

/-- What is entered is told once it is flushed. -/
theorem of_enters (h : st.Enters st') (heffects : st.effects = []) :
    Broadcasts st st'.flushEffects.1 st'.effects := by
  obtain ⟨new, hcommits, hnew, hknown⟩ := h.more
  rw [heffects, List.nil_append] at hnew
  exact ⟨h.epoch, rfl, new, hcommits, hnew.symm, by rwa [hnew]⟩

end Store.Broadcasts

section Turns

variable (opts) (others : List String) (now : ℕ) {st : Store sh}

/-- What is refused leaves the log, and what waits to be broadcast. -/
theorem Store.apply_refused {live : List String} {now : ℕ} {op : Op} {speaker speaker' : Speaker U} {st' : Store sh}
    {refusal : Refusal} (h : st.apply opts live now op speaker = (st', speaker', .error refusal)) :
    st'.epoch = st.epoch ∧ st'.commits = st.commits ∧ st'.effects = st.effects := by
  have happlies := @Store.applies sh U opts st live now op speaker
  rw [h] at happlies
  cases happlies with
  | refused => exact ⟨rfl, rfl, rfl⟩
  | forbidden => exact ⟨rfl, rfl, rfl⟩

theorem tellOp_broadcasts {told : Told sh U} (heffects : told.store.effects = []) (op : Op) :
    ∃ entries msgs, told.store.Broadcasts (tellOp opts others now true told op).store entries ∧
      Says entries msgs ∧ (tellOp opts others now true told op).said = told.said ++ msgs := by
  have henters : told.store.Enters (told.store.apply opts others now op told.speaker).1 := .apply others now op _
  unfold tellOp
  split
  · next st' speaker lost duplicate heq =>
    rw [heq] at henters
    exact ⟨_, _, .of_enters henters heffects, .patches _, rfl⟩
  · next st' speaker refusal heq =>
    obtain ⟨hepoch, hcommits, hsame⟩ := Store.apply_refused opts heq
    exact ⟨_, _, .of_same hepoch hcommits (hsame.trans heffects), .refusal none _ _ refusal .nil, rfl⟩

theorem tellOps_broadcast (ops : List Op) {told : Told sh U} (heffects : told.store.effects = []) :
    ∃ entries msgs, told.store.Broadcasts (ops.foldl (tellOp opts others now true) told).store entries ∧
      Says entries msgs ∧ (ops.foldl (tellOp opts others now true) told).said = told.said ++ msgs := by
  induction ops generalizing told with
  | nil => exact ⟨[], [], .of_same rfl rfl heffects, .nil, by simp⟩
  | cons op ops ih =>
    obtain ⟨entries, msgs, htold, hmsgs, hsaid⟩ := tellOp_broadcasts opts others now heffects op
    obtain ⟨more, msgs', htold', hmsgs', hsaid'⟩ := ih htold.effects
    refine ⟨_, _, htold.trans htold', hmsgs.append hmsgs', ?_⟩
    rw [List.foldl_cons, hsaid', hsaid, List.append_assoc]

/-- A session that follows, and speaks for nobody but its client. -/
structure Session.Plain (s : Session U) : Prop where
  follows : s.follows = true
  grants : s.grants = none

/-- An op is refused, or acknowledged with the version it leaves. -/
theorem liveOp_answers (op : Op) (as : Option String) (speaker : Speaker U) (st : Store sh) :
    st.Enters (liveOp opts others now op as speaker st).1 ∧
      ((∃ refusal, (liveOp opts others now op as speaker st).2.2.1 = refusalOf op as refusal) ∨
        ∃ time lost, (liveOp opts others now op as speaker st).2.2.1 = .ack as (as.map fun _ => op.replica) op.seq
          (liveOp opts others now op as speaker st).1.version time lost) := by
  have hthrottled : st.Enters (st.throttle opts now (Store.bucketOf opts speaker.user op.replica)).1 := .throttle now _ st
  unfold liveOp
  dsimp only
  split
  · exact ⟨.refl st, .inl ⟨_, rfl⟩⟩
  split_ifs
  · exact ⟨hthrottled, .inl ⟨_, rfl⟩⟩
  split
  · next heq => exact ⟨hthrottled.trans (.of_apply heq), .inr ⟨_, _, rfl⟩⟩
  · next heq => exact ⟨hthrottled.trans (.of_apply heq), .inl ⟨_, rfl⟩⟩

/-- What an op makes is told before its answer, which counts it. -/
theorem receive_op {s : Session U} (hs : s.Plain) (heffects : st.effects = []) (op : Op) :
    ∃ entries answer, st.Broadcasts (s.receive opts others now (.op none op) st).store entries ∧
      (∃ s', (s.receive opts others now (.op none op) st).session = some s' ∧ s'.Plain) ∧
      (s.receive opts others now (.op none op) st).said =
        entries.map (fun e => .patch e.changes e.v e.ts) ++ [answer] ∧
      ((∃ refusal, answer = refusalOf op none refusal) ∨
        ∃ time lost, answer =
          .ack none none op.seq (s.receive opts others now (.op none op) st).store.version time lost) := by
  obtain ⟨henters, hanswer⟩ := liveOp_answers opts (others ++ s.live) now op none s.speaker st
  refine ⟨_, _, .of_enters henters heffects, ⟨_, rfl, ⟨hs.follows, hs.grants⟩⟩, ?_, hanswer⟩
  simp only [Session.receive, Session.afterOp, hs.follows, if_true]
  rfl

/-- A hello let in is answered after all that its ops made. -/
theorem welcome_broadcasts {s : Session U} (hs : s.Plain) (heffects : st.effects = []) (replica : String) (ops : List Op)
    (since : Option (ℕ × String)) (clocks : Bool) :
    let turn := s.welcome opts others now replica ops since clocks false st
    ∃ entries msgs, st.Broadcasts turn.store entries ∧ Says entries msgs ∧
      (∃ s', turn.session = some s' ∧ s'.Plain) ∧
      ∃ lost, turn.said = msgs ++ [turn.store.catchUp now replica clocks since lost] := by
  obtain ⟨hfollows, hgrants⟩ := hs
  have htaken : st.Broadcasts (st.takeReplica opts (others ++ s.live) now s.speaker.user replica) [] :=
    .of_quiet (.takeReplica _ now _ replica st) heffects (by rw [Store.Enters.effects_takeReplica, heffects])
  simp only [Session.welcome, hgrants, hfollows, Bool.and_false, Bool.false_eq_true, if_false, Option.any_none]
  let hailed : Session U :=
    ⟨{ s.speaker with heldUntil := none, speaksFor := some replica }, some replica, s.mayFollow, clocks, true, none, s.held⟩
  let told : Told sh U :=
    ⟨st.takeReplica opts (others ++ s.live) now s.speaker.user replica, hailed.speaker, [], [], [], []⟩
  have heffects' : told.store.effects = [] := htaken.effects
  obtain ⟨entries, msgs, htold, hmsgs, hsaid⟩ :=
    tellOps_broadcast opts (others ++ hailed.live) now (ops.take helloOps) heffects'
  refine ⟨entries, msgs, htaken.trans htold, hmsgs, ⟨_, rfl, ⟨rfl, rfl⟩⟩, ?_⟩
  rw [List.nil_append] at hsaid
  exact ⟨_, congrArg (· ++ [_]) hsaid⟩

/-- A hello is refused, or turned away, or let in. -/
theorem receive_hello {s : Session U} (hs : s.Plain) (heffects : st.effects = []) (replica : String) (ops : List Op)
    (since : Option (ℕ × String)) (clocks : Bool) :
    let turn := s.receive opts others now (.hello replica ops since clocks false) st
    ∃ entries msgs, st.Broadcasts turn.store entries ∧ Says entries msgs ∧
      ((∃ s', turn.session = some s' ∧ s'.Plain) ∧
          (turn.said = msgs ∨ ∃ lost, turn.said = msgs ++ [turn.store.catchUp now replica clocks since lost]) ∨
        turn.session = none ∧ ∃ message, turn.said = msgs ++ [.closed .replicaTaken message]) := by
  simp only [Session.receive, Session.hello, Bool.false_and, Bool.false_eq_true, if_false]
  split
  · next refusal hclaim =>
    split_ifs with hcode
    · refine ⟨[], [], .of_same rfl Store.commits_commitNow heffects, .nil, .inr ⟨rfl, refusal.message, ?_⟩⟩
      rw [hcode, List.nil_append]
    · exact ⟨[], _, .of_same rfl rfl heffects, .refusal none none none refusal .nil, .inl ⟨⟨s, rfl, hs⟩, .inl rfl⟩⟩
  · obtain ⟨buckets, hthrottled⟩ := Store.throttle_eq opts st now (Store.bucketOf opts s.speaker.user replica)
    have hlimited : st.Broadcasts (st.throttle opts now (Store.bucketOf opts s.speaker.user replica)).1 [] := by
      rw [hthrottled]
      exact .of_same rfl rfl heffects
    split_ifs
    · exact ⟨[], _, hlimited, .refusal none none none _ .nil, .inl ⟨⟨s, rfl, hs⟩, .inl rfl⟩⟩
    · obtain ⟨entries, msgs, htold, hmsgs, hsession, hsaid⟩ :=
        welcome_broadcasts opts others now hs hlimited.effects replica ops since clocks
      exact ⟨entries, msgs, hlimited.trans htold, hmsgs, .inl ⟨hsession, .inr hsaid⟩⟩

end Turns

end LazyStorage.Server
