import LazyStorage.Lib.InOrder
import LazyStorage.Client.Link
import LazyStorage.Server.Progress

/-! # No acknowledged edit is lost

What the client lets go of on an acknowledgement has been settled by the store,
as long as nothing it sends live can overtake an older op: the ops pending, those
on the link and the last one the store knows are numbered items over a link that
keeps their order.
-/
namespace LazyStorage.Client

open Lib LazyStorage.Core LazyStorage.Server

variable {sh : Shape} {U : Type}

/-- The store decided the op change by change, or refused it whole. -/
def Settles (history : History) (replica : String) (n : ℕ) : Prop :=
  ∃ how, ((replica, n), how) ∈ history ∧ how ≠ .duplicate

/-- No op was taken for a duplicate before it was settled. -/
def Honest (history : History) : Prop :=
  ∀ pre replica n post, history = pre ++ ((replica, n), .duplicate) :: post → Settles pre replica n

theorem Settles.append {history : History} {replica : String} {n : ℕ} (h : Settles history replica n)
    (more : History) : Settles (history ++ more) replica n := by
  obtain ⟨how, hmem, hhow⟩ := h
  exact ⟨how, List.mem_append_left _ hmem, hhow⟩

theorem settles_new (history : History) (replica : String) (n : ℕ) {how : Settled}
    (hhow : how ≠ .duplicate) : Settles (history ++ [((replica, n), how)]) replica n :=
  ⟨how, by simp, hhow⟩

theorem Honest.concat {history : History} (h : Honest history) {replica : String} {n : ℕ}
    {how : Settled} (hdup : how = .duplicate → Settles history replica n) :
    Honest (history ++ [((replica, n), how)]) := by
  intro pre replica' n' post heq
  rcases List.eq_nil_or_concat post with rfl | ⟨post', last, rfl⟩
  · obtain ⟨rfl, hlast⟩ := List.append_inj' heq rfl
    obtain ⟨hkey, hhow⟩ := Prod.mk.inj (List.singleton_inj.mp hlast)
    obtain ⟨rfl, rfl⟩ := Prod.mk.inj hkey
    exact hdup hhow
  · rw [List.concat_eq_append, ← List.cons_append, ← List.append_assoc] at heq
    obtain ⟨rfl, -⟩ := List.append_inj' heq rfl
    exact h pre replica' n' post' rfl

/-- A message as what it carries. -/
def itemOf : Up → Item
  | .hello _ ops _ _ _ => .batch ((ops.take helloOps).map Op.seq)
  | .op _ op => .single op.seq
  | .leave _ => .batch []

section Store

variable {opts : Options sh U} {st st' : Store sh} {op : Op} {speaker speaker' : Speaker U}
  {made : ℕ} {pending back : List ℕ} {rest : List Item} {history : History}

/-- How an op's answer says it was settled. -/
def howOf : Except Refusal (List Lost × Bool) → Settled
  | .ok (_, true) => .duplicate
  | .ok (_, false) => .decided
  | .error _ => .refused

/-- An op answered other than by a refusal is acknowledged. -/
def acksOf (n : ℕ) : Except Refusal (List Lost × Bool) → List ℕ
  | .ok _ => [n]
  | .error _ => []

/-- The first op on the link settled: it passes no other by. -/
theorem settle_first (hhonest : Honest history)
    (h : InOrder ⟨made, pending, .single op.seq :: rest, back, st.seqOf op.replica, false,
      Settles history op.replica⟩) (live : List String) (now : ℕ) :
    let res := st.apply opts live now op speaker
    let history' := history ++ [((op.replica, op.seq), howOf res.2.2)]
    InOrder ⟨made, pending, rest, back ++ acksOf op.seq res.2.2, res.1.seqOf op.replica, false,
      Settles history' op.replica⟩ ∧ Honest history' ∧ res.2.1.heldUntil = speaker.heldUntil := by
  have happlies := @Store.applies sh U opts st live now op speaker
  generalize st.apply opts live now op speaker = res at happlies
  have hrefused : ∀ how, how ≠ Settled.duplicate →
      InOrder ⟨made, pending, rest, back, st.seqOf op.replica, false,
        Settles (history ++ [((op.replica, op.seq), how)]) op.replica⟩ ∧
      Honest (history ++ [((op.replica, op.seq), how)]) := by
    intro how hhow
    constructor
    · exact (h.settle _ fun n hn => hn.append _).pop rfl (settles_new history _ _ hhow)
    · exact hhonest.concat fun hdup => absurd hdup hhow
  cases happlies with
  | refused refusal hheld =>
    obtain ⟨horder, hhon⟩ := hrefused .refused (by decide)
    refine ⟨?_, hhon, hheld⟩
    rw [acksOf, List.append_nil]
    exact horder
  | duplicate hknown =>
    have hsettled : Settles history op.replica op.seq :=
      h.passed op.seq (.inr ⟨.single op.seq, by simp, by simp [Item.numbers]⟩) hknown
    refine ⟨?_, hhonest.concat fun _ => hsettled, rfl⟩
    have hpop := (h.settle _ fun n hn => hn.append [((op.replica, op.seq), .duplicate)]).pop rfl
      (hsettled.append _)
    exact hpop.answer hknown
  | forbidden hadmits hjudge =>
    obtain ⟨horder, hhon⟩ := hrefused .refused (by decide)
    refine ⟨?_, hhon, rfl⟩
    rw [acksOf, List.append_nil]
    exact horder
  | decided hadmits hjudged =>
    obtain ⟨hfresh, hlast, -⟩ := Store.decided_seqOf hadmits hjudged
    have hhon : Honest (history ++ [((op.replica, op.seq), .decided)]) :=
      hhonest.concat fun hdup => by cases hdup
    refine ⟨?_, hhon, rfl⟩
    have htaken := (h.take rfl rfl hfresh).settle
      (Settles (history ++ [((op.replica, op.seq), .decided)]) op.replica) fun n hn =>
        hn.elim (fun heq => heq ▸ settles_new history _ _ (by decide)) fun hn => hn.append _
    exact (htaken.answer le_rfl).forget hlast

theorem seqOf_throttle (now : ℕ) (key r : String) :
    (st.throttle opts now key).1.seqOf r = st.seqOf r := by
  unfold Store.throttle
  split
  · rfl
  · dsimp only
    split_ifs <;> rfl

theorem upTo_effects (st : Store sh) : st.flushEffects.2.filterMap Down.upTo = [] := by
  unfold Store.flushEffects
  induction st.effects with
  | nil => rfl
  | cons e effects ih => exact ih

theorem upTo_singleton (msg : Down) : [msg].filterMap Down.upTo = msg.upTo.toList := by
  cases h : msg.upTo <;> simp [h]

theorem upTo_refusal (op : Op) (as : Option String) (refusal : Refusal) :
    (refusalOf op as refusal).upTo = none := rfl

theorem upTo_catchUp (now : ℕ) (replica : String) (clocks : Bool) (since : Option (ℕ × String))
    (lost : List (ℕ × List Lost)) (st : Store sh) :
    (st.catchUp now replica clocks since lost).upTo = some (st.seqOf replica) := by
  unfold Store.catchUp
  dsimp only
  split <;> rfl

/-- An op said on its own is held back, with what comes behind it, or settled. -/
theorem liveOp_first (hhonest : Honest history)
    (h : InOrder ⟨made, pending, .single op.seq :: rest, back, st.seqOf op.replica,
      speaker.heldUntil.isSome, Settles history op.replica⟩) (live : List String) (now : ℕ) :
    let out := liveOp opts live now op none speaker st
    InOrder ⟨made, pending, rest, back ++ out.2.2.1.upTo.toList, out.1.seqOf op.replica,
      out.2.1.heldUntil.isSome, Settles (history ++ out.2.2.2) op.replica⟩ ∧
    Honest (history ++ out.2.2.2) := by
  unfold liveOp
  have hfilter : (speaker.heldUntil.filter fun t => (none : Option String).isNone || now < t) =
      speaker.heldUntil := by
    cases speaker.heldUntil <;> rfl
  dsimp only
  rw [hfilter]
  split
  · rename_i t hheld
    simp only [upTo_refusal, Option.toList_none, List.append_nil, hheld]
    exact ⟨h.hold rfl, hhonest⟩
  rename_i hfree
  split_ifs with hwait
  · simp only [upTo_refusal, Option.toList_none, List.append_nil, Option.isSome_some, seqOf_throttle]
    exact ⟨h.hold rfl, hhonest⟩
  generalize hlimited : (st.throttle opts now (Store.bucketOf opts speaker.user op.replica)).1 = mid
  have hmid : mid.seqOf op.replica = st.seqOf op.replica := hlimited ▸ seqOf_throttle _ _ _
  rw [hfree, ← hmid] at h
  have hsettled := @settle_first sh U opts mid op { speaker with heldUntil := none }
    _ _ _ _ _ hhonest h live now
  rw [hfree]
  generalize mid.apply opts live now op { speaker with heldUntil := none } = res at hsettled
  obtain ⟨st', speaker', answer⟩ := res
  obtain ⟨horder, hhon, hheld⟩ := hsettled
  dsimp only at hheld
  cases answer with
  | error refusal =>
    simp only [hheld]
    exact ⟨horder, hhon⟩
  | ok answer =>
    obtain ⟨lost, duplicate⟩ := answer
    simp only [hheld]
    cases duplicate <;> exact ⟨horder, hhon⟩

/-- What is told of a hello's op: how it was settled; it is not acknowledged on its own. -/
theorem tellOp_of_apply {follows : Bool} {live : List String} {now : ℕ} {told : Told sh U}
    {res : Store sh × Speaker U × Except Refusal (List Lost × Bool)}
    (h : told.store.apply opts live now op told.speaker = res) :
    let told' := tellOp opts live now follows told op
    told'.history = told.history ++ [((op.replica, op.seq), howOf res.2.2)] ∧
    told'.speaker = res.2.1 ∧ told'.store.replicas = res.1.replicas ∧
    told'.said.filterMap Down.upTo = told.said.filterMap Down.upTo := by
  obtain ⟨st', speaker', answer⟩ := res
  unfold tellOp
  rw [h]
  cases answer with
  | error refusal => simp [howOf, upTo_refusal]
  | ok answer =>
    obtain ⟨lost, duplicate⟩ := answer
    have hsaid : (told.said ++ if follows then st'.flushEffects.2 else []).filterMap Down.upTo =
        told.said.filterMap Down.upTo := by
      rw [List.filterMap_append]
      cases follows <;> simp [upTo_effects]
    cases duplicate <;> exact ⟨rfl, rfl, rfl, hsaid⟩

/-- The ops of a hello settled one after another: the rest of the link stays in order. -/
theorem tellOp_all {replica : String} {follows : Bool} {live : List String} {now : ℕ}
    {ops : List Op} {told : Told sh U} (hops : ∀ op ∈ ops, op.replica = replica)
    (hheld : told.speaker.heldUntil = none) (hsaid : told.said.filterMap Down.upTo = [])
    (hhonest : Honest (history ++ told.history))
    (h : InOrder ⟨made, pending, (ops.map Op.seq).map Item.single ++ rest, back,
      told.store.seqOf replica, false, Settles (history ++ told.history) replica⟩) :
    let told' := ops.foldl (tellOp opts live now follows) told
    InOrder ⟨made, pending, rest, back, told'.store.seqOf replica, false,
      Settles (history ++ told'.history) replica⟩ ∧
    Honest (history ++ told'.history) ∧ told'.speaker.heldUntil = none ∧
    told'.said.filterMap Down.upTo = [] := by
  induction ops generalizing told with
  | nil => exact ⟨h, hhonest, hheld, hsaid⟩
  | cons op ops ih =>
    obtain rfl := hops op (by simp)
    obtain ⟨horder, hhon, hspeaker⟩ :=
      @settle_first sh U opts told.store op told.speaker made pending back _ _ hhonest h live now
    obtain ⟨hhistory, hspeaker', hreplicas, hsaid'⟩ := @tellOp_of_apply sh U opts op follows live now told _ rfl
    have hseq : (tellOp opts live now follows told op).store.seqOf op.replica =
        (told.store.apply opts live now op told.speaker).1.seqOf op.replica := by
      unfold Store.seqOf
      rw [hreplicas]
    apply ih (fun op' hop' => hops op' (List.mem_cons_of_mem _ hop'))
    · rw [hspeaker', hspeaker, hheld]
    · rw [hsaid', hsaid]
    · rw [hhistory, ← List.append_assoc]
      exact hhon
    · rw [hhistory, ← List.append_assoc, hseq]
      exact horder.shrink (List.Sublist.refl _) fun b hb => List.mem_append_left _ hb

/-- A message of the client's own. -/
def Ours (replica : String) : Up → Prop
  | .hello r ops _ _ follower => r = replica ∧ follower = false ∧ ∀ op ∈ ops, op.replica = replica
  | .op as op => as = none ∧ op.replica = replica
  | .leave _ => False

/-- A message of the client's taken off the link by the session: what comes behind it stays in
order, and what is answered is settled. -/
theorem receive_first {replica : String} {msg : Up} {session : Session U} (hours : Ours replica msg)
    (hgrants : session.grants = none) (hhonest : Honest history)
    (h : InOrder ⟨made, pending, itemOf msg :: rest, back, st.seqOf replica,
      session.speaker.heldUntil.isSome, Settles history replica⟩) (others : List String) (now : ℕ) :
    let turn := session.receive opts others now msg st
    InOrder ⟨made, pending, rest, back ++ turn.said.filterMap Down.upTo, turn.store.seqOf replica,
      turn.session.elim true (·.speaker.heldUntil.isSome), Settles (history ++ turn.history) replica⟩ ∧
    Honest (history ++ turn.history) ∧ ∀ s, turn.session = some s → s.grants = none := by
  cases msg with
  | leave as => exact hours.elim
  | op as op =>
    obtain ⟨rfl, rfl⟩ := hours
    obtain ⟨horder, hhon⟩ :=
      @liveOp_first sh U opts st op session.speaker made pending back rest history hhonest h
        (others ++ session.live) now
    simp only [Session.receive, Session.afterOp]
    refine ⟨?_, hhon, fun s hs => ?_⟩
    · rw [List.filterMap_append]
      have hpatches : (if session.follows then
          (liveOp opts (others ++ session.live) now op none session.speaker st).1.flushEffects.2
          else []).filterMap Down.upTo = [] := by
        split_ifs
        · exact upTo_effects _
        · rfl
      rw [hpatches, List.nil_append, upTo_singleton]
      exact horder
    · obtain rfl := Option.some.inj hs
      exact hgrants
  | hello r ops since clocks follower =>
    obtain ⟨rfl, rfl, hops⟩ := hours
    have hskip : InOrder ⟨made, pending, rest, back, st.seqOf r,
        session.speaker.heldUntil.isSome, Settles history r⟩ := h.skip rfl
    simp only [Session.receive, Session.hello, Bool.false_and, Bool.false_eq_true, if_false]
    split
    · split_ifs
      · refine ⟨?_, by simpa using hhonest, by simp⟩
        simp only [upTo_singleton, Down.upTo, Option.toList_none, List.append_nil]
        exact hskip.raise
      · exact ⟨by simpa [upTo_singleton, Down.upTo] using hskip, by simpa using hhonest,
          by simpa using hgrants⟩
    split_ifs with hwait
    · exact ⟨by simpa [upTo_singleton, Down.upTo, seqOf_throttle] using hskip, by simpa using hhonest,
        by simpa using hgrants⟩
    simp only [Session.welcome, hgrants, Bool.and_false, Bool.false_eq_true, if_false, Option.any_none]
    -- the hello lets go of the hold, and its ops come one by one
    have hbehind : ∀ live user, Store.Behind st
        ((st.throttle opts now (Store.bucketOf opts session.speaker.user r)).1.takeReplica opts live
          now user r) := fun live user =>
      fun r' => (Store.behind_takeReplica r').trans (seqOf_throttle now _ r').le
    generalize hmid : (st.throttle opts now (Store.bucketOf opts session.speaker.user r)).1.takeReplica
      opts (others ++ session.live) now session.speaker.user r = mid
    have hopened : InOrder ⟨made, pending, ((ops.take helloOps).map Op.seq).map Item.single ++ rest,
        back, mid.seqOf r, false, Settles (history ++ []) r⟩ := by
      rw [List.append_nil]
      exact (h.openBatch rfl).forget (hmid ▸ hbehind _ _ r)
    let told : Told sh U := ⟨mid, { session.speaker with heldUntil := none, speaksFor := some r },
      [], [], [], []⟩
    have htold := fun live => @tellOp_all sh U opts made pending back rest history r session.follows live
      now (ops.take helloOps) told (fun op hop => hops op (List.mem_of_mem_take hop)) rfl rfl
      (by simpa [told] using hhonest) hopened
    refine ⟨?_, (htold _).2.1, by simp⟩
    rw [List.filterMap_append, (htold _).2.2.2, List.nil_append, upTo_singleton, upTo_catchUp,
      Option.elim_some, (htold _).2.2.1]
    exact (htold _).1.answer le_rfl

end Store

/-- What is left of the outbox keeps its numbers and its order. -/
theorem supersede_from (changes : List Change) (outbox : List Op) :
    ((supersede changes outbox).map Op.seq).Sublist (outbox.map Op.seq) ∧
      ∀ op ∈ supersede changes outbox, ∃ older ∈ outbox, op.replica = older.replica := by
  unfold supersede
  dsimp only
  split_ifs
  · exact ⟨List.Sublist.refl _, fun op hop => ⟨op, hop, rfl⟩⟩
  generalize hkept : (fun older : Op => _ : Op → Option Op) = keep
  have hfrom : ∀ older op, keep older = some op → op.seq = older.seq ∧ op.replica = older.replica := by
    intro older op h
    rw [← hkept] at h
    dsimp only at h
    split_ifs at h
    · obtain rfl := Option.some.inj h
      exact ⟨rfl, rfl⟩
    · obtain rfl := Option.some.inj h
      exact ⟨rfl, rfl⟩
  constructor
  · induction outbox with
    | nil => simp
    | cons older outbox ih =>
      cases h : keep older with
      | none =>
        rw [List.filterMap_cons_none h, List.map_cons]
        exact ih.cons _
      | some op =>
        rw [List.filterMap_cons_some h, List.map_cons, List.map_cons, (hfrom older op h).1]
        exact ih.cons_cons _
  · intro op hop
    obtain ⟨older, holder, h⟩ := List.mem_filterMap.mp hop
    exact ⟨older, holder, (hfrom older op h).2⟩

namespace System

/-- What the link carries. -/
def link (s : System sh U) : List Item := s.up.map itemOf

/-- Whether the store holds the client's ops back, or does not read them any more. -/
def held (s : System sh U) : Bool := s.session.elim true (·.speaker.heldUntil.isSome)

def settled (s : System sh U) : ℕ → Prop := Settles s.history s.client.replica

def line (s : System sh U) : Line where
  made := s.client.seq
  pending := s.client.outbox.map Op.seq
  link := s.link
  back := s.down.filterMap Down.upTo
  last := s.host.store.seqOf s.client.replica
  held := s.held
  settled := s.settled

/-- What is sent now cannot overtake these ops, as far as the store has not settled them. -/
def Clears (ops : List Op) (s : System sh U) : Prop :=
  ∀ op ∈ ops, ¬ s.settled op.seq → Follows s.held s.link op.seq

/-- What is sent live overtakes no older op: an edit as it is made, and what the answer to a hello
lets go. -/
def Orderly (e : Event U) (s : System sh U) : Prop :=
  match e with
  | .edit changes _ => s.client.live = true → s.Clears (supersede changes s.client.outbox)
  | .deliver _ => ∀ msg down, s.down = msg :: down → ∀ seq, msg.answers = some seq →
      s.client.linked = true → s.client.throttled = false →
      (∃ newer ∈ s.client.outbox, seq < newer.seq ∧ s.client.answered < newer.seq) →
      s.Clears (s.client.outbox.filter fun op => seq < op.seq && op.seq ≤ s.client.answered)
  | _ => True

/-- The line keeps the order of the client's ops, and what was acknowledged is settled. -/
structure Sound (s : System sh U) : Prop where
  order : InOrder s.line
  mine : ∀ op ∈ s.client.outbox, op.replica = s.client.replica
  ours : ∀ msg ∈ s.up, Ours s.client.replica msg
  alone : ∀ session, s.session = some session → session.grants = none
  acked : ∀ n ∈ s.acked, s.settled n
  honest : Honest s.history

variable {s : System sh U}

theorem Sound.start {host : Host sh} {replica : String} (h : host.store.seqOf replica = 0)
    (wantsClocks : Bool) : Sound (start host replica wantsClocks : System sh U) where
  order := by
    constructor <;> simp [line, link, System.start, Mirror.create, Waiting, h]
  mine := by simp [System.start, Mirror.create]
  ours := by simp [System.start]
  alone := by simp [System.start]
  acked := by simp [System.start]
  honest := by
    intro pre replica n post heq
    simp [System.start] at heq

/-- The client goes on, with no new op and what is left of its outbox. -/
theorem Sound.goOn (h : Sound s) {c : Mirror sh} (hreplica : c.replica = s.client.replica)
    (hseq : c.seq = s.client.seq) (houtbox : c.outbox.Sublist s.client.outbox) :
    Sound { s with client := c } where
  order := by
    have hshrunk := h.order.shrink (houtbox.map Op.seq) fun b hb => hb
    simpa [line, link, held, settled, hreplica, hseq] using hshrunk
  mine op hop := hreplica ▸ h.mine op (houtbox.subset hop)
  ours msg hmsg := hreplica ▸ h.ours msg hmsg
  alone := h.alone
  acked n hn := by
    have hsettled := h.acked n hn
    simpa [settled, hreplica] using hsettled
  honest := h.honest

/-- A message off the way back: what it acknowledges is settled. -/
theorem Sound.hears (h : Sound s) {msg : Down} {down : List Down} (hdown : s.down = msg :: down) :
    Sound { s with
      down, acked := s.acked ++ msg.upTo.elim [] fun n =>
        (s.client.outbox.filter (·.seq ≤ n)).map Op.seq } where
  order := by
    refine h.order.shrink (List.Sublist.refl _) fun b hb => ?_
    rw [line, hdown]
    exact (List.Sublist.filterMap _ (List.sublist_cons_self _ _)).subset hb
  mine := h.mine
  ours := h.ours
  alone := h.alone
  acked n hn := by
    rcases List.mem_append.mp hn with hn | hn
    · exact h.acked n hn
    cases hupTo : msg.upTo with
    | none => simp [hupTo] at hn
    | some upTo =>
      simp only [hupTo, Option.elim_some, List.mem_map, List.mem_filter, decide_eq_true_eq] at hn
      obtain ⟨op, ⟨hop, hle⟩, rfl⟩ := hn
      refine h.order.answered upTo ?_ op.seq (List.mem_map_of_mem hop) hle
      rw [line, hdown]
      exact List.mem_filterMap.mpr ⟨msg, by simp, hupTo⟩
  honest := h.honest

/-- A patch lost. -/
theorem Sound.loses (h : Sound s) (i : ℕ) : Sound { s with down := s.down.eraseIdx i } where
  order := h.order.shrink (List.Sublist.refl _) fun _ hb =>
    (List.Sublist.filterMap _ (List.eraseIdx_sublist _ _)).subset hb
  mine := h.mine
  ours := h.ours
  alone := h.alone
  acked := h.acked
  honest := h.honest

theorem Sound.cuts (h : Sound s) : Sound s.cut where
  order := h.order.cut true
  mine := h.mine
  ours := by simp [cut]
  alone := by simp [cut]
  acked := h.acked
  honest := h.honest

theorem Sound.hangsUp (h : Sound s) : Sound ({ s with session := none } : System sh U) where
  order := h.order.raise
  mine := h.mine
  ours := h.ours
  alone := by simp
  acked := h.acked
  honest := h.honest

/-- The pending ops said in a hello. -/
theorem Sound.says (h : Sound s) (since : Option (ℕ × String)) (clocks : Bool) :
    Sound { s with up := s.up ++
      [.hello s.client.replica (s.client.outbox.take helloLimit) since clocks false] } where
  order := by
    have hprefix : (s.client.outbox.take helloLimit).map Op.seq <+: s.line.pending :=
      (List.take_prefix _ _).map _
    have hsaid := h.order.say hprefix
    simpa [line, link, held, settled, itemOf, helloLimit, helloOps, List.take_take] using hsaid
  mine := h.mine
  ours msg hmsg := by
    rcases List.mem_append.mp hmsg with hmsg | hmsg
    · exact h.ours msg hmsg
    · obtain rfl := List.mem_singleton.mp hmsg
      exact ⟨rfl, rfl, fun op hop => h.mine op (List.mem_of_mem_take hop)⟩
  alone := h.alone
  acked := h.acked
  honest := h.honest

/-- Pending ops sent live, in order: those they could overtake are among them, or cleared. -/
theorem Sound.sends (h : Sound s) {ops : List Op} (hops : ops.Sublist s.client.outbox)
    (hclear : ∀ op ∈ s.client.outbox, (∃ newer ∈ ops, op.seq < newer.seq) →
      op ∈ ops ∨ (¬ s.settled op.seq → Follows s.held s.link op.seq)) :
    Sound { s with up := s.up ++ ops.map (.op none) } where
  order := by
    have hsorted := h.order.sorted.sublist (hops.map Op.seq)
    have hsent := h.order.sendAll hsorted (fun m hm => (hops.map Op.seq).subset hm)
      fun n hn hopen hex => by
        obtain ⟨op, hop, rfl⟩ := List.mem_map.mp hn
        obtain ⟨m, hm, hlt⟩ := hex
        obtain ⟨newer, hnewer, rfl⟩ := List.mem_map.mp hm
        exact (hclear op hop ⟨newer, hnewer, hlt⟩).imp (fun hmem => List.mem_map_of_mem hmem)
          fun hfollows => hfollows hopen
    simpa [line, link, held, settled, itemOf, Function.comp_def] using hsent
  mine := h.mine
  ours msg hmsg := by
    rcases List.mem_append.mp hmsg with hmsg | hmsg
    · exact h.ours msg hmsg
    · obtain ⟨op, hop, rfl⟩ := List.mem_map.mp hmsg
      exact ⟨rfl, h.mine op (hops.subset hop)⟩
  alone := h.alone
  acked := h.acked
  honest := h.honest

/-- One more op, that takes over from older ones; it goes live if it overtakes none. -/
theorem Sound.edits (h : Sound s) {changes : List Change} {now : ℤ}
    (hclear : s.client.live = true → s.Clears (supersede changes s.client.outbox)) :
    Sound (s.act (s.client.edit changes now)) := by
  obtain ⟨hsub, hfrom⟩ := supersede_from changes s.client.outbox
  have hmade := (h.order.shrink hsub fun b hb => hb).make
  have hseq : ∀ op ∈ s.client.outbox, op.seq ≤ s.client.seq := fun op hop =>
    h.order.made op.seq (.inl (List.mem_map_of_mem hop))
  constructor
  · have hedited : InOrder { s.line with
        made := s.client.seq + 1
        pending := (supersede changes s.client.outbox).map Op.seq ++ [s.client.seq + 1]
        link := s.link ++ if s.client.live then [.single (s.client.seq + 1)] else [] } := by
      split_ifs with hlive
      · refine hmade.send (by simp [line]) fun n hn hlt hopen => ?_
        rcases List.mem_append.mp hn with hn | hn
        · obtain ⟨op, hop, rfl⟩ := List.mem_map.mp hn
          exact hclear hlive op hop hopen
        · have heq := List.mem_singleton.mp hn
          dsimp only [line] at heq
          omega
      · simpa [line] using hmade
    have hitems : (if s.client.live then [Up.op none
        ⟨s.client.replica, s.client.seq + 1, (s.client.clock.stamp now).1, changes⟩] else []).map itemOf =
        if s.client.live then [.single (s.client.seq + 1)] else [] := by
      split_ifs <;> rfl
    simpa [line, link, held, settled, act, Mirror.edit, hitems] using hedited
  · intro op hop
    simp only [act, Mirror.edit, List.mem_append, List.mem_singleton] at hop ⊢
    rcases hop with hop | rfl
    · obtain ⟨older, holder, heq⟩ := hfrom op hop
      exact heq.trans (h.mine older holder)
    · rfl
  · intro msg hmsg
    simp only [act, Mirror.edit, List.mem_append] at hmsg ⊢
    rcases hmsg with hmsg | hmsg
    · exact h.ours msg hmsg
    · split_ifs at hmsg with hlive
      · obtain rfl := List.mem_singleton.mp hmsg
        exact ⟨rfl, rfl⟩
      · simp at hmsg
  · exact h.alone
  · exact h.acked
  · exact h.honest

theorem Sound.hello (h : Sound s) : Sound (s.act s.client.hello) := by
  have hgone : Sound { s with client := s.client.hello.1 } :=
    h.goOn rfl rfl (List.Sublist.refl _)
  exact hgone.says _ _

/-- The store takes the client's message off the link, unless the session has ended. -/
theorem Sound.receives (h : Sound s) {opts : Options sh U} {others : List String} {msg : Up}
    {up : List Up} (hup : s.up = msg :: up) : Sound (s.receive opts others msg up) := by
  have hours : Ours s.client.replica msg := h.ours msg (by simp [hup])
  have hrest : ∀ m ∈ up, Ours s.client.replica m := fun m hm => h.ours m (by simp [hup, hm])
  have hlink : s.line.link = itemOf msg :: up.map itemOf := by simp [line, link, hup]
  unfold System.receive
  cases hsession : s.session with
  | none =>
    refine ⟨?_, h.mine, hrest, by simp, h.acked, h.honest⟩
    have hheld : s.line.held = true := by simp [line, held, hsession]
    have hdropped : InOrder { s.line with link := up.map itemOf } := by
      cases msg with
      | hello r ops since clocks follower => exact h.order.skip hlink
      | op as op =>
        have hkept := h.order.hold hlink
        rwa [← hheld] at hkept
      | leave as => exact hours.elim
    simpa [line, link, held, settled, hsession] using hdropped
  | some session =>
    have hline : InOrder ⟨s.client.seq, s.client.outbox.map Op.seq, itemOf msg :: up.map itemOf,
        s.down.filterMap Down.upTo, s.host.store.seqOf s.client.replica,
        session.speaker.heldUntil.isSome, Settles s.history s.client.replica⟩ := by
      have horder := h.order
      simpa [line, link, held, settled, hup, hsession] using horder
    obtain ⟨horder, hhonest, halone⟩ := @receive_first sh U opts s.host.store _ _ _ _ _ _ _ _ hours
      (h.alone session hsession) h.honest hline others s.host.wall
    refine ⟨?_, h.mine, hrest, halone, fun n hn => (h.acked n hn).append _, hhonest⟩
    simpa [line, link, held, settled] using horder

/-- A client as it was, as far as its ops go. -/
structure SameOps (c c' : Mirror sh) : Prop where
  replica : c'.replica = c.replica
  seq : c'.seq = c.seq
  outbox : c'.outbox = c.outbox
  linked : c'.linked = c.linked
  throttled : c'.throttled = c.throttled
  answered : c'.answered = c.answered

theorem sameOps_entries (ops : List LogEntry) (c : Mirror sh) :
    SameOps c (ops.foldl (fun c entry => c.intoBase entry.changes entry.ts) c) := by
  induction ops generalizing c with
  | nil => exact ⟨rfl, rfl, rfl, rfl, rfl, rfl⟩
  | cons entry ops ih =>
    obtain ⟨hreplica, hseq, houtbox, hlinked, hthrottled, hanswered⟩ := ih (c.intoBase entry.changes entry.ts)
    exact ⟨hreplica, hseq, houtbox, hlinked, hthrottled, hanswered⟩

/-- A hello answered: what it settled is let go of, and the rest goes live, in order. -/
theorem Sound.catchesUp (h : Sound s) {seq v serverNow : ℕ} {epoch : String} {now : ℤ}
    {applyToBase : Mirror sh → Mirror sh} (happly : ∀ c, SameOps c (applyToBase c))
    (hclear : s.client.linked = true → s.client.throttled = false →
      (∃ newer ∈ s.client.outbox, seq < newer.seq ∧ s.client.answered < newer.seq) →
      s.Clears (s.client.outbox.filter fun op => seq < op.seq && op.seq ≤ s.client.answered)) :
    Sound (s.act (s.client.caughtUp seq v epoch serverNow now applyToBase)) := by
  unfold Mirror.caughtUp
  dsimp only
  obtain ⟨hreplica, hseq, houtbox, hlinked, hthrottled, hanswered⟩ :=
    happly (Mirror.acknowledge seq { s.client with clock := s.client.clock.adopt serverNow now })
  generalize applyToBase (Mirror.acknowledge seq
    { s.client with clock := s.client.clock.adopt serverNow now }) = c at *
  have hrest : c.outbox.Sublist s.client.outbox := by
    rw [houtbox]
    exact List.filter_sublist
  have hgone : Sound { s with client := { c with known := ⟨some epoch, v⟩, synced := true } } :=
    h.goOn hreplica hseq hrest
  split_ifs with hlive
  · refine hgone.sends List.filter_sublist fun op hop hex => ?_
    by_cases hgoes : c.answered < op.seq
    · exact .inl (List.mem_filter.mpr ⟨hop, by simpa using hgoes⟩)
    right
    have hmem : ∀ o ∈ c.outbox, o ∈ s.client.outbox ∧ seq < o.seq := fun o ho => by
      rw [houtbox] at ho
      simpa [Mirror.acknowledge] using ho
    obtain ⟨newer, hnewer, hlt⟩ := hex
    obtain ⟨hnewer, hgoes'⟩ := List.mem_filter.mp hnewer
    simp only [Mirror.live, Bool.and_true, Bool.and_eq_true, Bool.not_eq_true'] at hlive
    have hcleared := hclear (hlinked ▸ hlive.1) (hthrottled ▸ hlive.2)
      ⟨newer, (hmem newer hnewer).1, (hmem newer hnewer).2, by
        rw [← show c.answered = s.client.answered from hanswered]
        simpa using hgoes'⟩
    have hfollows := hcleared op (by
      simp only [List.mem_filter, Bool.and_eq_true, decide_eq_true_eq]
      refine ⟨(hmem op hop).1, (hmem op hop).2, ?_⟩
      rw [← show c.answered = s.client.answered from hanswered]
      omega)
    have hown : c.replica = s.client.replica := hreplica
    simpa [settled, held, link, hown] using hfollows
  · simpa [act] using hgone

/-- The client takes a message off the link: what it acknowledges is settled. -/
theorem Sound.delivers (h : Sound s) {now : ℤ} {msg : Down} {down : List Down}
    (hdown : s.down = msg :: down) (hclear : Orderly (.deliver now : Event U) s) :
    Sound (s.deliver now msg down) := by
  have hheard := h.hears hdown
  have hclear := hclear msg down hdown
  unfold System.deliver
  dsimp only
  generalize hs : ({ s with
    down
    acked := s.acked ++ msg.upTo.elim [] fun n =>
      (s.client.outbox.filter (·.seq ≤ n)).map Op.seq } : System sh U) = heard at hheard ⊢
  have hsame : heard.client = s.client := by rw [← hs]
  have hsettled : ∀ ops, s.Clears ops → heard.Clears ops := by
    rw [← hs]
    exact fun ops hops => hops
  suffices hout : Sound (act (s.client.handle msg now) heard) by
    split_ifs
    · exact hout
    · exact hout.cuts
  rw [← hsame] at hclear ⊢
  have hquiet : ∀ c : Mirror sh, c.replica = heard.client.replica → c.seq = heard.client.seq →
      c.outbox.Sublist heard.client.outbox → Sound (act (c, []) heard) := fun c hr hseq hsub => by
    simpa [act] using hheard.goOn hr hseq hsub
  cases msg with
  | snapshot records seq v epoch serverNow lost =>
    exact hheard.catchesUp (fun c => ⟨rfl, rfl, rfl, rfl, rfl, rfl⟩) fun hl ht hex =>
      hsettled _ (hclear seq rfl hl ht hex)
  | delta ops seq v epoch serverNow lost =>
    exact hheard.catchesUp (fun c => sameOps_entries ops c) fun hl ht hex =>
      hsettled _ (hclear seq rfl hl ht hex)
  | patch changes v ts =>
    unfold Mirror.handle
    dsimp only
    split_ifs
    · exact hquiet _ rfl rfl (List.Sublist.refl _)
    · have hgone : Sound { heard with client := { heard.client with synced := false } } :=
        hheard.goOn rfl rfl (List.Sublist.refl _)
      exact hgone.hello
    · exact hquiet _ rfl rfl (List.Sublist.refl _)
  | ack as replica seq v serverNow lost => exact hquiet _ rfl rfl List.filter_sublist
  | error as replica seq refusal =>
    unfold Mirror.handle
    dsimp only
    split_ifs
    · exact hquiet _ rfl rfl (List.Sublist.refl _)
    · cases seq with
      | some seq => exact hquiet _ rfl rfl List.eraseP_sublist
      | none => exact hquiet _ rfl rfl (List.Sublist.refl _)
  | closed code message =>
    unfold Mirror.handle
    dsimp only
    split_ifs
    · exact hquiet _ rfl rfl (List.Sublist.refl _)
    · exact hquiet _ rfl rfl (List.Sublist.refl _)
  | revoked as code message => exact hquiet _ rfl rfl (List.Sublist.refl _)

/-- What others do moves the client's replica nowhere, and acknowledges nothing. -/
theorem Sound.hosts (h : Sound s) {opts : Options sh U} {e : HostEvent U} {host : Host sh}
    (hspares : e.spares s.client.replica = true) (hs : s.host.step opts e = some host) :
    Sound (s.hear host) := by
  have hbehind : host.store.seqOf s.client.replica ≤ s.host.store.seqOf s.client.replica := by
    cases e with
    | wait ms =>
      obtain rfl := Option.some.inj hs
      exact le_rfl
    | deliver op speaker live =>
      obtain rfl := Option.some.inj hs
      exact Store.apply_other (Ne.symm (of_decide_eq_true hspares))
    | hello replica speaker live =>
      simp only [Host.step] at hs
      split at hs
      · obtain rfl := Option.some.inj hs
        exact le_rfl
      · obtain rfl := Option.some.inj hs
        exact Store.behind_takeReplica _
    | own w =>
      simp only [Host.step] at hs
      split at hs
      · obtain rfl := Option.some.inj hs
        exact le_rfl
      · rename_i out hown
        obtain rfl := Option.some.inj hs
        exact Store.behind_own hown _
    | compact =>
      obtain rfl := Option.some.inj hs
      exact Store.behind_compact _ _
    | flush =>
      obtain rfl := Option.some.inj hs
      exact le_rfl
    | reload known epoch => simp [HostEvent.spares] at hspares
    | migrate => simp [HostEvent.spares] at hspares
  have hpatches : (if s.session.any Session.follows then host.store.flushEffects.2
      else []).filterMap Down.upTo = [] := by
    split_ifs
    · exact upTo_effects _
    · rfl
  refine ⟨?_, h.mine, h.ours, h.alone, h.acked, h.honest⟩
  have horder := h.order.forget hbehind
  simpa [line, link, held, settled, hear, hpatches] using horder

/-- One event keeps the line in order. -/
theorem Sound.step (h : Sound s) {opts : Options sh U} {e : Event U} {s' : System sh U}
    (hclear : Orderly e s) (hs : s.step opts e = some s') : Sound s' := by
  cases e with
  | edit changes now =>
    simp only [System.step, Option.ite_none_left_eq_some, Option.some.injEq] at hs
    obtain ⟨-, rfl⟩ := hs
    exact h.edits hclear
  | retry =>
    simp only [System.step, Option.ite_none_right_eq_some, Option.some.injEq] at hs
    obtain ⟨-, rfl⟩ := hs
    have hgone : Sound { s with client := { s.client with retrying := false } } :=
      h.goOn rfl rfl (List.Sublist.refl _)
    unfold Mirror.retry
    dsimp only
    split_ifs
    · exact hgone.hello
    · simpa [act] using hgone
  | wantPresence =>
    obtain rfl := Option.some.inj hs
    unfold Mirror.wantPresence
    split_ifs
    · exact h.hello
    · simpa [act] using h
  | opens user writes =>
    simp only [System.step, Option.ite_none_left_eq_some, Option.some.injEq] at hs
    obtain ⟨-, rfl⟩ := hs
    have hopened : Sound ({ s.cut with
        session := some (.create user false writes)
        host := { s.host with store := s.host.store.commitNow }
        client := { s.client with linked := true, synced := false } } : System sh U) := by
      refine ⟨?_, h.mine, by simp [cut], by simp [Session.create], h.acked, h.honest⟩
      have horder := h.order.cut false
      simpa [line, link, held, settled, cut, Session.create] using horder
    exact hopened.hello
  | closes =>
    simp only [System.step, Option.ite_none_right_eq_some, Option.some.injEq] at hs
    obtain ⟨-, rfl⟩ := hs
    exact h.cuts.goOn rfl rfl (List.Sublist.refl _)
  | hangsUp =>
    obtain rfl := Option.some.inj hs
    exact h.hangsUp
  | receive others =>
    simp only [System.step] at hs
    split at hs
    · cases hs
    · rename_i msg up hup
      obtain rfl := Option.some.inj hs
      exact h.receives hup
  | deliver now =>
    simp only [System.step] at hs
    split at hs
    · cases hs
    · rename_i msg down hdown
      obtain rfl := Option.some.inj hs
      exact h.delivers hdown hclear
  | lose i =>
    simp only [System.step, Option.ite_none_right_eq_some, Option.some.injEq] at hs
    obtain ⟨-, rfl⟩ := hs
    exact h.loses i
  | host e =>
    simp only [System.step, Option.ite_none_right_eq_some, Option.map_eq_some_iff] at hs
    obtain ⟨hspares, host, hhost, rfl⟩ := hs
    exact h.hosts hspares hhost

end System

/-- In a run in which nothing sent live can overtake an older op that is not settled, whatever the
client lets go of on an acknowledgement was settled before, and the store took nothing for a
duplicate that it had not settled. -/
theorem acknowledged_settled {opts : Options sh U} {host : Host sh} {replica : String}
    (h : host.store.seqOf replica = 0) (wantsClocks : Bool) {s : System sh U}
    (hrun : Reaches (System.step opts) System.Orderly (System.start host replica wantsClocks) s) :
    (∀ n ∈ s.acked, Settles s.history s.client.replica n) ∧
      ∀ pre r n post, s.history = pre ++ ((r, n), .duplicate) :: post → Settles pre r n := by
  have hsound : s.Sound := by
    apply hrun.invariant (System.Sound.start h wantsClocks)
    intro e s s' hs hclear hstep
    exact hs.step hclear hstep
  exact ⟨hsound.acked, hsound.honest⟩

/-- A store of tasks that lets one op or hello through a second. -/
def limited : Options board Unit where
  rules := ⟨false, []⟩
  validate := none
  retention := none
  compactEvery := 1
  deltaLog := 100
  maxChanges := 100
  maxReplicas := 10
  rateLimit := some ⟨1, 1⟩
  groupCommit := false
  ownerKey := fun _ => "me"

/-- A task made. -/
def newTask (id : String) : List Change := [⟨"tasks", some id, [], .put (.obj [])⟩]

/-- A client that has not been heard yet, and a store whose clock reads 1000. -/
def atFirst : System board Unit := System.start (Host.start limited "e" 1000) "c" true

/-- An edit made before the hello is answered is said in a second one, which the rate limit turns
away; the answer to the first has the client go live, and the next edit overtakes the one before. -/
def overtaking : List (Event Unit) :=
  [.opens (some ()) true, .edit (newTask "a") 1000, .wantPresence, .receive [], .receive [],
    .deliver 1000, .edit (newTask "b") 1000, .host (.wait 1000), .receive [], .deliver 2000,
    .deliver 2000, .deliver 2000]

/-- The first edit is let go of on the acknowledgement of the second, and was never settled. -/
theorem overtaken_op_acknowledged :
    ∃ s : System board Unit, Reaches (System.step limited) (fun _ _ => True) atFirst s ∧
      1 ∈ s.acked ∧ ¬ Settles s.history s.client.replica 1 := by
  have hrun : (replay (fun e s => if true then System.step limited e s else none) overtaking
      atFirst).any (fun s => s.acked = [1, 2] && s.history = [(("c", 2), .decided)]) = true := by
    decide +kernel
  obtain ⟨s, hs, hends⟩ := (Option.any_eq_true _ _).mp hrun
  simp only [Bool.and_eq_true, decide_eq_true_eq] at hends
  refine ⟨s, .of_replay (fun _ _ _ => trivial) .start hs, by simp [hends.1], ?_⟩
  rintro ⟨how, hmem, -⟩
  simp [hends.2] at hmem

/-- There is nothing an op sent live by the event could overtake. -/
def System.calm (e : Event U) (s : System sh U) : Bool :=
  match e with
  | .edit changes _ => !s.client.live || (supersede changes s.client.outbox).isEmpty
  | .deliver _ => (s.down.head?.bind Down.answers).all fun seq => s.client.outbox.all (·.seq ≤ seq)
  | _ => true

theorem System.orderly_of_calm {e : Event U} {s : System sh U} (h : s.calm e = true) :
    System.Orderly e s := by
  cases e with
  | edit changes now =>
    intro hlive op hop
    have hnone : supersede changes s.client.outbox = [] := by simpa [calm, hlive] using h
    simp [hnone] at hop
  | deliver now =>
    rintro msg down hdown seq hseq - - ⟨newer, hnewer, hlt, -⟩
    have hle : newer.seq ≤ seq := by
      simp only [calm, hdown, List.head?_cons, Option.bind_some, hseq, Option.all_some,
        List.all_eq_true, decide_eq_true_eq] at h
      exact h newer hnewer
    omega
  | _ => trivial

/-- An edit made before the link opens, said in the hello and acknowledged by its answer. -/
theorem acknowledged_settled_on_board :
    ∃ s : System board Unit, s.acked = [1] ∧
      (∀ n ∈ s.acked, Settles s.history s.client.replica n) ∧
      ∀ pre r n post, s.history = pre ++ ((r, n), .duplicate) :: post → Settles pre r n := by
  have hrun : (replay (fun e s => if System.calm e s then System.step limited e s else none)
      [.edit (newTask "a") 1000, .opens (some ()) true, .receive [], .deliver 1000, .deliver 1000]
      atFirst).any (fun s => s.acked = [1]) = true := by
    decide +kernel
  obtain ⟨s, hs, hends⟩ := (Option.any_eq_true _ _).mp hrun
  exact ⟨s, of_decide_eq_true hends,
    acknowledged_settled rfl true (.of_replay (fun _ _ => System.orderly_of_calm) .start hs)⟩

end LazyStorage.Client
