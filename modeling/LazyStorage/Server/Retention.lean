import LazyStorage.Lib.Runs
import LazyStorage.Lib.Window
import LazyStorage.Server.Host
import LazyStorage.Server.Progress

/-! # Each op at most once

The replicas of a store send the ops of a fixed table, each as often and as late
as they like. An op that is not stamped ahead of the wall clock when it is judged is never
judged again, whatever is forgotten, compacted, lost unstored or loaded anew.
-/
namespace LazyStorage.Server

open Lib LazyStorage.Core

variable {sh : Shape} {U : Type}

namespace Store

/-- The ops decided, as the commits say. -/
def decided (st : Store sh) : List (String × ℕ) := st.commits.filterMap Commit.op

end Store

namespace Host

variable (opts : Options sh U) (ops : String → ℕ → Op)

/-- The event forgets no replica for the limit. -/
def Room (e : HostEvent U) (h : Host sh) : Prop :=
  match e with
  | .deliver op speaker live =>
    (∃ out, h.store.judged opts live h.wall op speaker = .ok out) →
      h.store.forgottenFor opts live op.replica (h.store.entryFor opts h.wall op speaker.user) = []
  | .hello replica speaker live => ∀ key, speaker.user.map opts.ownerKey = some key →
      h.store.forgottenFor opts live replica (h.store.entryTaken h.wall key replica) = []
  | _ => True

/-- An op the store comes to judge is not stamped ahead of the wall clock. -/
def Prompt (e : HostEvent U) (h : Host sh) : Prop :=
  match e with
  | .deliver op speaker _ => h.store.Admits opts h.wall op speaker → op.ts ≤ h.wall
  | _ => True

/-- An op delivered is its replica's op of that number: the same op, when it is sent again. -/
def Same (e : HostEvent U) : Prop :=
  match e with
  | .deliver op _ _ => op = ops op.replica op.seq
  | _ => True

/-- What is remembered of the replicas, as a memory of what each sent last. -/
def memoryOf (replicas : String → Option Replica) (r : String) : Option Heard :=
  (replicas r).map fun e => ⟨e.seq, e.seen⟩

/-- What a list of commits decided is decided once, and covered by what they leave. -/
def Good (retention wall : ℕ) (commits : List Commit) : Prop :=
  Once (fun r n => (ops r n).ts) retention wall (commits.filterMap Commit.op)
    (memoryOf (Saved.ofCommits commits).replicas.get)

/-- However many of its commits a host has stored, they decide each op once; and memory is what its
commits leave. -/
structure Kept (retention : ℕ) (h : Host sh) : Prop where
  same : ∀ r, h.store.replicas.get r = (Saved.ofCommits h.store.commits).replicas.get r
  good : ∀ commits, commits <+: h.store.commits → Good ops retention h.wall commits
  fits : ∀ r n, (r, n) ∈ h.store.decided →
    Store.assertOp (ops r n) = none ∧ Store.unfit opts (ops r n) = none

variable {opts} {ops} {retention : ℕ} {h : Host sh} {st : Store sh}

theorem Kept.quiet (hk : Kept opts ops retention h) (hq : Store.Quiet h.store st) :
    Kept opts ops retention { h with store := st } where
  same r := by rw [hq.replicas, hq.commits]; exact hk.same r
  good commits hp := hk.good commits (hq.commits ▸ hp)
  fits r n hn := by
    rw [Store.decided, hq.commits] at hn
    exact hk.fits r n hn

/-- A commit appended keeps the host if the ops decided with it are still covered. -/
theorem Kept.records {replica : Option (String × Replica)} {forget : List String}
    {op : Option (String × ℕ)} (hk : Kept opts ops retention h)
    (hr : Store.Records replica forget op h.store st)
    (honce : Once (fun r n => (ops r n).ts) retention h.wall (h.store.decided ++ op.toList)
      (memoryOf (recalled replica forget h.store.replicas.get)))
    (hfits : ∀ r n, op = some (r, n) →
      Store.assertOp (ops r n) = none ∧ Store.unfit opts (ops r n) = none) :
    Kept opts ops retention { h with store := st } := by
  obtain ⟨⟨c, hcommits, rfl, rfl, rfl⟩, hreplicas⟩ := hr
  have hsaved : ∀ r, (Saved.ofCommits st.commits).replicas.get r =
      recalled c.replica c.forget h.store.replicas.get r := by
    intro r
    rw [hcommits, Saved.ofCommits_append, Saved.commit_replicas]
    unfold recalled
    simp only [hk.same]
  have hdecided : st.decided = h.store.decided ++ c.op.toList := by
    rw [Store.decided, hcommits, List.filterMap_append]
    cases hop : c.op <;> simp [Store.decided, hop]
  constructor
  · intro r
    exact (hreplicas r).trans (hsaved r).symm
  · intro commits hp
    rcases List.prefix_concat_iff.mp (hcommits ▸ hp) with rfl | hp
    · unfold Good
      rw [← hcommits, funext hsaved]
      rw [← hdecided] at honce
      exact honce
    · exact hk.good commits hp
  · intro r n hn
    rw [hdecided, List.mem_append] at hn
    rcases hn with hn | hn
    · exact hk.fits r n hn
    · exact hfits r n (by simpa using hn)

/-- What is remembered now covers what was decided. -/
theorem Kept.now (hk : Kept opts ops retention h) :
    Once (fun r n => (ops r n).ts) retention h.wall h.store.decided
      (memoryOf h.store.replicas.get) := by
  have hgood := hk.good h.store.commits (List.prefix_refl _)
  unfold Good at hgood
  rwa [← funext hk.same] at hgood

/-- The memory may move on without an op, and lose the replicas not heard within the window. -/
theorem Kept.recalls {replica : Option (String × Replica)} {forget : List String}
    (hk : Kept opts ops retention h) (hr : Store.Records replica forget none h.store st)
    (hforget : ∀ r ∈ forget, ∃ e, h.store.replicas.get r = some e ∧ e.seen + retention < h.wall)
    (hset : ∀ id e, replica = some (id, e) → e.seen ≤ h.wall ∧
      ∀ e', h.store.replicas.get id = some e' → e'.seq ≤ e.seq ∧ e'.seen ≤ e.seen) :
    Kept opts ops retention { h with store := st } := by
  have hnow := hk.now
  have hpast : ∀ r e, h.store.replicas.get r = some e → e.seen ≤ h.wall := fun r e he =>
    hnow.past r ⟨e.seq, e.seen⟩ (by simp [memoryOf, he])
  apply hk.records hr _ (by simp)
  rw [Option.toList_none, List.append_nil]
  apply hnow.remember
  · intro r e hm
    obtain ⟨e, he, rfl⟩ := Option.map_eq_some_iff.mp hm
    unfold recalled at he
    split_ifs at he with hr
    cases replica with
    | none => exact hpast r e he
    | some own =>
      dsimp only at he
      split_ifs at he with hid
      · obtain rfl := Option.some.inj he
        exact (hset own.1 own.2 rfl).1
      · exact hpast r e he
  · intro r e hm
    obtain ⟨e, he, rfl⟩ := Option.map_eq_some_iff.mp hm
    by_cases hr : r ∈ forget
    · obtain ⟨e', he', hold⟩ := hforget r hr
      obtain rfl := Option.some.inj (he.symm.trans he')
      exact .inr hold
    left
    unfold memoryOf recalled
    rw [if_neg hr]
    cases replica with
    | none => exact ⟨_, by rw [he]; rfl, le_rfl, le_rfl⟩
    | some own =>
      dsimp only
      by_cases hid : own.1 = r
      · obtain ⟨hseq, hseen⟩ := (hset own.1 own.2 rfl).2 e (hid ▸ he)
        exact ⟨_, by rw [if_pos hid]; rfl, hseq, hseen⟩
      · exact ⟨_, by rw [if_neg hid, he]; rfl, le_rfl, le_rfl⟩

theorem Kept.unheard (hk : Kept opts ops retention h) (hr : opts.retention = some retention)
    (hc : Store.Quiet h.store st ∨ ∃ retention, opts.retention = some retention ∧
      Store.Records none (h.store.unheard retention h.wall) none h.store st) :
    Kept opts ops retention { h with store := st } := by
  rcases hc with hq | ⟨window, hwindow, hrec⟩
  · exact hk.quiet hq
  · obtain rfl := Option.some.inj (hr.symm.trans hwindow)
    apply hk.recalls hrec
    · intro r hmem
      exact Store.of_unheard hmem
    · simp

/-- An op judged in time is decided once more than before: once. -/
theorem Kept.judged {live : List String} {op : Op} {speaker : Speaker U} {lost : List Lost}
    (hk : Kept opts ops retention h) (hr : opts.retention = some retention)
    (hop : ops op.replica op.seq = op) (hadmits : h.store.Admits opts h.wall op speaker)
    (hj : h.store.judged opts live h.wall op speaker = .ok (st, lost))
    (hroom : h.store.forgottenFor opts live op.replica
      (h.store.entryFor opts h.wall op speaker.user) = [])
    (hprompt : op.ts ≤ h.wall) : Kept opts ops retention { h with store := st } := by
  obtain ⟨hunfit, hexpired⟩ := Option.or_eq_none_iff.mp hadmits.gate
  apply hk.records (Store.records_of_judged hj hroom)
  · apply hk.now.take
    · intro e hm
      obtain ⟨e, he, rfl⟩ := Option.map_eq_some_iff.mp hm
      exact hadmits.fresh e he
    · simp only [Store.expired, hr, ite_eq_right_iff, reduceCtorEq, imp_false] at hexpired
      rw [hop]
      omega
    · rw [hop]
      exact hprompt
    · simp [memoryOf, recalled, Store.entryFor]
    · intro x hx
      simp [memoryOf, recalled, Ne.symm hx]
  · intro r n heq
    obtain ⟨rfl, rfl⟩ := Prod.mk.inj (Option.some.inj heq)
    rw [hop]
    exact ⟨hadmits.form, hunfit⟩

theorem Kept.later (hk : Kept opts ops retention h) (ms : ℕ) :
    Kept opts ops retention { h with wall := h.wall + ms } where
  same := hk.same
  good commits hp := (hk.good commits hp).later (Nat.le_add_right _ _)
  fits := hk.fits

/-- Loaded from what is stored, a host keeps what that covers. -/
theorem Kept.load (hr : opts.retention = some retention) {known wall : ℕ} {epoch : String}
    {stored : List Commit} (hgood : ∀ commits, commits <+: stored → Good ops retention wall commits)
    (hfits : ∀ r n, (r, n) ∈ stored.filterMap Commit.op →
      Store.assertOp (ops r n) = none ∧ Store.unfit opts (ops r n) = none) :
    Kept opts ops retention (⟨Store.load opts known epoch wall stored, wall⟩ : Host sh) := by
  have hcommits : (Store.restored opts known epoch stored).commits = stored := List.append_nil stored
  have hrestored : Kept opts ops retention ⟨Store.restored opts known epoch stored, wall⟩ := by
    refine ⟨fun r => ?_, fun commits hp => ?_, fun r n hn => ?_⟩
    · dsimp only
      rw [hcommits]
      rfl
    · exact hgood commits (hcommits ▸ hp)
    · unfold Store.decided at hn
      dsimp only at hn
      rw [hcommits] at hn
      exact hfits r n hn
  -- the seeds are committed, then what is old is forgotten
  have hseeded : Kept opts ops retention ⟨if stored.isEmpty && !(Store.seeds sh).isEmpty then
      Store.commit opts { Store.nothing with upserts := Store.seeds sh } (Store.restored opts known epoch stored)
      else Store.restored opts known epoch stored, wall⟩ := by
    split_ifs
    · apply hrestored.recalls (Store.records_commit rfl (fun r => rfl) rfl rfl rfl)
      · simp [Store.nothing]
      · simp [Store.nothing]
    · exact hrestored
  have hcompacted := hseeded.unheard hr (Store.compact_cases wall)
  exact hcompacted.quiet ⟨rfl, Store.commits_commitNow⟩

theorem Kept.own {w : OwnWrite} {out : Store sh × List Change} (hk : Kept opts ops retention h)
    (hout : h.store.own opts h.wall w = .ok out) : Kept opts ops retention { h with store := out.1 } := by
  rcases Store.own_cases hout with hq | hrec
  · exact hk.quiet hq
  · exact hk.recalls hrec (by simp) (by simp)

theorem Kept.start (hr : opts.retention = some retention) (epoch : String) (wall : ℕ) :
    Kept opts ops retention (start opts epoch wall) := by
  apply Kept.load hr
  · intro commits hp
    obtain rfl := List.prefix_nil.mp hp
    exact Once.start
  · simp

/-- One event keeps the host. -/
theorem Kept.step (hr : opts.retention = some retention)
    {e : HostEvent U} {h' : Host sh} (hk : Kept opts ops retention h) (hsame : Same ops e)
    (hroom : Room opts e h) (hprompt : Prompt opts e h) (hs : step opts e h = some h') :
    Kept opts ops retention h' := by
  cases e with
  | wait ms =>
    obtain rfl := Option.some.inj hs
    exact hk.later ms
  | deliver op speaker live =>
    obtain rfl := Option.some.inj hs
    rcases Store.apply_cases with hq | ⟨hadmits, mid, lost, hj, heq⟩
    · exact hk.quiet hq
    · have hmid := hk.judged hr hsame.symm hadmits hj
        (hroom ⟨_, hj⟩) (hprompt hadmits)
      rw [heq]
      exact hmid.unheard hr (Store.maybeCompact_cases h.wall)
  | hello replica speaker live =>
    simp only [Host.step] at hs
    split at hs
    · obtain rfl := Option.some.inj hs
      exact hk
    obtain rfl := Option.some.inj hs
    rcases Store.takeReplica_cases hroom with hq | ⟨key, hrec⟩
    · exact hk.quiet hq
    apply hk.recalls hrec
    · simp
    · intro id e heq
      obtain ⟨rfl, rfl⟩ := Prod.mk.inj (Option.some.inj heq)
      constructor
      · cases hknown : h.store.replicas.get replica with
        | none => simp [Store.entryTaken, hknown]
        | some e =>
          have hseen := hk.now.past replica ⟨e.seq, e.seen⟩ (by simp [memoryOf, hknown])
          simpa [Store.entryTaken, hknown] using hseen
      · intro e he
        simp [Store.entryTaken, Store.seqOf, he]
  | own w =>
    simp only [Host.step] at hs
    split at hs
    · obtain rfl := Option.some.inj hs
      exact hk
    · rename_i out hown
      obtain rfl := Option.some.inj hs
      exact hk.own hown
  | compact =>
    obtain rfl := Option.some.inj hs
    exact hk.unheard hr (Store.compact_cases h.wall)
  | flush =>
    obtain rfl := Option.some.inj hs
    exact hk.quiet ⟨rfl, Store.commits_commitNow⟩
  | reload known epoch =>
    obtain ⟨-, hs⟩ := Option.ite_none_left_eq_some.mp hs
    obtain rfl := Option.some.inj hs
    apply Kept.load hr
    · intro commits hp
      exact hk.good commits (hp.trans (List.prefix_append _ _))
    · intro r n hn
      apply hk.fits r n
      unfold Store.decided Store.commits
      rw [List.filterMap_append]
      exact List.mem_append_left _ hn
  | migrate =>
    simp only [Host.step] at hs
    split at hs
    · cases hs
    split at hs
    · cases hs
    next st hst =>
    obtain rfl := Option.some.inj hs
    refine Store.migrateOne_keeps (P := fun st => Kept opts ops retention ⟨st, h.wall⟩)
      (fun st hk => hk.quiet ⟨rfl, rfl⟩) (fun st hk => ?_) (fun st diff out hk hout => hk.own hout)
      (fun st hk => hk.quiet ⟨rfl, Store.commits_commitNow⟩) hk hst
    exact hk.recalls (Store.records_commit rfl (fun r => rfl) rfl rfl rfl) (by simp [Store.nothing])
      (by simp [Store.nothing])

/-- What a resend is answered: an op decided before is a duplicate as long as its replica is
remembered that far, and older than the window else. -/
theorem Kept.resend (hk : Kept opts ops retention h) (hr : opts.retention = some retention)
    (hops : ∀ r n, (ops r n).replica = r ∧ (ops r n).seq = n) {r : String} {n : ℕ}
    (hn : (r, n) ∈ h.store.decided) {live : List String} {speaker : Speaker U}
    (hwrites : speaker.writes = true)
    (hclaim : h.store.claimReplica opts speaker speaker.user r = none) :
    h.store.apply opts live h.wall (ops r n) speaker = (h.store, { speaker with speaksFor := some r },
      if (h.store.replicas.get r).any (fun e => n ≤ e.seq) then .ok ([], true)
      else .error Store.tooOld) := by
  obtain ⟨hform, hunfit⟩ := hk.fits r n hn
  obtain ⟨hreplica, hseq⟩ := hops r n
  unfold Store.apply
  rw [hform]
  simp only [hwrites, hreplica, hclaim, hseq, Bool.not_true, Bool.false_eq_true, if_false]
  split_ifs with hdup
  · rfl
  have hold : (ops r n).ts + retention < h.wall := by
    apply hk.now.expired hn
    intro e hm
    obtain ⟨e, he, rfl⟩ := Option.map_eq_some_iff.mp hm
    simpa [he] using hdup
  have hgate : Store.gate opts h.wall (ops r n) = some Store.tooOld := by
    have hlt : ((ops r n).ts : ℤ) < (h.wall : ℤ) - retention := by omega
    simp [Store.gate, hunfit, Store.expired, hr, hlt]
  rw [hgate]

end Host

/-- Over any run whose ops are not stamped ahead of the wall clock when they come to be judged,
and that forgets no replica for the limit, no op is decided twice; and an op decided, sent again by
a speaker who may, is a duplicate while its replica is remembered that far, and expired after. -/
theorem decided_once {opts : Options sh U} {retention : ℕ} (hr : opts.retention = some retention)
    {ops : String → ℕ → Op} (hops : ∀ r n, (ops r n).replica = r ∧ (ops r n).seq = n) (epoch : String)
    (wall : ℕ) {h : Host sh} (hrun : Reaches (Host.step opts)
      (fun e h => Host.Same ops e ∧ Host.Room opts e h ∧ Host.Prompt opts e h)
      (Host.start opts epoch wall) h) :
    h.store.decided.Nodup ∧ ∀ r n, (r, n) ∈ h.store.decided → ∀ (live : List String)
      (speaker : Speaker U), speaker.writes = true →
      h.store.claimReplica opts speaker speaker.user r = none →
      h.store.apply opts live h.wall (ops r n) speaker =
        (h.store, { speaker with speaksFor := some r },
          if (h.store.replicas.get r).any (fun e => n ≤ e.seq) then .ok ([], true)
          else .error Store.tooOld) := by
  have hk : Host.Kept opts ops retention h := by
    apply hrun.invariant (Host.Kept.start hr epoch wall)
    intro e s s' hk hok hs
    exact hk.step hr hok.1 hok.2.1 hok.2.2 hs
  refine ⟨hk.now.once, ?_⟩
  intro r n hn live speaker hwrites hclaim
  exact hk.resend hr hops hn hwrites hclaim

/-- A store of tasks that keeps ten milliseconds. -/
def briefly : Options board Unit where
  rules := ⟨false, []⟩
  validate := none
  retention := some 10
  compactEvery := 1
  deltaLog := 100
  maxChanges := 100
  maxReplicas := 10
  rateLimit := none
  groupCommit := false
  ownerKey := fun _ => "me"

/-- A session of a user who writes. -/
def someone : Speaker Unit := ⟨some (), true, none, none⟩

/-- An empty op from each replica, stamped at 20. -/
def early (replica : String) (seq : ℕ) : Op := ⟨replica, seq, 20, []⟩

/-- An op delivered at 5 and stamped at 20: its replica is forgotten by 17, and the op, sent again,
is not yet too old. -/
theorem early_op_decided_twice :
    ∃ h : Host board, Reaches (Host.step briefly)
      (fun e h => Host.Same early e ∧ Host.Room briefly e h) (Host.start briefly "e" 5) h ∧
      h.store.decided = [("c", 1), ("c", 1)] := by
  refine ⟨_, .next (.deliver (early "c" 1) someone []) (.next .compact (.next (.wait 12)
    (.next (.deliver (early "c" 1) someone []) .start ⟨rfl, fun _ => rfl⟩ rfl) ⟨trivial, trivial⟩ rfl)
    ⟨trivial, trivial⟩ rfl) ⟨rfl, fun _ => rfl⟩ rfl, ?_⟩
  decide

/-- The same op stamped at 5: decided once, and expired at 17. -/
theorem prompt_op_decided_once :
    let opts := briefly
    let ops := fun replica seq => (⟨replica, seq, 5, []⟩ : Op)
    ∃ h : Host board, (h.store.decided = [("c", 1)] ∧ h.wall = 17) ∧
      h.store.decided.Nodup ∧ ∀ r n, (r, n) ∈ h.store.decided → ∀ (live : List String)
      (speaker : Speaker Unit), speaker.writes = true →
      h.store.claimReplica opts speaker speaker.user r = none →
      h.store.apply opts live h.wall (ops r n) speaker =
        (h.store, { speaker with speaksFor := some r },
          if (h.store.replicas.get r).any (fun e => n ≤ e.seq) then .ok ([], true)
          else .error Store.tooOld) := by
  intro opts ops
  have hrun : Reaches (Host.step opts)
      (fun e h => Host.Same ops e ∧ Host.Room opts e h ∧ Host.Prompt opts e h)
      (Host.start opts "e" 5) _ :=
    .next .compact (.next (.wait 12) (.next (.deliver (ops "c" 1) someone []) .start
      ⟨rfl, fun _ => rfl, fun _ => le_rfl⟩ rfl) ⟨trivial, trivial, trivial⟩ rfl)
      ⟨trivial, trivial, trivial⟩ rfl
  exact ⟨_, ⟨by decide, rfl⟩, decided_once rfl (fun _ _ => ⟨rfl, rfl⟩) "e" 5 hrun⟩

end LazyStorage.Server
