import LazyStorage.Server.Store

/-! # What an operation of the store remembers, and what it commits

Deciding an op, taking a replica, the server's own write and a compaction each
leave the replicas and the commits as they were, or append one commit that says
how the replicas changed. The rest of the state is not looked at here.
-/
namespace LazyStorage.Server

open Lib LazyStorage.Core

/-- The replicas after a commit that sets one and forgets others. -/
def recalled (replica : Option (String × Replica)) (forget : List String)
    (memory : String → Option Replica) (r : String) : Option Replica :=
  if r ∈ forget then none else
  match replica with
  | some (id, e) => if id = r then some e else memory r
  | none => memory r

theorem foldl_erase_get {α β : Type*} [DecidableEq α] (l : List α) (m : OrderedMap α β) (a : α) :
    (l.foldl (fun m x => m.erase x) m).get a = if a ∈ l then none else m.get a := by
  induction l generalizing m with
  | nil => simp
  | cons x l ih =>
    rw [List.foldl_cons, ih, OrderedMap.get_erase]
    by_cases hx : x = a
    · simp [hx]
    · simp [hx, Ne.symm hx]

namespace Saved

theorem commit_replicas (saved : Saved) (c : Commit) (r : String) :
    (saved.commit c).replicas.get r = recalled c.replica c.forget saved.replicas.get r := by
  simp only [commit, foldl_erase_get, recalled]
  cases c.replica with
  | none => rfl
  | some e => simp only [OrderedMap.get_set]

theorem ofCommits_append (commits : List Commit) (c : Commit) :
    ofCommits (commits ++ [c]) = (ofCommits commits).commit c := by
  simp [ofCommits]

end Saved

namespace Store

variable {sh : Shape} {U : Type} {opts : Options sh U} {st st' : Store sh}

/-- Every commit made, those not yet stored last. -/
def commits (st : Store sh) : List Commit := st.stored ++ st.pending

@[simp] theorem commits_commitNow : st.commitNow.commits = st.commits := by
  simp [commits, commitNow]

@[simp] theorem replicas_commitNow : st.commitNow.replicas = st.replicas := rfl

theorem commits_commit (c : Commit) :
    (commit opts c st).commits = st.commits ++ [st.dated c] := by
  unfold commit
  dsimp only
  split_ifs <;> simp [commits, commitNow]

@[simp] theorem replicas_commit (c : Commit) : (commit opts c st).replicas = st.replicas := by
  unfold commit
  dsimp only
  split_ifs <;> rfl

/-- Nothing remembered and nothing committed. -/
structure Quiet (st st' : Store sh) : Prop where
  replicas : st'.replicas = st.replicas
  commits : st'.commits = st.commits

/-- One commit appended, that says how the replicas changed. -/
structure Records (replica : Option (String × Replica)) (forget : List String)
    (op : Option (String × ℕ)) (st st' : Store sh) : Prop where
  commits : ∃ c, st'.commits = st.commits ++ [c] ∧ c.replica = replica ∧ c.forget = forget ∧
    c.op = op
  replicas : ∀ r, st'.replicas.get r = recalled replica forget st.replicas.get r

theorem Quiet.refl (st : Store sh) : Quiet st st := ⟨rfl, rfl⟩

theorem records_commit {replica : Option (String × Replica)} {forget : List String}
    {op : Option (String × ℕ)} {c : Commit} (hc : st'.commits = st.commits)
    (hr : ∀ r, st'.replicas.get r = recalled replica forget st.replicas.get r)
    (hreplica : c.replica = replica) (hforget : c.forget = forget) (hop : c.op = op) :
    Records replica forget op st (commit opts c st') where
  commits := ⟨st'.dated c, by rw [commits_commit, hc], hreplica, hforget, hop⟩
  replicas := by simpa using hr

/-- A decided op's replica remembered, with room for it. -/
theorem rememberReplica_eq {live : List String} {id : String} {entry : Replica}
    (h : st.forgottenFor opts live id entry = []) :
    st.rememberReplica opts live id entry = st.setReplica id entry := by
  simp [rememberReplica, h]

theorem commits_setReplica (id : String) (entry : Replica) :
    (st.setReplica id entry).commits = st.commits := rfl

theorem replicas_setReplica (id : String) (entry : Replica) (r : String) :
    (st.setReplica id entry).replicas.get r = recalled (some (id, entry)) [] st.replicas.get r := by
  simp [setReplica, recalled, OrderedMap.get_set]

theorem landed_op {applied : List Change} {ts : ℕ} {id : String} {entry : Replica}
    {op : Option (String × ℕ)} (hc : st'.commits = st.commits)
    (hr : ∀ r, st'.replicas.get r = recalled (some (id, entry)) [] st.replicas.get r) :
    Records (some (id, entry)) [] op st
      (st'.landed opts applied ts (some (id, entry)) op) := by
  unfold landed
  split_ifs with hnone
  · exact records_commit hc hr rfl rfl rfl
  · exact records_commit hc hr rfl rfl rfl

theorem landed_own {applied : List Change} {ts : ℕ} (hc : st'.commits = st.commits)
    (hr : st'.replicas = st.replicas) :
    Quiet st (st'.landed opts applied ts none none) ∨
      Records none [] none st (st'.landed opts applied ts none none) := by
  unfold landed
  split_ifs with hnone
  · exact .inl ⟨hr, hc⟩
  · right
    exact records_commit hc (fun r => by simp [recalled, hr]) rfl rfl rfl

/-- What each move of a migration keeps, the migration keeps. -/
theorem migrateOne_keeps {P : Store sh → Prop} {now : ℕ} {migration : Migration sh}
    (hschema : ∀ st, P st → P { st with schema := st.schema + 1 })
    (hnothing : ∀ st, P st → P (commit opts nothing st))
    (hown : ∀ st diff out, P st → st.own opts now (.patch diff) = .ok out → P out.1)
    (hflush : ∀ st, P st → P st.commitNow) (hp : P st)
    (h : st.migrateOne opts now migration = .ok st') : P st' := by
  simp only [migrateOne, bind, Except.bind, pure, Except.pure] at h
  split at h
  · cases h
  next diff _ =>
  split_ifs at h
  · exact Except.ok.inj h ▸ hflush _ (hnothing _ (hschema _ hp))
  · cases hout : Store.own opts now (.patch diff) { st with schema := st.schema + 1 } with
    | error err => simp [hout, Except.map] at h
    | ok out =>
      simp only [hout, Except.map] at h
      exact Except.ok.inj h ▸ hflush _ (hown _ diff out (hschema _ hp) hout)

theorem own_cases {now : ℕ} {w : OwnWrite} {out : Store sh × List Change}
    (h : st.own opts now w = .ok out) : Quiet st out.1 ∨ Records none [] none st out.1 := by
  unfold own at h
  cases hw : w.accepted sh with
  | error err => simp [hw, bind, Except.bind] at h
  | ok list =>
    simp only [hw, bind, Except.bind] at h
    cases ha : applyAll (st.clock.stamp now).1 .authority list st.doc with
    | error err => simp [ha, throw, throwThe, MonadExceptOf.throw] at h
    | ok out' =>
      simp only [ha, pure, Except.pure, Except.ok.injEq] at h
      subst h
      exact landed_own rfl rfl

/-- The replicas not heard within the window. -/
def unheard (retention now : ℕ) (st : Store sh) : List String :=
  (st.replicas.entries.filter fun e =>
    e.1 ≠ "server" && ((e.2.seen : ℤ) < (now : ℤ) - retention)).map Prod.fst

theorem of_unheard {retention now : ℕ} {r : String} (h : r ∈ st.unheard retention now) :
    ∃ e, st.replicas.get r = some e ∧ e.seen + retention < now := by
  obtain ⟨⟨r', e⟩, hmem, rfl⟩ := List.mem_map.mp h
  obtain ⟨hentry, htest⟩ := List.mem_filter.mp hmem
  refine ⟨e, OrderedMap.mem_entries.mp hentry, ?_⟩
  simp only [ne_eq, decide_not, Bool.and_eq_true, decide_eq_true_eq] at htest
  omega

theorem compact_cases (now : ℕ) :
    Quiet st (st.compact opts now) ∨
      ∃ retention, opts.retention = some retention ∧
        Records none (st.unheard retention now) none st (st.compact opts now) := by
  unfold compact
  dsimp only
  cases hr : opts.retention with
  | none => exact .inl ⟨rfl, rfl⟩
  | some retention =>
    dsimp only
    split_ifs with hnone
    · left
      obtain ⟨-, hforget⟩ := Bool.and_eq_true_iff.mp hnone
      refine ⟨?_, rfl⟩
      dsimp only
      rw [List.isEmpty_iff.mp hforget]
      rfl
    · right
      refine ⟨retention, rfl, records_commit rfl (fun r => ?_) rfl rfl rfl⟩
      simp only [foldl_erase_get, recalled]
      rfl

theorem maybeCompact_cases (now : ℕ) :
    Quiet st (st.maybeCompact opts now) ∨
      ∃ retention, opts.retention = some retention ∧
        Records none (st.unheard retention now) none st (st.maybeCompact opts now) := by
  unfold maybeCompact
  dsimp only
  split_ifs
  · exact compact_cases now
  · exact .inl (.refl st)

theorem takeReplica_cases {live : List String} {now : ℕ} {user : Option U} {replica : String}
    (hroom : ∀ key, user.map opts.ownerKey = some key →
      st.forgottenFor opts live replica (st.entryTaken now key replica) = []) :
    Quiet st (st.takeReplica opts live now user replica) ∨
      ∃ key, Records (some (replica, st.entryTaken now key replica)) [] none st
        (st.takeReplica opts live now user replica) := by
  unfold takeReplica
  split
  · rename_i key hkey _
    right
    refine ⟨key, ?_⟩
    dsimp only
    rw [rememberReplica_eq (hroom key hkey)]
    exact records_commit (commits_setReplica _ _) (replicas_setReplica _ _) rfl rfl rfl
  · exact .inl (.refl st)

/-- An op the store comes to judge: its speaker may write it, it is above the last of its replica,
and neither its size, its form nor its age keeps it out. -/
structure Admits (opts : Options sh U) (now : ℕ) (op : Op) (speaker : Speaker U) (st : Store sh) :
    Prop where
  form : assertOp op = none
  writes : speaker.writes = true
  claim : st.claimReplica opts speaker speaker.user op.replica = none
  fresh : ∀ r, st.replicas.get op.replica = some r → r.seq < op.seq
  gate : gate opts now op = none

/-- What judging an op makes of the store, before what is due is compacted. -/
def judged (opts : Options sh U) (live : List String) (now : ℕ) (op : Op) (speaker : Speaker U)
    (st : Store sh) : Except String (Store sh × List Lost) :=
  let ts := clamp op.ts (st.clock.time now)
  match opts.rules.judge st.doc op.changes speaker.user op.replica
      (applyOp opts op speaker.user ts) with
  | (_, .error message) => .error message
  | (doc, .ok (applied, lost)) =>
    let entry := st.entryFor opts now op speaker.user
    let st := { st with doc, clock := st.clock.observe ts }
    let st := st.rememberReplica opts live op.replica entry
    .ok (st.landed opts applied ts (some (op.replica, entry)) (some (op.replica, op.seq)), lost)

/-- The time an op is judged at: its own, clamped to the store's. -/
def stampOf (now : ℕ) (op : Op) (st : Store sh) : ℕ := clamp op.ts (st.clock.time now)

/-- What can come of an op: it is refused before it is judged, taken for a duplicate, refused by who
judges it, or decided. -/
inductive Applies (opts : Options sh U) (live : List String) (now : ℕ) (op : Op) (speaker : Speaker U)
    (st : Store sh) : Store sh × Speaker U × Except Refusal (List Lost × Bool) → Prop
  | refused {speaker' : Speaker U} (refusal : Refusal) (held : speaker'.heldUntil = speaker.heldUntil) :
      Applies opts live now op speaker st (st, speaker', .error refusal)
  | duplicate (known : op.seq ≤ st.seqOf op.replica) : Applies opts live now op speaker st
      (st, { speaker with speaksFor := some op.replica }, .ok ([], true))
  | forbidden {doc : Doc sh} {message : String} (admits : Admits opts now op speaker st)
      (judge : opts.rules.judge st.doc op.changes speaker.user op.replica
        (applyOp opts op speaker.user (st.stampOf now op)) = (doc, .error message)) :
      Applies opts live now op speaker st ({ st with doc },
        { speaker with speaksFor := some op.replica }, .error ⟨.forbidden, message, none⟩)
  | decided {mid : Store sh} {lost : List Lost} (admits : Admits opts now op speaker st)
      (judged : st.judged opts live now op speaker = .ok (mid, lost)) :
      Applies opts live now op speaker st (mid.maybeCompact opts now,
        { speaker with speaksFor := some op.replica }, .ok (lost, false))

theorem applies (live : List String) (now : ℕ) (op : Op) (speaker : Speaker U) :
    Applies opts live now op speaker st (st.apply opts live now op speaker) := by
  unfold apply
  split
  · exact .refused _ rfl
  rename_i hform
  split_ifs with hwrites
  · exact .refused _ rfl
  split
  · exact .refused _ rfl
  rename_i hclaim
  dsimp only
  split_ifs with hdup
  · refine .duplicate ?_
    unfold seqOf
    cases hknown : st.replicas.get op.replica with
    | none => simp [hknown] at hdup
    | some known => simpa [hknown] using hdup
  split
  · exact .refused _ rfl
  rename_i hgate
  have hadmits : Admits opts now op speaker st :=
    ⟨hform, by simpa using hwrites, hclaim, fun r hr => by simpa [hr] using hdup, hgate⟩
  split
  · rename_i doc message hjudge
    exact .forbidden hadmits hjudge
  · rename_i doc applied lost hjudge
    refine .decided hadmits ?_
    unfold judged
    dsimp only
    rw [hjudge]

/-- An op is remembered only if it is judged. -/
theorem apply_cases {live : List String} {now : ℕ} {op : Op} {speaker : Speaker U} :
    Quiet st (st.apply opts live now op speaker).1 ∨
      (Admits opts now op speaker st ∧ ∃ mid lost, st.judged opts live now op speaker =
        .ok (mid, lost) ∧ (st.apply opts live now op speaker).1 = mid.maybeCompact opts now) := by
  have happlies := @applies sh U opts st live now op speaker
  generalize st.apply opts live now op speaker = res at happlies
  cases happlies with
  | refused => exact .inl (.refl st)
  | duplicate => exact .inl (.refl st)
  | forbidden => exact .inl ⟨rfl, rfl⟩
  | decided hadmits hjudged => exact .inr ⟨hadmits, _, _, hjudged, rfl⟩

theorem records_of_judged {live : List String} {now : ℕ} {op : Op} {speaker : Speaker U}
    {mid : Store sh} {lost : List Lost} (h : st.judged opts live now op speaker = .ok (mid, lost))
    (hroom : st.forgottenFor opts live op.replica (st.entryFor opts now op speaker.user) = []) :
    Records (some (op.replica, st.entryFor opts now op speaker.user)) []
      (some (op.replica, op.seq)) st mid := by
  unfold judged at h
  dsimp only at h
  split at h
  · cases h
  · rename_i doc applied _ _
    obtain ⟨rfl, -⟩ := Prod.mk.inj (Except.ok.inj h)
    let ts := clamp op.ts (st.clock.time now)
    let after : Store sh := { st with doc := doc, clock := st.clock.observe ts }
    have hkept : after.rememberReplica opts live op.replica (st.entryFor opts now op speaker.user) =
        after.setReplica op.replica (st.entryFor opts now op speaker.user) :=
      rememberReplica_eq hroom
    apply landed_op
    · rw [hkept]
      rfl
    · intro r
      rw [hkept, replicas_setReplica]

/-- What is remembered of the replicas, at most: what was, or the one that is set. -/
theorem of_rememberReplica {live : List String} {id r : String} {entry e : Replica}
    (h : (st.rememberReplica opts live id entry).replicas.get r = some e) :
    (r = id ∧ e = entry) ∨ st.replicas.get r = some e := by
  have hset : (st.setReplica id entry).replicas.get r = some e := by
    unfold rememberReplica at h
    dsimp only at h
    split_ifs at h
    · exact h
    · simp only [replicas_commit, foldl_erase_get] at h
      split_ifs at h
      exact h
  rw [replicas_setReplica] at hset
  unfold recalled at hset
  rw [if_neg List.not_mem_nil] at hset
  dsimp only at hset
  split_ifs at hset with hid
  · exact .inl ⟨hid.symm, (Option.some.inj hset).symm⟩
  · exact .inr hset

@[simp] theorem replicas_landed {applied : List Change} {ts : ℕ}
    {replica : Option (String × Replica)} {op : Option (String × ℕ)} :
    (st.landed opts applied ts replica op).replicas = st.replicas := by
  unfold landed
  dsimp only
  split_ifs
  · cases replica <;> simp
  · exact replicas_commit _
  · exact replicas_commit _

theorem of_maybeCompact {now : ℕ} {r : String} {e : Replica}
    (h : (st.maybeCompact opts now).replicas.get r = some e) : st.replicas.get r = some e := by
  rcases @maybeCompact_cases sh U opts st now with hq | ⟨retention, -, hrec⟩
  · rwa [hq.replicas] at h
  · rw [hrec.replicas, recalled] at h
    split_ifs at h
    exact h

/-- No replica is taken to be further than it was. -/
def Behind (st st' : Store sh) : Prop := ∀ r, st'.seqOf r ≤ st.seqOf r

theorem behind_of (h : ∀ r e, st'.replicas.get r = some e → e.seq ≤ st.seqOf r) : Behind st st' := by
  intro r
  unfold seqOf
  cases hr : st'.replicas.get r with
  | none => simp
  | some e => simpa [seqOf] using h r e hr

@[simp] theorem seqOf_commitNow (r : String) : st.commitNow.seqOf r = st.seqOf r := rfl

theorem seq_le_seqOf {r : String} {e : Replica} (h : st.replicas.get r = some e) :
    e.seq ≤ st.seqOf r := by simp [seqOf, h]

theorem behind_quiet (h : Quiet st st') : Behind st st' := by
  intro r
  simp [seqOf, h.replicas]

theorem behind_takeReplica {live : List String} {now : ℕ} {user : Option U} {replica : String} :
    Behind st (st.takeReplica opts live now user replica) := by
  apply behind_of
  intro r e h
  unfold takeReplica at h
  split at h
  · dsimp only at h
    rw [replicas_commit] at h
    rcases of_rememberReplica h with ⟨rfl, rfl⟩ | h
    · exact le_rfl
    · exact seq_le_seqOf h
  · exact seq_le_seqOf h

theorem behind_compact (now : ℕ) : Behind st (st.compact opts now) := by
  apply behind_of
  intro r e h
  rcases @compact_cases sh U opts st now with hq | ⟨retention, -, hrec⟩
  · rw [hq.replicas] at h
    exact seq_le_seqOf h
  · rw [hrec.replicas, recalled] at h
    split_ifs at h
    exact seq_le_seqOf h

theorem behind_own {now : ℕ} {w : OwnWrite} {out : Store sh × List Change}
    (h : st.own opts now w = .ok out) : Behind st out.1 := by
  rcases own_cases h with hq | hrec
  · exact behind_quiet hq
  · intro r
    simp [seqOf, hrec.replicas, recalled]

/-- A judged op is its replica's last, and no other replica is further than it was. -/
theorem of_judged {live : List String} {now : ℕ} {op : Op} {speaker : Speaker U} {mid : Store sh}
    {lost : List Lost} (h : st.judged opts live now op speaker = .ok (mid, lost)) {r : String}
    {e : Replica} (he : mid.replicas.get r = some e) :
    (r = op.replica ∧ e.seq = op.seq) ∨ st.replicas.get r = some e := by
  unfold judged at h
  dsimp only at h
  split at h
  · cases h
  · obtain ⟨rfl, -⟩ := Prod.mk.inj (Except.ok.inj h)
    rw [replicas_landed] at he
    exact (of_rememberReplica he).imp_left fun ⟨hr, he⟩ => ⟨hr, by rw [he]; rfl⟩

/-- A decided op was above the last of its replica, and is it now unless it is forgotten already. -/
theorem decided_seqOf {live : List String} {now : ℕ} {op : Op} {speaker : Speaker U} {mid : Store sh}
    {lost : List Lost} (hadmits : Admits opts now op speaker st)
    (h : st.judged opts live now op speaker = .ok (mid, lost)) :
    st.seqOf op.replica < op.seq ∧ (mid.maybeCompact opts now).seqOf op.replica ≤ op.seq ∧
      ∀ r, r ≠ op.replica → (mid.maybeCompact opts now).seqOf r ≤ st.seqOf r := by
  have hpos : 0 < op.seq := by
    have hform := hadmits.form
    unfold assertOp at hform
    split_ifs at hform with hempty hlow
    omega
  have hfresh : st.seqOf op.replica < op.seq := by
    unfold seqOf
    cases hknown : st.replicas.get op.replica with
    | none => simpa using hpos
    | some known => simpa using hadmits.fresh known hknown
  have hafter : ∀ r e, (mid.maybeCompact opts now).replicas.get r = some e →
      (r = op.replica ∧ e.seq = op.seq) ∨ st.replicas.get r = some e := fun r e he =>
    of_judged h (of_maybeCompact he)
  refine ⟨hfresh, ?_, fun r hr => ?_⟩
  · cases hknown : (mid.maybeCompact opts now).replicas.get op.replica with
    | none => simp [seqOf, hknown]
    | some e =>
      simp only [seqOf, hknown, Option.map_some, Option.getD_some]
      rcases hafter _ _ hknown with ⟨-, hseq⟩ | hold
      · exact hseq.le
      · exact (seq_le_seqOf hold).trans hfresh.le
  · cases hknown : (mid.maybeCompact opts now).replicas.get r with
    | none => simp [seqOf, hknown]
    | some e =>
      rcases hafter _ _ hknown with ⟨hr', -⟩ | hold
      · exact absurd hr' hr
      · simp [seqOf, hknown, hold]

/-- An op of another replica leaves a replica where it was, at most. -/
theorem apply_other {live : List String} {now : ℕ} {op : Op} {speaker : Speaker U} {r : String}
    (hr : r ≠ op.replica) : (st.apply opts live now op speaker).1.seqOf r ≤ st.seqOf r := by
  have happlies := @applies sh U opts st live now op speaker
  generalize st.apply opts live now op speaker = res at happlies
  cases happlies with
  | refused => exact le_rfl
  | duplicate => exact le_rfl
  | forbidden => exact le_rfl
  | decided hadmits hjudged => exact (decided_seqOf hadmits hjudged).2.2 r hr

end Store

end LazyStorage.Server
