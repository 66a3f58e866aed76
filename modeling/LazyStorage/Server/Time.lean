import LazyStorage.Core.Stamps
import LazyStorage.Server.Verdicts

/-! # The server's time

A store's clock is never behind a time in a record's clock or in the log,
whatever the wall clock reads: it observes what it decides, stamps past what it
has seen, and observes what it loads.
-/
namespace LazyStorage.Server

open Lib LazyStorage.Core

variable {sh : Shape} {U : Type} {opts : Options sh U}

namespace Store

variable {st : Store sh}

/-- The clock has seen every time the records and the log hold. -/
structure Timed (st : Store sh) : Prop where
  records : st.doc.StampedBy st.clock.highest
  log : ∀ e ∈ st.log, e.ts ≤ st.clock.highest

theorem Timed.of_eq {st' : Store sh} (h : st.Timed) (hdoc : st'.doc = st.doc)
    (hlog : st'.log = st.log) (hclock : st'.clock = st.clock) : st'.Timed :=
  ⟨hdoc ▸ hclock ▸ h.records, hlog ▸ hclock ▸ h.log⟩

@[simp] theorem log_commit (c : Commit) : (commit opts c st).log = st.log := by
  unfold commit
  dsimp only
  split_ifs <;> rfl

@[simp] theorem clock_commit (c : Commit) : (commit opts c st).clock = st.clock := by
  unfold commit
  dsimp only
  split_ifs <;> rfl

@[simp] theorem clock_rememberReplica (live : List String) (id : String) (entry : Replica) :
    (st.rememberReplica opts live id entry).clock = st.clock := by
  unfold rememberReplica
  dsimp only
  split_ifs
  · rfl
  · rw [clock_commit]
    rfl

theorem Timed.commit (h : st.Timed) (c : Commit) : (Store.commit opts c st).Timed :=
  h.of_eq (doc_commit c) (log_commit c) (clock_commit c)

theorem Timed.rememberReplica (h : st.Timed) (live : List String) (id : String) (entry : Replica) :
    (st.rememberReplica opts live id entry).Timed := by
  unfold Store.rememberReplica
  dsimp only
  split_ifs
  · exact h.of_eq rfl rfl rfl
  · apply Timed.commit
    exact h.of_eq rfl rfl rfl

/-- Changes that landed at a time the clock has seen. -/
theorem Timed.landed (h : st.Timed) {ts : ℕ} (hts : ts ≤ st.clock.highest) (applied : List Change)
    (replica : Option (String × Replica)) (op : Option (String × ℕ)) :
    (st.landed opts applied ts replica op).Timed := by
  unfold Store.landed
  dsimp only
  have hentry : ∀ e ∈ st.log ++ [(⟨st.version + 1, ts, applied⟩ : LogEntry)],
      e.ts ≤ st.clock.highest := by
    intro e he
    rcases List.mem_append.mp he with he | he
    · exact h.log e he
    · rw [List.mem_singleton.mp he]
      exact hts
  split_ifs
  · cases replica with
    | none => exact h
    | some r => exact h.commit _
  · apply Timed.commit
    exact ⟨h.records, fun e he => hentry e (List.mem_of_mem_drop he)⟩
  · apply Timed.commit
    exact ⟨h.records, hentry⟩

theorem Timed.compact (h : st.Timed) (now : ℕ) : (st.compact opts now).Timed := by
  unfold Store.compact
  dsimp only
  cases opts.retention with
  | none => exact h.of_eq rfl rfl rfl
  | some retention =>
    have hpruned : ∀ st' : Store sh, st'.doc = st.doc.prune ((now : ℤ) - retention) →
        st'.log = st.log → st'.clock = st.clock → st'.Timed := fun st' hdoc hlog hclock =>
      ⟨hdoc ▸ hclock ▸ h.records.prune _, hlog ▸ hclock ▸ h.log⟩
    dsimp only
    split_ifs
    · exact hpruned _ rfl rfl rfl
    · apply Timed.commit
      exact hpruned _ rfl rfl rfl

theorem timed_restored (known : ℕ) (epoch : String) (stored : List Commit) :
    (restored opts known epoch stored : Store sh).Timed := by
  have hseen : ∀ (l : List LogEntry) (c : ReplicaClock),
      c.highest ≤ (l.foldl (fun c e => c.observe e.ts) c).highest ∧
        ∀ e ∈ l, e.ts ≤ (l.foldl (fun c e => c.observe e.ts) c).highest := by
    intro l
    induction l with
    | nil => exact fun c => ⟨le_rfl, by simp⟩
    | cons x l ih =>
      intro c
      obtain ⟨hmono, hall⟩ := ih (c.observe x.ts)
      refine ⟨(c.le_observe x.ts).trans hmono, fun e he => ?_⟩
      rcases List.mem_cons.mp he with rfl | he
      · have := c.le_observe_self e.ts
        exact le_trans (by omega) hmono
      · exact hall e he
  constructor
  · exact Doc.stampedBy_latest (ReplicaClock.le_observe_self _ _)
  · exact fun e he => ((hseen _ _).2 e he).trans (ReplicaClock.le_observe _ _)

theorem timed_load (known : ℕ) (epoch : String) (now : ℕ) (stored : List Commit) :
    (load opts known epoch now stored : Store sh).Timed := by
  unfold load
  dsimp only
  refine Timed.of_eq (Timed.compact ?_ now) rfl rfl rfl
  split_ifs
  · exact (timed_restored known epoch stored).commit _
  · exact timed_restored known epoch stored

end Store

theorem timed_own {st : Store sh} {now : ℕ} {w : OwnWrite} {res : Store sh × List Change}
    (hp : st.doc.Sound ∧ st.Timed) (h : st.own opts now w = .ok res) :
    res.1.doc.Sound ∧ res.1.Timed := by
  refine ⟨(sound_of_written ⟨hp.1, False.elim⟩ False.elim h).1, ?_⟩
  obtain ⟨list, out, hw, ha, rfl⟩ := Store.of_own h
  have hlt := st.clock.lt_stamp now
  have hafter : ({ st with doc := out.doc, clock := (st.clock.stamp now).2 } : Store sh).Timed :=
    ⟨(hp.2.records.mono hlt.le).applyAll le_rfl ha, fun e he => (hp.2.log e he).trans hlt.le⟩
  exact hafter.landed le_rfl _ _ _

/-- Every move of a store keeps its clock ahead. -/
theorem keeps_timed : Keeps opts (fun _ _ => True) (fun _ _ => True)
    fun st : Store sh => st.doc.Sound ∧ st.Timed where
  judged := by
    intro st mid live now op speaker lost ⟨hs, ht⟩ hadmits h
    refine ⟨((keeps_sound False).judged ⟨hs, False.elim⟩ hadmits h).1, ?_⟩
    unfold Store.judged at h
    dsimp only at h
    split at h
    · cases h
    next doc applied lost' hjudge =>
    obtain ⟨rfl, -⟩ := Prod.mk.inj (Except.ok.inj h)
    obtain ⟨out, hout, -, hsame⟩ := applied_of_judged hjudge
    have hseen := st.clock.le_observe (st.stampOf now op)
    have hself := st.clock.le_observe_self (st.stampOf now op)
    have hafter : ({ st with doc, clock := st.clock.observe (st.stampOf now op) } : Store sh).Timed :=
      ⟨((ht.records.mono hseen).applyAll (by exact_mod_cast hself) hout).congr hsame,
        fun e he => (ht.log e he).trans hseen⟩
    apply Store.Timed.landed (hafter.rememberReplica _ _ _)
    rw [Store.clock_rememberReplica]
    exact_mod_cast hself
  forbidden := by
    intro st op user ts doc message ⟨hs, ht⟩ h
    obtain ⟨hs', -, hsame⟩ := kept_of_refused hs h
    exact ⟨hs', ht.records.congr hsame, ht.log⟩
  taken := by
    intro st live now user replica ⟨hs, ht⟩
    refine ⟨by simpa using hs, ?_⟩
    unfold Store.takeReplica
    split
    · exact (ht.rememberReplica _ _ _).commit _
    · exact ht
  own := by
    intro st now w res hp _ h
    exact timed_own hp h
  compact := by
    intro st now ⟨hs, ht⟩
    exact ⟨((keeps_sound False).compact now ⟨hs, False.elim⟩).1, ht.compact now⟩
  flush := fun ⟨hs, ht⟩ => ⟨hs, ht.of_eq rfl rfl rfl⟩
  migrated := by
    intro st out now migration hp _ h
    refine Store.migrateOne_keeps (P := fun st : Store sh => st.doc.Sound ∧ st.Timed)
      (fun st hp => ⟨hp.1, hp.2.of_eq rfl rfl rfl⟩) (fun st hp => ⟨?_, hp.2.commit _⟩)
      (fun st diff res hp h => timed_own hp h) (fun st hp => ⟨hp.1, hp.2.of_eq rfl rfl rfl⟩) hp h
    rw [Store.doc_commit]
    exact hp.1
  load := by
    intro st known epoch now _
    exact ⟨(sound_of_load known epoch now st.stored False).1, Store.timed_load _ _ _ _⟩

/-- A turn of a host at whatever time its wall clock reads then. -/
def Host.turn (opts : Options sh U) (e : ℕ × HostEvent U) (h : Host sh) : Option (Host sh) :=
  Host.step opts e.2 { h with wall := e.1 }

/-- The times a store holds: in its records' clocks, and in its log. -/
def Store.HoldsTime (st : Store sh) (t : ℕ) : Prop :=
  (∃ k e, st.doc.records.get k = some e ∧ t ∈ e.clock.times) ∨ ∃ e ∈ st.log, e.ts = t

/-- Whatever the wall clock read before and reads now: the store's time is not behind a time it
holds, its own next write is stamped after them all, and an op stamped at or after a time in a
record's clock is decided at or after it. -/
theorem time_not_behind {epoch : String} {wall : ℕ} {h : Host sh}
    (hr : Reaches (Host.turn opts) (fun _ _ => True) (Host.start opts epoch wall) h) (now : ℕ) :
    (∀ t, h.store.HoldsTime t → t ≤ h.store.clock.time now ∧ t < (h.store.clock.stamp now).1) ∧
      ∀ (op : Op) k e, h.store.doc.records.get k = some e → ∀ t ∈ e.clock.times, t ≤ op.ts →
        t ≤ h.store.stampOf now op := by
  have hkept : h.store.doc.Sound ∧ h.store.Timed := by
    refine hr.invariant (P := fun h => h.store.doc.Sound ∧ h.store.Timed)
      ⟨(sound_of_load 0 epoch wall [] False).1, Store.timed_load 0 epoch wall []⟩ ?_
    intro e s s' hp _ hs
    exact keeps_timed.step (fun _ _ => trivial) (fun _ _ _ => trivial) hs hp
  have hheld : ∀ t, h.store.HoldsTime t → t ≤ h.store.clock.highest := by
    rintro t (⟨k, e, hk, ht⟩ | ⟨e, he, rfl⟩)
    · exact hkept.2.records k e hk t ht
    · exact hkept.2.log e he
  refine ⟨fun t ht => ⟨?_, ?_⟩, fun op k e hk t ht hop => ?_⟩
  · exact (hheld t ht).trans (h.store.clock.le_time now)
  · exact lt_of_le_of_lt (hheld t ht) (h.store.clock.lt_stamp now)
  · have hle := (hheld t (.inl ⟨k, e, hk, ht⟩)).trans (h.store.clock.le_time now)
    unfold Store.stampOf clamp
    split_ifs
    · exact hle
    · exact hop

/-- A task made at 9, and the wall clock back at 2. -/
theorem time_not_behind_on_board :
    ∃ h : Host board, h.store.HoldsTime 9 ∧
      (∀ t, h.store.HoldsTime t → t ≤ h.store.clock.time 2 ∧ t < (h.store.clock.stamp 2).1) ∧
      ∀ (op : Op) k e, h.store.doc.records.get k = some e → ∀ t ∈ e.clock.times, t ≤ op.ts →
        t ≤ h.store.stampOf 2 op := by
  have hr : Reaches (Host.turn (ruled .allow)) (fun _ _ => True)
      (Host.start (ruled .allow) "e" 5) _ := .next (9, .own discussed) .start trivial rfl
  exact ⟨_, .inr (by decide +kernel), time_not_behind hr 2⟩

end LazyStorage.Server
