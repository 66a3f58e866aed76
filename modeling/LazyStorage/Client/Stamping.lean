import LazyStorage.Client.Mirror
import LazyStorage.Core.Stamps

/-! # What a client stamps after

A client's next op is stamped at or after every time in its base, and after
every op it has pending, as long as its clock has seen them. It sees a patch's
time as the patch lands, and a snapshot's in the time the server says it is.
-/
namespace LazyStorage.Core.Doc

open Lib

variable {sh : Shape} {bound : ℕ}

/-- A doc loaded from records whose times are within a bound. -/
theorem stampedBy_load {stored : List (RecordKey × Entry)}
    (h : ∀ r ∈ stored, ∀ t ∈ r.2.clock.times, t ≤ bound) : (load sh stored).StampedBy bound := by
  have hset : ∀ (m : OrderedMap RecordKey Entry) (key : RecordKey) (e : Entry),
      (∀ k e, m.get k = some e → ∀ t ∈ e.clock.times, t ≤ bound) →
      (∀ t ∈ e.clock.times, t ≤ bound) →
      ∀ k e', (m.set key e).get k = some e' → ∀ t ∈ e'.clock.times, t ≤ bound := by
    intro m key e hm he k e' hk
    rw [OrderedMap.get_set] at hk
    split_ifs at hk
    · exact Option.some.inj hk ▸ he
    · exact hm k e' hk
  intro k e hk
  revert k e hk
  unfold load ofRecords
  dsimp only
  rw [records_foldl_relink]
  -- the singletons first, with no times, then what is stored
  refine List.foldlRecOn stored _ (motive := fun m : OrderedMap RecordKey Entry =>
    ∀ k e, m.get k = some e → ∀ t ∈ e.clock.times, t ≤ bound) ?_ ?_
  · refine List.foldlRecOn sh.singletons _ (motive := fun m : OrderedMap RecordKey Entry =>
      ∀ k e, m.get k = some e → ∀ t ∈ e.clock.times, t ≤ bound) ?_ ?_
    · intro k e hk
      simp at hk
    · intro m hm c _
      exact hset m _ _ hm fun t ht => by simp at ht
  · intro m hm r hr
    split_ifs
    · exact hset m _ _ hm (h r hr)
    · exact hm

end LazyStorage.Core.Doc

namespace LazyStorage.Core.ReplicaClock

variable (clock : ReplicaClock)

theorem le_adopt (serverNow : ℕ) (now : ℤ) : clock.highest ≤ (clock.adopt serverNow now).highest := by
  unfold adopt
  dsimp only
  split_ifs <;> omega

/-- The next stamp is not below the server's time as it said it. -/
theorem le_adopt_self (serverNow : ℕ) (now : ℤ) : serverNow ≤ (clock.adopt serverNow now).highest + 1 := by
  unfold adopt
  dsimp only
  split_ifs <;> omega

end LazyStorage.Core.ReplicaClock

namespace LazyStorage.Server

open LazyStorage.Core

/-- The times in a snapshot are not past the time its server says it is. -/
def Down.Timely : Down → Prop
  | .snapshot records _ _ _ now _ => ∀ r ∈ records, ∀ t ∈ r.2.clock.times, t ≤ now
  | _ => True

end LazyStorage.Server

namespace LazyStorage.Client

open Lib LazyStorage.Core LazyStorage.Server

variable {sh : Shape}

/-- What a superseded outbox keeps keeps its time. -/
theorem ts_of_supersede {changes : List Change} {outbox : List Op} {op : Op}
    (h : op ∈ supersede changes outbox) : ∃ older ∈ outbox, older.ts = op.ts := by
  unfold supersede at h
  dsimp only at h
  split_ifs at h
  · exact ⟨op, h, rfl⟩
  · obtain ⟨older, hmem, hkept⟩ := List.mem_filterMap.mp h
    refine ⟨older, hmem, ?_⟩
    split_ifs at hkept
    · rw [Option.some.inj hkept]
    · rw [← Option.some.inj hkept]

namespace Mirror

variable {c : Mirror sh}

/-- The clock is one behind no time in the base, and behind no pending op. -/
structure Stamped (c : Mirror sh) : Prop where
  base : c.base.StampedBy (c.clock.highest + 1)
  outbox : ∀ op ∈ c.outbox, op.ts ≤ c.clock.highest

/-- What leaves the base alone and lets the clock only go on. -/
theorem Stamped.of_le {c' : Mirror sh} (h : c.Stamped) (hbase : c'.base = c.base)
    (hout : ∀ op ∈ c'.outbox, op ∈ c.outbox) (hclock : c.clock.highest ≤ c'.clock.highest) :
    c'.Stamped where
  base := by
    rw [hbase]
    exact h.base.mono (by omega)
  outbox op hop := (h.outbox op (hout op hop)).trans hclock

theorem Stamped.hello (h : c.Stamped) : c.hello.1.Stamped := h.of_le rfl (fun _ => id) le_rfl

theorem Stamped.edit (h : c.Stamped) (changes : List Change) (now : ℤ) :
    (c.edit changes now).1.Stamped where
  base := h.base.mono (by
    have := c.clock.lt_stamp now
    change c.clock.highest + 1 ≤ (c.clock.stamp now).1 + 1
    omega)
  outbox op hop := by
    change op ∈ supersede changes c.outbox ++ [_] at hop
    change op.ts ≤ (c.clock.stamp now).1
    rcases List.mem_append.mp hop with hop | hop
    · obtain ⟨older, hmem, hts⟩ := ts_of_supersede hop
      have := h.outbox older hmem
      have := c.clock.lt_stamp now
      omega
    · rw [List.mem_singleton.mp hop]

theorem Stamped.acknowledge (h : c.Stamped) (upTo : ℕ) : (c.acknowledge upTo).Stamped :=
  h.of_le rfl (fun _ => List.mem_of_mem_filter) le_rfl

theorem Stamped.adopt (h : c.Stamped) (serverNow : ℕ) (now : ℤ) :
    { c with clock := c.clock.adopt serverNow now }.Stamped :=
  h.of_le rfl (fun _ => id) (c.clock.le_adopt serverNow now)

theorem clock_intoBase (changes : List Change) (ts : ℕ) :
    (c.intoBase changes ts).clock = c.clock.observe ts := rfl

/-- A patch's time is seen before it is written. -/
theorem Stamped.intoBase (h : c.Stamped) (changes : List Change) (ts : ℕ) :
    (c.intoBase changes ts).Stamped where
  base := by
    have hseen := c.clock.le_observe ts
    have hself := c.clock.le_observe_self ts
    rw [clock_intoBase]
    unfold Mirror.intoBase
    dsimp only
    refine List.foldlRecOn _ _ (motive := fun d : Doc sh =>
      d.StampedBy ((c.clock.observe ts).highest + 1)) (h.base.mono (by omega)) ?_
    intro d hd ch _
    split
    · next out hout => exact hd.applyAll (by omega) (applyAll_one hout)
    · exact hd
  outbox op hop := (h.outbox op hop).trans (c.clock.le_observe ts)

theorem Stamped.foldl_intoBase (h : c.Stamped) (ops : List LogEntry) :
    (ops.foldl (fun c entry => c.intoBase entry.changes entry.ts) c).Stamped :=
  List.foldlRecOn ops _ (motive := Stamped) h fun _ hc entry _ => hc.intoBase entry.changes entry.ts

theorem Stamped.snapshotInto (h : c.Stamped) {records : List (RecordKey × Entry)}
    (hrecords : ∀ r ∈ records, ∀ t ∈ r.2.clock.times, t ≤ c.clock.highest + 1) :
    (c.snapshotInto records).Stamped where
  base := Doc.stampedBy_load fun r hr => hrecords r (List.mem_of_mem_filter hr)
  outbox := h.outbox

theorem Stamped.caughtUp (h : c.Stamped) {seq v serverNow : ℕ} {epoch : String} {now : ℤ}
    {applyToBase : Mirror sh → Mirror sh}
    (hbase : ∀ c' : Mirror sh, c'.Stamped → c'.clock = c.clock.adopt serverNow now →
      (applyToBase c').Stamped) :
    (c.caughtUp seq v epoch serverNow now applyToBase).1.Stamped :=
  Stamped.of_le (hbase _ ((h.adopt serverNow now).acknowledge seq) rfl) rfl (fun _ => id) le_rfl

/-- A snapshot that holds no time past what it says the time is, or past what was seen. -/
theorem Stamped.snapshot (h : c.Stamped) {records : List (RecordKey × Entry)} {seq v serverNow : ℕ}
    {epoch : String} {lost : List (ℕ × List Lost)} (now : ℤ)
    (hrecords : ∀ r ∈ records, ∀ t ∈ r.2.clock.times, t ≤ serverNow ∨ t ≤ c.clock.highest + 1) :
    (c.handle (.snapshot records seq v epoch serverNow lost) now).1.Stamped := by
  apply h.caughtUp
  intro c' hc' hclock
  apply hc'.snapshotInto
  intro r hr t ht
  have := hrecords r hr t ht
  have := c.clock.le_adopt_self serverNow now
  have := c.clock.le_adopt serverNow now
  rw [hclock]
  omega

/-- A message whose times are not past what it says the time is. -/
theorem Stamped.handle (h : c.Stamped) {msg : Down} (hmsg : msg.Timely) (now : ℤ) :
    (c.handle msg now).1.Stamped := by
  cases msg with
  | snapshot records seq v epoch serverNow lost =>
    exact h.snapshot now fun r hr t ht => .inl (hmsg r hr t ht)
  | delta ops seq v epoch serverNow lost =>
    exact h.caughtUp fun c' hc' _ => hc'.foldl_intoBase ops
  | patch changes v ts =>
    unfold Mirror.handle
    dsimp only
    split_ifs
    · exact h
    · exact h.of_le rfl (fun _ => id) le_rfl
    · apply Stamped.intoBase
      exact h.of_le rfl (fun _ => id) le_rfl
  | ack as replica seq v serverNow lost =>
    apply Stamped.acknowledge
    exact (h.adopt serverNow now).of_le rfl (fun _ => id) le_rfl
  | error as replica seq refusal =>
    unfold Mirror.handle
    dsimp only
    split_ifs
    · exact h.of_le rfl (fun _ => id) le_rfl
    · cases seq with
      | none => exact h
      | some seq => exact h.of_le rfl (fun _ hop => List.mem_of_mem_eraseP hop) le_rfl
  | closed code message =>
    unfold Mirror.handle
    dsimp only
    split_ifs <;> exact h.of_le rfl (fun _ => id) le_rfl
  | revoked as code message => exact h

theorem Stamped.retry (h : c.Stamped) : c.retry.1.Stamped := by
  unfold Mirror.retry
  dsimp only
  split_ifs
  · apply Stamped.hello
    exact h.of_le rfl (fun _ => id) le_rfl
  · exact h.of_le rfl (fun _ => id) le_rfl

theorem Stamped.wantPresence (h : c.Stamped) : c.wantPresence.1.Stamped := by
  unfold Mirror.wantPresence
  split_ifs
  · exact h.hello
  · exact h

theorem Stamped.onOpen (h : c.Stamped) : c.onOpen.1.Stamped := by
  apply Stamped.hello
  exact h.of_le rfl (fun _ => id) le_rfl

theorem Stamped.onClose (h : c.Stamped) : c.onClose.Stamped := h.of_le rfl (fun _ => id) le_rfl

theorem stamped_create (replica : String) (wantsClocks : Bool) :
    (create sh replica wantsClocks).Stamped where
  base := by
    apply Doc.stampedBy_load
    intro r hr
    simp only [Store.seeds, List.mem_flatMap, List.mem_map] at hr
    obtain ⟨c, -, field, -, rfl⟩ := hr
    intro t ht
    simp at ht
  outbox := by simp [create]

/-- A client built over what holds no time its clock has not seen. -/
theorem stamped_build {replica : String} {wantsClocks cache : Bool} {saved : Kept}
    (h : saved.replica = replica → (∀ op ∈ saved.ops, op.ts = 0) ∧
      (cache = true → ∀ records, saved.records = some records →
        ∀ r ∈ records, ∀ t ∈ r.2.clock.times, t ≤ 1)) :
    (build sh replica wantsClocks cache saved).Stamped := by
  have hfresh : (create sh replica wantsClocks).Stamped := stamped_create replica wantsClocks
  unfold build
  dsimp only
  split
  · exact hfresh
  next hother =>
  obtain ⟨hops, hkept⟩ := h (not_not.mp hother)
  have hout : ∀ op ∈ saved.ops, op.ts ≤ 0 := fun op hop => (hops op hop).le
  split
  · next records hrecords =>
    split
    · next hcache => exact ⟨Doc.stampedBy_load (hkept hcache records hrecords), hout⟩
    · exact ⟨hfresh.base, hout⟩
  · exact ⟨hfresh.base, hout⟩

end Mirror

end LazyStorage.Client
