import LazyStorage.Client.Mirror
import LazyStorage.Core.Apart

/-! # Working records out

What a client shows is its base with the pending changes replayed on it: all of
them over all of it, or one record by itself with the changes that touch it. The
record by itself has no children, so the two part where a pending deletion is older
than a child.
-/
namespace LazyStorage.Client

open Lib LazyStorage.Core LazyStorage.Server

variable {sh : Shape}

/-- The pending changes, in outbox order, each at the time of its op. -/
def pending (outbox : List Op) : List (Change × ℕ) :=
  outbox.flatMap fun op => op.changes.map fun change => (change, op.ts)

/-- Changes replayed in order. -/
def replayPending : List (Change × ℕ) → Doc sh → Except ModelError (Doc sh)
  | [], d => .ok d
  | (change, ts) :: list, d => do
    let out ← apply ts .replay change d
    replayPending list out.doc

/-- The base with every pending change replayed: what `state` shows. -/
def replayedAll (base : Doc sh) (list : List (Change × ℕ)) : Except ModelError (Doc sh) :=
  replayPending list (Doc.load sh base.records.entries)

def pendingFor (sh : Shape) (key : RecordKey) (list : List (Change × ℕ)) : List (Change × ℕ) :=
  list.filter fun e => sh.recordKey e.1.c e.1.id = key

/-- A doc of one record of the base. -/
def scratch (base : Doc sh) (key : RecordKey) : Doc sh :=
  Doc.load sh ((base.records.get key).map fun e => (key, e)).toList

/-- One record as `state` should show it: its base value, with the pending changes that touch it. -/
def replayed (base : Doc sh) (list : List (Change × ℕ)) (key : RecordKey) :
    Except ModelError (Option Value) :=
  let mine := pendingFor sh key list
  if mine.isEmpty then .ok (base.get key)
  else do
    let d ← replayPending mine (scratch base key)
    return d.get key

/-- Whether a change deletes a record that holds nothing newer, while a record beneath it does. -/
def outlived (ts : ℕ) (change : Change) (d : Doc sh) : Bool :=
  let key := sh.recordKey change.c change.id
  change.path.isEmpty && change.write = .del && (d.records.get key).isSome &&
    !decide ((ts : ℤ) < (d.clockOf key).maxOf) && decide ((ts : ℤ) < d.subtreeMax key)

/-- Whether no deletion, in its turn, finds a record beneath the one it deletes newer. -/
def agrees : List (Change × ℕ) → Doc sh → Bool
  | [], _ => true
  | (change, ts) :: list, d =>
    !outlived ts change d &&
      match apply ts .replay change d with
      | .ok out => agrees list out.doc
      | .error _ => true

variable {list more : List (Change × ℕ)} {base d d' : Doc sh} {key : RecordKey}

theorem replay_cons {change : Change} (h : sh.Accepts change) (ts : ℕ) :
    replayPending ((change, ts) :: list) d = replayPending list (run ts .replay (sh.recordKey change.c change.id)
      change.write.value change.write.kind change.path d).doc := by
  simp only [replayPending, apply_of_accepts h, bind, Except.bind]

theorem replay_append {mid : Doc sh} (h : replayPending list d = .ok mid) :
    replayPending (list ++ more) d = replayPending more mid := by
  induction list generalizing d with
  | nil =>
    cases h
    rfl
  | cons e list ih =>
    simp only [replayPending, bind, Except.bind, List.cons_append] at h ⊢
    split at h
    · cases h
    · exact ih h

theorem get_loaded (hshaped : base.Shaped) (hfull : base.Full) (k : RecordKey) :
    (Doc.load sh base.records.entries).records.get k = base.records.get k := by
  rw [Doc.records_load _ fun r hr => hshaped r.1 (by simp [OrderedMap.mem_entries.mp hr]),
    OrderedMap.get_foldl_set base.records.nodup, OrderedMap.get_empty, Option.or_none]
  change (base.records.get k).or _ = base.records.get k
  cases hget : base.records.get k with
  | some e => rfl
  | none =>
    unfold Doc.unset
    rw [Option.none_or, if_neg]
    rintro hs
    obtain ⟨hs, hid⟩ := Bool.and_eq_true_iff.mp hs
    have hthere := hfull k.1 hs
    rw [← Option.isNone_iff_eq_none.mp hid, hget] at hthere
    cases hthere

/-- A doc of one record: no other is there, but for the singletons as they start, and the index is
exact. -/
structure Alone (key : RecordKey) (d : Doc sh) : Prop where
  indexed : d.Indexed
  others : ∀ k, k ≠ key → d.records.get k = Doc.unset sh k

namespace Alone

theorem scratch (hshaped : base.Shaped) (key : RecordKey) : Alone key (scratch base key) := by
  refine ⟨Doc.indexed_load _, fun k hk => ?_⟩
  unfold Client.scratch
  cases hget : base.records.get key with
  | none => exact Doc.records_load [] (by simp) k
  | some e =>
    rw [Doc.records_load _ (by simpa using hshaped key (by simp [hget]))]
    simp [OrderedMap.get_set_of_ne _ _ (Ne.symm hk)]

theorem meets (hshaped : base.Shaped) (hfull : base.Full) (key : RecordKey) :
    (Doc.load sh base.records.entries).Meets key (Client.scratch base key) := by
  unfold Doc.Meets
  rw [get_loaded hshaped hfull]
  unfold Client.scratch
  cases hget : base.records.get key with
  | none =>
    rw [← get_loaded hshaped hfull key, Doc.records_load _ fun r hr =>
      hshaped r.1 (by simp [OrderedMap.mem_entries.mp hr]),
      OrderedMap.get_foldl_set base.records.nodup] at hget
    obtain ⟨-, hunset⟩ := Option.or_eq_none_iff.mp hget
    rw [Option.map_none, Option.toList_none, Doc.records_load [] (by simp)]
    exact hunset.symm
  | some e =>
    rw [Doc.records_load _ (by simpa using hshaped key (by simp [hget]))]
    simp

theorem childless (h : Alone key d) (x k : RecordKey) (hk : k ∈ d.childrenOf x) : k = key := by
  by_contra hne
  have hnamed := h.indexed.mem_childrenOf.mp hk
  have hparents : sh.parentsOf k.1 ≠ [] := ChildIndex.parentsOf_of_mem_childrenOf hk
  have hget := h.others k hne
  unfold Doc.unset at hget
  split_ifs at hget with hs
  · exact hparents (Shape.parentsOf_singleton (Bool.and_eq_true_iff.mp hs).1)
  · simp [Doc.namedParents, Doc.get, hget] at hnamed

theorem run (h : Alone key d) {change : Change} (hc : sh.Accepts change)
    (hkey : sh.recordKey change.c change.id = key) (ts : ℕ) :
    Alone key (Core.run ts .replay key change.write.value change.write.kind change.path d).doc := by
  have happly := applyAll_one (hkey ▸ apply_of_accepts hc ts .replay d)
  refine ⟨(applyAll_follows (fun hm => absurd hm (by decide)) happly).indexed h.indexed, fun k hk => ?_⟩
  have hspared : Spared .replay k d (Core.run ts .replay key change.write.value change.write.kind
      change.path d).doc := run_spares hk _ _ _ _
  rw [hspared.resolve_right fun hc => absurd hc.1 (by decide), h.others k hk]

end Alone

/-- With no record beneath newer, a deletion is judged by the record's own times. -/
theorem judged_by_own {change : Change} {ts : ℕ} (h : outlived ts change d = false)
    (hpath : change.path = []) (hkind : change.write.kind = .del)
    (hthere : (d.records.get (sh.recordKey change.c change.id)).isSome = true) :
    (ts : ℤ) < d.subtreeMax (sh.recordKey change.c change.id) ↔
      (ts : ℤ) < (d.clockOf (sh.recordKey change.c change.id)).maxOf := by
  refine ⟨fun hlt => ?_, Doc.lt_subtreeMax_of_lt⟩
  have hwrite : change.write = .del := by
    revert hkind
    cases change.write <;> simp [Write.kind]
  by_contra hown
  simp [outlived, hpath, hwrite, hthere, hown, hlt] at h

/-- The whole replay and the replay of one record keep the same record. -/
theorem replay_meets (hlist : ∀ e ∈ list, sh.Accepts e.1) (hmeets : d.Meets key d')
    (halone : Alone key d') (hagrees : agrees list d = true) :
    ∃ x x', replayPending list d = .ok x ∧ replayPending (pendingFor sh key list) d' = .ok x' ∧ x.Meets key x' ∧
      Alone key x' := by
  induction list generalizing d d' with
  | nil => exact ⟨d, d', rfl, rfl, hmeets, halone⟩
  | cons e list ih =>
    obtain ⟨change, ts⟩ := e
    have hc : sh.Accepts change := hlist (change, ts) (by simp)
    simp only [agrees, apply_of_accepts hc, Bool.and_eq_true, Bool.not_eq_true'] at hagrees
    obtain ⟨houtlived, hrest⟩ := hagrees
    rw [replay_cons hc]
    by_cases hkey : sh.recordKey change.c change.id = key
    · rw [pendingFor, List.filter_cons_of_pos (by simpa using hkey), replay_cons hc, hkey]
      rw [hkey] at hrest
      refine ih (fun e he => hlist e (by simp [he])) ?_ (halone.run hc hkey ts) hrest
      refine run_apart rfl rfl _ _ _ hmeets fun hpath hkind _ hthere => ?_
      rw [Doc.lt_subtreeMax_childless halone.childless, ← hkey,
        judged_by_own houtlived hpath hkind (hkey ▸ hthere), hkey]
      simp only [Doc.clockOf, show d.records.get key = d'.records.get key from hmeets]
    · rw [pendingFor, List.filter_cons_of_neg (by simpa using hkey)]
      refine ih (fun e he => hlist e (by simp [he])) ?_ halone hrest
      have hspared : Spared .replay key d (run ts .replay (sh.recordKey change.c change.id)
        change.write.value change.write.kind change.path d).doc := run_spares (Ne.symm hkey) _ _ _ _
      exact (hspared.resolve_right fun hc => absurd hc.1 (by decide)).trans hmeets

/-- A replay that does not agree comes, after changes that do, to a deletion that is outlived. -/
theorem of_not_agrees (hlist : ∀ e ∈ list, sh.Accepts e.1) (h : agrees list d = false) :
    ∃ pre change ts rest x, list = pre ++ (change, ts) :: rest ∧ agrees pre d = true ∧
      replayPending pre d = .ok x ∧ outlived ts change x = true := by
  induction list generalizing d with
  | nil => cases h
  | cons e list ih =>
    obtain ⟨change, ts⟩ := e
    have hc : sh.Accepts change := hlist (change, ts) (by simp)
    by_cases houtlived : outlived ts change d = true
    · exact ⟨[], change, ts, list, d, rfl, rfl, rfl, houtlived⟩
    · rw [Bool.not_eq_true] at houtlived
      simp only [agrees, apply_of_accepts hc, houtlived, Bool.not_false, Bool.true_and] at h
      obtain ⟨pre, change', ts', rest, x, rfl, hpre, hx, hlast⟩ := ih (fun e he => hlist e (by simp [he])) h
      refine ⟨(change, ts) :: pre, change', ts', rest, x, rfl, ?_, (replay_cons hc ts).trans hx, hlast⟩
      simp [agrees, apply_of_accepts hc, houtlived, hpre]

theorem agrees_of_append (h : agrees (list ++ more) d = true) : agrees list d = true := by
  induction list generalizing d with
  | nil => rfl
  | cons e list ih =>
    simp only [List.cons_append, agrees, Bool.and_eq_true] at h ⊢
    refine ⟨h.1, ?_⟩
    have hrest := h.2
    split at hrest
    · exact ih hrest
    · rfl

/-- A deletion that is outlived is lost on the whole doc, and takes the record from the doc of it
alone. -/
theorem outlived_parts {change : Change} {ts : ℕ} (hmeets : d.Meets key d') (halone : Alone key d')
    (hkey : sh.recordKey change.c change.id = key) (h : outlived ts change d = true) :
    ((run ts .replay key change.write.value change.write.kind change.path d).doc.get key).isSome = true ∧
      (run ts .replay key change.write.value change.write.kind change.path d').doc.get key = none := by
  simp only [outlived, hkey, Bool.and_eq_true, List.isEmpty_iff, decide_eq_true_eq,
    Bool.not_eq_true', decide_eq_false_iff_not] at h
  obtain ⟨⟨⟨⟨hpath, hwrite⟩, hthere⟩, hown⟩, hnewer⟩ := h
  have hnone : (d.records.get key).isNone = false := by
    rwa [← Option.not_isSome, Bool.not_eq_false']
  have hrun : ∀ d : Doc sh, run ts .replay key change.write.value change.write.kind change.path d =
      deleteRoot ts .replay key (d.note key) := fun d => by
    rw [hpath, hwrite]
    rfl
  rw [hrun, hrun]
  constructor
  · have hlost : (deleteRoot ts .replay key (d.note key)).doc = d.note key := by
      unfold deleteRoot
      rw [Doc.get_note, Doc.subtreeMax_note, if_neg (by simp [hnone]),
        if_pos (by simpa [Mode.judging] using hnewer)]
      rfl
    rw [hlost, Doc.get, Doc.get_note]
    simpa using hthere
  · have hget : d'.records.get key = d.records.get key := Eq.symm hmeets
    have hclock : d'.clockOf key = d.clockOf key := by simp only [Doc.clockOf, hget]
    have hnewest : ¬ (ts : ℤ) < d'.subtreeMax key := by
      rwa [Doc.lt_subtreeMax_childless halone.childless, hclock]
    unfold deleteRoot
    rw [Doc.get_note, Doc.subtreeMax_note, if_neg (by simp [hget, hnone]),
      if_neg (by simpa [Mode.judging] using hnewest)]
    exact congrArg (Option.map Entry.data) (get_removeRecord rfl)

/-- Whether each record, worked out alone, is as the whole replay leaves it. -/
def ShownAlike (base : Doc sh) (list : List (Change × ℕ)) : Prop :=
  ∃ all, replayedAll base list = .ok all ∧
    ∀ key, sh.keyed key = true → replayed base list key = .ok (all.get key)

theorem pendingFor_append (key : RecordKey) (list more : List (Change × ℕ)) :
    pendingFor sh key (list ++ more) = pendingFor sh key list ++ pendingFor sh key more :=
  List.filter_append _ _

/-- A record no pending change touches is as it is in the base. -/
theorem replayed_eq (hshaped : base.Shaped) (hfull : base.Full) {x : Doc sh}
    (h : replayPending (pendingFor sh key list) (scratch base key) = .ok x) :
    replayed base list key = .ok (x.get key) := by
  unfold replayed
  dsimp only
  split_ifs with hnone
  · rw [List.isEmpty_iff.mp hnone] at h
    cases h
    have hmeets : (Doc.load sh base.records.entries).Meets key (scratch base key) :=
      Alone.meets hshaped hfull key
    simp only [Doc.get, ← show _ = (scratch base key).records.get key from hmeets,
      get_loaded hshaped hfull]
  · simp only [h, bind, Except.bind, pure, Except.pure]

/-- What is shown does not depend on how it was worked out, of an outbox and of each beginning of it,
where and only where no pending deletion of a record finds, in its turn, the record itself no newer
and a record beneath it newer. -/
theorem worked_out_alike_iff {base : Doc sh} (hshaped : base.Shaped) (hfull : base.Full)
    {outbox : List Op} (hops : ∀ op ∈ outbox, ∀ change ∈ op.changes, sh.assertChange change = .ok ()) :
    (∀ list, list <+: pending outbox → ShownAlike base list) ↔
      agrees (pending outbox) (Doc.load sh base.records.entries) = true := by
  have haccepts : ∀ e ∈ pending outbox, sh.Accepts e.1 := by
    intro e he
    obtain ⟨op, hop, he⟩ := List.mem_flatMap.mp he
    obtain ⟨change, hchange, rfl⟩ := List.mem_map.mp he
    exact Shape.accepts_of_assertChange (hops op hop change hchange)
  constructor
  · intro hall
    by_contra hnot
    obtain ⟨pre, change, ts, rest, x, hlist, hpre, hx, houtlived⟩ :=
      of_not_agrees haccepts (Bool.eq_false_iff.mpr hnot)
    have hbegins : ∀ e ∈ pre, sh.Accepts e.1 := fun e he => haccepts e (by simp [hlist, he])
    have hc : sh.Accepts change := haccepts (change, ts) (by simp [hlist])
    obtain ⟨all, hwhole, hshown⟩ := hall (pre ++ [(change, ts)]) ⟨rest, by simp [hlist]⟩
    have hkeyed := Shape.keyed_of_accepts hc
    generalize hkey : sh.recordKey change.c change.id = key at hkeyed
    obtain ⟨y, x', hy, hx', hmeets, halone⟩ := replay_meets hbegins
      (Alone.meets hshaped hfull key) (.scratch hshaped key) hpre
    obtain rfl : y = x := Except.ok.inj (hy.symm.trans hx)
    obtain ⟨hthere, hgone⟩ := outlived_parts hmeets halone hkey houtlived
    have hend := hshown key hkeyed
    rw [replayedAll, replay_append hx, replay_cons hc, hkey] at hwhole
    have hmine : replayPending (pendingFor sh key (pre ++ [(change, ts)])) (scratch base key) =
        .ok (run ts .replay key change.write.value change.write.kind change.path x').doc := by
      rw [pendingFor_append, replay_append hx', pendingFor, List.filter_cons_of_pos (by simpa using hkey),
        replay_cons hc, hkey]
      rfl
    rw [replayed_eq hshaped hfull hmine, hgone, ← Except.ok.inj hwhole] at hend
    rw [← Except.ok.inj hend] at hthere
    cases hthere
  · rintro hagrees list ⟨rest, hrest⟩
    have hlist : ∀ e ∈ list, sh.Accepts e.1 := fun e he => haccepts e (by simp [← hrest, he])
    rw [← hrest] at hagrees
    have hbegins := agrees_of_append hagrees
    have hall := fun key => replay_meets hlist (Alone.meets hshaped hfull key)
      (.scratch hshaped key) hbegins
    obtain ⟨x, -, hx, -⟩ := hall ("", none)
    refine ⟨x, hx, fun key _ => ?_⟩
    obtain ⟨y, x', hy, hx', hmeets, -⟩ := hall key
    obtain rfl : y = x := Except.ok.inj (hy.symm.trans hx)
    rw [replayed_eq hshaped hfull hx']
    exact congrArg (fun e => Except.ok (Option.map Entry.data e)) (Eq.symm hmeets)

/-- A task, and a comment on it made at a time. -/
def commented (ts : ℕ) : List (RecordKey × Entry) :=
  [(("tasks", some "t1"), ⟨.obj [], .born 5⟩),
    (("comments", some "k1"), ⟨.obj [("task", .str "t1")], .born ts⟩)]

/-- The task deleted, at 10. -/
def deletion : List Op := [⟨"c", 1, 10, [⟨"tasks", some "t1", [], .del⟩]⟩]

theorem shaped_commented (ts : ℕ) : (Doc.load board (commented ts)).Shaped :=
  Doc.shaped_load _ fun r hr => by
    simp only [commented, List.mem_cons, List.not_mem_nil, or_false] at hr
    rcases hr with rfl | rfl <;> rfl

/-- A task deleted at 10 while a comment on it was made at 30: it stays, where all is replayed, and is
gone, where it is worked out alone. -/
theorem worked_out_apart :
    (Doc.load board (commented 30)).Shaped ∧ (Doc.load board (commented 30)).Full ∧
    (∀ op ∈ deletion, ∀ change ∈ op.changes, board.assertChange change = .ok ()) ∧
    ¬ ShownAlike (Doc.load board (commented 30)) (pending deletion) := by
  refine ⟨shaped_commented 30, Doc.full_load _, by decide, fun ⟨all, hall, hshown⟩ => ?_⟩
  have hthere : ((replayedAll (Doc.load board (commented 30)) (pending deletion)).toOption.bind
      fun d => d.get ("tasks", some "t1")).isSome = true := by decide +kernel
  have hgone : (replayed (Doc.load board (commented 30)) (pending deletion)
      ("tasks", some "t1")).toOption = some none := by decide +kernel
  rw [hall] at hthere
  rw [hshown ("tasks", some "t1") rfl] at hgone
  simp only [Except.toOption, Option.bind_some, Option.some.injEq] at hthere hgone
  simp [hgone] at hthere

/-- With the comment made at 6, the task is shown gone either way. -/
theorem worked_out_alike_on_board :
    ShownAlike (Doc.load board (commented 6)) (pending deletion) :=
  (worked_out_alike_iff (shaped_commented 6) (Doc.full_load _) (by decide)).mpr (by decide +kernel) _
    List.prefix_rfl

end LazyStorage.Client
