import LazyStorage.Client.WorkingOut
import LazyStorage.Core.Reach
import LazyStorage.Relay.Copy
import LazyStorage.Server.Verdicts

/-! # What a relay shows is its copy, but for what waits

Off the records waiting ops name, and those beneath them, the view is the base,
record by record with its clock: working the view out again for the records an
answer touched is enough, as a waiting op reaches no record beyond.
-/
namespace LazyStorage.Relay

open Lib LazyStorage.Core LazyStorage.Server

variable {sh : Shape} {U : Type} {ts : ℕ} {mode : Mode}

/-! ## Changes that may throw -/

section Safe

variable {d d' : Doc sh} {A : RecordKey → Prop} {change : Change} {changes : List Change}

theorem safeAll_cons (change : Change) (changes : List Change) (d : Doc sh) :
    safeAll ts mode (change :: changes) d = (safeApply ts mode change d).andThen (safeAll ts mode changes) := by
  have hassoc : ∀ (out : Outcome sh) (f g : Doc sh → Outcome sh),
      (out.andThen f).andThen g = out.andThen fun d => (f d).andThen g := by
    intro out f g
    simp [Outcome.andThen, List.append_assoc]
  have hnothing : ∀ (f : Doc sh → Outcome sh) (d : Doc sh), (Outcome.nothing d).andThen f = f d := by
    intro f d
    simp [Outcome.andThen, Outcome.nothing]
  have hfrom : ∀ (changes : List Change) (out : Outcome sh),
      changes.foldl (fun out change => out.andThen (safeApply ts mode change)) out =
        out.andThen (safeAll ts mode changes) := by
    intro changes
    induction changes with
    | nil =>
      intro out
      simp [Outcome.andThen, safeAll, Outcome.nothing]
    | cons change changes ih =>
      intro out
      have hall : ∀ d : Doc sh, safeAll ts mode (change :: changes) d =
          (safeApply ts mode change d).andThen (safeAll ts mode changes) := fun d => by
        rw [safeAll, List.foldl_cons, hnothing, ih]
      rw [List.foldl_cons, ih, hassoc]
      exact congrArg out.andThen (funext fun d => (hall d).symm)
  rw [safeAll, List.foldl_cons, hnothing, hfrom]

theorem doc_safeAll_cons (change : Change) (changes : List Change) (d : Doc sh) :
    (safeAll ts mode (change :: changes) d).doc =
      (safeAll ts mode changes (safeApply ts mode change d).doc).doc := by
  rw [safeAll_cons]
  rfl

/-- Changes a store takes throw nothing. -/
theorem safeAll_eq (ts : ℕ) (mode : Mode) (haccepts : ∀ ch ∈ changes, sh.Accepts ch) (d : Doc sh) :
    applyAll ts mode changes d = .ok (safeAll ts mode changes d) := by
  induction changes generalizing d with
  | nil => rfl
  | cons change changes ih =>
    have hone : apply ts mode change d = .ok (safeApply ts mode change d) := by
      have hok := apply_of_accepts (haccepts change List.mem_cons_self) ts mode d
      rw [safeApply, (haccepts change List.mem_cons_self).known, hok]
      rfl
    rw [applyAll_cons hone (ih (fun ch hch => haccepts ch (List.mem_cons_of_mem _ hch)) _), safeAll_cons]
    rfl

theorem safeApply_reach (ts : ℕ) (hd : d.Sane) (hA : d.Closed A) (hnames : A (sh.recordKey change.c change.id)) :
    (safeApply ts .judge change d).doc.Sane ∧
      ∀ k, ¬A k → (safeApply ts .judge change d).doc.records.get k = d.records.get k := by
  unfold safeApply
  split_ifs
  · exact ⟨hd, fun _ _ => rfl⟩
  split
  · next out hout => exact judged_reach hout hd hA hnames
  · exact ⟨hd.note _, fun k _ => Doc.get_note ..⟩

/-- Judged changes within a closed set leave every other record. -/
theorem safeAll_reach (ts : ℕ) (hd : d.Sane) (hA : d.Closed A) (hnames : ∀ key ∈ recordsIn sh changes, A key) :
    (safeAll ts .judge changes d).doc.Sane ∧ (safeAll ts .judge changes d).doc.Closed A ∧
      ∀ k, ¬A k → (safeAll ts .judge changes d).doc.records.get k = d.records.get k := by
  induction changes generalizing d with
  | nil => exact ⟨hd, hA, fun _ _ => rfl⟩
  | cons change changes ih =>
    rw [doc_safeAll_cons]
    obtain ⟨hone, hsame⟩ := safeApply_reach ts hd hA (hnames _ List.mem_cons_self)
    obtain ⟨hall, hclosed, hrest⟩ := ih hone (hA.congr hd.indexed hone.indexed hsame)
      fun key hkey => hnames key (List.mem_cons_of_mem _ hkey)
    exact ⟨hall, hclosed, fun k hk => (hrest k hk).trans (hsame k hk)⟩

/-- So does the whole queue. -/
theorem replayQueue_reach (queue : List Queued) (hd : d.Sane) (hA : d.Closed A)
    (hnames : ∀ key ∈ namedBy sh queue, A key) :
    (replayQueue queue d).Sane ∧ ∀ k, ¬A k → (replayQueue queue d).records.get k = d.records.get k := by
  induction queue generalizing d with
  | nil => exact ⟨hd, fun _ _ => rfl⟩
  | cons entry queue ih =>
    obtain ⟨hone, hclosed, hsame⟩ := safeAll_reach entry.op.ts hd hA
      fun key hkey => hnames key (List.mem_append_left _ hkey)
    obtain ⟨hall, hrest⟩ := ih hone hclosed fun key hkey => hnames key (List.mem_append_right _ hkey)
    exact ⟨hall, fun k hk => (hrest k hk).trans (hsame k hk)⟩

/-- Trusted changes leave the records they do not name. -/
theorem safeTrust_reach (ts : ℕ) (hd : d.Sane) (hfits : ∀ ch ∈ changes, ch.fits sh = true) :
    (safeAll ts .trust changes d).doc.Sane ∧
      ∀ k, k ∉ recordsIn sh changes → (safeAll ts .trust changes d).doc.records.get k = d.records.get k := by
  induction changes generalizing d with
  | nil => exact ⟨hd, fun _ _ => rfl⟩
  | cons change changes ih =>
    rw [doc_safeAll_cons]
    have hone : (safeApply ts .trust change d).doc.Sane ∧
        ∀ k, k ≠ sh.recordKey change.c change.id →
          (safeApply ts .trust change d).doc.records.get k = d.records.get k := by
      unfold safeApply
      split_ifs
      · exact ⟨hd, fun _ _ => rfl⟩
      split
      · next out hout => exact trusted_reach hout hd (hfits change List.mem_cons_self)
      · exact ⟨hd.note _, fun k _ => Doc.get_note ..⟩
    obtain ⟨hall, hrest⟩ := ih hone.1 fun ch hch => hfits ch (List.mem_cons_of_mem _ hch)
    refine ⟨hall, fun k hk => ?_⟩
    simp only [recordsIn, List.map_cons, List.mem_cons, not_or] at hk
    exact (hrest k hk.2).trans (hone.2 k hk.1)

theorem shaped_safeTrust (ts : ℕ) (hd : d.Sane) (hshaped : d.Shaped) (hfits : ∀ ch ∈ changes, ch.fits sh = true) :
    (safeAll ts .trust changes d).doc.Shaped := by
  intro k hk
  by_cases hnamed : k ∈ recordsIn sh changes
  · obtain ⟨ch, hch, rfl⟩ := List.mem_map.mp hnamed
    exact (Bool.and_eq_true_iff.mp (hfits ch hch)).1
  · rw [(safeTrust_reach ts hd hfits).2 k hnamed] at hk
    exact hshaped k hk

/-- Trusted changes make of the same records the same. -/
theorem safeTrust_same (h : d.Same d') :
    (safeAll ts .trust changes d).doc.Same (safeAll ts .trust changes d').doc := by
  induction changes generalizing d d' with
  | nil => exact h
  | cons change changes ih =>
    rw [doc_safeAll_cons, doc_safeAll_cons]
    apply ih
    have hnoted : (d.note (sh.recordKey change.c change.id)).Same (d'.note (sh.recordKey change.c change.id)) :=
      Doc.same_iff.mpr fun k => by rw [Doc.get_note, Doc.get_note, Doc.same_iff.mp h]
    unfold safeApply
    split_ifs
    · exact h
    have hrun := (Blind.eq .trust ts).run sh (sh.recordKey change.c change.id) trust_looks change.write.value
      change.write.kind change.path h
    unfold apply
    split_ifs
    · exact hnoted
    · exact hrun.doc

section Judged

variable {rules : Rules sh U} {user : Option U} {replica : String}

theorem sane_trial (hd : d.Sane) : Doc.Sane { d with journal := some .empty } :=
  ⟨⟨hd.indexed.paired, hd.indexed.exact⟩, hd.full⟩

/-- An op the rules refuse leaves every record. -/
theorem judge_refused {message : String} (haccepts : ∀ ch ∈ changes, sh.Accepts ch) (hd : d.Sane)
    (h : rules.judge d changes user replica (fun d => .ok (safeAll ts .judge changes d)) = (d', .error message)) :
    d'.Sane ∧ ∀ k, d'.records.get k = d.records.get k := by
  rcases Rules.judge_error h with rfl | ⟨out, hout, rfl⟩
  · exact ⟨hd, fun _ => rfl⟩
  obtain rfl := Except.ok.inj hout
  have hall := safeAll_eq ts .judge haccepts { d with journal := some .empty }
  have htraced := traced_of_judged hall hd.sound
  have hmade : (safeAll ts .judge changes { d with journal := some .empty }).doc.Sane :=
    (safeAll_reach ts (sane_trial hd) (fun _ _ _ _ => trivial) fun _ _ => (trivial : (fun _ => True) _)).1
  exact ⟨⟨(Doc.follows_undo _ _).indexed ⟨hmade.indexed.paired, hmade.indexed.exact⟩,
    (hd.sound.undone htraced hmade.sound).full⟩, htraced.undone⟩

/-- One they let through leaves every record but those of a closed set that has those it names. -/
theorem judge_taken {applied : List Change} {lost : List Lost} (hd : d.Sane) (hA : d.Closed A)
    (hnames : ∀ key ∈ recordsIn sh changes, A key)
    (h : rules.judge d changes user replica (fun d => .ok (safeAll ts .judge changes d)) =
      (d', .ok (applied, lost))) :
    d'.Sane ∧ ∀ k, ¬A k → d'.records.get k = d.records.get k := by
  obtain ⟨start, out, hstart, hout, hrecords, hindex, -⟩ := Rules.judge_ok h
  obtain rfl := Except.ok.inj hout
  have hof : start.Sane ∧ start.Closed A ∧ start.records = d.records := by
    rcases hstart with rfl | rfl
    · exact ⟨hd, hA, rfl⟩
    · exact ⟨sane_trial hd, hA, rfl⟩
  obtain ⟨hsane, -, hsame⟩ := safeAll_reach ts hof.1 hof.2.1 hnames
  refine ⟨⟨hsane.indexed.congr hrecords hindex, fun c hc => hrecords ▸ hsane.full c hc⟩, fun k hk => ?_⟩
  rw [hrecords, hsame k hk, hof.2.2]

end Judged

end Safe

/-! ## What waits -/

theorem namedBy_congr {queue queue' : List Queued} (h : queue'.map Queued.op = queue.map Queued.op) :
    namedBy sh queue' = namedBy sh queue := by
  have hops : ∀ queue : List Queued,
      namedBy sh queue = (queue.map Queued.op).flatMap fun op => recordsIn sh op.changes := by
    intro queue
    rw [List.flatMap_map]
    rfl
  rw [hops, hops, h]

theorem namedBy_map {f : Queued → Queued} (hf : ∀ entry, (f entry).op = entry.op) (queue : List Queued) :
    namedBy sh (queue.map f) = namedBy sh queue :=
  namedBy_congr (by rw [List.map_map]; exact List.map_congr_left fun entry _ => hf entry)

/-- Records, and those beneath them in the base. -/
def Waits (base : Doc sh) (names : List RecordKey) (k : RecordKey) : Prop :=
  ∃ key ∈ names, Search.Beneath base.childrenOf key k

theorem closed_waits (base : Doc sh) (names : List RecordKey) : base.Closed (Waits base names) := by
  rintro p k ⟨key, hkey, hbeneath⟩ hk
  exact ⟨key, hkey, hbeneath.tail hk⟩

theorem mem_putBack {base : Doc sh} {records : List RecordKey} {k : RecordKey} :
    k ∈ putBack base records ↔ ∃ r ∈ records, Search.Beneath base.childrenOf r k := by
  refine Search.mem_visitAll (U := records ++ base.index.parentsOfChild.keys) (fun x _ y hy => ?_)
    (fun x hx => List.mem_append_left _ hx) ?_
  · have hhas := (List.mem_filter.mp hy).2
    exact List.mem_append_right _ (OrderedMap.mem_keys.mpr hhas)
  · rw [List.length_append, OrderedMap.keys, List.length_map]
    rfl

/-- A record put back is one that was asked for, or a child. -/
theorem normal_of_putBack (base : Doc sh) {records : List RecordKey} (hrecords : ∀ r ∈ records, Normal sh r)
    {k : RecordKey} (h : k ∈ putBack base records) : Normal sh k := by
  obtain ⟨r, hr, hbeneath⟩ := mem_putBack.mp h
  rcases Relation.ReflTransGen.cases_tail hbeneath with rfl | ⟨p, -, hp⟩
  · exact hrecords k hr
  · exact (normal_of_parentsOf (ChildIndex.parentsOf_of_mem_childrenOf hp)).1

theorem normal_recordsIn {changes : List Change} : ∀ r ∈ recordsIn sh changes, Normal sh r := by
  intro r hr
  obtain ⟨ch, -, rfl⟩ := List.mem_map.mp hr
  exact normal_recordKey _ _

theorem normal_namedBy {queue : List Queued} : ∀ r ∈ namedBy sh queue, Normal sh r := by
  intro r hr
  obtain ⟨entry, -, hr⟩ := List.mem_flatMap.mp hr
  exact normal_recordsIn r hr

theorem restore_spec {base : Doc sh} (hfull : base.Full) {keys : List RecordKey} (hkeys : ∀ k ∈ keys, Normal sh k)
    {view : Doc sh} (hview : view.Sane) :
    (restore base view keys).Sane ∧
      ∀ k, (restore base view keys).records.get k = if k ∈ keys then base.records.get k else view.records.get k := by
  induction keys generalizing view with
  | nil => exact ⟨hview, fun k => by simp [restore]⟩
  | cons key keys ih =>
    have hthere : sh.isSingleton key.1 = true → (base.records.get key).isSome = true := fun hs => by
      by_contra hnone
      have hno := hfull.singleton (hkeys key List.mem_cons_self) (by simpa using hnone)
      rw [hs] at hno
      cases hno
    obtain ⟨hsane, hget⟩ := ih (fun k hk => hkeys k (List.mem_cons_of_mem _ hk)) (hview.setRecord hthere)
    refine ⟨hsane, fun k => ?_⟩
    rw [restore, List.foldl_cons]
    rw [restore] at hget
    rw [hget, Doc.get_setRecord hthere]
    by_cases hk : key = k
    · subst hk
      simp
    · simp [hk, Ne.symm hk]

namespace Edge

/-- The records of ops let go of that the view is not worked out again for: those of a client refused, and of the
relay's own those an answer counts and does not touch. -/
def silent (event : CopyEvent U) (e : Edge sh U) : List RecordKey :=
  let counted := fun seq : ℕ => namedBy sh (e.queue.filter fun entry => entry.own && entry.op.seq ≤ seq)
  match event with
  | .hears _ (.snapshot records seq ..) _ _ => (counted seq).filter (· ∉ (snapshotInto records e.base).2)
  | .hears _ (.delta ops seq ..) _ _ => (counted seq).filter (· ∉ (deltaInto ops e.base).2)
  | .hears _ (.revoked as ..) _ _ | .refused as false => namedBy sh (e.queue.filter fun entry => entry.as = some as)
  | _ => []

/-- Off what waiting ops name, and what lies beneath, the view is the base. -/
structure Copies (e : Edge sh U) : Prop where
  base : e.base.Sane
  shaped : e.base.Shaped
  view : e.view.Sane
  off : ∀ k, ¬Waits e.base (namedBy sh e.queue) k → e.view.records.get k = e.base.records.get k

variable {e e' : Edge sh U}

/-- The view moves within what waits then. -/
theorem Copies.shows (h : e.Copies) (hbase : e'.base = e.base) (hview : e'.view.Sane)
    (hnames : namedBy sh e.queue ⊆ namedBy sh e'.queue)
    (hsame : ∀ k, ¬Waits e.base (namedBy sh e'.queue) k → e'.view.records.get k = e.view.records.get k) :
    e'.Copies := by
  refine ⟨hbase ▸ h.base, hbase ▸ h.shaped, hview, fun k hk => ?_⟩
  rw [hbase] at hk ⊢
  rw [hsame k hk]
  apply h.off k
  rintro ⟨key, hkey, hbeneath⟩
  exact hk ⟨key, hnames hkey, hbeneath⟩

/-- What tells the clients, and what counts, moves no record. -/
theorem Copies.same (h : e.Copies) (hbase : e'.base = e.base) (hview : e'.view = e.view)
    (hnames : namedBy sh e.queue ⊆ namedBy sh e'.queue) : e'.Copies :=
  h.shows hbase (hview ▸ h.view) hnames fun _ _ => by rw [hview]

theorem Copies.emitPatch (h : e.Copies) (changes : List Change) (ts : ℕ) : (e.emitPatch changes ts).Copies := by
  unfold Edge.emitPatch
  split_ifs
  · exact h
  · exact h.same rfl rfl (List.Subset.refl _)

/-- Worked out again for records that, beside those waiting, are all that may differ, the view is the base again. -/
theorem Copies.of_recompute (hbase : e.base.Sane) (hshaped : e.base.Shaped) (hview : e.view.Sane)
    {records : List RecordKey} (hrecords : ∀ r ∈ records, Normal sh r)
    (hoff : ∀ k, ¬Waits e.base (namedBy sh e.queue) k → (∀ r ∈ records, ¬Search.Beneath e.base.childrenOf r k) →
      e.view.records.get k = e.base.records.get k) (ts : ℕ) : (e.recompute records ts).Copies := by
  obtain ⟨hsane, hget⟩ := restore_spec hbase.full (fun k => normal_of_putBack e.base hrecords) hview
  have hsame : ∀ k, ¬Waits e.base (namedBy sh e.queue) k →
      (restore e.base e.view (putBack e.base records)).records.get k = e.base.records.get k := by
    intro k hk
    rw [hget]
    split_ifs with hput
    · rfl
    · exact hoff k hk fun r hr hbeneath => hput (mem_putBack.mpr ⟨r, hr, hbeneath⟩)
  have hclosed := (closed_waits e.base (namedBy sh e.queue)).congr hbase.indexed hsane.indexed hsame
  obtain ⟨hreplayed, hrest⟩ := replayQueue_reach e.queue hsane hclosed fun key hkey =>
    ⟨key, hkey, .refl⟩
  let done : Edge sh U := { e with view := replayQueue e.queue (restore e.base e.view (putBack e.base records)) }
  have hdone : done.Copies := ⟨hbase, hshaped, hreplayed, fun k hk => (hrest k hk).trans (hsame k hk)⟩
  exact hdone.emitPatch _ ts

/-- What lay beneath a record in the base still does, or lies beneath one that changed. -/
theorem beneath_moves {base base' : Doc sh} (hbase : base.Indexed) (hbase' : base'.Indexed)
    {records : List RecordKey} (hsame : ∀ k, k ∉ records → base'.records.get k = base.records.get k)
    {key k : RecordKey}
    (h : Search.Beneath base.childrenOf key k) :
    Search.Beneath base'.childrenOf key k ∨ ∃ r ∈ records, Search.Beneath base'.childrenOf r k := by
  induction h with
  | refl => exact .inl .refl
  | @tail y k _ hstep ih =>
    by_cases hk : k ∈ records
    · exact .inr ⟨k, hk, .refl⟩
    have hnamed : base'.namedParents k = base.namedParents k :=
      Doc.namedParents_congr (by rw [Doc.get, Doc.get, hsame k hk])
    have hchild : k ∈ base'.childrenOf y := by
      rw [hbase'.mem_childrenOf, hnamed]
      exact hbase.mem_childrenOf.mp hstep
    exact ih.imp (fun h => h.tail hchild) fun ⟨r, hr, h⟩ => ⟨r, hr, h.tail hchild⟩

/-- The base moves, and ops are let go of: the view is worked out again for the records that moved and those the ops
let go of wrote. -/
theorem Copies.moves (h : e.Copies) (e' : Edge sh U) {records : List RecordKey} (hview : e'.view = e.view)
    (hbase : e'.base.Sane) (hshaped : e'.base.Shaped)
    (hsame : ∀ k, k ∉ records → e'.base.records.get k = e.base.records.get k)
    (hnames : ∀ key ∈ namedBy sh e.queue, key ∈ namedBy sh e'.queue ∨ key ∈ records)
    (hrecords : ∀ r ∈ records, Normal sh r) (ts : ℕ) : (e'.recompute records ts).Copies := by
  refine .of_recompute hbase hshaped (hview ▸ h.view) hrecords (fun k hk hoff => ?_) ts
  have hnot : ¬Waits e.base (namedBy sh e.queue) k := by
    rintro ⟨key, hkey, hbeneath⟩
    rcases beneath_moves h.base.indexed hbase.indexed hsame hbeneath with hstill | ⟨r, hr, hmoved⟩
    · rcases hnames key hkey with hstays | hgone
      · exact hk ⟨key, hstays, hstill⟩
      · exact hoff key hgone hstill
    · exact hoff r hr hmoved
  rw [hview, h.off k hnot]
  exact (hsame k fun hr => hoff k hr .refl).symm

/-- Ops let go of, the base as it was. -/
theorem Copies.drops (h : e.Copies) {records : List RecordKey} (hview : e'.view = e.view)
    (hbase : e'.base = e.base)
    (hqueue : ∀ entry ∈ e.queue, entry ∈ e'.queue ∨ recordsIn sh entry.op.changes ⊆ records)
    (hrecords : ∀ r ∈ records, Normal sh r) (ts : ℕ) : (e'.recompute records ts).Copies := by
  refine h.moves _ hview (hbase ▸ h.base) (hbase ▸ h.shaped) (fun _ _ => by rw [hbase]) (fun key hkey => ?_)
    hrecords ts
  obtain ⟨entry, hentry, hnamed⟩ := List.mem_flatMap.mp hkey
  rcases hqueue entry hentry with hstays | hgone
  · exact .inl (List.mem_flatMap.mpr ⟨entry, hstays, hnamed⟩)
  · exact .inr (hgone hnamed)

/-- Ops of a kind are let go of all at once. -/
theorem Copies.filters (h : e.Copies) (goes : Queued → Bool) (hview : e'.view = e.view)
    (hbase : e'.base = e.base) (hqueue : e'.queue = e.queue.filter fun entry => !goes entry) (ts : ℕ) :
    (e'.recompute (namedBy sh (e.queue.filter goes)) ts).Copies := by
  refine h.drops hview hbase (fun entry hentry => ?_) normal_namedBy ts
  rw [hqueue]
  cases hgoes : goes entry with
  | false => exact .inl (List.mem_filter.mpr ⟨hentry, by simp [hgoes]⟩)
  | true =>
    exact .inr fun r hr => List.mem_flatMap.mpr ⟨entry, List.mem_filter.mpr ⟨hentry, hgoes⟩, hr⟩

theorem mem_eraseP_or {which : Queued → Bool} {queue : List Queued} {entry other : Queued}
    (hfind : queue.find? which = some entry) (hother : other ∈ queue) :
    other ∈ queue.eraseP which ∨ other = entry := by
  induction queue with
  | nil => cases hother
  | cons first queue ih =>
    rw [List.find?_cons] at hfind
    rw [List.eraseP_cons]
    cases hwhich : which first with
    | true =>
      simp only [hwhich, Option.some.injEq] at hfind
      simp only [cond_true]
      exact (List.mem_cons.mp hother).symm.imp id fun hsame => hsame.trans hfind
    | false =>
      simp only [hwhich] at hfind
      simp only [cond_false]
      rcases List.mem_cons.mp hother with rfl | hother
      · exact .inl List.mem_cons_self
      · exact (ih hfind hother).imp (List.mem_cons_of_mem _) id

/-- The first op of a kind is let go of. -/
theorem Copies.letGo (h : e.Copies) (which : Queued → Bool) (ts : Queued → ℕ) :
    (e.letGo which ts).Copies := by
  unfold Edge.letGo
  split
  · exact h
  · next entry hfind =>
    refine h.drops ?_ ?_ (fun other hother => ?_) normal_recordsIn _
    · rfl
    · rfl
    · exact (mem_eraseP_or hfind hother).imp id fun hsame => by rw [hsame]; exact List.Subset.refl _

@[simp] theorem sendUp_op (up : Bool) (e : Edge sh U) (entry : Queued) : (e.sendUp up entry).op = entry.op := by
  unfold Edge.sendUp
  dsimp only
  split_ifs <;> rfl

/-! ## The server's answers -/

section Answers

variable {base : Doc sh} {ops : List LogEntry}

theorem deltaInto_spec (hbase : base.Sane) (hshaped : base.Shaped)
    (hfits : ∀ entry ∈ ops, ∀ ch ∈ entry.changes, ch.fits sh = true) :
    (deltaInto ops base).1.Sane ∧ (deltaInto ops base).1.Shaped ∧
      ∀ k, k ∉ (deltaInto ops base).2 → (deltaInto ops base).1.records.get k = base.records.get k := by
  induction ops generalizing base with
  | nil => exact ⟨hbase, hshaped, fun _ _ => rfl⟩
  | cons entry ops ih =>
    have hfirst := hfits entry List.mem_cons_self
    obtain ⟨hone, hsame⟩ := safeTrust_reach entry.ts hbase hfirst
    obtain ⟨hall, hshapes, hrest⟩ := ih hone (shaped_safeTrust entry.ts hbase hshaped hfirst)
      fun entry hentry => hfits entry (List.mem_cons_of_mem _ hentry)
    refine ⟨hall, hshapes, fun k hk => ?_⟩
    simp only [deltaInto, List.flatMap_cons, List.mem_append, not_or] at hk
    exact (hrest k hk.2).trans (hsame k hk.1)

theorem snapshotInto_spec (hfull : base.Full) (hshaped : base.Shaped) (records : List (RecordKey × Entry)) :
    (snapshotInto records base).1.Sane ∧ (snapshotInto records base).1.Shaped ∧
      ∀ k, k ∉ (snapshotInto records base).2 → (snapshotInto records base).1.records.get k = base.records.get k := by
  refine ⟨Doc.sane_load _, fun k hk => (Doc.of_load hk).1, fun k hk => ?_⟩
  simp only [snapshotInto, List.mem_append, not_or] at hk ⊢
  have hgone : base.records.get k = none := by
    by_contra hthere
    have hsome := Option.isSome_iff_ne_none.mpr hthere
    have hkeyed := hshaped k hsome
    simp only [Shape.keyed, Bool.or_eq_true, Bool.and_eq_true] at hkeyed
    have hhas : sh.has k.1 = true := by simpa [Shape.has] using hkeyed.imp And.left And.left
    exact hk.1 (Doc.mem_keysOf.mpr ⟨hhas, hsome⟩)
  rw [hgone]
  by_contra hthere
  obtain ⟨hkeyed, hsingle | ⟨r, hr, hcollection, rfl⟩⟩ := Doc.of_load (Option.isSome_iff_ne_none.mpr hthere)
  · have hno := hfull.singleton (Shape.recordKey_keyed hkeyed) hgone
    rw [hsingle] at hno
    cases hno
  · exact hk.2 (List.mem_map.mpr ⟨r, List.mem_filter.mpr ⟨hr, hcollection⟩, rfl⟩)

/-- What an answer touches is of the shape. -/
theorem normal_snapshotInto (hshaped : base.Shaped) {records : List (RecordKey × Entry)}
    (hkeyed : ∀ r ∈ records, sh.has r.1.1 = true → sh.keyed r.1 = true) :
    ∀ k ∈ (snapshotInto records base).2, Normal sh k := by
  intro k hk
  rcases List.mem_append.mp hk with hk | hk
  · exact Shape.recordKey_keyed (hshaped k (Doc.mem_keysOf.mp hk).2)
  · obtain ⟨r, hr, rfl⟩ := List.mem_map.mp hk
    obtain ⟨hr, hhas⟩ := List.mem_filter.mp (List.mem_filter.mp hr).1
    exact Shape.recordKey_keyed (hkeyed r hr hhas)

theorem normal_deltaInto : ∀ k ∈ (deltaInto ops base).2, Normal sh k := by
  intro k hk
  obtain ⟨entry, -, hk⟩ := List.mem_flatMap.mp hk
  exact normal_recordsIn k hk

/-- An answer landed, that touches what the ops it counts wrote. -/
theorem Copies.caughtUp (h : e.Copies) {into : Doc sh → Doc sh × List RecordKey}
    (hsane : (into e.base).1.Sane) (hshaped : (into e.base).1.Shaped)
    (hsame : ∀ k, k ∉ (into e.base).2 → (into e.base).1.records.get k = e.base.records.get k)
    (hnormal : ∀ k ∈ (into e.base).2, Normal sh k) {seq : ℕ}
    (hcounted : ∀ key ∈ namedBy sh (e.queue.filter fun entry => entry.own && entry.op.seq ≤ seq),
      key ∈ (into e.base).2) (up : Bool) (v : ℕ) (epoch fresh : String) (ts : ℕ) :
    (e.caughtUp up seq v epoch fresh ts into).Copies := by
  let counted : Queued → Bool := fun entry => entry.own && entry.op.seq ≤ seq
  let landed : Edge sh U := { e with
    queue := e.queue.filter fun entry => !counted entry
    base := (into e.base).1
    v
    epoch := some epoch
    fepoch := if e.epoch.any (· ≠ epoch) then fresh else e.fepoch
    synced := true }
  have hlanded : (landed.recompute (into e.base).2 ts).Copies :=
    h.moves landed rfl hsane hshaped hsame (fun key hkey => ?_) hnormal ts
  · have hcaught : e.caughtUp up seq v epoch fresh ts into =
        let moved := (landed.recompute (into e.base).2 ts).vouchPending up
        { moved with queue := moved.queue.map (moved.sendUp up) } := rfl
    rw [hcaught]
    generalize landed.recompute (into e.base).2 ts = moved at hlanded ⊢
    refine hlanded.same rfl rfl fun key hkey => ?_
    dsimp only
    rw [namedBy_map (sendUp_op up _)]
    exact hkey
  · obtain ⟨entry, hentry, hnamed⟩ := List.mem_flatMap.mp hkey
    cases hdone : counted entry with
    | true => exact .inr (hcounted key (List.mem_flatMap.mpr ⟨entry, List.mem_filter.mpr ⟨hentry, hdone⟩, hnamed⟩))
    | false =>
      refine .inl (List.mem_flatMap.mpr ⟨entry, List.mem_filter.mpr ⟨hentry, ?_⟩, hnamed⟩)
      simp [hdone]

/-- Changes the server decided: with nothing waiting, onto base and view alike. -/
theorem Copies.fromServer {changes : List Change} (h : e.Copies) (hfits : ∀ ch ∈ changes, ch.fits sh = true)
    (ts : ℕ) : (e.fromServer changes ts).Copies := by
  obtain ⟨hbase, hspared⟩ := safeTrust_reach ts h.base hfits
  have hshaped := shaped_safeTrust ts h.base h.shaped hfits
  let landed : Edge sh U := { e with base := (safeAll ts .trust changes e.base).doc }
  unfold Edge.fromServer
  dsimp only
  split_ifs with hidle
  · refine Copies.emitPatch ⟨hbase, hshaped, ?_, ?_⟩ changes ts
    · exact (safeTrust_reach ts h.view hfits).1
    · have hall : e.view.Same e.base := Doc.same_iff.mpr fun k => h.off k (by
        rintro ⟨key, hkey, -⟩
        rw [List.isEmpty_iff.mp hidle] at hkey
        cases hkey)
      exact fun k _ => Doc.same_iff.mp (safeTrust_same hall) k
  · exact h.moves landed rfl hbase hshaped hspared (fun key hkey => .inl hkey) normal_recordsIn ts

end Answers

/-! ## The clients' ops -/

/-- An op is applied to the view and waits: what it touched beyond what waited is what it names, and those
beneath. -/
theorem Copies.queues (h : e.Copies) {changes : List Change} {view : Doc sh} {entry : Queued}
    (hchanges : entry.op.changes = changes)
    (hview : ∀ A : RecordKey → Prop, e.view.Closed A → (∀ key ∈ recordsIn sh changes, A key) →
      view.Sane ∧ ∀ k, ¬A k → view.records.get k = e.view.records.get k)
    (hbase : e'.base = e.base) (hnow : e'.view = view) (hqueue : e'.queue = e.queue ++ [entry]) : e'.Copies := by
  have hnamed : namedBy sh e'.queue = namedBy sh e.queue ++ recordsIn sh changes := by
    simp [hqueue, namedBy, hchanges]
  have hwaits : ∀ k, Waits e.base (namedBy sh e.queue) k → Waits e.base (namedBy sh e'.queue) k :=
    fun k ⟨key, hkey, hbeneath⟩ => ⟨key, hnamed ▸ List.mem_append_left _ hkey, hbeneath⟩
  have hclosed := (closed_waits e.base (namedBy sh e'.queue)).congr h.base.indexed h.view.indexed
    fun k hk => h.off k fun hwaiting => hk (hwaits k hwaiting)
  obtain ⟨hsane, hsame⟩ := hview _ hclosed fun key hkey =>
    ⟨key, hnamed ▸ List.mem_append_right _ hkey, .refl⟩
  exact h.shows hbase (hnow ▸ hsane) (fun key hkey => hnamed ▸ List.mem_append_left _ hkey) fun k hk => by
    rw [hnow]
    exact hsame k hk

theorem Copies.take {rules : Rules sh U} (h : e.Copies) (acknowledge : Acknowledge) (self : String) (up : Bool)
    (as replica : String) (op : Op) (now : ℕ) :
    (e.take rules acknowledge self up as replica op now).Copies := by
  have hhanded : ∀ (i : ℕ) (f : Queued → Queued), (∀ entry, (f entry).op = entry.op) →
      Copies ({ e with queue := e.queue.modify i f } : Edge sh U) := fun i f hf => by
    refine h.same rfl rfl ?_
    have hops : namedBy sh (e.queue.modify i f) = namedBy sh e.queue := by
      refine namedBy_congr (List.ext_getElem? fun j => ?_)
      rw [List.getElem?_map, List.getElem?_map, List.getElem?_modify]
      cases e.queue[j]? with
      | none => rfl
      | some entry =>
        simp only [Option.map_some, Option.map_eq_map]
        split_ifs
        · exact congrArg some (hf entry)
        · rfl
    exact fun key hkey => hops ▸ hkey
  unfold Edge.take
  split
  · exact h
  extract_lets known waits left
  clear_value known waits left
  cases waits with
  | some i =>
    dsimp only
    split_ifs
    · exact hhanded _ _ fun entry => by simp
    · exact h
  | none =>
    dsimp only
    split
    · exact h
    split
    · exact h
    next hassert =>
    have haccepts : ∀ ch ∈ op.changes, sh.Accepts ch := fun ch hch => by
      have hok := List.find?_eq_none.mp hassert ch hch
      apply Shape.accepts_of_assertChange
      cases hc : sh.assertChange ch with
      | ok => rfl
      | error => simp [hc, Except.isOk, Except.toBool] at hok
    split
    · next view message hjudge =>
      obtain ⟨hview, hsame⟩ := judge_refused haccepts h.view hjudge
      exact h.shows rfl hview (List.Subset.refl _) fun k _ => hsame k
    · next view applied lost hjudge =>
      refine Copies.emitPatch ?_ _ _
      refine h.queues ?_ (fun A hA hnames => judge_taken h.view hA hnames hjudge) rfl rfl rfl
      rw [sendUp_op]
      cases acknowledge <;> rfl

theorem Copies.patch (h : e.Copies) (self : String) (up : Bool) (changes : List Change) (ts : ℕ) :
    (e.patch self up changes ts).Copies := by
  refine Copies.emitPatch ?_ _ _
  refine h.queues (congrArg Op.changes (sendUp_op ..)) (fun A hA hnames => ?_) rfl rfl rfl
  obtain ⟨hsane, -, hsame⟩ := safeAll_reach ts h.view hA hnames
  exact ⟨hsane, hsame⟩

/-! ## A step -/

theorem Copies.vouch (h : e.Copies) (up : Bool) (as : String) : (e.vouch up as).Copies := by
  unfold Edge.vouch
  split
  · exact h
  split_ifs
  · exact h.same rfl rfl (List.Subset.refl _)
  · exact h

/-- Ops marked as sent, or as not, name what they named. -/
theorem Copies.marks (h : e.Copies) {f : Queued → Queued} (hf : ∀ entry, (f entry).op = entry.op)
    (hbase : e'.base = e.base) (hview : e'.view = e.view) (hqueue : e'.queue = e.queue.map f) : e'.Copies :=
  h.same hbase hview fun key hkey => by
    rw [hqueue, namedBy_map hf]
    exact hkey

theorem Copies.helloUp (h : e.Copies) (up : Bool) : (e.helloUp up).Copies :=
  h.marks (f := fun entry => { entry with sent := entry.own }) (fun _ => rfl) rfl rfl rfl

theorem Copies.forgetOrphans (h : e.Copies) (ts : ℕ) : (e.forgetOrphans ts).Copies := by
  unfold Edge.forgetOrphans
  extract_lets orphan orphans queue
  split_ifs
  · exact h
  · refine h.filters orphan ?_ ?_ ?_ ts
    all_goals rfl

theorem Copies.goOffline (h : e.Copies) (ts : ℕ) : (e.goOffline ts).Copies := by
  unfold Edge.goOffline
  extract_lets grants away
  have haway : Copies ({ e with synced := false, grants } : Edge sh U) := h.same rfl rfl (List.Subset.refl _)
  have hforgot : away.Copies := haway.forgetOrphans ts
  exact hforgot.marks (f := fun entry => { entry with sent := false }) (fun _ => rfl) rfl rfl rfl

theorem Copies.leave (h : e.Copies) (as : String) (ts : ℕ) : (e.leave as ts).Copies := by
  unfold Edge.leave
  split
  · exact h
  extract_lets left mine queue
  have hleft : left.Copies := h.same rfl rfl (List.Subset.refl _)
  split_ifs
  · exact hleft
  · refine hleft.filters mine ?_ ?_ ?_ ts
    all_goals rfl

/-- The ops of a client that wrote nothing are let go of. -/
theorem Copies.sheds (h : e.Copies) {as : String}
    (hsilent : namedBy sh (e.queue.filter fun entry => entry.as = some as) = []) (hbase : e'.base = e.base)
    (hview : e'.view = e.view) (hqueue : e'.queue = e.queue.filter fun entry => entry.as ≠ some as) : e'.Copies := by
  refine h.same hbase hview fun key hkey => ?_
  obtain ⟨entry, hentry, hnamed⟩ := List.mem_flatMap.mp hkey
  rw [hqueue]
  refine List.mem_flatMap.mpr ⟨entry, List.mem_filter.mpr ⟨hentry, ?_⟩, hnamed⟩
  by_contra htheirs
  have hmem : key ∈ namedBy sh (e.queue.filter fun entry => entry.as = some as) :=
    List.mem_flatMap.mpr ⟨entry, List.mem_filter.mpr ⟨hentry, by simpa using htheirs⟩, hnamed⟩
  rw [hsilent] at hmem
  cases hmem

/-- What the server says is of the shape, and writes beneath no link. -/
def sound (sh : Shape) : Server.Down → Bool
  | .snapshot records .. => records.all fun r => !sh.has r.1.1 || sh.keyed r.1
  | .delta ops .. => ops.all fun entry => entry.changes.all (·.fits sh)
  | .patch changes .. => changes.all (·.fits sh)
  | _ => true

theorem Copies.hears (h : e.Copies) {msg : Server.Down} (hsound : sound sh msg = true) {up : Bool} {fresh : String}
    {highest : ℕ} (hsilent : e.silent (.hears up msg fresh highest) = []) :
    (e.fromUpstream up msg fresh highest).Copies := by
  have hnone : ∀ {names touched : List RecordKey}, names.filter (· ∉ touched) = [] → ∀ key ∈ names, key ∈ touched :=
    fun hall key hkey => by
      by_contra hoff
      exact List.filter_eq_nil_iff.mp hall key hkey (by simpa using hoff)
  cases msg with
  | snapshot records seq v epoch now lost =>
    have hkeyed : ∀ r ∈ records, sh.has r.1.1 = true → sh.keyed r.1 = true := fun r hr hhas => by
      simpa [hhas] using List.all_eq_true.mp hsound r hr
    obtain ⟨hsane, hshaped, hsame⟩ := snapshotInto_spec h.base.full h.shaped records
    exact h.caughtUp hsane hshaped hsame (normal_snapshotInto h.shaped hkeyed) (hnone hsilent) up v epoch fresh
      highest
  | delta ops seq v epoch now lost =>
    have hfits : ∀ entry ∈ ops, ∀ ch ∈ entry.changes, ch.fits sh = true := fun entry hentry ch hch =>
      List.all_eq_true.mp (List.all_eq_true.mp hsound entry hentry) ch hch
    obtain ⟨hsane, hshaped, hsame⟩ := deltaInto_spec h.base h.shaped hfits
    exact h.caughtUp hsane hshaped hsame normal_deltaInto (hnone hsilent) up v epoch fresh highest
  | patch changes v ts =>
    unfold Edge.fromUpstream
    dsimp only
    split_ifs
    · exact h
    · have hasleep : Copies ({ e with synced := false } : Edge sh U) := h.same rfl rfl (List.Subset.refl _)
      exact hasleep.helloUp up
    · have hcounted : Copies ({ e with v } : Edge sh U) := h.same rfl rfl (List.Subset.refl _)
      exact hcounted.fromServer (fun ch hch => List.all_eq_true.mp hsound ch hch) ts
  | ack as replica seq v now lost =>
    unfold Edge.fromUpstream
    have hcounted : Copies ({ e with v := max e.v v } : Edge sh U) := h.same rfl rfl (List.Subset.refl _)
    cases as with
    | none => exact hcounted.letGo _ _
    | some as =>
      dsimp only
      split
      · exact hcounted
      · refine Copies.letGo ?_ _ _
        exact hcounted.same rfl rfl (List.Subset.refl _)
  | error as replica seq refusal =>
    unfold Edge.fromUpstream
    cases seq with
    | none => exact h
    | some seq =>
      dsimp only
      split_ifs
      · refine h.marks (f := fun entry => if entry.as = as then { entry with sent := false } else entry)
          (fun entry => ?_) rfl rfl rfl
        split_ifs <;> rfl
      · cases as with
        | none => exact h.letGo _ _
        | some as =>
          dsimp only
          split
          · exact h
          · exact h.letGo _ _
  | closed code message =>
    unfold Edge.fromUpstream
    dsimp only
    split_ifs
    · exact h.goOffline highest
    · exact h.same rfl rfl (List.Subset.refl _)
  | revoked as code message =>
    unfold Edge.fromUpstream
    dsimp only
    split
    · exact h
    · exact h.sheds hsilent rfl rfl rfl

/-- What the server says is sound, and no op is let go of with its records left as they are. -/
def Steady (event : CopyEvent U) (e : Edge sh U) : Prop :=
  (∀ up msg fresh highest, event = .hears up msg fresh highest → sound sh msg = true) ∧ e.silent event = []

theorem Copies.step {rules : Rules sh U} {acknowledge : Acknowledge} {self : String} {event : CopyEvent U}
    (h : e.Copies) (hsteady : Steady event e) (hs : Edge.step rules acknowledge self event e = some e') :
    e'.Copies := by
  obtain ⟨hsound, hsilent⟩ := hsteady
  cases event with
  | take up as replica op now => exact Option.some.inj hs ▸ h.take acknowledge self up as replica op now
  | patch up changes ts =>
    simp only [Edge.step] at hs
    split_ifs at hs
    exact Option.some.inj hs ▸ h.patch self up changes ts
  | hears up msg fresh highest => exact Option.some.inj hs ▸ h.hears (hsound _ _ _ _ rfl) hsilent
  | admitted up as user =>
    obtain rfl := Option.some.inj hs
    unfold Edge.admitted
    split
    · exact h
    · refine h.marks (f := fun entry => if entry.as = some as then _ else entry) (fun entry => ?_) rfl rfl rfl
      split_ifs
      · exact sendUp_op ..
      · rfl
  | refused as limited =>
    obtain rfl := Option.some.inj hs
    unfold Edge.refused
    split
    · exact h
    cases limited with
    | true => exact h.same rfl rfl (List.Subset.refl _)
    | false => exact h.sheds hsilent rfl rfl rfl
  | hello up as replica =>
    obtain rfl := Option.some.inj hs
    unfold Edge.hello
    extract_lets asked
    have hasked : asked.Copies := by
      simp only [asked]
      split_ifs
      · exact h
      · exact h.same rfl rfl (List.Subset.refl _)
    split_ifs
    · exact hasked.vouch up as
    · exact hasked
  | asksAgain up as =>
    simp only [Edge.step] at hs
    split_ifs at hs
    exact Option.some.inj hs ▸ h.vouch up as
  | resends up => exact Option.some.inj hs ▸ h.marks (sendUp_op up e) rfl rfl rfl
  | leave as ts => exact Option.some.inj hs ▸ h.leave as ts
  | opens up => exact Option.some.inj hs ▸ h.helloUp up
  | closes ts => exact Option.some.inj hs ▸ h.goOffline ts

/-- A copy starts so, whatever storage kept. -/
theorem copies_make (fresh self : String) (records : List (RecordKey × Entry)) (v fv : ℕ) (epoch : Option String)
    (ownSeq : ℕ) (ops : List Op) : (make fresh self records v fv epoch ownSeq ops : Edge sh U).Copies := by
  have hbase : (Doc.load sh records).Sane := Doc.sane_load records
  have hshaped : (Doc.load sh records).Shaped := fun k hk => (Doc.of_load hk).1
  have hloaded : ∀ k, (Doc.load sh (Doc.load sh records).records.entries).records.get k =
      (Doc.load sh records).records.get k := Client.get_loaded hshaped hbase.full
  let queue : List Queued := ops.map fun op => ⟨none, self, op, false⟩
  have hsane : (Doc.load sh (Doc.load sh records).records.entries).Sane := Doc.sane_load _
  have hclosed := (closed_waits (Doc.load sh records) (namedBy sh queue)).congr hbase.indexed hsane.indexed
    fun k _ => hloaded k
  obtain ⟨hview, hoff⟩ := replayQueue_reach queue hsane hclosed fun key hkey => ⟨key, hkey, .refl⟩
  exact ⟨hbase, hshaped, hview, fun k hk => (hoff k hk).trans (hloaded k)⟩

end Edge

/-- Whatever a relay's clients say and its server answers, off the records waiting ops name and those beneath them
the view has each record and its clock as the base does. -/
theorem view_is_base {rules : Rules sh U} {acknowledge : Acknowledge} {self fresh : String}
    {records : List (RecordKey × Entry)} {v fv ownSeq : ℕ} {epoch : Option String} {ops : List Op} {e : Edge sh U}
    (h : Reaches (Edge.step rules acknowledge self) Edge.Steady
      (Edge.make fresh self records v fv epoch ownSeq ops) e)
    {k : RecordKey} (hk : ∀ key ∈ namedBy sh e.queue, ¬Search.Beneath e.base.childrenOf key k) :
    e.view.records.get k = e.base.records.get k := by
  have hcopies : e.Copies := by
    apply h.invariant (Edge.copies_make ..)
    intro event e e' hcopies hsteady hs
    exact hcopies.step hsteady hs
  exact hcopies.off k fun ⟨key, hkey, hbeneath⟩ => hk key hkey hbeneath

/-- A client deletes a task, and with it its comment, while the server makes another: the one waits, the other
shows. -/
theorem view_is_base_on_board : ∃ e : Edge board Unit,
    (e.view.records.get ("comments", some "k1")).isNone = true ∧
    (e.base.records.get ("comments", some "k1")).isSome = true ∧
    (e.base.records.get ("tasks", some "t2")).isSome = true ∧
      e.view.records.get ("tasks", some "t2") = e.base.records.get ("tasks", some "t2") := by
  obtain ⟨e, hrun, hends⟩ := @Reaches.exists_of_replay _ _ (Edge.step ⟨false, []⟩ .upstream "relay") Edge.Steady
    (Edge.make "f" "relay" (commented board).records.entries 3 0 (some "e") 0 [])
    (fun (event : CopyEvent Unit) e => (match event with
      | .hears _ msg _ _ => Edge.sound board msg
      | _ => true) && (e.silent event).isEmpty)
    (fun event e htest => by
      obtain ⟨hsound, hsilent⟩ := Bool.and_eq_true_iff.mp htest
      refine ⟨?_, List.isEmpty_iff.mp hsilent⟩
      rintro up msg fresh highest rfl
      exact hsound)
    [.opens true, .hello true "s" "c", .hears true (.delta [] 0 3 "e" 100 []) "f" 100, .admitted true "s" none,
      .take true "s" "c" ⟨"c", 1, 100, [⟨"tasks", some "t1", [], .del⟩]⟩ 100,
      .hears true (.patch [⟨"tasks", some "t2", [], .put (.obj [("name", .str "Paint")])⟩] 4 101) "f" 101]
    (fun e => (e.view.records.get ("comments", some "k1")).isNone = true ∧
      (e.base.records.get ("comments", some "k1")).isSome = true ∧
      (e.base.records.get ("tasks", some "t2")).isSome = true ∧
      ("tasks", some "t2") ∉ putBack e.base (namedBy board e.queue))
    inferInstance (by decide +kernel)
  obtain ⟨hgone, hkept, hmade, hoff⟩ := hends
  exact ⟨e, hgone, hkept, hmade, view_is_base hrun fun key hkey hbeneath =>
    hoff (mem_putBack.mpr ⟨key, hkey, hbeneath⟩)⟩

end LazyStorage.Relay
