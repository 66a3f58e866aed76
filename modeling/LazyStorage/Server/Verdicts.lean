import LazyStorage.Server.Turns

/-! # What the rules let through, and what they put back

The rules are asked about the records an op names. Those it takes along with a
parent it deletes are not named, so nobody asks about them. An op refused once
it was applied is undone from the trial's journal.
-/
namespace LazyStorage.Server

open Lib LazyStorage.Core

variable {sh : Shape} {U : Type}

namespace Rules

variable {rules : Rules sh U} {d doc : Doc sh} {list : List Change} {user : Option U}
  {replica : String} {apply : Doc sh → Except String (Outcome sh)}

/-- Whether anyone may write the records of a collection, or a singleton. -/
def anyone (rules : Rules sh U) (c : String) : Bool :=
  match rules.ruleOn c with
  | .allow => true
  | _ => false

/-- Whether the writer of an op may have changed a record from what it was `before` to what it is
`after`: no rule locks it, and one that asks was asked about it and said yes. -/
def Lets (rules : Rules sh U) (list : List Change) (user : Option U) (replica : String)
    (before after : Doc sh) (k : RecordKey) : Prop :=
  match rules.ruleOn k.1 with
  | .refuse => False
  | .allow => True
  | .ask judge => k ∈ rules.asked (@recordsOf sh list) ∧ ∃ state : Doc sh,
      (∀ x, state.get x = after.get x) ∧
      judge user (before.get k) (state.get k) k state replica
        (list.filter fun ch => sh.recordKey ch.c ch.id = k) = .yes

theorem mem_recordsOf {k : RecordKey} :
    k ∈ @recordsOf sh list ↔ ∃ ch ∈ list, sh.recordKey ch.c ch.id = k := by
  have hfold : ∀ (l : List Change) (keys : List RecordKey),
      k ∈ l.foldl (fun keys ch =>
        let key := sh.recordKey ch.c ch.id
        if key ∈ keys then keys else keys ++ [key]) keys ↔
      k ∈ keys ∨ ∃ ch ∈ l, sh.recordKey ch.c ch.id = k := by
    intro l
    induction l with
    | nil => simp
    | cons ch l ih =>
      intro keys
      rw [List.foldl_cons, ih]
      dsimp only
      split_ifs with hmem
      · grind
      · simp only [List.mem_append, List.mem_singleton, List.exists_mem_cons_iff, or_assoc,
          eq_comm]
  simpa [recordsOf] using hfold list []

/-- What a change is answered with where no record is judged. -/
def unjudged (d : Doc sh) (apply : Doc sh → Except String (Outcome sh)) :
    Doc sh × Except String (List Change × List Lost) :=
  match apply d with
  | .ok out => (out.doc, .ok (out.applied, out.lost))
  | .error message => (d, .error message)

/-- A refusal puts back what it undid, or was before anything was done. -/
theorem judge_error {message : String}
    (h : rules.judge d list user replica apply = (doc, .error message)) :
    doc = d ∨ ∃ out, apply { d with journal := some .empty } = .ok out ∧
      doc = Doc.undo { out.doc with journal := none } (out.doc.journal.getD .empty) := by
  have hplain : ∀ r, unjudged d apply = r → r = (doc, Except.error message) → doc = d := by
    rintro r rfl hr
    unfold unjudged at hr
    split at hr
    · cases hr
    · cases hr
      rfl
  unfold judge at h
  dsimp only at h
  split_ifs at h
  · exact .inl (hplain _ rfl h)
  · split at h
    · cases h
      exact .inl rfl
    · exact .inl (hplain _ rfl h)
  · split at h
    · cases h
      exact .inl rfl
    split at h
    · cases h
      exact .inl rfl
    · next out hout =>
      split at h
      · cases h
        exact .inr ⟨out, hout, rfl⟩
      · cases h

theorem ruleOn_of_none (h : (!rules.readOnly && rules.byKey.isEmpty) = true) (c : String) :
    rules.ruleOn c = .allow := by
  obtain ⟨hread, hnone⟩ := Bool.and_eq_true_iff.mp h
  simp [ruleOn, List.isEmpty_iff.mp hnone, show rules.readOnly = false by simpa using hread]

/-- What an op let through made, and what let it. -/
theorem judge_ok {applied : List Change} {lost : List Lost}
    (h : rules.judge d list user replica apply = (doc, .ok (applied, lost))) :
    ∃ start out, (start = d ∨ start = { d with journal := some .empty }) ∧
      apply start = .ok out ∧ doc.records = out.doc.records ∧ doc.index = out.doc.index ∧
      out.applied = applied ∧ out.lost = lost ∧
      ((∀ k ∈ @recordsOf sh list, rules.anyone k.1 = true) ∨
        (start = { d with journal := some .empty } ∧
          rules.locked (@recordsOf sh list) = none ∧
          (rules.asked (@recordsOf sh list)).findSome? (rules.refusal list user replica
            (fun k => match (out.doc.journal.getD .empty).get k with
              | some e => e.map Entry.data
              | none => doc.get k) doc) = none)) := by
  have hplain : unjudged d apply = (doc, Except.ok (applied, lost)) →
      ∃ out, apply d = .ok out ∧ doc = out.doc ∧ out.applied = applied ∧ out.lost = lost := by
    intro hr
    unfold unjudged at hr
    split at hr
    · next out hout =>
      cases hr
      exact ⟨out, hout, rfl, rfl, rfl⟩
    · cases hr
  unfold judge at h
  dsimp only at h
  split_ifs at h with hnone hasked
  · obtain ⟨out, hout, rfl, ha, hl⟩ := hplain h
    exact ⟨d, out, .inl rfl, hout, rfl, rfl, ha, hl,
      .inl fun k _ => by simp [anyone, ruleOn_of_none hnone]⟩
  · split at h
    · cases h
    · next hlocked =>
      obtain ⟨out, hout, rfl, ha, hl⟩ := hplain h
      refine ⟨d, out, .inl rfl, hout, rfl, rfl, ha, hl, .inl fun k hk => ?_⟩
      have hfree := List.find?_eq_none.mp hlocked k hk
      have hunasked : k ∉ rules.asked (@recordsOf sh list) := by
        rw [List.isEmpty_iff.mp hasked]
        simp
      simp only [asked, List.mem_filter, hk, true_and] at hunasked
      unfold anyone
      cases hrule : rules.ruleOn k.1 <;> simp_all
  · split at h
    · cases h
    next hlocked =>
    split at h
    · cases h
    next out hout =>
    split at h
    · cases h
    next hfound =>
    cases h
    exact ⟨_, out, .inr rfl, hout, rfl, rfl, rfl, rfl, .inr ⟨rfl, hlocked, hfound⟩⟩

end Rules

namespace Store

variable {opts : Options sh U}

theorem applyAll_of_applyOp {op : Op} {user : Option U} {ts : ℕ} {d : Doc sh} {out : Outcome sh}
    (h : applyOp opts op user ts d = .ok out) : applyAll ts .judge op.changes d = .ok out := by
  unfold applyOp at h
  dsimp only at h
  split at h
  · cases h
  · cases h
  · split at h
    · next hout =>
      cases h
      exact hout
    · cases h

end Store

section Judged

variable {opts : Options sh U} {op : Op} {user : Option U} {ts : ℕ} {d doc : Doc sh}
  {applied : List Change} {lost : List Lost}

/-- The same changes judged over the same records, in a trial or not. -/
theorem judged_alike {changes : List Change} {start : Doc sh} {out : Outcome sh}
    (hstart : start = d ∨ start = { d with journal := some .empty })
    (h : applyAll ts .judge changes start = .ok out) :
    ∃ out', applyAll ts .judge changes d = .ok out' ∧ out'.applied = out.applied ∧
      ∀ k, out.doc.records.get k = out'.doc.records.get k := by
  have halike : start.Alike Eq True d := by
    have hself : d.Alike Eq True d := ⟨(Doc.Same.refl d).records, fun _ => rfl⟩
    rcases hstart with rfl | rfl
    · exact hself
    · exact ⟨hself.records, fun _ => rfl⟩
  rcases (Blind.eq .judge ts).applyAll sh (fun _ => trivial) changes halike with
    ⟨err, herr, -⟩ | ⟨o, o', ho, ho', hend⟩
  · rw [h] at herr
    cases herr
  · rw [h] at ho
    cases ho
    exact ⟨o', ho', hend.applied.symm, Doc.same_iff.mp ⟨hend.doc.records, False.elim⟩⟩

/-- What an op let through made, as judging it outside of a trial makes it. -/
theorem applied_of_judged
    (h : opts.rules.judge d op.changes user op.replica (Store.applyOp opts op user ts) =
      (doc, .ok (applied, lost))) :
    ∃ out, applyAll ts .judge op.changes d = .ok out ∧ out.applied = applied ∧
      ∀ k, doc.records.get k = out.doc.records.get k := by
  obtain ⟨start, out, hstart, hout, hrec, -, rfl, -, -⟩ := Rules.judge_ok h
  obtain ⟨out', hout', happlied, hsame⟩ := judged_alike hstart (Store.applyAll_of_applyOp hout)
  exact ⟨out', hout', happlied, fun k => hrec ▸ hsame k⟩

/-- What the rules let through they were asked about, where they ask, as it was and as it is. -/
theorem lets_of_judged (hd : d.Sound)
    (h : opts.rules.judge d op.changes user op.replica (Store.applyOp opts op user ts) =
      (doc, .ok (applied, lost))) :
    ∀ k ∈ @Rules.recordsOf sh op.changes,
      opts.rules.Lets op.changes user op.replica d doc k := by
  obtain ⟨start, out, hstart, hout, hrec, -, -, -, hwhy⟩ := Rules.judge_ok h
  have hall := Store.applyAll_of_applyOp hout
  intro k hk
  rcases hwhy with hfree | ⟨rfl, hlocked, hfound⟩
  · have hk := hfree k hk
    unfold Rules.anyone at hk
    unfold Rules.Lets
    split at hk <;> simp_all
  have htraced := traced_of_judged hall hd
  obtain ⟨before, hbefore, hwas, -⟩ := htraced
  have hnot := List.find?_eq_none.mp hlocked k hk
  unfold Rules.Lets
  cases hrule : opts.rules.ruleOn k.1 with
  | refuse => simp [hrule] at hnot
  | allow => trivial
  | ask judge =>
    have hasked : k ∈ opts.rules.asked (@Rules.recordsOf sh op.changes) := by
      simp [Rules.asked, hk, hrule]
    refine ⟨hasked, doc, fun _ => rfl, ?_⟩
    have hverdict := List.findSome?_eq_none_iff.mp hfound k hasked
    have hget : (match (out.doc.journal.getD .empty).get k with
        | some e => e.map Entry.data
        | none => doc.get k) = d.get k := by
      have hw := hwas k
      rw [hbefore, Option.getD_some]
      cases hb : before.get k with
      | some e =>
        rw [hb, Option.getD_some] at hw
        simp [Doc.get, ← hw]
      | none =>
        rw [hb, Option.getD_none] at hw
        simp [Doc.get, ← hw, hrec]
    simp only [Rules.refusal, hrule, hget] at hverdict
    split at hverdict <;> simp_all

/-- What an op let through keeps. -/
theorem kept_of_judged {doc : Doc sh} (hd : d.Sound)
    (h : opts.rules.judge d op.changes user op.replica (Store.applyOp opts op user ts) =
      (doc, .ok (applied, lost))) : doc.Sound ∧ (d.Indexed → doc.Indexed) := by
  obtain ⟨start, out, hstart, hout, hrec, hindex, -⟩ := Rules.judge_ok h
  have hall := Store.applyAll_of_applyOp hout
  have hjudge : Mode.judge.makes = true → ∀ ch ∈ op.changes, ch.path = [] :=
    fun hm => absurd hm (by decide)
  have hsound : start.Sound := by
    rcases hstart with rfl | rfl
    · exact hd
    · exact hd.congr rfl rfl
  refine ⟨(applyAll_sound hjudge rfl hall hsound).congr hrec hindex, fun hx => ?_⟩
  have hexact : start.Indexed := by
    rcases hstart with rfl | rfl
    · exact hx
    · exact ⟨hx.paired, hx.exact⟩
  exact Doc.Indexed.congr hrec hindex ((applyAll_follows hjudge hall).indexed hexact)

/-- What a refused op leaves: every record, its data and its clock, and the index as exact as it
was. -/
theorem kept_of_refused {doc : Doc sh} {message : String} (hd : d.Sound)
    (h : opts.rules.judge d op.changes user op.replica (Store.applyOp opts op user ts) =
      (doc, .error message)) :
    doc.Sound ∧ (d.Indexed → doc.Indexed) ∧ ∀ k, doc.records.get k = d.records.get k := by
  rcases Rules.judge_error h with rfl | ⟨out, hout, rfl⟩
  · exact ⟨hd, id, fun _ => rfl⟩
  have hall := Store.applyAll_of_applyOp hout
  have hjudge : Mode.judge.makes = true → ∀ ch ∈ op.changes, ch.path = [] :=
    fun hm => absurd hm (by decide)
  have htraced := traced_of_judged hall hd
  refine ⟨hd.undone htraced (applyAll_sound hjudge rfl hall (hd.congr rfl rfl)), fun hx => ?_,
    htraced.undone⟩
  have hmade := (applyAll_follows hjudge hall).indexed ⟨hx.paired, hx.exact⟩
  exact (Doc.follows_undo _ _).indexed ⟨hmade.paired, hmade.exact⟩

end Judged

section Runs

variable {opts : Options sh U}

theorem sound_of_load (known : ℕ) (epoch : String) (now : ℕ) (stored : List Commit) (exact : Prop) :
    (Store.load opts known epoch now stored : Store sh).doc.Sound ∧
      (exact → (Store.load opts known epoch now stored : Store sh).doc.Indexed) := by
  obtain ⟨records, hd | ⟨cutoff, hd⟩⟩ := @Store.doc_load sh U opts known epoch now stored
  · rw [hd]
    exact ⟨Doc.sound_load records, fun _ => Doc.indexed_load records⟩
  · rw [hd]
    exact ⟨(Doc.sound_load records).prune cutoff,
      fun _ => (Doc.follows_prune cutoff _).indexed (Doc.indexed_load records)⟩

theorem Store.doc_of_judged {st mid : Store sh} {live : List String} {now : ℕ} {op : Op}
    {speaker : Speaker U} {lost : List Lost}
    (h : st.judged opts live now op speaker = .ok (mid, lost)) : ∃ applied,
    opts.rules.judge st.doc op.changes speaker.user op.replica
      (applyOp opts op speaker.user (st.stampOf now op)) = (mid.doc, .ok (applied, lost)) := by
  unfold judged at h
  dsimp only at h
  split at h
  · cases h
  · next doc applied lost' hjudge =>
    obtain ⟨rfl, rfl⟩ := Prod.mk.inj (Except.ok.inj h)
    exact ⟨applied, by simpa [stampOf] using hjudge⟩

theorem Store.of_own {st : Store sh} {now : ℕ} {w : OwnWrite} {res : Store sh × List Change}
    (h : st.own opts now w = .ok res) : ∃ list out, w.accepted sh = .ok list ∧
    applyAll (st.clock.stamp now).1 .authority list st.doc = .ok out ∧
    res = (({ st with doc := out.doc, clock := (st.clock.stamp now).2 } : Store sh).landed opts
      out.applied (st.clock.stamp now).1 none none, out.applied) := by
  unfold own at h
  cases hw : w.accepted sh with
  | error err => simp [hw, bind, Except.bind] at h
  | ok list =>
    simp only [hw, bind, Except.bind] at h
    cases ha : applyAll (st.clock.stamp now).1 .authority list st.doc with
    | error err => simp [ha, throw, throwThe, MonadExceptOf.throw] at h
    | ok out =>
      simp only [ha, pure, Except.pure, Except.ok.injEq] at h
      exact ⟨list, out, rfl, ha, h.symm⟩

theorem sound_of_written {exact : Prop} {st : Store sh} {now : ℕ} {w : OwnWrite}
    {res : Store sh × List Change} (hp : st.doc.Sound ∧ (exact → st.doc.Indexed))
    (hok : exact → w.cutsLink st.doc = false) (h : st.own opts now w = .ok res) :
    res.1.doc.Sound ∧ (exact → res.1.doc.Indexed) := by
  obtain ⟨list, out, hw, ha, rfl⟩ := Store.of_own h
  simp only [Store.doc_landed]
  exact ⟨sound_of_own hw ha hp.1, fun he => indexed_of_own hw ha (hok he) (hp.2 he)⟩

/-- Every doc a run reaches is sound, and its index exact if no link was cut. -/
theorem keeps_sound (exact : Prop) : Keeps opts (fun w st => exact → w.cutsLink st.doc = false)
    (fun _ _ => True) fun st => st.doc.Sound ∧ (exact → st.doc.Indexed) where
  judged := by
    intro st mid live now op speaker lost hp _ h
    obtain ⟨applied, hjudge⟩ := Store.doc_of_judged h
    obtain ⟨hs, hx⟩ := kept_of_judged hp.1 hjudge
    exact ⟨hs, hx ∘ hp.2⟩
  forbidden := by
    intro st op user ts doc message hp h
    obtain ⟨hs, hx, -⟩ := kept_of_refused hp.1 h
    exact ⟨hs, hx ∘ hp.2⟩
  taken := by
    intro st live now user replica hp
    simpa using hp
  own := sound_of_written
  compact := by
    intro st now hp
    rcases @Store.doc_compact sh U opts st now with hd | ⟨cutoff, hd⟩
    · rwa [hd]
    · rw [hd]
      exact ⟨hp.1.prune cutoff, fun he => (Doc.follows_prune cutoff _).indexed (hp.2 he)⟩
  flush := fun hp => hp
  migrated := by
    intro st out now migration hp _ h
    refine Store.migrateOne_keeps
      (P := fun st : Store sh => st.doc.Sound ∧ (exact → st.doc.Indexed)) (fun _ hp => hp) (fun st hp => ?_) (fun st diff res hp h => ?_)
      (fun _ hp => hp) hp h
    · rwa [Store.doc_commit]
    · exact sound_of_written hp (fun _ => rfl) h
  load := by
    intro st known epoch now hp
    exact sound_of_load known epoch now st.stored exact

theorem Store.get_maybeCompact {st : Store sh} (now : ℕ) (k : RecordKey) :
    (st.maybeCompact opts now).doc.get k = st.doc.get k := by
  unfold maybeCompact
  dsimp only
  split_ifs
  · rcases @doc_compact sh U opts st now with hd | ⟨cutoff, hd⟩
    · rw [hd]
    · rw [hd, Doc.get_prune]
  · rfl

theorem Rules.Lets.congr {rules : Rules sh U} {list : List Change} {user : Option U}
    {replica : String} {before after after' : Doc sh} {k : RecordKey}
    (h : rules.Lets list user replica before after k) (hget : ∀ x, after'.get x = after.get x) :
    rules.Lets list user replica before after' k := by
  unfold Lets at h ⊢
  split
  · simp_all
  · trivial
  · next judge hrule =>
    simp only [hrule] at h
    obtain ⟨hasked, state, hstate, hverdict⟩ := h
    exact ⟨hasked, state, fun x => (hstate x).trans (hget x).symm, hverdict⟩

/-- Each record that an op changed is one its writer may write, exactly where what the op takes
along with a parent it deletes, and does not name, is anyone's to write. A duplicate changes
nothing. -/
theorem changed_lets_iff {epoch : String} {wall : ℕ} {h : Host sh}
    (hr : Reaches (Host.step opts) (fun _ _ => True) (Host.start opts epoch wall) h)
    {live : List String} {op : Op} {speaker speaker' : Speaker U} {st' : Store sh}
    {lost : List Lost} {duplicate : Bool}
    (happly : h.store.apply opts live h.wall op speaker =
      (st', speaker', .ok (lost, duplicate))) :
    (∀ k, st'.doc.get k ≠ h.store.doc.get k →
      opts.rules.Lets op.changes speaker.user op.replica h.store.doc st'.doc k) ↔
    op.seq ≤ h.store.seqOf op.replica ∨
      ∀ k, h.store.doc.Takes (h.store.stampOf h.wall op) k op.changes →
        k ∉ @Rules.recordsOf sh op.changes → opts.rules.anyone k.1 = true := by
  have hsound : h.store.doc.Sound :=
    ((keeps_sound False).reached (fun _ _ _ => False.elim) (fun _ _ _ _ => trivial)
      (sound_of_load 0 epoch wall [] False) hr).1
  have happlies := @Store.applies sh U opts h.store live h.wall op speaker
  rw [happly] at happlies
  cases happlies with
  | duplicate known => simp [known]
  | @decided mid _ hadmits hjudged =>
    have hfresh := (Store.decided_seqOf hadmits hjudged).1
    obtain ⟨applied, hjudge⟩ := Store.doc_of_judged hjudged
    obtain ⟨out, hout, -, hsame⟩ := applied_of_judged hjudge
    have hlets := lets_of_judged hsound hjudge
    have hget : ∀ k, (mid.maybeCompact opts h.wall).doc.get k = out.doc.get k := by
      intro k
      rw [Store.get_maybeCompact, Doc.get, hsame k, Doc.get]
    have hunnamed : ∀ {k}, k ∉ @Rules.recordsOf sh op.changes →
        ∀ ch ∈ op.changes, k ≠ sh.recordKey ch.c ch.id := by
      intro k hk ch hch hkey
      exact hk (Rules.mem_recordsOf.mpr ⟨ch, hch, hkey.symm⟩)
    constructor
    · intro hall
      refine .inr fun k htakes hk => ?_
      obtain ⟨hthere, hgone⟩ := gone_of_takes hout hsound.tended (hunnamed hk) htakes
      have hchanged : (mid.maybeCompact opts h.wall).doc.get k ≠ h.store.doc.get k := by
        intro hsame
        rw [← hsame, hget, hgone] at hthere
        cases hthere
      have hl := hall k hchanged
      unfold Rules.Lets at hl
      unfold Rules.anyone
      cases hrule : opts.rules.ruleOn k.1 with
      | refuse => simp [hrule] at hl
      | allow => rfl
      | ask judge =>
        simp only [hrule] at hl
        exact absurd (List.mem_of_mem_filter hl.1) hk
    · rintro (hdup | hfree) k hchanged
      · omega
      by_cases hk : k ∈ @Rules.recordsOf sh op.changes
      · exact (hlets k hk).congr fun x => Store.get_maybeCompact h.wall x
      · have htakes := takes_of_changed hout hsound.tended.paired (hunnamed hk) fun hrec =>
          hchanged (by rw [hget, Doc.get, hrec, Doc.get])
        have hany := hfree k htakes hk
        unfold Rules.anyone at hany
        unfold Rules.Lets
        split at hany <;> simp_all

end Runs

/-- A board of which one collection has a rule of its own. -/
def ruled (rule : Rule board Unit) : Options board Unit where
  rules := ⟨false, [("comments", rule)]⟩
  validate := none
  retention := none
  compactEvery := 1
  deltaLog := 100
  maxChanges := 100
  maxReplicas := 10
  rateLimit := none
  groupCommit := false
  ownerKey := fun _ => "me"

/-- A session of a user who writes. -/
def writer : Speaker Unit := ⟨some (), true, none, none⟩

/-- The server makes a task and a comment on it. -/
def discussed : OwnWrite := .patch [("tasks", .obj [("t1", .obj [])]),
  ("comments", .obj [("k1", .obj [("task", .str "t1")])])]

/-- Comments are the server's alone; a client deletes a task, and the comment on it goes too. -/
theorem locked_comment_deleted :
    let opts := ruled .refuse
    let op : Op := ⟨"c", 1, 9, [⟨"tasks", some "t1", [], .del⟩]⟩
    ∃ h : Host board, Reaches (Host.step opts) (fun _ _ => True) (Host.start opts "e" 5) h ∧
      ∃ st' speaker', h.store.apply opts [] h.wall op writer = (st', speaker', .ok ([], false)) ∧
        ¬ ∀ k, st'.doc.get k ≠ h.store.doc.get k →
          opts.rules.Lets op.changes writer.user op.replica h.store.doc st'.doc k := by
  intro opts op
  obtain ⟨h, hr, hthere, hres, hgone⟩ : ∃ h : Host board,
      Reaches (Host.step opts) (fun _ _ => True) (Host.start opts "e" 5) h ∧
        (h.store.doc.get ("comments", some "k1")).isSome = true ∧
        (h.store.apply opts [] h.wall op writer).2.2 = .ok ([], false) ∧
        (h.store.apply opts [] h.wall op writer).1.doc.get ("comments", some "k1") = none :=
    ⟨_, .next (.own discussed) .start trivial rfl, by decide +kernel, by decide +kernel,
      by decide +kernel⟩
  refine ⟨h, hr, _, _, Prod.ext rfl (Prod.ext rfl hres), fun hall => ?_⟩
  have hlets := hall ("comments", some "k1") fun hsame => by simp [← hsame, hgone] at hthere
  have hrule : opts.rules.ruleOn "comments" = .refuse := rfl
  simp [Rules.Lets, hrule] at hlets

/-- The rule asks about a comment that an op makes, and the op takes nothing along. -/
theorem changed_lets_on_board :
    let opts := ruled (.ask fun _ _ _ _ _ _ _ => .yes)
    let op : Op := ⟨"c", 1, 9, [⟨"comments", some "k2", [], .put (.obj [("task", .str "t1")])⟩]⟩
    ∃ (h : Host board) (st' : Store board) (speaker' : Speaker Unit),
      h.store.apply opts [] h.wall op writer = (st', speaker', .ok ([], false)) ∧
      ((∀ k, st'.doc.get k ≠ h.store.doc.get k →
        opts.rules.Lets op.changes writer.user op.replica h.store.doc st'.doc k) ↔
      op.seq ≤ h.store.seqOf op.replica ∨
        ∀ k, h.store.doc.Takes (h.store.stampOf h.wall op) k op.changes →
          k ∉ @Rules.recordsOf board op.changes → opts.rules.anyone k.1 = true) := by
  intro opts op
  have hr : Reaches (Host.step opts) (fun _ _ => True) (Host.start opts "e" 5) _ :=
    .next (.own discussed) .start trivial rfl
  exact ⟨_, _, _, rfl, changed_lets_iff hr rfl⟩

/-- In every run whose own deletions cut no link, a refused op leaves no trace: every record with its
clock, the children by parent, and all else the store holds are as they were. -/
theorem refused_leaves_no_trace {opts : Options sh U} {epoch : String} {wall : ℕ} {h : Host sh}
    (hr : Reaches (Host.step opts) (fun e h => ∀ w, e = .own w → w.cutsLink h.store.doc = false)
      (Host.start opts epoch wall) h)
    {live : List String} {op : Op} {speaker speaker' : Speaker U} {st' : Store sh} {refusal : Refusal}
    (happly : h.store.apply opts live h.wall op speaker = (st', speaker', .error refusal)) :
    (∀ k, st'.doc.records.get k = h.store.doc.records.get k) ∧
      (∀ p k, k ∈ st'.doc.childrenOf p ↔ k ∈ h.store.doc.childrenOf p) ∧
      { st' with doc := h.store.doc } = h.store := by
  obtain ⟨hsound, hindexed⟩ := (keeps_sound True).reached (fun w _ hcond _ => hcond w rfl)
    (fun _ _ _ _ => trivial)
    (sound_of_load 0 epoch wall [] True) hr
  have happlies := @Store.applies sh U opts h.store live h.wall op speaker
  rw [happly] at happlies
  cases happlies with
  | refused => exact ⟨fun _ => rfl, fun _ _ => Iff.rfl, rfl⟩
  | @forbidden doc message hadmits hjudge =>
    obtain ⟨-, hexact, hsame⟩ := kept_of_refused hsound hjudge
    refine ⟨hsame, fun p k => ?_, rfl⟩
    have hget : ∀ x, doc.get x = h.store.doc.get x := by
      intro x
      simp [Doc.get, hsame x]
    rw [(hexact (hindexed trivial)).mem_childrenOf, (hindexed trivial).mem_childrenOf,
      Doc.namedParents_congr (hget k)]

/-- The server deletes a path inside a comment's link: a container is made over it, and the comment
goes on being listed. An op on it that is refused has it listed no more. -/
theorem cut_comment_unlisted :
    let opts := ruled (.ask fun _ _ _ _ _ _ _ => .no)
    let op : Op := ⟨"c", 1, 9, [⟨"comments", some "k1", ["a"], .set (.num 1)⟩]⟩
    ∃ h : Host board, Reaches (Host.step opts) (fun _ _ => True) (Host.start opts "e" 5) h ∧
      ∃ st' speaker' refusal,
        h.store.apply opts [] h.wall op writer = (st', speaker', .error refusal) ∧
        ("comments", some "k1") ∈ h.store.doc.childrenOf ("tasks", some "t1") ∧
        ("comments", some "k1") ∉ st'.doc.childrenOf ("tasks", some "t1") := by
  intro opts op
  exact ⟨_, .next (.own (.del "comments" (some "k1") ["task", "x"]))
    (.next (.own discussed) .start trivial rfl) trivial rfl, _, _, _, rfl,
    by decide +kernel, by decide +kernel⟩

/-- A task deleted with its comment, and put back when the rule says no. -/
theorem refused_leaves_no_trace_on_board :
    let opts := ruled (.ask fun _ _ _ _ _ _ _ => .no)
    let op : Op := ⟨"c", 1, 9, [⟨"tasks", some "t1", [], .del⟩, ⟨"comments", some "k1", [], .del⟩]⟩
    ∃ (h : Host board) (st' : Store board) (speaker' : Speaker Unit) (refusal : Refusal),
      h.store.apply opts [] h.wall op writer = (st', speaker', .error refusal) ∧
      (∀ k, st'.doc.records.get k = h.store.doc.records.get k) ∧
      (∀ p k, k ∈ st'.doc.childrenOf p ↔ k ∈ h.store.doc.childrenOf p) ∧
      { st' with doc := h.store.doc } = h.store := by
  intro opts op
  obtain ⟨h, hr, refusal, hres⟩ : ∃ h : Host board, Reaches (Host.step opts)
      (fun e h => ∀ w, e = .own w → w.cutsLink h.store.doc = false) (Host.start opts "e" 5) h ∧
      ∃ refusal, (h.store.apply opts [] h.wall op writer).2.2 = .error refusal :=
    ⟨_, .next (.own discussed) .start (fun w hw => by cases hw; rfl) rfl,
      ⟨.forbidden, "Not allowed to write comments/k1", none⟩, by decide +kernel⟩
  have happly : h.store.apply opts [] h.wall op writer = (_, _, .error refusal) :=
    Prod.ext rfl (Prod.ext rfl hres)
  exact ⟨h, _, _, refusal, happly, refused_leaves_no_trace hr happly⟩

end LazyStorage.Server
