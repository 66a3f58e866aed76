import LazyStorage.Core.Replays

/-! # A run replays what it reports

A landing in any mode is undone of its tests in `trust` and does the same to the
entry; a merge reports what its keys report. So a run that makes nothing on its
way is faithful: trusting its reports gives what it left. A judged run makes
nothing; the other modes make nothing where the parent of the path is there.
-/
namespace LazyStorage.Core

open Lib

variable {sh : Shape} {ts : ℕ} {mode : Mode} {key : RecordKey}

theorem settledKind_eq_del {path : Path} {kind : Kind} {value : Value} :
    settledKind sh key path kind value = .del ↔ kind = .del := by
  cases kind <;> simp [settledKind] <;> split_ifs <;> simp

theorem exists_fields_of_put {path : Path} {kind : Kind} {value : Value}
    (h : settledKind sh key path kind value = .put) : ∃ fs, value = .obj fs := by
  have hobj : value.isObj = true := by
    by_contra hobj
    cases kind <;> simp [settledKind, hobj] at h
  exact Value.isObj_iff.mp hobj

theorem settledKind_idem (path : Path) (kind : Kind) (value : Value) :
    settledKind sh key path (settledKind sh key path kind value) value =
      settledKind sh key path kind value := by
  cases kind with
  | del => rfl
  | put => simp only [settledKind]; split_ifs <;> simp
  | set => simp only [settledKind]; split_ifs <;> simp

/-- The kind a landing reports is one that settles to the kind that landed. -/
theorem settle_land {kind : Kind} {value : Value} {path : Path} {e e' : Entry} {w : Write}
    (hk : settledKind sh key path kind value = kind)
    (h : e.settle sh mode ts key path kind value = .land e' w) :
    settledKind sh key path w.kind w.value = kind ∧
      e.settle sh .trust ts key path kind w.value = .land e' w := by
  have hover : kind ≠ .del → e.overwrite mode ts path value = .land e' w →
      settledKind sh key path w.kind w.value = kind ∧
        e.overwrite .trust ts path w.value = .land e' w := by
    intro hd h
    simp only [Entry.overwrite] at h
    split_ifs at h
    obtain ⟨rfl, rfl⟩ := Ruling.land.inj h
    refine ⟨?_, by simp [Entry.overwrite, Mode.judging, Write.value]⟩
    cases kind <;> simp_all [settledKind, Write.kind, Write.value]
  unfold Entry.settle at h
  split at h
  · next hc =>
    simp only [Entry.fresh] at h
    split_ifs at h
    obtain ⟨rfl, rfl⟩ := Ruling.land.inj h
    exact ⟨hk, by simp [Entry.settle, hc, Entry.fresh, Mode.judging, Write.value]⟩
  · cases h
  · next hne hc =>
    obtain ⟨h₁, h₂⟩ := hover (by simp) h
    refine ⟨h₁, ?_⟩
    simpa only [Entry.settle, hc] using h₂
  · next hc =>
    obtain ⟨h₁, h₂⟩ := hover (by simp) h
    exact ⟨h₁, by simpa [Entry.settle] using h₂⟩
  · cases h
  · next current hc =>
    simp only [Entry.delete] at h
    split_ifs at h
    obtain ⟨rfl, rfl⟩ := Ruling.land.inj h
    exact ⟨rfl, by simp [Entry.settle, hc, Entry.delete, Mode.judging]⟩

/-- A change inside a record that is there lands in `trust` as it did. -/
theorem step_trust_of_land {d : Doc sh} {e e' : Entry} {path : Path} {w : Write}
    (hpath : path ≠ []) (he : d.records.get key = some e)
    (hparent : e.hasParent sh key path = true)
    (hsettle : e.settle sh .trust ts key path (settledKind sh key path w.kind w.value) w.value =
      .land e' w) :
    ∃ out, step ts .trust key w.value w.kind path d = .done out ∧
      (d.write key e').Same out.doc := by
  have hnote : (d.note key).records.get key = some e := by simpa using he
  have harrive : e.arrive sh .trust ts key path = .ok e := by
    simp [Entry.arrive, Mode.judging, hparent]
  refine ⟨landed key path e' w { (Outcome.nothing (d.note key)) with
    doc := (d.note key).write key e }, ?_, ?_⟩
  · simp only [step, List.isEmpty_iff, hpath, if_false, hnote, within, harrive, strands,
      Mode.checks, Outcome.nothing, hsettle]
    rfl
  · exact Doc.Same.symm (landed_same (Doc.Alike.write (d.note_same key) key ⟨rfl, rfl⟩))

namespace Doc

/-- A container at a path of a record. -/
def ObjAt (d : Doc sh) (key : RecordKey) (q : Path) : Prop :=
  ∃ e fs, d.records.get key = some e ∧ valueAt e.data q = some (.obj fs)

/-- A change that makes nothing on its way: modes that make what is missing find it there. -/
def Clear (mode : Mode) (d : Doc sh) (key : RecordKey) (path : Path) : Prop :=
  mode.makes = true → path ≠ [] →
    ∃ e, d.records.get key = some e ∧ e.hasParent sh key path = true

theorem ObjAt.of_same {d d' : Doc sh} {q : Path} (h : d.ObjAt key q) (hs : d.Same d') :
    d'.ObjAt key q := by
  obtain ⟨e, fs, he, hv⟩ := h
  exact ⟨e, fs, (same_iff.mp hs key) ▸ he, hv⟩

theorem Clear.of_same {d d' : Doc sh} {path : Path} (h : d.Clear mode key path)
    (hs : d.Same d') : d'.Clear mode key path := fun hm hp => by
  obtain ⟨e, he, hpar⟩ := h hm hp
  exact ⟨e, (same_iff.mp hs key) ▸ he, hpar⟩

/-- Beneath a container that is no register nothing has to be made. -/
theorem ObjAt.clear {d : Doc sh} {path : Path} (h : d.ObjAt key path)
    (hr : sh.isRegister key path = false) (k : String) : d.Clear mode key (path ++ [k]) := by
  obtain ⟨e, fs, he, hv⟩ := h
  exact fun _ _ => ⟨e, he, by simp [Entry.hasParent, hv, hr]⟩

end Doc

/-- What a run promises: its reports replayed give what it left, and the containers above its path
are still there. -/
structure Faithful (ts : ℕ) (key : RecordKey) (path : Path) (d : Doc sh) (out : Outcome sh) :
    Prop where
  replays : Replays ts out.applied d out.doc
  keeps : ∀ q, q <+: path.dropLast → path ≠ [] → d.ObjAt key q → out.doc.ObjAt key q

namespace Faithful

variable {path : Path} {d : Doc sh}

theorem quiet {out : Outcome sh} (ha : out.applied = []) (h : out.doc.Same d) :
    Faithful ts key path d out :=
  ⟨ha ▸ .none h, fun _ _ _ hq => hq.of_same (Doc.Same.symm h)⟩

theorem andThen {out : Outcome sh} {next : Doc sh → Outcome sh} (h : Faithful ts key path d out)
    (h' : Faithful ts key path out.doc (next out.doc)) :
    Faithful ts key path d (out.andThen next) :=
  ⟨h.replays.append h'.replays, fun q hq hp hd => h'.keeps q hq hp (h.keeps q hq hp hd)⟩

theorem congr {d₀ : Doc sh} {out : Outcome sh} (hd : d₀.Same d) (h : Faithful ts key path d out) :
    Faithful ts key path d₀ out :=
  ⟨h.replays.congr hd, fun q hq hp hq' => h.keeps q hq hp (hq'.of_same hd)⟩

end Faithful

/-- A landing edits the parent of its path in place. -/
theorem settle_land_data {kind : Kind} {value : Value} {path : Path} {e e' : Entry} {w : Write}
    (h : e.settle sh mode ts key path kind value = .land e' w) :
    ∃ f, KeepsObj f ∧ e'.data = modifyAt f path.dropLast e.data := by
  have hover : e.overwrite mode ts path value = .land e' w →
      ∃ f, KeepsObj f ∧ e'.data = modifyAt f path.dropLast e.data := by
    intro h
    simp only [Entry.overwrite] at h
    split_ifs at h
    obtain ⟨rfl, rfl⟩ := Ruling.land.inj h
    exact ⟨_, keepsObj_setField _ _, rfl⟩
  unfold Entry.settle at h
  split at h
  · simp only [Entry.fresh] at h
    split_ifs at h
    obtain ⟨rfl, rfl⟩ := Ruling.land.inj h
    exact ⟨_, keepsObj_setField _ _, rfl⟩
  · cases h
  · exact hover h
  · exact hover h
  · cases h
  · simp only [Entry.delete] at h
    split_ifs at h
    obtain ⟨rfl, rfl⟩ := Ruling.land.inj h
    exact ⟨_, keepsObj_eraseField _, rfl⟩

/-- Only a put that meets a container is merged in. -/
theorem settle_merge {kind : Kind} {value : Value} {path : Path} {e : Entry} (hpath : path ≠ [])
    (h : e.settle sh mode ts key path kind value = .merge) :
    kind = .put ∧ ∃ fs, valueAt e.data path = some (.obj fs) := by
  have hover : e.overwrite mode ts path value ≠ .merge := by
    simp only [Entry.overwrite]
    split_ifs <;> simp
  unfold Entry.settle at h
  split at h
  · simp only [Entry.fresh] at h
    split_ifs at h
  · next fs hc =>
    refine ⟨rfl, fs, ?_⟩
    simp only [Entry.current] at hc
    obtain ⟨gs, hg, hlast⟩ := Option.bind_eq_some_iff.mp hc
    obtain ⟨v, hv, hf⟩ := Option.bind_eq_some_iff.mp hg
    obtain rfl := Value.fields?_eq_some.mp hf
    rw [← List.dropLast_append_getLast hpath, valueAt_append, hv]
    simpa [valueAt, Value.prop, List.getLastD_eq_getLast?, List.getLast?_eq_getLast_of_ne_nil hpath]
      using hlast
  · exact absurd h hover
  · exact absurd h hover
  · cases h
  · simp only [Entry.delete] at h
    split_ifs at h

section Step

variable {value : Value} {kind : Kind} {path : Path} {d : Doc sh}

theorem atRoot_replays (hkey : Normal sh key) (hk : settledKind sh key [] kind value = kind)
    (hdel : kind = .del → sh.isSingleton key.1 = false) :
    Replays ts (atRoot ts mode key value kind d).outcome.applied d
      (atRoot ts mode key value kind d).outcome.doc := by
  have hwrite : kind ≠ .del → (kind = .put → (d.get key).any Value.isObj = false) →
      Replays ts (writeRoot ts mode key value kind d).applied d
        (writeRoot ts mode key value kind d).doc := by
    intro hne hput
    simp only [writeRoot]
    split_ifs
    · exact .none (.refl d)
    · exact .none (.refl d)
    · exact replays_writeWhole hkey hk hne hput
  cases kind with
  | set => exact hwrite (by simp) (by simp)
  | put =>
    simp only [atRoot]
    split_ifs with hobj
    · exact .none (.refl d)
    · exact hwrite (by simp) (fun _ => by simpa using hobj)
  | del =>
    simp only [atRoot, Step.outcome, deleteRoot]
    split_ifs
    · exact .none (.refl d)
    · exact .none (.refl d)
    · exact removeRecord_replays _ _ hkey (hdel rfl) d

theorem within_faithful (hkey : Normal sh key) (hpath : path ≠ []) {e : Entry}
    (hk : settledKind sh key path kind value = kind) (he : d.records.get key = some e)
    (hclear : mode.makes = true → e.hasParent sh key path = true) :
    Faithful ts key path d (within ts mode key value kind path e (.nothing d)).outcome := by
  have hself : (d.write key e).Same d := Doc.write_self he
  have harrive : (∃ why, e.arrive sh mode ts key path = .error why) ∨
      (e.arrive sh mode ts key path = .ok e ∧ e.hasParent sh key path = true) := by
    simp only [Entry.arrive]
    split_ifs with _ hparent hm
    · exact Or.inl ⟨_, rfl⟩
    · exact Or.inr ⟨rfl, hparent⟩
    · exact absurd (hclear hm) hparent
    · exact Or.inl ⟨_, rfl⟩
  unfold within
  rcases harrive with ⟨why, harrive⟩ | ⟨harrive, hparent⟩
  · simp only [harrive]
    exact .quiet rfl (.refl d)
  simp only [harrive]
  split_ifs
  · exact .quiet rfl hself
  split
  · exact .quiet rfl hself
  · exact .quiet rfl hself
  · exact .quiet rfl hself
  next e' w hland =>
  obtain ⟨hw, hsettle⟩ := settle_land hk hland
  obtain ⟨out, hout, hsame⟩ := step_trust_of_land hpath he hparent (by rw [hw]; exact hsettle)
  have hdoc : (landed key path e' w { Outcome.nothing d with doc := d.write key e }).doc.Same
      (d.write key e') := landed_same (.refl _)
  refine ⟨.one (apply_reported hkey (fun h => absurd h hpath) d) ?_, fun q hq _ hobj => ?_⟩
  · rw [run_of_done hout]
    exact Doc.Same.trans hdoc hsame
  · obtain ⟨f, hf, hdata⟩ := settle_land_data hland
    obtain ⟨e₀, fs, he₀, hv⟩ := hobj
    obtain rfl : e = e₀ := Option.some.inj (he.symm.trans he₀)
    obtain ⟨r, hr⟩ := hq
    obtain ⟨gs, hg⟩ := objAt_modifyAt hf q r hv
    have hat : (d.write key e').ObjAt key q :=
      ⟨e', gs, by simp, by rw [hdata, ← hr, hg]⟩
    exact hat.of_same (Doc.Same.symm hdoc)

theorem atRoot_merge {out : Outcome sh} (h : atRoot ts mode key value kind d = .merge out) :
    kind = .put ∧ out.doc.ObjAt key [] := by
  cases kind with
  | del => simp [atRoot] at h
  | set => simp [atRoot] at h
  | put =>
    simp only [atRoot] at h
    split_ifs at h with hobj
    obtain rfl := Step.merge.inj h
    simp only [Doc.get, Option.any_map, Option.any_eq_true] at hobj
    obtain ⟨e, he, hobj⟩ := hobj
    obtain ⟨fs, hfs⟩ := Value.isObj_iff.mp hobj
    exact ⟨rfl, e, fs, he, by rw [hfs]; rfl⟩

theorem within_merge (hpath : path ≠ []) {e : Entry} {out₀ out : Outcome sh}
    (h : within ts mode key value kind path e out₀ = .merge out) :
    kind = .put ∧ out.doc.ObjAt key path := by
  unfold within at h
  split at h
  · cases h
  · next e' _ =>
    dsimp only at h
    split_ifs at h
    split at h
    · cases h
    · cases h
    · next hm =>
      obtain rfl := Step.merge.inj h
      obtain ⟨hk, fs, hfs⟩ := settle_merge hpath hm
      exact ⟨hk, e', fs, by simp, hfs⟩
    · cases h

theorem isRegister_of_put (h : settledKind sh key path kind value = .put) :
    sh.isRegister key path = false := by
  by_contra hr
  cases kind <;> simp [settledKind, hr] at h

variable (ts value d) in
/-- One step is faithful, and what it leaves to be merged lies clear. -/
theorem step_faithful (hkey : Normal sh key)
    (hdel : path = [] → kind = .del → sh.isSingleton key.1 = false)
    (hclear : d.Clear mode key path) :
    Faithful ts key path d (step ts mode key value kind path d).outcome ∧
      ∀ out, step ts mode key value kind path d = .merge out →
        out.doc.ObjAt key path ∧ sh.isRegister key path = false := by
  have hnote := Doc.Same.symm (d.note_same key)
  simp only [step]
  by_cases hpath : path = []
  · subst hpath
    simp only [List.isEmpty_nil, if_true]
    refine ⟨⟨.congr hnote (atRoot_replays hkey (settledKind_idem _ _ _) fun h =>
      hdel rfl (settledKind_eq_del.mp h)), fun _ _ h => absurd rfl h⟩, fun out hout => ?_⟩
    obtain ⟨hk, hobj⟩ := atRoot_merge hout
    exact ⟨hobj, isRegister_of_put hk⟩
  · simp only [List.isEmpty_iff, hpath, if_false]
    split
    · next e he =>
      refine ⟨.congr hnote (within_faithful hkey hpath (settledKind_idem _ _ _) he fun hm => ?_),
        fun out hout => ?_⟩
      · obtain ⟨e', he', hpar⟩ := hclear.of_same hnote hm hpath
        obtain rfl : e = e' := Option.some.inj (he.symm.trans he')
        exact hpar
      · obtain ⟨hk, hobj⟩ := within_merge hpath hout
        exact ⟨hobj, isRegister_of_put hk⟩
    · next hnone =>
      by_cases hm : mode.makes = true
      · obtain ⟨e', he', -⟩ := hclear.of_same hnote hm hpath
        rw [hnone] at he'
        cases he'
      · simp only [hm]
        exact ⟨.quiet rfl (d.note_same key), fun out hout => by cases hout⟩

end Step

/-- A run that makes nothing on its way is faithful: along a merge, key by key. -/
theorem run_faithful (hkey : Normal sh key) (value : Value) :
    ∀ (kind : Kind) (path : Path) (d : Doc sh),
      (path = [] → kind = .del → sh.isSingleton key.1 = false) → d.Clear mode key path →
      Faithful ts key path d (run ts mode key value kind path d) := by
  induction value using Value.merging_induction with
  | leaf v hv =>
    intro kind path d hdel hclear
    have hs := (step_faithful ts v d hkey hdel hclear).1
    cases v <;> first | simpa only [run] using hs | exact absurd hv (by simp)
  | fields fs ih =>
    intro kind path d hdel hclear
    have hfields : ∀ gs : List (String × Value), (∀ e ∈ gs, e ∈ fs) →
        sh.isRegister key path = false → ∀ d : Doc sh, d.ObjAt key path → ∀ k,
        Faithful ts key (path ++ [k]) d (runFields ts mode key gs path d) := by
      intro gs hg hreg
      induction gs with
      | nil => exact fun d _ k => .quiet rfl (.refl d)
      | cons e gs ihg =>
        intro d hobj k
        have hone := ih e (hg e (by simp)) (changeFor e.2).kind (path ++ [e.1]) d (by simp)
          (hobj.clear hreg e.1)
        have hkept := hone.keeps path (by simp) (by simp) hobj
        refine Faithful.andThen ⟨hone.replays, fun q hq _ => hone.keeps q (by simpa using hq) (by simp)⟩
          (ihg (fun e he => hg e (by simp [he])) _ hkept k)
    obtain ⟨hs, hmerge⟩ := step_faithful ts (.obj fs) d hkey hdel hclear
    simp only [run]
    revert hs hmerge
    generalize step ts mode key (.obj fs) kind path d = s
    intro hs hmerge
    cases s with
    | done out => exact hs
    | merge out =>
      obtain ⟨hobj, hreg⟩ := hmerge out rfl
      have hf := hfields fs (fun _ h => h) hreg out.doc hobj ""
      refine hs.andThen ⟨hf.replays, fun q hq hp => hf.keeps q ?_ (by simp)⟩
      simpa using hq.trans (List.dropLast_prefix path)

/-- A list of changes replays what it reports, if a mode that makes what is missing is given whole
records only. -/
theorem applyAll_replays {changes : List Change} {d : Doc sh} {out : Outcome sh}
    (hwhole : mode.makes = true → ∀ ch ∈ changes, ch.path = [])
    (h : applyAll ts mode changes d = .ok out) : Replays ts out.applied d out.doc := by
  induction changes generalizing d out with
  | nil =>
    cases h
    exact .none (.refl d)
  | cons change changes ih =>
    obtain ⟨o, m, ho, hm, rfl⟩ := of_applyAll_cons h
    refine Replays.append ?_ (ih (fun hk ch hch => hwhole hk ch (by simp [hch])) hm)
    obtain ⟨hsingle, rfl⟩ := of_apply ho
    exact (run_faithful (normal_recordKey _ _) _ _ _ _ hsingle
      (fun hk hp => absurd (hwhole hk change (by simp)) hp)).replays

variable (ts mode) in
/-- Accepted changes are decided: no singleton is deleted. -/
theorem applyAll_accepted {changes : List Change} (h : ∀ ch ∈ changes, sh.Accepts ch) (d : Doc sh) :
    ∃ out, applyAll ts mode changes d = .ok out := by
  induction changes generalizing d with
  | nil => exact ⟨_, rfl⟩
  | cons change changes ih =>
    have hc := h change (by simp)
    have hsingle : ¬ (change.path.isEmpty && change.write = .del && sh.isSingleton change.c) := by
      simp only [Bool.and_eq_true, List.isEmpty_iff, decide_eq_true_eq, not_and, and_imp]
      exact fun hp hw hs => by simp [hc.keeps hw hp] at hs
    obtain ⟨more, hm⟩ := ih (fun ch hch => h ch (by simp [hch]))
      (run ts mode (sh.recordKey change.c change.id) change.write.value change.write.kind
        change.path d).doc
    exact ⟨_, applyAll_cons (if_neg hsingle) hm⟩

end LazyStorage.Core
