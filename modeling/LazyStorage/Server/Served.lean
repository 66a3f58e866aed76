import LazyStorage.Server.Stored
import LazyStorage.Server.Time

/-! # What is stored is what is served

Each move of a store commits what it changed, so what the commits tell stays what
the store holds, and a store loaded from them is the one that made them.
-/
namespace LazyStorage.Server

open Lib LazyStorage.Core

variable {sh : Shape} {U : Type} {opts : Options sh U}

/-- Whether a migration has nothing to write, or what it writes lands. -/
def Migration.Writes (migration : Migration sh) (d : Doc sh) : Prop :=
  ∀ {diff : List (String × Value)} {list : List Change} {ts : ℕ} {out : Outcome sh},
    migration d = .ok diff → (OwnWrite.patch diff).accepted sh = .ok list →
    applyAll ts .authority list d = .ok out → diff = [] ∨ out.applied ≠ []

namespace Store

variable {st st' : Store sh} {d : Doc sh} {memory : String → Option Replica}

@[simp] theorem version_commit (c : Commit) : (commit opts c st).version = st.version := by
  unfold commit
  dsimp only
  split_ifs <;> rfl

@[simp] theorem epoch_commit (c : Commit) : (commit opts c st).epoch = st.epoch := by
  unfold commit
  dsimp only
  split_ifs <;> rfl

@[simp] theorem schema_commit (c : Commit) : (commit opts c st).schema = st.schema := by
  unfold commit
  dsimp only
  split_ifs <;> rfl

theorem not_mem_forgottenFor (live : List String) (id : String) (entry : Replica) :
    id ∉ st.forgottenFor opts live id entry := by
  unfold forgottenFor pastLimit
  dsimp only
  split_ifs
  · simp
  · intro hmem
    have hmine := List.mem_mergeSort.mp (List.mem_of_mem_take hmem)
    simp at hmine

/-- A replica remembered: whom it forgets for that is told, the replica itself not yet. -/
theorem tells_rememberReplica (h : Tells opts st.commits d st.replicas.get st.version st.log)
    (hfull : d.Full) (hshaped : d.Shaped) (live : List String) (id : String) (entry : Replica) :
    ∃ memory, Tells opts (st.rememberReplica opts live id entry).commits d memory
        (st.rememberReplica opts live id entry).version (st.rememberReplica opts live id entry).log ∧
      ∀ r, (st.rememberReplica opts live id entry).replicas.get r =
        recalled (some (id, entry)) [] memory r := by
  have hid := @not_mem_forgottenFor sh U opts st live id entry
  unfold rememberReplica
  dsimp only
  generalize st.forgottenFor opts live id entry = forgotten at hid
  split_ifs with hnone
  · exact ⟨st.replicas.get, h, replicas_setReplica id entry⟩
  · refine ⟨recalled none forgotten st.replicas.get, ?_, fun r => ?_⟩
    · rw [commits_commit, version_commit, log_commit]
      exact h.quiet (Commit.rows_nil rfl rfl fun _ => rfl) hfull hshaped rfl rfl rfl
        (Doc.shows_iff.mpr fun _ => rfl)
    · rw [replicas_commit]
      dsimp only
      rw [foldl_erase_get, replicas_setReplica]
      unfold recalled
      by_cases hr : id = r
      · simp [← hr, hid]
      · simp [hr]

theorem rows_landed {applied : List Change} {ts : ℕ} (h : Replays ts applied d st.doc) {c : Commit}
    (hupserts : c.upserts = (rowsOf applied st.doc).1)
    (hdeletes : c.deletes = (rowsOf applied st.doc).2) :
    c.Rows d st.doc (@Rules.recordsOf sh applied) := by
  refine ⟨hupserts, hdeletes, fun k hk => ?_⟩
  obtain ⟨out, hout, hsame⟩ := h
  rw [Doc.same_iff.mp hsame k]
  exact trusted_spares hout fun ch hch heq => hk (Rules.mem_recordsOf.mpr ⟨ch, hch, heq⟩)

/-- What landed is told, if trusting it again makes what it made. -/
theorem tells_landed (h : Tells opts st.commits d memory st.version st.log) (hn : 1 ≤ opts.deltaLog)
    (hfull : st.doc.Full) (hshaped : st.doc.Shaped) {applied : List Change} {ts : ℕ}
    (hreplays : Replays ts applied d st.doc) (hlands : Lands ts applied d)
    {replica : Option (String × Replica)}
    (hmemory : ∀ r, st.replicas.get r = recalled replica [] memory r) (op : Option (String × ℕ)) :
    Tells opts (st.landed opts applied ts replica op).commits (st.landed opts applied ts replica op).doc
      (st.landed opts applied ts replica op).replicas.get
      (st.landed opts applied ts replica op).version (st.landed opts applied ts replica op).log := by
  rw [doc_landed, replicas_landed, funext hmemory]
  unfold landed
  split
  · next hnone =>
    have hsame : ∀ k, d.records.get k = st.doc.records.get k := by
      rw [List.isEmpty_iff.mp hnone] at hreplays
      obtain ⟨out, hout, hsame⟩ := hreplays
      cases hout
      exact fun k => (Doc.same_iff.mp hsame k).symm
    cases replica with
    | none => exact h.congr fun k => (hsame k).symm
    | some r =>
      dsimp only
      rw [commits_commit, version_commit, log_commit]
      exact h.quiet (Commit.rows_nil rfl rfl fun k => (hsame k).symm) hfull hshaped rfl rfl rfl
        (Doc.shows_iff.mpr fun k => by simp [Doc.get, hsame k])
  · dsimp only
    generalize hentry : (⟨st.version + 1, ts, applied⟩ : LogEntry) = entry
    have hlast : (if opts.deltaLog < (st.log ++ [entry]).length then
        (st.log ++ [entry]).drop ((st.log ++ [entry]).length - opts.deltaLog)
        else st.log ++ [entry]) = lastOf opts.deltaLog (st.log ++ [entry]) := by
      split_ifs with hlen
      · rfl
      · rw [lastOf_of_length_le (by omega)]
    rw [hlast, commits_commit, version_commit, log_commit]
    dsimp only
    rw [← hentry]
    exact h.entered (rows_landed hreplays rfl rfl) hfull hshaped hn rfl rfl rfl hreplays hlands

theorem tells_takeReplica (h : Tells opts st.commits st.doc st.replicas.get st.version st.log)
    (hfull : st.doc.Full) (hshaped : st.doc.Shaped) (live : List String) (now : ℕ) (user : Option U)
    (replica : String) :
    Tells opts (st.takeReplica opts live now user replica).commits
      (st.takeReplica opts live now user replica).doc
      (st.takeReplica opts live now user replica).replicas.get
      (st.takeReplica opts live now user replica).version
      (st.takeReplica opts live now user replica).log := by
  rw [doc_takeReplica]
  unfold takeReplica
  split
  · next key _ _ =>
    dsimp only
    obtain ⟨memory, hmid, hmemory⟩ := tells_rememberReplica h hfull hshaped live replica
      (st.entryTaken now key replica)
    rw [commits_commit, replicas_commit, version_commit, log_commit, funext hmemory]
    exact hmid.quiet (Commit.rows_nil rfl rfl fun _ => rfl) hfull hshaped rfl rfl rfl
      (Doc.shows_iff.mpr fun _ => rfl)
  · exact h

/-- A compaction tells of the records it pruned and the replicas it forgot. -/
theorem tells_compact (h : Tells opts st.commits st.doc st.replicas.get st.version st.log)
    (hfull : st.doc.Full) (hshaped : st.doc.Shaped) (now : ℕ) :
    Tells opts (st.compact opts now).commits (st.compact opts now).doc
      (st.compact opts now).replicas.get (st.compact opts now).version
      (st.compact opts now).log := by
  unfold compact
  dsimp only
  cases opts.retention with
  | none => exact h
  | some retention =>
    dsimp only
    generalize ((now : ℤ) - retention) = cutoff
    generalize (st.replicas.entries.filter fun e =>
      e.1 ≠ "server" && ((e.2.seen : ℤ) < cutoff)).map Prod.fst = forgotten
    have hspared := fun (k : RecordKey) (hk : k ∉ st.doc.prunes cutoff) =>
      Doc.get_prune_of_not_prunes hshaped hk
    split_ifs with hnone
    · obtain ⟨hprunes, hforgotten⟩ := Bool.and_eq_true_iff.mp hnone
      rw [List.isEmpty_iff.mp hforgotten]
      exact h.congr fun k => hspared k (by simp [List.isEmpty_iff.mp hprunes])
    · have hthere : ∀ k ∈ st.doc.prunes cutoff, ((st.doc.prune cutoff).records.get k).isNone = false := by
        intro k hk
        have hkey := (Doc.mem_keysOf.mp (List.mem_filter.mp hk).1).2
        simpa [Doc.prune, OrderedMap.get_mapVal, Option.isSome_iff_ne_none] using hkey
      have hrows : ∀ c : Commit, c.upserts = ((st.doc.prunes cutoff).filterMap fun key =>
          ((st.doc.prune cutoff).records.get key).map fun e => (key, e)) → c.deletes = [] →
          c.Rows st.doc (st.doc.prune cutoff) (st.doc.prunes cutoff) := by
        intro c hupserts hdeletes
        refine ⟨hupserts, ?_, hspared⟩
        rw [hdeletes, List.filter_eq_nil_iff.mpr fun k hk => by simp [hthere k hk]]
      have hfull' : (st.doc.prune cutoff).Full := fun c hc => by
        simpa [Doc.prune, OrderedMap.get_mapVal] using hfull c hc
      rw [commits_commit, replicas_commit, version_commit, log_commit, doc_commit]
      dsimp only
      have hreplicas : (forgotten.foldl (fun m r => m.erase r) st.replicas).get =
          recalled none forgotten st.replicas.get := by
        funext r
        rw [foldl_erase_get]
        rfl
      rw [hreplicas]
      refine h.quiet (hrows _ rfl rfl) hfull' (hshaped.prune cutoff) rfl rfl rfl
        (Doc.shows_iff.mpr fun k => (Doc.get_prune cutoff _ k).symm)

theorem keyed_of_seeds {r : RecordKey × Entry} (h : r ∈ seeds sh) : sh.keyed r.1 = true := by
  obtain ⟨c, hc, hr⟩ := List.mem_flatMap.mp h
  obtain ⟨field, -, rfl⟩ := List.mem_map.mp hr
  simp [Shape.keyed, Shape.isCollection_iff.mpr hc]

/-- What is stored tells the store that holds it, where anything is stored or there are no seeds. -/
theorem tells_restored {stored : List Commit} (h : Chronicle sh opts.deltaLog stored)
    (hseeded : stored = [] → seeds sh = []) (known : ℕ) (epoch : String) :
    Tells opts stored (restored opts known epoch stored : Store sh).doc
      (restored opts known epoch stored : Store sh).replicas.get
      (restored opts known epoch stored : Store sh).version
      (restored opts known epoch stored : Store sh).log := by
  refine ⟨h, hseeded, fun k => rfl, fun r => rfl, rfl, ?_⟩
  have hnew : (Saved.ofCommits stored).log.filter (·.v ≤ (Saved.ofCommits stored).version) =
      (Saved.ofCommits stored).log := by
    refine List.filter_eq_self.mpr fun e he => decide_eq_true ?_
    rw [h.log] at he
    have hv := List.mem_map_of_mem (f := LogEntry.v) (List.mem_of_mem_drop he)
    rw [h.versions, List.mem_range'_1] at hv
    omega
  have hlen : (Saved.ofCommits stored).log.length ≤ opts.deltaLog := by
    rw [h.log, length_lastOf]
    omega
  simp [restored, hnew, Nat.sub_eq_zero_of_le hlen]

/-- The seeds are told by the commit that stores them. -/
theorem tells_seeds {c : Commit} (hupserts : c.upserts = seeds sh) (hdeletes : c.deletes = [])
    (hreplica : c.replica = none) (hforget : c.forget = []) (hversion : c.version = 0)
    (hlog : c.log = none) (hfloor : c.logFloor = none) :
    Tells opts [c] (Doc.load sh (seeds sh)) (fun _ => none) 0 [] := by
  have hrecords : (Saved.ofCommits [c]).records =
      (seeds sh).foldl (fun m r => m.set r.1 r.2) .empty := by
    simp [Saved.ofCommits, Saved.commit, hupserts, hdeletes, Saved.empty]
  have hkeyed : ∀ k, ((Saved.ofCommits [c]).records.get k).isSome = true → sh.keyed k = true := by
    intro k hk
    apply Doc.shaped_load (seeds sh) (fun r hr => keyed_of_seeds hr) k
    rw [Doc.records_load _ fun r hr => keyed_of_seeds hr, ← hrecords, Option.isSome_or, hk]
    rfl
  have hdoc : ∀ k, (Saved.docAt sh [c]).records.get k = (Doc.load sh (seeds sh)).records.get k := by
    intro k
    rw [Saved.records_docAt hkeyed (by simp), Doc.records_load _ fun r hr => keyed_of_seeds hr,
      hrecords]
  have hsaved : (Saved.ofCommits [c]).log = [] ∧ (Saved.ofCommits [c]).version = 0 := by
    simp [Saved.ofCommits, Saved.commit, hlog, hfloor, Saved.empty, hversion]
  have hchronicle : Chronicle sh opts.deltaLog ([] ++ [c]) := by
    refine .snoc .nil ⟨hkeyed, ?_, by simp [hlog], ?_,
      ⟨Saved.docAt sh [], by simp [hlog, replayLog], ?_⟩, by simp [hlog]⟩
    · simp [hversion, hlog, Saved.ofCommits, Saved.empty]
    · rw [List.nil_append, hsaved.1]
      simp [logged, hlog, lastOf]
    · refine Doc.shows_iff.mpr fun k => ?_
      rw [List.nil_append, Doc.get, Doc.get, hdoc]
      rfl
  refine ⟨hchronicle, by simp, hdoc, fun r => ?_, hsaved.2, hsaved.1⟩
  simp [Saved.ofCommits, Saved.commit, hreplica, hforget, Saved.empty]

/-- The last commit says the epoch and, where `exact`, how many migrations are run. -/
def Dated (exact : Prop) (st : Store sh) : Prop :=
  st.commits = [] ∨ ((Saved.ofCommits st.commits).epoch = some st.epoch ∧
    (exact → (Saved.ofCommits st.commits).schema = some st.schema))

theorem dated_commit (exact : Prop) (c : Commit) : (commit opts c st).Dated exact := by
  right
  rw [commits_commit, Saved.ofCommits_append, epoch_commit, schema_commit]
  exact ⟨rfl, fun _ => rfl⟩

theorem Dated.of_eq {exact : Prop} (h : st.Dated exact) (hcommits : st'.commits = st.commits)
    (hepoch : st'.epoch = st.epoch) (hschema : st'.schema = st.schema) : st'.Dated exact := by
  unfold Dated
  rwa [hcommits, hepoch, hschema]

/-- What the commits made tell is what the store holds. -/
structure Told (opts : Options sh U) (exact : Prop) (st : Store sh) : Prop where
  tells : Tells opts st.commits st.doc st.replicas.get st.version st.log
  sound : st.doc.Sound
  shaped : st.doc.Shaped
  dated : st.Dated exact

namespace Told

variable {exact : Prop}

theorem of_eq (h : st.Told opts exact) (hdoc : st'.doc = st.doc) (hreplicas : st'.replicas = st.replicas)
    (hcommits : st'.commits = st.commits) (hversion : st'.version = st.version)
    (hlog : st'.log = st.log) (hepoch : st'.epoch = st.epoch) (hschema : st'.schema = st.schema) :
    st'.Told opts exact where
  tells := by
    rw [hdoc, hreplicas, hcommits, hversion, hlog]
    exact h.tells
  sound := hdoc ▸ h.sound
  shaped := hdoc ▸ h.shaped
  dated := h.dated.of_eq hcommits hepoch hschema

theorem compact (h : st.Told opts exact) (now : ℕ) : (st.compact opts now).Told opts exact where
  tells := tells_compact h.tells h.sound.full h.shaped now
  sound := by
    rcases @doc_compact sh U opts st now with hd | ⟨cutoff, hd⟩
    · exact hd ▸ h.sound
    · exact hd ▸ h.sound.prune cutoff
  shaped := by
    rcases @doc_compact sh U opts st now with hd | ⟨cutoff, hd⟩
    · exact hd ▸ h.shaped
    · exact hd ▸ h.shaped.prune cutoff
  dated := by
    unfold Store.compact
    dsimp only
    cases opts.retention with
    | none => exact h.dated
    | some retention =>
      dsimp only
      split_ifs
      · exact h.dated
      · exact dated_commit exact _

theorem commitNow (h : st.Told opts exact) : st.commitNow.Told opts exact :=
  h.of_eq rfl rfl commits_commitNow rfl rfl rfl rfl

theorem dated_landed {applied : List Change} {ts : ℕ} {replica : Option (String × Replica)}
    {op : Option (String × ℕ)} (h : applied = [] → replica = none → st.Dated exact) :
    (st.landed opts applied ts replica op).Dated exact := by
  unfold landed
  split
  · next hnone =>
    cases replica with
    | none => exact h (List.isEmpty_iff.mp hnone) rfl
    | some r => exact dated_commit exact _
  · exact dated_commit exact _

/-- The server's own write is told if it has nothing to make; one that lands is dated anew. -/
theorem own {before : Prop} (h : st.Told opts before) (hn : 1 ≤ opts.deltaLog) {now : ℕ} {w : OwnWrite}
    {res : Store sh × List Change} (hmakes : w.makesNothing st.doc = true)
    (hdated : res.2 = [] → st.Dated exact) (hown : st.own opts now w = .ok res) :
    res.1.Told opts exact := by
  have hsound := (sound_of_written ⟨h.sound, False.elim⟩ False.elim hown).1
  obtain ⟨list, out, hw, ha, rfl⟩ := Store.of_own hown
  have haccepts : ∀ ch ∈ list, sh.Accepts ch := fun ch hch =>
    Shape.accepts_of_assertChange ((OwnWrite.of_accepted hw).2 ch hch)
  have hshaped : out.doc.Shaped := h.shaped.applyAll haccepts ha
  rw [doc_landed] at hsound
  refine ⟨?_, by rwa [doc_landed], by rwa [doc_landed], dated_landed fun hnone _ => ?_⟩
  · refine tells_landed ?_ hn hsound.full hshaped (replays_of_own hw hmakes ha)
      (lands_of_own hw hmakes ha) (fun _ => rfl) none
    exact h.tells
  · exact (hdated hnone).of_eq rfl rfl rfl

theorem accepts_of_admits {now : ℕ} {op : Op} {speaker : Speaker U}
    (h : st.Admits opts now op speaker) : ∀ ch ∈ op.changes, sh.Accepts ch := by
  intro ch hch
  have hfit : @unfit sh U opts op = none := (Option.or_eq_none_iff.mp h.gate).1
  unfold unfit at hfit
  split at hfit
  · cases hfit
  have hall := List.findSome?_eq_none_iff.mp (Option.map_eq_none_iff.mp hfit) ch hch
  apply Shape.accepts_of_assertChange
  cases hc : sh.assertChange ch with
  | ok _ => rfl
  | error err => simp [hc] at hall

theorem judged (h : st.Told opts exact) (hn : 1 ≤ opts.deltaLog) {mid : Store sh} {live : List String}
    {now : ℕ} {op : Op} {speaker : Speaker U} {lost : List Lost}
    (hadmits : st.Admits opts now op speaker)
    (hjudged : st.judged opts live now op speaker = .ok (mid, lost)) : mid.Told opts exact := by
  have hsound := ((keeps_sound False).judged ⟨h.sound, False.elim⟩ hadmits hjudged).1
  unfold Store.judged at hjudged
  dsimp only at hjudged
  split at hjudged
  · cases hjudged
  next doc applied lost' hjudge =>
  obtain ⟨rfl, -⟩ := Prod.mk.inj (Except.ok.inj hjudged)
  obtain ⟨out, hout, rfl, hsame⟩ := applied_of_judged hjudge
  have hreplays : Replays (st.stampOf now op) out.applied st.doc doc := by
    obtain ⟨again, hagain, hdoc⟩ := applyAll_replays (fun hm => absurd hm (by decide)) hout
    exact ⟨again, hagain, Doc.Same.trans (Doc.same_iff.mpr hsame) hdoc⟩
  have hshaped : doc.Shaped := (h.shaped.applyAll (accepts_of_admits hadmits) hout).congr hsame
  simp only [doc_landed, doc_rememberReplica] at hsound
  let after : Store sh := { st with doc, clock := st.clock.observe (st.stampOf now op) }
  have hafter : Tells opts after.commits st.doc after.replicas.get after.version after.log := h.tells
  obtain ⟨memory, hmid, hmemory⟩ := tells_rememberReplica hafter h.sound.full h.shaped live op.replica
    (st.entryFor opts now op speaker.user)
  refine ⟨?_, by simpa using hsound, by simpa using hshaped, ?_⟩
  · apply tells_landed hmid hn _ _ _ (applyAll_lands (fun hm => absurd hm (by decide)) hout) hmemory
    · simpa using hsound.full
    · simpa using hshaped
    · rw [doc_rememberReplica]
      exact hreplays
  · exact dated_landed fun _ hnone => nomatch hnone

theorem commit_nothing (h : st.Told opts False) : (commit opts nothing st).Told opts exact where
  tells := by
    rw [commits_commit, doc_commit, replicas_commit, version_commit, log_commit]
    exact h.tells.quiet (Commit.rows_nil rfl rfl fun _ => rfl) h.sound.full h.shaped rfl rfl rfl
      (Doc.shows_iff.mpr fun _ => rfl)
  sound := by
    rw [doc_commit]
    exact h.sound
  shaped := by
    rw [doc_commit]
    exact h.shaped
  dated := dated_commit exact _

theorem load {stored : List Commit} (h : Chronicle sh opts.deltaLog stored) (known : ℕ)
    (epoch : String) (now : ℕ) : (Store.load opts known epoch now stored : Store sh).Told opts exact := by
  have hkeyed : ∀ r ∈ Saved.rows sh stored, sh.keyed r.1 = true := by
    intro r hr
    unfold Saved.rows at hr
    split_ifs at hr
    · exact keyed_of_seeds hr
    · exact h.keyed r.1 (by simp [OrderedMap.mem_entries.mp hr])
  have hsound : (restored opts known epoch stored : Store sh).doc.Sound := Doc.sound_load _
  have hshaped : (restored opts known epoch stored : Store sh).doc.Shaped := Doc.shaped_load _ hkeyed
  unfold Store.load
  dsimp only
  refine (Told.compact ?_ now).commitNow
  split
  · next hseeds =>
    obtain ⟨hnone, -⟩ := Bool.and_eq_true_iff.mp hseeds
    obtain rfl := List.isEmpty_iff.mp hnone
    refine ⟨?_, by rwa [doc_commit], by rwa [doc_commit], dated_commit exact _⟩
    rw [commits_commit, doc_commit, replicas_commit, version_commit, log_commit]
    have hlog : (restored opts known epoch [] : Store sh).log = [] := by
      simp [restored, Saved.ofCommits, Saved.empty]
    rw [hlog]
    refine tells_seeds ?_ ?_ ?_ ?_ ?_ ?_ ?_ <;> rfl
  · next hseeds =>
    have hseeded : stored = [] → seeds sh = [] := by
      rintro rfl
      simpa using hseeds
    have hcommits : (restored opts known epoch stored : Store sh).commits = stored := List.append_nil _
    refine ⟨?_, hsound, hshaped, ?_⟩
    · rw [hcommits]
      exact tells_restored h hseeded known epoch
    · unfold Dated
      rw [hcommits]
      rcases List.eq_nil_or_concat stored with hnil | ⟨commits, c, rfl⟩
      · exact .inl hnil
      · right
        simp [restored, Saved.ofCommits_append, Saved.commit]

theorem migrated {before : Prop} (h : st.Told opts before) (hn : 1 ≤ opts.deltaLog) {now : ℕ}
    {migration : Migration sh} (hwrites : exact → migration.Writes st.doc)
    (hout : st.migrateOne opts now migration = .ok st') : st'.Told opts exact := by
  have hcounted : ({ st with schema := st.schema + 1 } : Store sh).Told opts False :=
    ⟨h.tells, h.sound, h.shaped, h.dated.imp id fun hd => ⟨hd.1, False.elim⟩⟩
  simp only [migrateOne, bind, Except.bind, pure, Except.pure] at hout
  split at hout
  · cases hout
  next diff hdiff =>
  split_ifs at hout with hnone
  · exact Except.ok.inj hout ▸ (hcounted.commit_nothing).commitNow
  cases hown : Store.own opts now (.patch diff) { st with schema := st.schema + 1 } with
  | error err => simp [hown, Except.map] at hout
  | ok res =>
    simp only [hown, Except.map] at hout
    refine Except.ok.inj hout ▸ (hcounted.own hn rfl (fun hlands => ?_) hown).commitNow
    obtain ⟨list, out, hw, ha, rfl⟩ := Store.of_own hown
    refine hcounted.dated.imp id fun hd => ⟨hd.1, fun he => ?_⟩
    exact absurd hlands ((hwrites he hdiff hw ha).resolve_left (by simpa using hnone))

end Told

end Store

/-- What a store holds is what its commits tell, whatever happens to it that makes no container the
log does not say. The commits count the migrations where each has nothing to write, or writes. -/
theorem keeps_told (hn : 1 ≤ opts.deltaLog) (exact : Prop) :
    Keeps opts (fun w st => w.makesNothing st.doc = true)
      (fun migration st => exact → migration.Writes st.doc) (Store.Told opts exact) where
  judged h hadmits hjudged := h.judged hn hadmits hjudged
  forbidden := by
    intro st op user ts doc message h hjudge
    obtain ⟨hsound, -, hsame⟩ := kept_of_refused h.sound hjudge
    exact ⟨h.tells.congr hsame, hsound, h.shaped.congr hsame, h.dated⟩
  taken live now user replica h := by
    refine ⟨Store.tells_takeReplica h.tells h.sound.full h.shaped live now user replica,
      by simpa using h.sound, by simpa using h.shaped, ?_⟩
    unfold Store.takeReplica
    split
    · exact Store.dated_commit exact _
    · exact h.dated
  own h hmakes hown := h.own hn hmakes (fun _ => h.dated) hown
  compact now h := h.compact now
  flush h := h.commitNow
  migrated h hwrites hout := h.migrated hn hwrites hout
  load {st} known epoch now h :=
    Store.Told.load (h.tells.chronicle.of_prefix (List.prefix_append _ _)) known epoch now

/-- The same records with the same clocks, the same replicas, and as far in every count. -/
structure Store.Matches (st st' : Store sh) : Prop where
  records : ∀ k, st.doc.records.get k = st'.doc.records.get k
  replicas : ∀ r, st.replicas.get r = st'.replicas.get r
  version : st.version = st'.version
  epoch : st.epoch = st'.epoch
  schema : st.schema = st'.schema
  log : st.log = st'.log

namespace Store.Matches

variable {st st' st'' : Store sh}

theorem refl (st : Store sh) : st.Matches st := ⟨fun _ => rfl, fun _ => rfl, rfl, rfl, rfl, rfl⟩

theorem symm (h : st.Matches st') : st'.Matches st :=
  ⟨fun k => (h.records k).symm, fun r => (h.replicas r).symm, h.version.symm, h.epoch.symm,
    h.schema.symm, h.log.symm⟩

theorem trans (h : st.Matches st') (h' : st'.Matches st'') : st.Matches st'' :=
  ⟨fun k => (h.records k).trans (h'.records k), fun r => (h.replicas r).trans (h'.replicas r),
    h.version.trans h'.version, h.epoch.trans h'.epoch, h.schema.trans h'.schema,
    h.log.trans h'.log⟩

theorem commit (c : Commit) (st : Store sh) : (Store.commit opts c st).Matches st :=
  ⟨fun _ => by rw [doc_commit], fun _ => by rw [replicas_commit], version_commit c, epoch_commit c,
    schema_commit c, log_commit c⟩

theorem of_compact {retention : ℕ} (hr : opts.retention = some retention) (now : ℕ) (st : Store sh) :
    (st.compact opts now).Matches { st with
      doc := st.doc.prune ((now : ℤ) - retention)
      replicas := (st.unheard retention now).foldl (fun m r => m.erase r) st.replicas } := by
  unfold Store.compact
  simp only [hr]
  split_ifs
  · exact ⟨fun _ => rfl, fun _ => rfl, rfl, rfl, rfl, rfl⟩
  · exact (commit _ _).trans ⟨fun _ => rfl, fun _ => rfl, rfl, rfl, rfl, rfl⟩

/-- What a compaction leaves of a record and of a replica depends on that one alone. -/
theorem compact (h : st.Matches st') (now : ℕ) :
    (st.compact opts now).Matches (st'.compact opts now) := by
  cases hr : opts.retention with
  | none =>
    unfold Store.compact
    simp only [hr]
    exact ⟨h.records, h.replicas, h.version, h.epoch, h.schema, h.log⟩
  | some retention =>
    refine (of_compact hr now st).trans (Matches.trans ?_ (of_compact hr now st').symm)
    refine ⟨fun k => ?_, fun r => ?_, h.version, h.epoch, h.schema, h.log⟩
    · simp only [Doc.prune, OrderedMap.get_mapVal, h.records]
    · have hunheard : r ∈ st.unheard retention now ↔ r ∈ st'.unheard retention now := by
        simp only [unheard, List.mem_map, List.mem_filter, Prod.exists, OrderedMap.mem_entries,
          h.replicas]
      rw [foldl_erase_get, foldl_erase_get, h.replicas]
      simp only [hunheard]

end Store.Matches

/-- A store built from what was stored is the one that stored it, at the moment it is built; opening
it compacts it, and it is what the one that stored it would be once compacted. Only a storage never
written to is opened under an epoch of its own. -/
theorem stored_is_served (hn : 1 ≤ opts.deltaLog) {known wall : ℕ} {epoch : String} {h : Host sh}
    (hr : Reaches (Host.step opts) (fun e h =>
      (∀ w, e = .own w → w.makesNothing h.store.doc = true) ∧
      (e = .migrate → ∀ migration, opts.migrations[h.store.schema]? = some migration →
        migration.Writes h.store.doc)) (Host.create opts known epoch wall) h)
    (hstored : h.store.commitNow.stored ≠ []) (known' : ℕ) (epoch' : String) (now : ℕ) :
    (Store.restored opts known' epoch' h.store.commitNow.stored).Matches h.store.commitNow ∧
      (Store.load opts known' epoch' now h.store.commitNow.stored).Matches
        (h.store.commitNow.compact opts now) := by
  have htold : h.store.commitNow.Told opts True := by
    refine ((keeps_told hn True).reached (fun w h hcond => hcond.1 w rfl)
      (fun migration h hcond hnext _ => hcond.2 rfl migration hnext) ?_ hr).commitNow
    exact Store.Told.load .nil known epoch wall
  have hcommits : h.store.commitNow.commits = h.store.commitNow.stored := List.append_nil _
  generalize h.store.commitNow = st at hstored htold hcommits
  have htells := htold.tells
  have hdated := htold.dated.resolve_left (hcommits ▸ hstored)
  rw [hcommits] at htells hdated
  have hsome : st.stored.isEmpty = false := by simpa using hstored
  have hrestored : (Store.restored opts known' epoch' st.stored).Matches st := by
    refine ⟨htells.records, htells.replicas, htells.version, ?_, ?_, ?_⟩
    · simp [Store.restored, hdated.1]
    · simp [Store.restored, hdated.2 trivial, hsome]
    · rw [← htells.log]
      exact (Store.tells_restored htells.chronicle (fun hnil => absurd hnil hstored) known' epoch').log.symm
  refine ⟨hrestored, ?_⟩
  unfold Store.load
  simp only [hsome, Bool.false_and, Bool.false_eq_true, if_false]
  exact ⟨(hrestored.compact now).records, (hrestored.compact now).replicas,
    (hrestored.compact now).version, (hrestored.compact now).epoch, (hrestored.compact now).schema,
    (hrestored.compact now).log⟩

/-- Clients write a task as they like, and times are kept for 10 ms. -/
def brief : Options board Unit := { ruled .allow with retention := some 10 }

/-- A storage never written to is opened under another epoch; a task's clock is opened pruned. -/
theorem opened_store_differs :
    (∃ h : Host board, Reaches (Host.step brief) (fun _ _ => True) (Host.create brief 0 "e" 5) h ∧
      (Store.load brief 0 "f" h.wall h.store.commitNow.stored : Store board).epoch ≠
        h.store.commitNow.epoch) ∧
    ∃ h : Host board, Reaches (Host.step brief) (fun _ _ => True) (Host.create brief 0 "e" 5) h ∧
      h.store.commitNow.stored ≠ [] ∧
      ((Store.load brief 0 "f" h.wall h.store.commitNow.stored : Store board).doc.clockOf
        ("tasks", some "t1")).birth ≠
          (h.store.commitNow.doc.clockOf ("tasks", some "t1")).birth := by
  refine ⟨⟨_, .start, by decide +kernel⟩, ?_⟩
  have hown : Reaches (Host.step brief) (fun _ _ => True) (Host.create brief 0 "e" 5) _ :=
    .next (.own discussed) .start trivial rfl
  exact ⟨_, .next (.wait 100) hown trivial rfl, List.ne_nil_of_length_pos (by decide +kernel),
    by decide +kernel⟩

/-- A task and a comment on it made by the server, and the store opened again long after. -/
theorem stored_is_served_on_board :
    ∃ h : Host board, h.store.commitNow.stored ≠ [] ∧
      (Store.restored brief 0 "f" h.store.commitNow.stored).Matches h.store.commitNow ∧
      (Store.load brief 0 "f" 105 h.store.commitNow.stored).Matches
        (h.store.commitNow.compact brief 105) := by
  have hr : Reaches (Host.step brief) (fun e h =>
      (∀ w, e = .own w → w.makesNothing h.store.doc = true) ∧
      (e = .migrate → ∀ migration, brief.migrations[h.store.schema]? = some migration →
        migration.Writes h.store.doc)) (Host.create brief 0 "e" 5) _ :=
    .next (.own discussed) .start ⟨fun w hw => by cases hw; rfl, fun h => nomatch h⟩ rfl
  refine ⟨_, ?_, stored_is_served (by decide) hr ?_ 0 "f" 105⟩
  · exact List.ne_nil_of_length_pos (by decide +kernel)
  · exact List.ne_nil_of_length_pos (by decide +kernel)

end LazyStorage.Server
