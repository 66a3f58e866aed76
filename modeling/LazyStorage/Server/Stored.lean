import LazyStorage.Server.Chronicle

/-! # What is stored is what is served

Every move of a store commits what it changed: the rows of the records it wrote
or pruned, the replicas it remembered or forgot, the version and the log. What
the commits tell is then what the store holds.
-/
namespace LazyStorage.Core

open Lib

variable {sh : Shape}

/-- A prune leaves alone a clock with nothing older. -/
theorem Clock.prune_eq_self {clock : Clock} {cutoff : ℤ}
    (hbirth : ∀ t, clock.birth = some t → cutoff ≤ (t : ℤ))
    (hlive : clock.birth = none → ∀ t ∈ clock.live.values, cutoff ≤ (t : ℤ))
    (hgone : ∀ t ∈ clock.gone.values, cutoff ≤ (t : ℤ)) : clock.prune cutoff = clock := by
  obtain ⟨birth, live, gone⟩ := clock
  have hfilter : ∀ m : OrderedMap Path ℕ, (∀ t ∈ m.values, cutoff ≤ (t : ℤ)) →
      m.filter (fun _ t => !decide ((t : ℤ) < cutoff)) = m := by
    intro m hm
    apply OrderedMap.filter_eq_self
    intro a t ht
    simpa using hm t (OrderedMap.mem_values.mpr ⟨a, ht⟩)
  cases birth with
  | none => simp [Clock.prune, hfilter live (hlive rfl), hfilter gone hgone]
  | some t => simp [Clock.prune, hfilter gone hgone, hbirth t rfl]

namespace Doc

theorem get_upserts (keys : List RecordKey) (d : Doc sh) (m : OrderedMap RecordKey Entry)
    (k : RecordKey) :
    ((keys.filterMap fun key => (d.records.get key).map fun e => (key, e)).foldl
      (fun m r => m.set r.1 r.2) m).get k =
      if k ∈ keys ∧ (d.records.get k).isSome = true then d.records.get k else m.get k := by
  induction keys generalizing m with
  | nil => simp
  | cons key keys ih =>
    cases hkey : d.records.get key with
    | none =>
      rw [List.filterMap_cons_none (by simp [hkey]), ih]
      by_cases hk : key = k
      · simp [← hk, hkey]
      · simp [Ne.symm hk]
    | some e =>
      rw [List.filterMap_cons_some (b := (key, e)) (by simp [hkey]), List.foldl_cons, ih,
        OrderedMap.get_set]
      by_cases hk : key = k
      · simp [← hk, hkey]
      · simp [hk, Ne.symm hk]

theorem mem_upserts {keys : List RecordKey} {d : Doc sh} {r : RecordKey × Entry}
    (h : r ∈ keys.filterMap fun key => (d.records.get key).map fun e => (key, e)) :
    d.records.get r.1 = some r.2 := by
  obtain ⟨key, -, hr⟩ := List.mem_filterMap.mp h
  obtain ⟨e, he, rfl⟩ := Option.map_eq_some_iff.mp hr
  exact he

/-- A prune leaves alone what it does not touch. -/
theorem get_prune_of_not_prunes {d : Doc sh} (h : d.Shaped) {cutoff : ℤ} {k : RecordKey}
    (hk : k ∉ d.prunes cutoff) : (d.prune cutoff).records.get k = d.records.get k := by
  simp only [Doc.prune, OrderedMap.get_mapVal]
  cases he : d.records.get k with
  | none => rfl
  | some e =>
    have hkeyed := h k (by simp [he])
    have hhas : sh.has k.1 = true := by
      simp only [Shape.keyed, Shape.has, Bool.or_eq_true, Bool.and_eq_true] at hkeyed ⊢
      exact hkeyed.imp And.left And.left
    have htest := fun ht => hk (List.mem_filter.mpr ⟨Doc.mem_keysOf.mpr ⟨hhas, by simp [he]⟩, ht⟩)
    simp only [Doc.clockOf, he, Option.map_some, Option.getD_some, Bool.or_eq_true,
      Bool.and_eq_true, List.any_eq_true, not_or, not_and, not_exists, Function.comp_apply,
      Option.any_some, decide_eq_true_eq, not_lt, imp_false] at htest
    obtain ⟨⟨hgone, hbirth⟩, hlive⟩ := htest
    have hprune : e.clock.prune cutoff = e.clock := by
      apply Clock.prune_eq_self _ _ hgone
      · intro t ht
        simpa [ht] using hbirth
      · exact fun hnone => hlive (.inl (by simp [hnone]))
    rw [Option.map_some, hprune]

end Doc

end LazyStorage.Core

namespace LazyStorage.Server

open Lib LazyStorage.Core

variable {sh : Shape} {U : Type} {opts : Options sh U}

/-- The rows of a commit take the records of one doc to those of another. -/
structure Commit.Rows (c : Commit) (d d' : Doc sh) (touched : List RecordKey) : Prop where
  upserts : c.upserts = touched.filterMap fun key => (d'.records.get key).map fun e => (key, e)
  deletes : c.deletes = touched.filter fun key => (d'.records.get key).isNone
  spared : ∀ k ∉ touched, d'.records.get k = d.records.get k

theorem Commit.rows_nil {c : Commit} {d d' : Doc sh} (hupserts : c.upserts = [])
    (hdeletes : c.deletes = []) (h : ∀ k, d'.records.get k = d.records.get k) : c.Rows d d' [] :=
  ⟨hupserts, hdeletes, fun k _ => h k⟩

namespace Commit.Rows

variable {c : Commit} {d d' : Doc sh} {touched : List RecordKey} (h : c.Rows d d' touched)
include h

theorem records (saved : Saved) (k : RecordKey) : (saved.commit c).records.get k =
    if k ∈ touched then d'.records.get k else saved.records.get k := by
  simp only [Saved.commit, h.upserts, Doc.get_upserts, foldl_erase_get, h.deletes, List.mem_filter]
  by_cases hk : k ∈ touched
  · cases hget : d'.records.get k <;> simp [hk]
  · simp [hk]

/-- What was stored of one doc becomes what is stored of the other. -/
theorem get {saved : Saved} (hd : ∀ k, (saved.records.get k).or (Doc.unset sh k) = d.records.get k)
    (hfull : d'.Full) (k : RecordKey) :
    ((saved.commit c).records.get k).or (Doc.unset sh k) = d'.records.get k := by
  rw [h.records]
  split_ifs with hk
  · cases hget : d'.records.get k with
    | some e => rfl
    | none =>
      obtain ⟨name, id⟩ := k
      unfold Doc.unset
      split_ifs with hs
      · obtain ⟨hs, hid⟩ := Bool.and_eq_true_iff.mp hs
        have hthere := hfull name hs
        rw [← Option.isNone_iff_eq_none.mp hid, hget] at hthere
        cases hthere
      · rfl
  · rw [hd, h.spared k hk]

theorem keyed {saved : Saved} (hshaped : d'.Shaped)
    (hsaved : ∀ k, (saved.records.get k).isSome = true → sh.keyed k = true) (k : RecordKey)
    (hk : ((saved.commit c).records.get k).isSome = true) : sh.keyed k = true := by
  rw [h.records] at hk
  split_ifs at hk
  · exact hshaped k hk
  · exact hsaved k hk

end Commit.Rows

namespace Saved

/-- The records a store is loaded with are those stored, the singletons not stored apart. -/
theorem records_docAt {commits : List Commit}
    (hkeyed : ∀ k, ((ofCommits commits).records.get k).isSome = true → sh.keyed k = true)
    (hseeded : commits = [] → Store.seeds sh = []) (k : RecordKey) :
    (docAt sh commits).records.get k =
      ((ofCommits commits).records.get k).or (Doc.unset sh k) := by
  have hrows : rows sh commits = (ofCommits commits).records.entries := by
    unfold rows
    split_ifs with hnone
    · have hnil := List.isEmpty_iff.mp hnone
      rw [hseeded hnil, hnil]
      rfl
    · rfl
  unfold docAt
  rw [hrows, Doc.records_load _ fun r hr => ?_]
  · rw [OrderedMap.get_foldl_set (ofCommits commits).records.nodup, OrderedMap.get_empty,
      Option.or_none]
    rfl
  · exact hkeyed r.1 (by simp [OrderedMap.mem_entries.mp hr])

end Saved

/-- What the commits tell is what a store holds. -/
structure Tells (opts : Options sh U) (commits : List Commit) (d : Doc sh)
    (replicas : String → Option Replica) (version : ℕ) (log : List LogEntry) : Prop where
  chronicle : Chronicle sh opts.deltaLog commits
  seeded : commits = [] → Store.seeds sh = []
  records : ∀ k, (Saved.docAt sh commits).records.get k = d.records.get k
  replicas : ∀ r, (Saved.ofCommits commits).replicas.get r = replicas r
  version : (Saved.ofCommits commits).version = version
  log : (Saved.ofCommits commits).log = log

namespace Tells

variable {commits : List Commit} {d d' : Doc sh} {replicas : String → Option Replica} {version : ℕ}
  {log : List LogEntry} {c : Commit} {touched : List RecordKey}

theorem congr (h : Tells opts commits d replicas version log)
    (hrecords : ∀ k, d'.records.get k = d.records.get k) : Tells opts commits d' replicas version log :=
  { h with records := fun k => (h.records k).trans (hrecords k).symm }

/-- One more commit: what its log entry replays is what it stores. -/
theorem snoc (h : Tells opts commits d replicas version log) (hrows : c.Rows d d' touched)
    (hfull : d'.Full) (hshaped : d'.Shaped) (hversion : c.version = version + c.log.toList.length)
    (hnumbered : ∀ entry, c.log = some entry → entry.v = c.version)
    (hlog : ((Saved.ofCommits commits).commit c).log = lastOf opts.deltaLog (logged (commits ++ [c])))
    (hshows : ∃ x, replayLog c.log.toList d = .ok x ∧ x.Shows d')
    (hlands : ∀ entry, c.log = some entry → Lands entry.ts entry.changes d) :
    Tells opts (commits ++ [c]) d' (recalled c.replica c.forget replicas) c.version
      ((Saved.ofCommits commits).commit c).log := by
  have hkeyed : ∀ k, ((Saved.ofCommits (commits ++ [c])).records.get k).isSome = true →
      sh.keyed k = true := by
    rw [Saved.ofCommits_append]
    exact hrows.keyed hshaped h.chronicle.keyed
  have hrecords : ∀ k, (Saved.docAt sh (commits ++ [c])).records.get k = d'.records.get k := by
    intro k
    rw [Saved.records_docAt hkeyed (by simp), Saved.ofCommits_append]
    refine hrows.get (fun k => ?_) hfull k
    rw [← h.records, Saved.records_docAt h.chronicle.keyed h.seeded]
  have hstored : d.Shows (Saved.docAt sh commits) :=
    Doc.shows_iff.mpr fun k => by simp [Doc.get, h.records k]
  obtain ⟨x, hx, hsame⟩ := hshows
  obtain ⟨y, hy, hend⟩ := replayLog_shows hstored hx
  refine ⟨.snoc h.chronicle ⟨hkeyed, by rw [h.version, hversion], hnumbered, ?_, ⟨y, hy, ?_⟩,
    fun entry he => (hlands entry he).of_shows hstored⟩,
    by simp, hrecords, fun r => ?_, Chronicle.version_concat _ _, by rw [Saved.ofCommits_append]⟩
  · rw [Saved.ofCommits_append, hlog]
  · refine Doc.shows_iff.mpr fun k => ?_
    rw [← Doc.shows_iff.mp hend k, Doc.shows_iff.mp hsame k]
    simp [Doc.get, hrecords k]
  · rw [Saved.ofCommits_append, Saved.commit_replicas, funext h.replicas]

/-- A commit that enters nothing in the log. -/
theorem quiet (h : Tells opts commits d replicas version log) (hrows : c.Rows d d' touched)
    (hfull : d'.Full) (hshaped : d'.Shaped) (hversion : c.version = version) (hlog : c.log = none)
    (hfloor : c.logFloor = none) (hshows : d.Shows d') :
    Tells opts (commits ++ [c]) d' (recalled c.replica c.forget replicas) version log := by
  have hsaved : ((Saved.ofCommits commits).commit c).log = log := by
    simp [Saved.commit, hlog, hfloor, h.log]
  rw [← hversion, ← hsaved]
  refine h.snoc hrows hfull hshaped (by simp [hversion, hlog]) (by simp [hlog]) ?_
    ⟨d, by simp [hlog, replayLog], hshows⟩ (by simp [hlog])
  rw [hsaved, logged_append, logged_singleton, hlog, ← h.log, h.chronicle.log]
  simp

/-- A commit that enters changes in the log, and keeps the last of it. -/
theorem entered (h : Tells opts commits d replicas version log) (hrows : c.Rows d d' touched)
    (hfull : d'.Full) (hshaped : d'.Shaped) (hn : 1 ≤ opts.deltaLog) {ts : ℕ} {applied : List Change}
    (hversion : c.version = version + 1) (hlog : c.log = some ⟨version + 1, ts, applied⟩)
    (hfloor : c.logFloor = some (((lastOf opts.deltaLog (log ++ [⟨version + 1, ts, applied⟩])).head?.map
      LogEntry.v).getD (version + 1)))
    (hreplays : Replays ts applied d d') (hlands : Lands ts applied d) :
    Tells opts (commits ++ [c]) d' (recalled c.replica c.forget replicas) (version + 1)
      (lastOf opts.deltaLog (log ++ [⟨version + 1, ts, applied⟩])) := by
  generalize hentry : (⟨version + 1, ts, applied⟩ : LogEntry) = entry at hlog hfloor ⊢
  have hlog' : log = (logged commits).drop ((logged commits).length - opts.deltaLog) := by
    rw [← h.log, h.chronicle.log]
    rfl
  have hnumbers : (log ++ [entry]).map LogEntry.v =
      List.range' (version + 1 - log.length) (log ++ [entry]).length := by
    have hlen := h.chronicle.length_logged
    rw [h.version] at hlen
    rw [List.map_append, hlog', List.map_drop, h.chronicle.versions, h.version, List.drop_range']
    simp only [List.map_singleton, ← hentry, List.length_append, List.length_drop,
      List.length_singleton, hlen, mul_one]
    rw [List.range'_concat, one_mul]
    congr 2 <;> omega
  have hsaved : ((Saved.ofCommits commits).commit c).log =
      lastOf opts.deltaLog (log ++ [entry]) := by
    simp only [Saved.commit, hlog, hfloor, h.log, Option.toList_some]
    exact filter_floor hnumbers (by simp; omega) _
  rw [← hversion, ← hsaved]
  obtain ⟨out, hout, hsame⟩ := hreplays
  refine h.snoc hrows hfull hshaped (by simp [hversion, hlog]) ?_ ?_
    ⟨out.doc, ?_, Doc.shows_iff.mpr fun k => ((hsame.get k).symm)⟩ ?_
  · intro e he
    rw [hlog] at he
    rw [← Option.some.inj he, hversion, ← hentry]
  · rw [hsaved, ← h.log, h.chronicle.log, lastOf_concat hn, logged_append, logged_singleton, hlog]
    rfl
  · simp [hlog, replayLog, ← hentry, hout, bind, Except.bind]
  · intro e he
    rw [hlog] at he
    rw [← Option.some.inj he, ← hentry]
    exact hlands

end Tells

end LazyStorage.Server
