import LazyStorage.Client.Current
import LazyStorage.Client.Rows
import LazyStorage.Client.WorkingOut
import LazyStorage.Core.Reach

/-! # A tab opened again

What a client writes as it goes on is what it has: an op's row when the outbox
changes, a record's when the base does. So a tab opened on the rows has the pending
ops and the base of the one that was closed, and the server brings it on from where
the rows say it stands.
-/
namespace LazyStorage.Client

open Lib LazyStorage.Core LazyStorage.Server

variable {sh : Shape} {U : Type} {c c' : Mirror sh} {rows : Rows}

/-! ## The ops' rows -/

/-- What changes write that are no puts: what they take over. -/
def overwrites (changes : List Change) : List Change :=
  changes.filter fun ch =>
    match ch.write with
    | .put _ => false
    | _ => true

/-- What is left of an op's changes once others took over. -/
def left (changes : List Change) (older : Op) : List Change :=
  older.changes.filter fun ch => !within (overwrites changes) ch

/-- What is left of an op, if anything is. -/
def remains (changes : List Change) (older : Op) : Option Op :=
  if (left changes older).length = older.changes.length then some older
  else if (left changes older).isEmpty then none
  else some { older with changes := left changes older }

theorem left_of_none {changes : List Change} (h : (overwrites changes).isEmpty = true) (older : Op) :
    left changes older = older.changes := by
  refine List.filter_eq_self.mpr fun ch _ => ?_
  rw [List.isEmpty_iff.mp h]
  rfl

theorem supersede_eq (changes : List Change) (outbox : List Op) :
    supersede changes outbox = outbox.filterMap (remains changes) := by
  by_cases hnone : (overwrites changes).isEmpty = true
  · have hall : remains changes = some := funext fun older => by rw [remains, left_of_none hnone, if_pos rfl]
    rw [hall, List.filterMap_some]
    exact if_pos hnone
  · exact if_neg hnone

theorem seq_remains {changes : List Change} {older op : Op} (h : remains changes older = some op) :
    op.seq = older.seq := by
  unfold remains at h
  split_ifs at h
  · rw [← Option.some.inj h]
  · rw [← Option.some.inj h]

/-- An op left with fewer changes is written anew, one left with none goes, and no other row is touched. -/
theorem superseded_spec (changes : List Change) (outbox : List Op) :
    (∀ op, op ∈ (superseded changes outbox).1 ↔
      ∃ older ∈ outbox, remains changes older = some op ∧ op.changes.length ≠ older.changes.length) ∧
    (∀ n, n ∈ (superseded changes outbox).2 ↔ ∃ older ∈ outbox, remains changes older = none ∧ older.seq = n) := by
  by_cases hnone : (overwrites changes).isEmpty = true
  · have hall : ∀ older, remains changes older = some older := fun older => by
      rw [remains, left_of_none hnone, if_pos rfl]
    have hnothing : superseded changes outbox = ([], []) := if_pos hnone
    simp [hnothing, hall]
  let shrunk := outbox.filter fun older => (left changes older).length ≠ older.changes.length
  have hparts : superseded changes outbox =
      ((shrunk.filter fun older => !(left changes older).isEmpty).map fun older =>
          { older with changes := left changes older },
        (shrunk.filter fun older => (left changes older).isEmpty).map Op.seq) := if_neg hnone
  rw [hparts]
  constructor
  · intro op
    simp only [List.mem_map, List.mem_filter, shrunk, decide_eq_true_eq]
    constructor
    · rintro ⟨older, ⟨⟨holder, hfewer⟩, hsome⟩, rfl⟩
      exact ⟨older, holder, by simp_all [remains], hfewer⟩
    · rintro ⟨older, holder, hremains, hfewer⟩
      unfold remains at hremains
      split_ifs at hremains with hsame hempty
      · exact absurd (Option.some.inj hremains ▸ rfl) hfewer
      · exact ⟨older, ⟨⟨holder, hsame⟩, by simpa using hempty⟩, Option.some.inj hremains⟩
  · intro n
    simp only [List.mem_map, List.mem_filter, shrunk, decide_eq_true_eq]
    constructor
    · rintro ⟨older, ⟨⟨holder, hfewer⟩, hempty⟩, hseq⟩
      exact ⟨older, holder, by rw [remains, if_neg hfewer, if_pos hempty], hseq⟩
    · rintro ⟨older, holder, hremains, hseq⟩
      unfold remains at hremains
      split_ifs at hremains with hsame hempty
      exact ⟨older, ⟨⟨holder, hsame⟩, hempty⟩, hseq⟩

/-- The rows have the pending ops, each under its number, and the numbers climb. -/
structure Rows.Holds (c : Mirror sh) (rows : Rows) : Prop where
  ops : ∀ n op, rows.ops.get n = some op ↔ op ∈ c.outbox ∧ op.seq = n
  climbs : c.outbox.Pairwise (·.seq < ·.seq)
  counted : ∀ op ∈ c.outbox, op.seq ≤ c.seq

namespace Rows.Holds

theorem unique {ops : List Op} (h : ops.Pairwise (·.seq < ·.seq)) {a b : Op} (ha : a ∈ ops) (hb : b ∈ ops)
    (hseq : a.seq = b.seq) : a = b := by
  have hnodup : (ops.map Op.seq).Nodup := List.pairwise_map.mpr (h.imp fun hlt => hlt.ne)
  exact List.inj_on_of_nodup_map hnodup ha hb hseq

/-- The ops read in the order of their numbers are the outbox. -/
theorem load (h : Rows.Holds c rows) :
    (rows.ops.entries.insertionSort fun a b => a.1 ≤ b.1).map Prod.snd = c.outbox := by
  let numbered := c.outbox.map fun op => (op.seq, op)
  have hnumbered : numbered.Pairwise fun a b => a.1 < b.1 := List.pairwise_map.mpr h.climbs
  have hperm : (rows.ops.entries.insertionSort fun a b => a.1 ≤ b.1).Perm numbered := by
    refine (List.perm_insertionSort _ _).trans ?_
    refine (List.perm_ext_iff_of_nodup rows.ops.nodup.of_map (hnumbered.imp fun hlt heq => ?_)).mpr fun r => ?_
    · rw [heq] at hlt
      exact lt_irrefl _ hlt
    · obtain ⟨n, op⟩ := r
      rw [OrderedMap.mem_entries, h.ops, List.mem_map]
      constructor
      · rintro ⟨hop, rfl⟩
        exact ⟨op, hop, rfl⟩
      · rintro ⟨other, hother, heq⟩
        obtain ⟨rfl, rfl⟩ := Prod.mk.inj heq
        exact ⟨hother, rfl⟩
  have hsame : (rows.ops.entries.insertionSort fun a b => a.1 ≤ b.1) = numbered := by
    refine hperm.eq_of_pairwise ?_ (List.pairwise_insertionSort _ _) (hnumbered.imp le_of_lt)
    intro a b ha hb hab hba
    obtain ⟨x, hx, rfl⟩ := List.mem_map.mp (hperm.subset ha)
    obtain ⟨y, hy, rfl⟩ := List.mem_map.mp hb
    rw [unique h.climbs hx hy (le_antisymm hab hba)]
  rw [hsame, List.map_map]
  exact List.map_id _

theorem ops_saved (about : About) (l : List Op) (rows : Rows) :
    (l.foldl (Rows.saveOp about) rows).ops = l.foldl (fun m op => m.set op.seq op) rows.ops := by
  induction l generalizing rows with
  | nil => rfl
  | cons op l ih => exact ih _

theorem ops_removed (about : About) (l : List ℕ) (rows : Rows) :
    (l.foldl (Rows.removeOp about) rows).ops = l.foldl (fun m n => m.erase n) rows.ops := by
  induction l generalizing rows with
  | nil => rfl
  | cons n l ih => exact ih _

/-- An op left as it was is the op. -/
theorem remains_self {changes : List Change} {older op : Op} (h : remains changes older = some op)
    (hsame : op.changes.length = older.changes.length) : op = older := by
  unfold remains at h
  split_ifs at h with hleft
  · exact (Option.some.inj h).symm
  · rw [← Option.some.inj h] at hsame
    exact absurd hsame hleft

/-- What a new op takes over is written and erased: the rows are of what is left. -/
theorem takes_over (h : Rows.Holds c rows) (about : About) (changes : List Change) (n : ℕ) (op : Op) :
    (((superseded changes c.outbox).2.foldl (Rows.removeOp about)
      ((superseded changes c.outbox).1.foldl (Rows.saveOp about) rows)).ops.get n = some op) ↔
      op ∈ supersede changes c.outbox ∧ op.seq = n := by
  obtain ⟨hchanged, hremoved⟩ := superseded_spec changes c.outbox
  obtain ⟨hthere, hput⟩ := OrderedMap.get_foldl_put Op.seq id (superseded changes c.outbox).1 rows.ops n
  rw [ops_removed, ops_saved, OrderedMap.get_foldl_erase, supersede_eq, List.mem_filterMap]
  split_ifs with hgone
  · obtain ⟨older, holder, hnone, hseq⟩ := (hremoved n).mp hgone
    refine ⟨nofun, ?_⟩
    rintro ⟨⟨other, hother, hremains⟩, rfl⟩
    rw [unique h.climbs hother holder ((seq_remains hremains).symm.trans hseq.symm), hnone] at hremains
    cases hremains
  constructor
  · intro hget
    rcases hput op hget with ⟨x, hx, hseq, rfl⟩ | ⟨hold, hspared⟩
    · obtain ⟨older, holder, hremains, -⟩ := (hchanged x).mp hx
      exact ⟨⟨older, holder, hremains⟩, hseq⟩
    · obtain ⟨hop, hseq⟩ := (h.ops n op).mp hold
      refine ⟨⟨op, hop, ?_⟩, hseq⟩
      cases hremains : remains changes op with
      | none => exact absurd ((hremoved n).mpr ⟨op, hop, hremains, hseq⟩) hgone
      | some x =>
        by_cases hsame : x.changes.length = op.changes.length
        · rw [remains_self hremains hsame]
        · exact absurd ((seq_remains hremains).trans hseq) (hspared x ((hchanged x).mpr ⟨op, hop, hremains, hsame⟩))
  · rintro ⟨⟨older, holder, hremains⟩, rfl⟩
    have hseq := seq_remains hremains
    have hsome : (((superseded changes c.outbox).1.foldl (fun m op => m.set op.seq op) rows.ops).get op.seq).isSome :=
      hthere.mpr (.inl (by rw [(h.ops op.seq older).mpr ⟨holder, hseq.symm⟩]; rfl))
    obtain ⟨x, hx⟩ := Option.isSome_iff_exists.mp hsome
    rw [hx]
    rcases hput x hx with ⟨y, hy, hnumber, rfl⟩ | ⟨hold, hspared⟩
    · obtain ⟨other, hother, hmakes, -⟩ := (hchanged y).mp hy
      rw [unique h.climbs hother holder ((seq_remains hmakes).symm.trans (hnumber.trans hseq)), hremains] at hmakes
      exact hmakes.symm
    · obtain ⟨hmem, hnumber⟩ := (h.ops _ x).mp hold
      obtain rfl := unique h.climbs hmem holder (hnumber.trans hseq)
      by_cases hsame : op.changes.length = x.changes.length
      · rw [remains_self hremains hsame]
      · exact absurd rfl (hspared op ((hchanged op).mpr ⟨x, holder, hremains, hsame⟩))

theorem supersede_climbs {changes : List Change} {outbox : List Op} (h : outbox.Pairwise (·.seq < ·.seq)) :
    (supersede changes outbox).Pairwise (·.seq < ·.seq) :=
  List.pairwise_map.mp ((List.pairwise_map.mpr h).sublist (supersede_from changes outbox).1)

theorem edit (h : Rows.Holds c rows) (changes : List Change) (now : ℤ) :
    Rows.Holds (c.edit changes now).1 (c.storesEdit changes now rows) := by
  have hbelow : ∀ op ∈ supersede changes c.outbox, op.seq ≤ c.seq := fun op hop => by
    rw [supersede_eq] at hop
    obtain ⟨older, holder, hremains⟩ := List.mem_filterMap.mp hop
    exact (seq_remains hremains).trans_le (h.counted older holder)
  refine ⟨fun n op => ?_, ?_, fun op hop => ?_⟩
  · simp only [Mirror.storesEdit, Persistence.op, Rows.saveOp, OrderedMap.get_set, Mirror.edit, List.mem_append,
      List.mem_singleton]
    split_ifs with hn
    · rw [Option.some.injEq]
      constructor
      · rintro rfl
        exact ⟨.inr rfl, hn⟩
      · rintro ⟨hop | rfl, hseq⟩
        · have := hbelow op hop
          omega
        · rfl
    · rw [takes_over h]
      constructor
      · rintro ⟨hop, hseq⟩
        exact ⟨.inl hop, hseq⟩
      · rintro ⟨hop | rfl, hseq⟩
        · exact ⟨hop, hseq⟩
        · exact absurd hseq hn
  · refine List.pairwise_append.mpr ⟨supersede_climbs h.climbs, List.pairwise_singleton _ _, ?_⟩
    intro a ha b hb
    obtain rfl := List.mem_singleton.mp hb
    exact Nat.lt_succ_of_le (hbelow a ha)
  · rcases List.mem_append.mp hop with hop | hop
    · exact (hbelow op hop).trans (Nat.le_succ _)
    · obtain rfl := List.mem_singleton.mp hop
      exact le_rfl

/-- Fewer ops, and of the rows theirs. -/
theorem fewer (h : Rows.Holds c rows) {rows' : Rows} (hsub : c'.outbox.Sublist c.outbox) (hseq : c'.seq = c.seq)
    (hops : ∀ n op, rows'.ops.get n = some op ↔ op ∈ c'.outbox ∧ op.seq = n) : Rows.Holds c' rows' :=
  ⟨hops, h.climbs.sublist hsub, fun op hop => hseq ▸ h.counted op (hsub.subset hop)⟩

theorem same (h : Rows.Holds c rows) {rows' : Rows} (houtbox : c'.outbox = c.outbox) (hseq : c'.seq = c.seq)
    (hops : rows'.ops = rows.ops) : Rows.Holds c' rows' :=
  h.fewer (by rw [houtbox]) hseq (by rw [hops, houtbox]; exact h.ops)

/-- Acknowledged ops go from the outbox and the rows alike. -/
theorem acknowledge (h : Rows.Holds c rows) {teller : Mirror sh} (houtbox : teller.outbox = c.outbox) (upTo : ℕ)
    (hafter : c'.outbox = c.outbox.filter (upTo < ·.seq)) (hseq : c'.seq = c.seq) :
    Rows.Holds c' (teller.storesAcknowledge upTo rows) := by
  unfold Mirror.storesAcknowledge
  simp only [Mirror.acknowledge, houtbox]
  split_ifs with hnone
  · exact h.same (hafter.trans (List.filter_eq_self.mpr (List.length_filter_eq_length_iff.mp hnone))) hseq rfl
  · refine h.fewer (hafter ▸ List.filter_sublist) hseq fun n op => ?_
    rw [Persistence.drop, Rows.dropOps, OrderedMap.get_filter, hafter, List.mem_filter, decide_eq_true_eq]
    constructor
    · intro hget
      obtain ⟨hold, hlater⟩ := Option.filter_eq_some_iff.mp hget
      obtain ⟨hop, rfl⟩ := (h.ops n op).mp hold
      exact ⟨⟨hop, of_decide_eq_true hlater⟩, rfl⟩
    · rintro ⟨⟨hop, hlater⟩, rfl⟩
      rw [(h.ops op.seq op).mpr ⟨hop, rfl⟩, Option.filter_some, if_pos (by simpa using hlater)]

theorem mem_eraseP {ops : List Op} (h : ops.Pairwise (·.seq < ·.seq)) (n : ℕ) (op : Op) :
    op ∈ ops.eraseP (·.seq = n) ↔ op ∈ ops ∧ op.seq ≠ n := by
  induction ops with
  | nil => simp
  | cons first ops ih =>
    obtain ⟨hfirst, hrest⟩ := List.pairwise_cons.mp h
    rw [List.eraseP_cons]
    by_cases hn : first.seq = n
    · simp only [hn, decide_true, cond_true, List.mem_cons]
      constructor
      · intro hop
        have := hfirst op hop
        exact ⟨.inr hop, by omega⟩
      · rintro ⟨rfl | hop, hne⟩
        · exact absurd hn hne
        · exact hop
    · simp only [hn, decide_false, cond_false, List.mem_cons, ih hrest]
      constructor
      · rintro (rfl | ⟨hop, hne⟩)
        · exact ⟨.inl rfl, hn⟩
        · exact ⟨.inr hop, hne⟩
      · rintro ⟨rfl | hop, hne⟩
        · exact .inl rfl
        · exact .inr ⟨hop, hne⟩

/-- So does one refused. -/
theorem reject (h : Rows.Holds c rows) (about : About) {n : ℕ} (hafter : c'.outbox = c.outbox.eraseP (·.seq = n))
    (hseq : c'.seq = c.seq) : Rows.Holds c' (rows.removeOp about n) := by
  refine h.fewer (hafter ▸ List.eraseP_sublist) hseq fun m op => ?_
  rw [Rows.removeOp, OrderedMap.get_erase, hafter, mem_eraseP h.climbs]
  split_ifs with hm
  · subst hm
    refine ⟨nofun, ?_⟩
    rintro ⟨⟨-, hne⟩, heq⟩
    exact absurd heq hne
  · rw [h.ops]
    constructor
    · rintro ⟨hop, rfl⟩
      exact ⟨⟨hop, Ne.symm hm⟩, rfl⟩
    · rintro ⟨⟨hop, -⟩, hseq⟩
      exact ⟨hop, hseq⟩

/-- All of it written again, over nothing. -/
theorem rewrite (h : Rows.Holds c rows) (cache : Bool) : Rows.Holds c (Persistence.rewrite cache c .empty) := by
  refine h.fewer (List.Sublist.refl _) rfl fun n op => ?_
  have hempty : (Persistence.snapshot cache c .empty).ops = .empty := by
    unfold Persistence.snapshot
    split_ifs <;> rfl
  obtain ⟨hthere, hput⟩ := OrderedMap.get_foldl_put Op.seq id c.outbox (.empty : OrderedMap ℕ Op) n
  rw [Persistence.rewrite, ops_saved, hempty]
  constructor
  · intro hget
    rcases hput op hget with ⟨x, hx, hseq, rfl⟩ | ⟨hnone, -⟩
    · exact ⟨hx, hseq⟩
    · cases hnone
  · rintro ⟨hop, hseq⟩
    obtain ⟨x, hx⟩ := Option.isSome_iff_exists.mp (hthere.mpr (.inr ⟨op, hop, hseq⟩))
    rcases hput x hx with ⟨y, hy, hnumber, rfl⟩ | ⟨hnone, -⟩
    · obtain rfl := unique h.climbs hy hop (hnumber.trans hseq.symm)
      exact hx
    · cases hnone

end Rows.Holds

/-! ## The records' rows -/

theorem get_puts (f : RecordKey → Option Entry) (touched : List RecordKey) (m : OrderedMap RecordKey Entry)
    (k : RecordKey) :
    ((touched.filterMap fun key => (f key).map fun e => (key, e)).foldl (fun m r => m.set r.1 r.2) m).get k =
      if k ∈ touched then (f k).or (m.get k) else m.get k := by
  induction touched generalizing m with
  | nil => simp
  | cons key touched ih =>
    cases hkey : f key with
    | none =>
      rw [List.filterMap_cons_none (by rw [hkey]; rfl), ih]
      by_cases hk : k = key
      · subst hk
        simp [hkey]
      · simp [hk]
    | some e =>
      rw [List.filterMap_cons_some (by rw [hkey]; rfl), List.foldl_cons, ih, OrderedMap.get_set]
      by_cases hk : k = key
      · subst hk
        simp [hkey]
      · simp [hk, Ne.symm hk]

/-- The rows of touched records are what the base has of them. -/
theorem get_base (c : Mirror sh) (rows : Rows) {touched : List RecordKey} (hnormal : ∀ key ∈ touched, Normal sh key)
    (k : RecordKey) : (Persistence.base true c rows touched).records.get k =
      if k ∈ touched then c.base.records.get k else rows.records.get k := by
  let held := fun key : RecordKey => c.base.records.get (sh.recordKey key.1 key.2)
  have hheld : k ∈ touched → held k = c.base.records.get k := fun hk => congrArg c.base.records.get (hnormal k hk)
  have hrecords : (Persistence.base true c rows touched).records =
      (touched.filterMap fun key => (held key).map fun e => (key, e)).foldl (fun m r => m.set r.1 r.2)
        ((touched.filter fun key => (held key).isNone).foldl (fun m key => m.erase key) rows.records) := by
    cases touched with
    | nil => rfl
    | cons key touched => rfl
  rw [hrecords, get_puts held, OrderedMap.get_foldl_erase]
  split_ifs with hk hgone hgone
  · rw [Option.or_none, hheld hk]
  · rw [← hheld hk]
    cases hthere : held k with
    | some e => rfl
    | none => exact absurd (List.mem_filter.mpr ⟨hk, by rw [hthere]; rfl⟩) hgone
  · exact absurd (List.mem_filter.mp hgone).1 hk
  · rfl

/-- Changes onto the base leave the records they do not name. -/
theorem spares_intoBase {changes : List Change} {ts : ℕ} {k : RecordKey}
    (hk : ∀ ch ∈ changes.filter fun ch => sh.has ch.c, sh.recordKey ch.c ch.id ≠ k) :
    (c.intoBase changes ts).base.records.get k = c.base.records.get k := by
  unfold Mirror.intoBase
  dsimp only
  generalize changes.filter (fun ch => sh.has ch.c) = list at hk
  generalize c.base = base
  induction list generalizing base with
  | nil => rfl
  | cons ch list ih =>
    rw [List.foldl_cons, ih fun other hother => hk other (List.mem_cons_of_mem _ hother)]
    split
    · next out hout =>
      refine trusted_spares (applyAll_one hout) fun other hother => ?_
      obtain rfl := List.mem_singleton.mp hother
      exact hk other List.mem_cons_self
    · rfl

/-- What a client's rows say, and how far the server's answers have to bring one that is opened on them. -/
structure Rows.Keeps (commits : List Commit) (c : Mirror sh) (rows : Rows) : Prop extends Rows.Holds c rows where
  fresh : rows.about = none → c.seq = 0 ∧ c.outbox = [] ∧ c.known.epoch = none
  whose : ∀ a ∈ rows.about, a.replica = c.replica ∧ a.seq = c.seq ∧ a.known.epoch = c.known.epoch
  stood : ∀ a ∈ rows.about, c.known.epoch.isSome = true → a.known.v ≤ c.known.v ∧ StoodAt commits a.known.v c.base
  records : c.known.epoch.isSome = true → ∀ k, rows.records.get k = c.base.records.get k

/-- A delta is heard by one who said where it stands, and a patch, of no lower a number, by one who was answered; both
are of records the shape has. -/
def Mirror.Hears (c : Mirror sh) : Down → Prop
  | .delta ops _ _ _ _ _ => c.known.epoch.isSome = true ∧ ∀ entry ∈ ops, entry.Known sh
  | .patch changes v _ => c.synced = true →
      c.known.epoch.isSome = true ∧ c.known.v ≤ v ∧ ∀ ch ∈ changes, ch.Known sh
  | _ => True

namespace Rows.Keeps

variable {commits : List Commit} {epoch : String} {rows' : Rows}

theorem more (h : Rows.Keeps commits c rows) (new : List Commit) : Rows.Keeps (commits ++ new) c rows :=
  { h with stood := fun a ha hsome => ⟨(h.stood a ha hsome).1, (h.stood a ha hsome).2.more new⟩ }

/-- Nothing written, and nothing to write. -/
theorem same (h : Rows.Keeps commits c rows) (hreplica : c'.replica = c.replica) (hseq : c'.seq = c.seq)
    (houtbox : c'.outbox = c.outbox) (hepoch : c'.known.epoch = c.known.epoch) (hv : c.known.v ≤ c'.known.v)
    (hbase : c'.base = c.base) : Rows.Keeps commits c' rows where
  toHolds := h.toHolds.same houtbox hseq rfl
  fresh := by
    rw [hseq, houtbox, hepoch]
    exact h.fresh
  whose := by
    rw [hreplica, hseq, hepoch]
    exact h.whose
  stood a ha hsome := by
    obtain ⟨hle, hstood⟩ := h.stood a ha (hepoch ▸ hsome)
    exact ⟨hle.trans hv, hbase ▸ hstood⟩
  records hsome := by
    rw [hbase]
    exact h.records (hepoch ▸ hsome)

/-- A write says where the client stands. -/
theorem of_write (hholds : Rows.Holds c rows) (habout : rows.about = some c.about) (hstands : c.Stands commits epoch)
    (hrecords : c.known.epoch.isSome = true → ∀ k, rows.records.get k = c.base.records.get k) :
    Rows.Keeps commits c rows where
  toHolds := hholds
  fresh hnone := by
    rw [habout] at hnone
    cases hnone
  whose a ha := by
    rw [habout] at ha
    cases ha
    exact ⟨rfl, rfl, rfl⟩
  stood a ha hsome := by
    rw [habout] at ha
    cases ha
    obtain ⟨e, he⟩ := Option.isSome_iff_exists.mp hsome
    exact ⟨le_rfl, (hstands.stood e he).2⟩
  records := hrecords

theorem records_saved (about : About) (l : List Op) (rows : Rows) :
    (l.foldl (Rows.saveOp about) rows).records = rows.records := by
  induction l generalizing rows with
  | nil => rfl
  | cons op l ih => exact ih _

theorem records_removed (about : About) (l : List ℕ) (rows : Rows) :
    (l.foldl (Rows.removeOp about) rows).records = rows.records := by
  induction l generalizing rows with
  | nil => rfl
  | cons n l ih => exact ih _

theorem records_storesAcknowledge (c : Mirror sh) (upTo : ℕ) (rows : Rows) :
    (c.storesAcknowledge upTo rows).records = rows.records := by
  unfold Mirror.storesAcknowledge
  split_ifs <;> rfl

theorem edit (h : Rows.Keeps commits c rows) (hstands : c.Stands commits epoch) (changes : List Change) (now : ℤ) :
    Rows.Keeps commits (c.edit changes now).1 (c.storesEdit changes now rows) := by
  refine .of_write (h.toHolds.edit changes now) rfl (hstands.same rfl rfl id) fun hsome k => ?_
  have hrecords : (c.storesEdit changes now rows).records = rows.records := by
    simp only [Mirror.storesEdit, Persistence.op, Rows.saveOp, records_removed, records_saved]
  rw [hrecords]
  exact h.records hsome k

/-- Fewer pending ops, and where the client stands told with them. -/
theorem acknowledge (h : Rows.Keeps commits c rows) {upTo : ℕ} (hreplica : c'.replica = c.replica)
    (hseq : c'.seq = c.seq) (houtbox : c'.outbox = c.outbox.filter (upTo < ·.seq))
    (hepoch : c'.known.epoch = c.known.epoch) (hv : c.known.v ≤ c'.known.v) (hbase : c'.base = c.base)
    (hstands : c'.Stands commits epoch) :
    Rows.Keeps commits c' (Mirror.storesAcknowledge upTo { c with known := c'.known } rows) := by
  by_cases hnone : (c.outbox.filter (upTo < ·.seq)).length = c.outbox.length
  · have hall : c.outbox.filter (upTo < ·.seq) = c.outbox :=
      List.filter_eq_self.mpr (List.length_filter_eq_length_iff.mp hnone)
    rw [Mirror.storesAcknowledge, if_pos (by exact hnone)]
    exact h.same hreplica hseq (houtbox.trans hall) hepoch hv hbase
  · have hholds : Rows.Holds c' (Mirror.storesAcknowledge upTo { c with known := c'.known } rows) :=
      h.toHolds.acknowledge (rfl : ({ c with known := c'.known } : Mirror sh).outbox = c.outbox) upTo houtbox hseq
    refine .of_write hholds ?_ hstands fun hsome k => ?_
    · rw [Mirror.storesAcknowledge, if_neg (by exact hnone)]
      change some (⟨c.replica, c.seq, c'.known⟩ : About) = some ⟨c'.replica, c'.seq, c'.known⟩
      rw [hreplica, hseq]
    · rw [records_storesAcknowledge, hbase]
      exact h.records (hepoch ▸ hsome) k

/-- A base that came on by changes to records touched, and those written. -/
theorem base (hholds : Rows.Holds c rows) {touched : List RecordKey} (hsome : touched ≠ [])
    (hnormal : ∀ key ∈ touched, Normal sh key) (hstands : c.Stands commits epoch)
    (hspared : ∀ k, k ∉ touched → rows.records.get k = c.base.records.get k) :
    Rows.Keeps commits c (Persistence.base true c rows touched) := by
  have hbase : Persistence.base true c rows touched = rows.commit _ _ c.about := if_neg (by simpa using hsome)
  refine .of_write (hholds.same rfl rfl ?_) ?_ hstands fun _ k => ?_
  · rw [hbase]
    rfl
  · rw [hbase]
    rfl
  · rw [get_base c rows hnormal]
    split_ifs with hk
    · rfl
    · exact hspared k hk

/-- The records changes are to, as they are named. -/
theorem normal_keys {changes : List Change} (hknown : ∀ ch ∈ changes, ch.Known sh) :
    ∀ key ∈ (changes.filter fun ch => sh.has ch.c).map fun ch => (ch.c, ch.id), Normal sh key := by
  intro key hkey
  obtain ⟨ch, hch, rfl⟩ := List.mem_map.mp hkey
  exact (hknown ch (List.mem_filter.mp hch).1).2

theorem spares_keys {changes : List Change} (hknown : ∀ ch ∈ changes, ch.Known sh) {ts : ℕ} {k : RecordKey}
    (hk : k ∉ (changes.filter fun ch => sh.has ch.c).map fun ch => (ch.c, ch.id)) :
    (c.intoBase changes ts).base.records.get k = c.base.records.get k := by
  refine spares_intoBase fun ch hch hkey => hk (List.mem_map.mpr ⟨ch, hch, ?_⟩)
  have hnormal : sh.recordKey ch.c ch.id = (ch.c, ch.id) := (hknown ch (List.mem_filter.mp hch).1).2
  rw [← hkey, hnormal]

theorem spares_entries {ops : List LogEntry} (hknown : ∀ entry ∈ ops, entry.Known sh) {k : RecordKey}
    (hk : k ∉ ops.flatMap fun entry => (entry.changes.filter fun ch => sh.has ch.c).map fun ch => (ch.c, ch.id)) :
    (ops.foldl (fun c entry => c.intoBase entry.changes entry.ts) c).base.records.get k = c.base.records.get k := by
  induction ops generalizing c with
  | nil => rfl
  | cons entry ops ih =>
    simp only [List.flatMap_cons, List.mem_append, not_or] at hk
    rw [List.foldl_cons, ih (fun e he => hknown e (List.mem_cons_of_mem _ he)) hk.2]
    exact spares_keys (hknown entry List.mem_cons_self) hk.1

/-- What a client writes of a message leaves the rows saying what it has. -/
theorem hears (h : Rows.Keeps commits c rows) {msg : Down} {now : ℤ}
    (hstands : (c.handle msg now).1.Stands commits epoch) (hhears : c.Hears msg) : Rows.Keeps commits (c.handle msg now).1 (c.stores true msg now rows) := by
  cases msg with
  | snapshot records seq v e serverNow lost =>
    have hholds : Rows.Holds (c.handle (.snapshot records seq v e serverNow lost) now).1
        (c.storesAcknowledge seq rows) := h.toHolds.acknowledge rfl seq rfl rfl
    refine .of_write (hholds.same rfl rfl rfl) rfl hstands fun _ k => ?_
    change (OrderedMap.get (List.foldl _ _ _) k) = _
    rw [OrderedMap.get_foldl_set (OrderedMap.nodup _), OrderedMap.get_empty, Option.or_none]
    rfl
  | delta ops seq v e serverNow lost =>
    obtain ⟨hepoch, hknown⟩ := hhears
    let touched := ops.flatMap fun entry => (entry.changes.filter fun ch => sh.has ch.c).map fun ch => (ch.c, ch.id)
    have hsame : System.SameOps (Mirror.acknowledge seq { c with clock := c.clock.adopt serverNow now })
        (ops.foldl (fun c entry => c.intoBase entry.changes entry.ts)
          (Mirror.acknowledge seq { c with clock := c.clock.adopt serverNow now })) := System.sameOps_entries ops _
    have hholds : Rows.Holds (c.handle (.delta ops seq v e serverNow lost) now).1 (c.storesAcknowledge seq rows) :=
      h.toHolds.acknowledge rfl seq hsame.outbox hsame.seq
    have hspared : ∀ k, k ∉ touched → (c.storesAcknowledge seq rows).records.get k =
        (c.handle (.delta ops seq v e serverNow lost) now).1.base.records.get k := fun k hk => by
      rw [records_storesAcknowledge, h.records hepoch]
      let acked := Mirror.acknowledge seq { c with clock := c.clock.adopt serverNow now }
      exact (spares_entries (c := acked) hknown hk).symm
    by_cases hnone : touched = []
    · have hstores : c.stores true (.delta ops seq v e serverNow lost) now rows =
          (c.storesAcknowledge seq rows).commit [] [] (c.handle (.delta ops seq v e serverNow lost) now).1.about := by
        change (if touched.isEmpty = true then Persistence.version true _ (Persistence.base true _ _ touched)
          else _) = _
        rw [hnone]
        rfl
      rw [hstores]
      exact .of_write (hholds.same rfl rfl rfl) rfl hstands fun _ k => hspared k (by simp [hnone])
    · have hstores : c.stores true (.delta ops seq v e serverNow lost) now rows =
          Persistence.base true (c.handle (.delta ops seq v e serverNow lost) now).1 (c.storesAcknowledge seq rows)
            touched :=
        if_neg fun hempty => hnone (List.isEmpty_iff.mp hempty)
      rw [hstores]
      refine .base hholds hnone (fun key hkey => ?_) hstands hspared
      obtain ⟨entry, hentry, hkey⟩ := List.mem_flatMap.mp hkey
      exact normal_keys (hknown entry hentry) key hkey
  | patch changes v ts =>
    cases hsynced : c.synced with
    | false =>
      have hstill : c.handle (.patch changes v ts) now = (c, []) := if_pos (by rw [hsynced]; rfl)
      have hstores : c.stores true (.patch changes v ts) now rows = rows := if_pos (by rw [hsynced]; rfl)
      rw [hstill, hstores]
      exact h
    | true =>
      obtain ⟨hepoch, hlater, hknown⟩ := hhears hsynced
      by_cases hgap : (c.known.epoch.isSome && c.known.v + 1 < v) = true
      · have hstores : c.stores true (.patch changes v ts) now rows = rows :=
          if_pos (by rw [hgap, Bool.or_true])
        have hasks : c.handle (.patch changes v ts) now = Mirror.hello { c with synced := false } := by
          unfold Mirror.handle
          dsimp only
          rw [if_neg (by simp [hsynced]), if_pos hgap]
        rw [hstores, hasks]
        exact h.same rfl rfl rfl rfl le_rfl rfl
      let touched := (changes.filter fun ch => sh.has ch.c).map fun ch => (ch.c, ch.id)
      let after := Mirror.intoBase changes ts { c with known := { c.known with v } }
      have hafter : (c.handle (.patch changes v ts) now).1 = after := by
        unfold Mirror.handle
        dsimp only
        rw [if_neg (by simp [hsynced]), if_neg hgap]
      have hstores : c.stores true (.patch changes v ts) now rows = Persistence.base true after rows touched := by
        unfold Mirror.stores
        rw [hafter]
        exact if_neg (by rw [hsynced, Bool.eq_false_iff.mpr hgap]; simp)
      rw [hafter] at hstands
      rw [hafter, hstores]
      by_cases hnone : touched = []
      · have hstill : after.base = c.base := by
          have hempty : changes.filter (fun ch => sh.has ch.c) = [] := List.map_eq_nil_iff.mp hnone
          simp only [after, Mirror.intoBase, hempty, List.foldl_nil]
        have hwrites : Persistence.base true after rows touched = rows := if_pos (by rw [hnone]; rfl)
        rw [hwrites]
        exact h.same rfl rfl rfl rfl hlater hstill
      · have hholds : Rows.Holds after rows := h.toHolds.same rfl rfl rfl
        refine .base hholds hnone (normal_keys hknown) hstands fun k hk => ?_
        rw [h.records hepoch]
        exact (spares_keys (c := { c with known := { c.known with v } }) hknown hk).symm
  | ack as replica seq v serverNow lost =>
    exact h.acknowledge rfl rfl rfl rfl (le_max_left _ _) rfl hstands
  | error as replica seq refusal =>
    by_cases hlimited : refusal.code = .rateLimited
    · have hout : (c.handle (.error as replica seq refusal) now).1 =
          { c with throttled := c.throttled || seq.isSome, retrying := true } := by
        unfold Mirror.handle
        dsimp only
        rw [if_pos hlimited]
      rw [hout]
      unfold Mirror.stores
      dsimp only
      rw [if_pos hlimited]
      exact h.same rfl rfl rfl rfl le_rfl rfl
    cases seq with
    | none =>
      have hout : (c.handle (.error as replica none refusal) now).1 = c := by
        unfold Mirror.handle
        dsimp only
        rw [if_neg hlimited]
      rw [hout, Mirror.stores, if_neg hlimited]
      exact h
    | some seq =>
      have hout : (c.handle (.error as replica (some seq) refusal) now).1 = c.reject seq := by
        unfold Mirror.handle
        dsimp only
        rw [if_neg hlimited]
      rw [hout] at hstands
      rw [hout]
      unfold Mirror.stores
      dsimp only
      rw [if_neg hlimited, hout]
      split_ifs with hfound
      · exact .of_write (h.toHolds.reject _ rfl rfl) rfl hstands h.records
      · refine h.same rfl rfl (List.eraseP_of_forall_not fun op hop hseq => hfound ?_) rfl le_rfl rfl
        exact List.any_eq_true.mpr ⟨op, hop, hseq⟩
  | closed code message =>
    unfold Mirror.handle
    dsimp only
    split_ifs
    · exact h.same rfl rfl rfl rfl le_rfl rfl
    · exact h.same rfl rfl rfl rfl le_rfl rfl
  | revoked as code message => exact h

theorem about_saved (about : About) (l : List Op) {rows : Rows} (h : l = [] → rows.about = some about) :
    (l.foldl (Rows.saveOp about) rows).about = some about := by
  induction l generalizing rows with
  | nil => exact h rfl
  | cons op l ih => exact ih fun _ => rfl

/-- A database made anew has it all again. -/
theorem rewrite (h : Rows.Keeps commits c rows) (hstands : c.Stands commits epoch) :
    Rows.Keeps commits c (Persistence.rewrite true c .empty) := by
  refine .of_write (h.toHolds.rewrite true) (about_saved _ _ fun _ => rfl) hstands fun _ k => ?_
  rw [Persistence.rewrite, records_saved]
  change (OrderedMap.get (List.foldl _ _ _) k) = _
  rw [OrderedMap.get_foldl_set c.base.records.nodup, OrderedMap.get_empty, Option.or_none]
  rfl

end Rows.Keeps

/-! ## Opened again -/

section Opened

variable {opts : Options sh U} {epoch : String} {again : Prop} {commits : List Commit}

/-- What is on the way to a client is such as it may hear. -/
theorem Mirror.hears_of_brings {msg : Down} {down : List Down} {f : Bool} {q : Option ℕ}
    (hknown : ∀ entry ∈ logged commits, entry.Known sh) (h : c.Stands commits epoch)
    (hbrings : Brings sh commits epoch again c.synced c.heard (msg :: down) f q) : c.Hears msg := by
  have hentries : ∀ n w, ∀ entry ∈ entriesFrom commits n w, entry.Known sh := fun n w entry hentry =>
    hknown entry (List.mem_of_mem_drop (List.mem_of_mem_take hentry))
  have hsome : ∀ v, c.heard = some v → c.known.epoch.isSome = true := fun v hv => by
    rw [Mirror.heard] at hv
    cases he : c.known.epoch with
    | none => simp [he] at hv
    | some e => rfl
  generalize hsynced : c.synced = g at hbrings
  generalize hheard : c.heard = p at hbrings
  cases hbrings with
  | patch hlogged hnumber hrest =>
    intro _
    have hv := Option.some.inj ((Mirror.heard_of_synced h hsynced).symm.trans hheard)
    exact ⟨hsome _ hheard, by omega, hknown _ (List.mem_of_getElem? hlogged)⟩
  | ignored hrest =>
    intro hs
    rw [hsynced] at hs
    cases hs
  | ack => trivial
  | refusal => trivial
  | closed => trivial
  | snapshot => trivial
  | delta => exact ⟨hsome _ hheard, hentries _ _⟩
  | deltaAgain => exact ⟨hsome _ hheard, hentries _ _⟩

/-- What stands where the store stood has every record the shape's, and every singleton. -/
theorem shaped_of_stood {n : ℕ} {d : Doc sh} (h : StoodAt commits n d) : d.Shaped ∧ d.Full := by
  obtain ⟨pre, -, -, hequals⟩ := h
  have hsome : ∀ k, (d.records.get k).isSome = ((Saved.docAt sh pre).records.get k).isSome := fun k => by
    simpa [valueAt, Doc.get] using (hequals.isSome k []).symm
  exact ⟨fun k hk => (Doc.of_load (hsome k ▸ hk)).1, fun c hc => (hsome _).trans (Doc.full_load _ c hc)⟩

/-- Rows read again are the base they are of. -/
theorem get_reloaded {n : ℕ} {base : Doc sh} (h : StoodAt commits n base)
    (hsame : ∀ k, rows.records.get k = base.records.get k) (k : RecordKey) :
    (Doc.load sh rows.records.entries).records.get k = base.records.get k := by
  obtain ⟨hshaped, hfull⟩ := shaped_of_stood h
  let kept : Doc sh := { base with records := rows.records }
  have hkept : kept.Shaped := hshaped.congr hsame
  have hall : kept.Full := fun c hc => by
    rw [show kept.records.get (c, none) = base.records.get (c, none) from hsame _]
    exact hfull c hc
  exact (get_loaded hkept hall k).trans (hsame k)

/-- The store goes on whatever comes of a step. -/
theorem System.Current.goes_on {s s' : System sh U} (h : s.Current opts epoch again) {e : Event U}
    (hs : s.step opts e = some s') : ∃ new, s'.host.store.commits = s.host.store.commits ++ new := by
  have hnone : ∀ {st : Store sh}, st.commits = s.host.store.commits →
      ∃ new, st.commits = s.host.store.commits ++ new :=
    fun hsame => ⟨[], by rw [hsame, List.append_nil]⟩
  cases e with
  | opens user writes =>
    simp only [System.step, Option.ite_none_left_eq_some, Option.some.injEq] at hs
    obtain ⟨-, rfl⟩ := hs
    exact hnone Store.commits_commitNow
  | receive others =>
    simp only [System.step] at hs
    split at hs
    · cases hs
    · next msg up hup =>
      obtain rfl := Option.some.inj hs
      have hmeant := h.meant msg (hup ▸ List.mem_cons_self)
      unfold System.receive
      cases hsession : s.session with
      | none => exact hnone rfl
      | some session =>
        have hplain := h.plain session hsession
        cases msg with
        | leave as => exact hmeant.elim
        | op as op =>
          obtain ⟨rfl, -⟩ := hmeant
          obtain ⟨entries, answer, hbroadcasts, -⟩ := receive_op opts others s.host.wall hplain h.quiet op
          obtain ⟨new, hcommits, -⟩ := hbroadcasts.more
          exact ⟨new, hcommits⟩
        | hello replica ops since clocks follower =>
          obtain ⟨rfl, -⟩ := hmeant
          obtain ⟨entries, msgs, hbroadcasts, -⟩ :=
            receive_hello opts others s.host.wall hplain h.quiet replica ops since clocks
          obtain ⟨new, hcommits, -⟩ := hbroadcasts.more
          exact ⟨new, hcommits⟩
  | host e =>
    simp only [System.step, Option.ite_none_right_eq_some, Option.map_eq_some_iff] at hs
    obtain ⟨hspares, host, hhost, rfl⟩ := hs
    obtain ⟨new, hcommits, -⟩ := (Host.enters (HostEvent.lasts_of_spares hspares) hhost).more
    exact ⟨new, hcommits⟩
  | deliver now =>
    simp only [System.step] at hs
    split at hs
    · cases hs
    · obtain rfl := Option.some.inj hs
      unfold System.deliver
      dsimp only
      split_ifs
      · exact hnone rfl
      · exact hnone rfl
  | edit changes now =>
    simp only [System.step, Option.ite_none_left_eq_some, Option.some.injEq] at hs
    obtain ⟨-, rfl⟩ := hs
    exact hnone rfl
  | retry =>
    simp only [System.step, Option.ite_none_right_eq_some, Option.some.injEq] at hs
    obtain ⟨-, rfl⟩ := hs
    exact hnone rfl
  | wantPresence =>
    obtain rfl := Option.some.inj hs
    exact hnone rfl
  | closes =>
    simp only [System.step, Option.ite_none_right_eq_some, Option.some.injEq] at hs
    obtain ⟨-, rfl⟩ := hs
    exact hnone rfl
  | hangsUp =>
    obtain rfl := Option.some.inj hs
    exact hnone rfl
  | lose i =>
    simp only [System.step, Option.ite_none_right_eq_some, Option.some.injEq] at hs
    obtain ⟨-, rfl⟩ := hs
    exact hnone rfl

namespace Opened

/-- What the system has to keep to; a tab may be closed at any time. -/
def Steady (again : Prop) (e : OpenedEvent U) (s : Opened sh U) : Prop :=
  match e with
  | .link e => System.Steady again e s.system
  | _ => True

/-- The client stands where it says, and so do its rows. -/
structure Durable (opts : Options sh U) (epoch : String) (again : Prop) (s : Opened sh U) : Prop where
  current : s.system.Current opts epoch again
  rows : s.rows.Keeps s.system.host.store.commits s.system.client

namespace Durable

variable {s s' : Opened sh U}

/-- The client of a tab opened now: what was pending is, and the base is as it was. -/
structure Resumes (commits : List Commit) (rows : Rows) (c c' : Mirror sh) : Prop where
  outbox : c'.outbox = c.outbox
  seq : c'.seq = c.seq
  replica : c'.replica = c.replica
  synced : c'.synced = false
  known : ∀ a ∈ rows.about, c'.known = a.known
  epoch : c'.known.epoch = c.known.epoch
  later : c.known.epoch.isSome = true → c'.known.v ≤ c.known.v
  stood : c.known.epoch.isSome = true → StoodAt commits c'.known.v c'.base
  base : c.known.epoch.isSome = true → ∀ k, c'.base.records.get k = c.base.records.get k

theorem resumes (h : Durable opts epoch again s) :
    Resumes s.system.host.store.commits s.rows s.system.client (s.reopened true) := by
  have hops := h.rows.load
  cases habout : s.rows.about with
  | none =>
    obtain ⟨hseq, houtbox, hepoch⟩ := h.rows.fresh habout
    have hnew : s.reopened true = .create sh s.system.client.replica s.system.client.wantsClocks := by
      rw [Opened.reopened, Rows.load, habout]
      rfl
    have hnever : ∀ {P : Prop}, s.system.client.known.epoch.isSome = true → P := fun hsome => by
      rw [hepoch] at hsome
      cases hsome
    rw [hnew]
    exact ⟨houtbox.symm, hseq.symm, rfl, rfl, by simp [habout], hepoch.symm, hnever, hnever, hnever⟩
  | some a =>
    obtain ⟨hreplica, hseq, hepoch⟩ := h.rows.whose a habout
    have hkept : s.reopened true = { Mirror.create sh a.replica s.system.client.wantsClocks with
        seq := a.seq
        outbox := (s.rows.ops.entries.insertionSort fun a b => a.1 ≤ b.1).map Prod.snd
        base := Doc.load sh s.rows.records.entries
        known := a.known } := by
      rw [Opened.reopened, Rows.load, habout]
      exact if_neg fun hne => hne rfl
    have hsame : s.system.client.known.epoch.isSome = true → ∀ k,
        (Doc.load sh s.rows.records.entries).records.get k = s.system.client.base.records.get k := fun hsome =>
      get_reloaded (h.rows.stood a habout hsome).2 (h.rows.records hsome)
    rw [hkept]
    refine ⟨hops, hseq, hreplica, rfl, fun b hb => ?_, hepoch, fun hsome => (h.rows.stood a habout hsome).1,
      fun hsome => ?_, hsame⟩
    · rw [habout] at hb
      cases hb
      rfl
    · obtain ⟨pre, hpre, hversion, hequals⟩ := (h.rows.stood a habout hsome).2
      refine ⟨pre, hpre, hversion, fun key => (hequals key).trans ?_⟩
      exact Doc.Equals.of_shows (Doc.shows_iff.mpr fun k => by rw [Doc.get, Doc.get, hsame hsome k]) key

/-- A tab opened again, wherever the one before it was. -/
theorem reopens (h : Durable opts epoch again s) :
    Durable opts epoch again { s with system := { s.system.cut with client := s.reopened true } } := by
  have hback := h.resumes
  have hstands : (s.reopened true).Stands s.system.host.store.commits epoch := by
    refine ⟨fun e he => ?_, fun hs => ?_⟩
    · rw [hback.epoch] at he
      exact ⟨(h.current.stands.stood e he).1, hback.stood (Option.isSome_iff_exists.mpr ⟨e, he⟩)⟩
    · rw [hback.synced] at hs
      cases hs
  refine ⟨h.current.cuts hstands hback.synced s.system.acked, ?_⟩
  refine ⟨h.rows.toHolds.same hback.outbox hback.seq rfl, fun hnone => ?_, fun a ha => ?_, fun a ha hsome => ?_,
    fun hsome k => ?_⟩
  · obtain ⟨hseq, houtbox, hepoch⟩ := h.rows.fresh hnone
    exact ⟨hback.seq.trans hseq, hback.outbox.trans houtbox, hback.epoch.trans hepoch⟩
  · obtain ⟨hreplica, hseq, hepoch⟩ := h.rows.whose a ha
    exact ⟨hreplica.trans hback.replica.symm, hseq.trans hback.seq.symm, hepoch.trans hback.epoch.symm⟩
  · change a.known.v ≤ (s.reopened true).known.v ∧ StoodAt _ a.known.v (s.reopened true).base
    rw [← hback.known a ha]
    exact ⟨le_rfl, hback.stood (hback.epoch ▸ hsome)⟩
  · have hsome := hback.epoch ▸ hsome
    exact (h.rows.records hsome k).trans (hback.base hsome k).symm

/-- The tab does as it does. -/
theorem links (h : Durable opts epoch again s) (hn : 1 ≤ opts.deltaLog) {e : Event U}
    (hsteady : System.Steady again e s.system) (hs : s.step opts true (.link e) = some s') :
    Durable opts epoch again s' := by
  obtain ⟨system, hsystem, rfl⟩ := Option.map_eq_some_iff.mp hs
  have hcurrent := h.current.step hn hsteady hsystem
  obtain ⟨new, hcommits⟩ := h.current.goes_on hsystem
  refine ⟨hcurrent, ?_⟩
  have hstill : s.rows.Keeps system.host.store.commits s.system.client := hcommits ▸ h.rows.more new
  cases e with
  | edit changes now =>
    simp only [System.step, Option.ite_none_left_eq_some, Option.some.injEq] at hsystem
    obtain ⟨-, rfl⟩ := hsystem
    exact h.rows.edit h.current.stands changes now
  | deliver now =>
    simp only [System.step] at hsystem
    split at hsystem
    · cases hsystem
    · next msg down hdown =>
      obtain rfl := Option.some.inj hsystem
      obtain ⟨f, q, hbrings, -⟩ := h.current.way
      rw [hdown] at hbrings
      have hhears := Mirror.hears_of_brings h.current.known h.current.stands hbrings
      have hclient : (s.system.deliver now msg down).client = (s.system.client.handle msg now).1 := by
        unfold System.deliver
        dsimp only
        split_ifs <;> rfl
      have hstands := hcurrent.stands
      rw [hclient] at hstands
      dsimp only
      rw [hclient, hdown]
      exact hstill.hears hstands hhears
  | retry =>
    simp only [System.step, Option.ite_none_right_eq_some, Option.some.injEq] at hsystem
    obtain ⟨-, rfl⟩ := hsystem
    have hclient : (s.system.act s.system.client.retry).client = s.system.client.retry.1 := rfl
    rw [hclient]
    unfold Mirror.retry
    dsimp only
    split_ifs
    · exact hstill.same rfl rfl rfl rfl le_rfl rfl
    · exact hstill.same rfl rfl rfl rfl le_rfl rfl
  | wantPresence =>
    obtain rfl := Option.some.inj hsystem
    have hclient : (s.system.act s.system.client.wantPresence).client = s.system.client.wantPresence.1 := rfl
    rw [hclient]
    unfold Mirror.wantPresence
    split_ifs
    · exact hstill.same rfl rfl rfl rfl le_rfl rfl
    · exact hstill
  | opens user writes =>
    simp only [System.step, Option.ite_none_left_eq_some, Option.some.injEq] at hsystem
    obtain ⟨-, rfl⟩ := hsystem
    exact hstill.same rfl rfl rfl rfl le_rfl rfl
  | closes =>
    simp only [System.step, Option.ite_none_right_eq_some, Option.some.injEq] at hsystem
    obtain ⟨-, rfl⟩ := hsystem
    exact hstill.same rfl rfl rfl rfl le_rfl rfl
  | hangsUp =>
    obtain rfl := Option.some.inj hsystem
    exact hstill
  | receive others =>
    simp only [System.step] at hsystem
    split at hsystem
    · cases hsystem
    · next msg up hup =>
      obtain rfl := Option.some.inj hsystem
      have hclient : (s.system.receive opts others msg up).client = s.system.client := by
        unfold System.receive
        split <;> rfl
      dsimp only
      rw [hclient]
      exact hstill
  | lose i => exact hsteady.2.elim
  | host e =>
    simp only [System.step, Option.ite_none_right_eq_some, Option.map_eq_some_iff] at hsystem
    obtain ⟨-, host, -, rfl⟩ := hsystem
    exact hstill

theorem step (h : Durable opts epoch again s) (hn : 1 ≤ opts.deltaLog) {e : OpenedEvent U} (hsteady : Steady again e s)
    (hs : s.step opts true e = some s') : Durable opts epoch again s' := by
  cases e with
  | link e => exact h.links hn hsteady hs
  | reopen => exact Option.some.inj hs ▸ h.reopens
  | anew => exact Option.some.inj hs ▸ ⟨h.current, h.rows.rewrite h.current.stands⟩

end Durable

end Opened

end Opened

end LazyStorage.Client
