import LazyStorage.Client.LocalOutbox
import Mathlib.Data.Nat.Find

/-! # The outbox op by op is the outbox

An outbox is whose it is, how far it has counted, and what is pending under each seq.
What an adapter keeps, and a fresh one finds again from the oldest seq to the last, is
just that.
-/
namespace LazyStorage.Client.LocalOutbox
open Lib

variable {D : Type}

/-- An outbox as it is meant: the last replica id and seq given, and each op that is pending as last written. -/
structure Kept (D : Type) where
  about : Option Meta
  ops : ℕ → Option (Op D)

namespace Kept

def put (ops : ℕ → Option (Op D)) (op : Op D) : ℕ → Option (Op D) := Function.update ops op.seq (some op)

def after (k : Kept D) : Event D → Kept D
  | .opened .. | .renew _ | .release => k
  | .save outbox => ⟨some outbox.about, outbox.ops.foldl put fun _ => none⟩
  | .saveOp op about => ⟨some about, put k.ops op⟩
  | .removeOp seq about => ⟨some about, Function.update k.ops seq none⟩
  | .dropOps seq about => ⟨some about, fun s => if s ≤ seq then none else k.ops s⟩

/-- Each op's seq is at most the seq given. -/
def Bounded (k : Kept D) : Prop := ∀ about, k.about = some about → ∀ s, (k.ops s).isSome = true → s ≤ about.seq

/-- Whether what was loaded is this outbox, its ops by ascending seq. -/
def Loads (k : Kept D) : Option (Outbox D) → Prop
  | none => k.about = none
  | some outbox => k.about = some outbox.about ∧ outbox.ops.Pairwise (·.seq < ·.seq) ∧
      ∀ op, op ∈ outbox.ops ↔ k.ops op.seq = some op

end Kept

/-- The least of what is pending, none when nothing is. -/
def Least (first : Option ℕ) (P : ℕ → Prop) : Prop := ∀ f, first = some f ↔ P f ∧ ∀ s, P s → f ≤ s

/-- What a tab holds of an outbox, but for the document: the pending seqs, each op under its key, and the least. -/
structure Carries (ops : ℕ → Option (Op D)) (t : Tab D) : Prop where
  pending : ∀ s, s ∈ t.adapter.pending ↔ (ops s).isSome = true
  stored : ∀ s, t.shelf.ops.get s = ops s
  seqs : ∀ s op, ops s = some op → op.seq = s

theorem least_lowest {pending : List ℕ} {P : ℕ → Prop} (h : ∀ s, s ∈ pending ↔ P s) : Least (lowest pending) P := by
  intro f
  rw [lowest, List.min?_eq_some_iff, h]
  exact and_congr_right fun _ => ⟨fun hle s hs => hle s ((h s).mpr hs), fun hle s hs => hle s ((h s).mp hs)⟩

theorem Least.none_iff {P : ℕ → Prop} (h : Least none P) (s : ℕ) : ¬ P s := by
  classical
  intro hs
  have hex : ∃ s, P s := ⟨s, hs⟩
  exact nomatch (h (Nat.find hex)).mpr ⟨Nat.find_spec hex, fun s hs => Nat.find_min' hex hs⟩

theorem Least.insert {first : Option ℕ} {P Q : ℕ → Prop} (h : Least first P) {a : ℕ} (hQ : ∀ s, Q s ↔ s = a ∨ P s) :
    Least (if first.all (a < ·) then some a else first) Q := by
  intro f
  simp only [hQ, forall_eq_or_imp]
  cases first with
  | none =>
    have hnone := h.none_iff
    rw [Option.all_none, if_pos rfl, Option.some.injEq]
    constructor
    · rintro rfl
      exact ⟨.inl rfl, le_refl _, fun s hs => absurd hs (hnone s)⟩
    · rintro ⟨rfl | hf, -⟩
      · rfl
      · exact absurd hf (hnone f)
  | some g =>
    obtain ⟨hg, hleast⟩ := (h g).mp rfl
    rw [Option.all_some]
    by_cases ha : a < g
    · rw [if_pos (decide_eq_true ha), Option.some.injEq]
      constructor
      · rintro rfl
        exact ⟨.inl rfl, le_refl _, fun s hs => (Nat.le_of_lt ha).trans (hleast s hs)⟩
      · rintro ⟨rfl | hf, hfa, -⟩
        · rfl
        · have := hleast f hf
          omega
    · rw [if_neg fun h => ha (of_decide_eq_true h), Option.some.injEq]
      constructor
      · rintro rfl
        exact ⟨.inr hg, not_lt.mp ha, hleast⟩
      · rintro ⟨rfl | hf, hfa, hle⟩
        · exact Nat.le_antisymm (not_lt.mp ha) (hle g hg)
        · exact Nat.le_antisymm (hleast f hf) (hle g hg)

theorem Least.remove {first : Option ℕ} {P Q : ℕ → Prop} (h : Least first P) {a : ℕ} (hQ : ∀ s, Q s ↔ s ≠ a ∧ P s)
    (hne : P a → first ≠ some a) : Least first Q := by
  intro f
  rw [h f]
  constructor
  · rintro ⟨hf, hle⟩
    have hfa : f ≠ a := by
      rintro rfl
      exact hne hf ((h f).mpr ⟨hf, hle⟩)
    exact ⟨(hQ f).mpr ⟨hfa, hf⟩, fun s hs => hle s ((hQ s).mp hs).2⟩
  · rintro ⟨hf, hle⟩
    refine ⟨((hQ f).mp hf).2, fun s hs => ?_⟩
    by_cases hsa : s = a
    · subst hsa
      cases hfirst : first with
      | none =>
        subst hfirst
        exact absurd hs (h.none_iff s)
      | some g =>
        obtain ⟨hg, hleast⟩ := (h g).mp hfirst
        have hgs : g ≠ s := by
          rintro rfl
          exact hne hs hfirst
        exact (hle g ((hQ g).mpr ⟨hgs, hg⟩)).trans (hleast s hs)
    · exact hle s ((hQ s).mpr ⟨hsa, hs⟩)

variable {ops : ℕ → Option (Op D)} {t : Tab D} {k : Kept D}

theorem Carries.putOp (h : Carries ops t) (op : Op D) : Carries (Kept.put ops op) (putOp t op) := by
  refine ⟨fun s => ?_, fun s => ?_, fun s o ho => ?_⟩
  · rw [LocalOutbox.putOp, Kept.put, Function.update_apply]
    dsimp only
    by_cases hs : s = op.seq
    · rw [if_pos hs, hs]
      refine iff_of_true ?_ rfl
      split
      · assumption
      · exact List.mem_append_right _ (List.mem_singleton_self _)
    · rw [if_neg hs, ← h.pending]
      split
      · rfl
      · rw [List.mem_append, List.mem_singleton, or_iff_left hs]
  · rw [LocalOutbox.putOp, Kept.put, Function.update_apply, OrderedMap.get_set, h.stored]
    by_cases hs : s = op.seq
    · rw [if_pos hs, if_pos hs.symm]
    · rw [if_neg hs, if_neg (Ne.symm hs)]
  · rw [Kept.put, Function.update_apply] at ho
    split at ho
    · next hs => rw [← Option.some.inj ho, hs]
    · exact h.seqs s o ho

theorem put_isSome (ops : ℕ → Option (Op D)) (op : Op D) (s : ℕ) :
    (Kept.put ops op s).isSome = true ↔ s = op.seq ∨ (ops s).isSome = true := by
  rw [Kept.put, Function.update_apply]
  by_cases hs : s = op.seq <;> simp [hs]

theorem Carries.takeOp (h : Carries ops t) (settle : Bool) (seq : ℕ) :
    Carries (Function.update ops seq none) (takeOp settle t seq) := by
  refine ⟨fun s => ?_, fun s => ?_, fun s o ho => ?_⟩
  · rw [LocalOutbox.takeOp, Function.update_apply]
    dsimp only
    rw [List.mem_filter, h.pending, decide_eq_true_eq]
    by_cases hs : s = seq <;> simp [hs]
  · rw [LocalOutbox.takeOp, Function.update_apply, OrderedMap.get_erase, h.stored]
    by_cases hs : s = seq
    · rw [if_pos hs, if_pos hs.symm]
    · rw [if_neg hs, if_neg (Ne.symm hs)]
  · rw [Function.update_apply] at ho
    split at ho
    · exact nomatch ho
    · exact h.seqs s o ho

/-- An adapter that carries an outbox, with the least of what is pending. -/
structure Settled (ops : ℕ → Option (Op D)) (t : Tab D) : Prop extends Carries ops t where
  first : Least t.adapter.first fun s => (ops s).isSome = true

theorem Settled.putOp (h : Settled ops t) (op : Op D) : Settled (Kept.put ops op) (putOp t op) :=
  ⟨h.toCarries.putOp op, h.first.insert (put_isSome ops op)⟩

theorem Settled.putOps (h : Settled ops t) (l : List (Op D)) :
    Settled (l.foldl Kept.put ops) (l.foldl LocalOutbox.putOp t) := by
  induction l generalizing ops t with
  | nil => exact h
  | cons op l ih => exact ih (h.putOp op)

theorem update_isSome (ops : ℕ → Option (Op D)) (seq s : ℕ) :
    (Function.update ops seq none s).isSome = true ↔ s ≠ seq ∧ (ops s).isSome = true := by
  rw [Function.update_apply]
  by_cases hs : s = seq <;> simp [hs]

theorem Settled.takeOp (h : Settled ops t) (seq : ℕ) : Settled (Function.update ops seq none) (takeOp true t seq) := by
  have hcarries := h.toCarries.takeOp true seq
  refine ⟨hcarries, ?_⟩
  have hfirst : (LocalOutbox.takeOp true t seq).adapter.first =
      if seq ∈ t.adapter.pending ∧ t.adapter.first = some seq ∧ true then
        lowest (LocalOutbox.takeOp true t seq).adapter.pending else t.adapter.first := rfl
  rw [hfirst]
  split
  · exact least_lowest hcarries.pending
  · next hnot =>
    refine h.first.remove (update_isSome ops seq) fun hseq heq => hnot ⟨(h.pending seq).mpr hseq, heq, rfl⟩

/-- What is left when some are taken. -/
def without (ops : ℕ → Option (Op D)) (seqs : List ℕ) (s : ℕ) : Option (Op D) := if s ∈ seqs then none else ops s

theorem without_cons (ops : ℕ → Option (Op D)) (a : ℕ) (seqs : List ℕ) :
    without ops (a :: seqs) = without (Function.update ops a none) seqs := by
  funext s
  rw [without, without, Function.update_apply]
  by_cases hs : s ∈ seqs
  · rw [if_pos hs, if_pos (List.mem_cons_of_mem a hs)]
  · by_cases ha : s = a <;> simp [ha, hs]

theorem without_nil (ops : ℕ → Option (Op D)) : without ops [] = ops := by
  funext s
  exact if_neg List.not_mem_nil

theorem Carries.takeOps (h : Carries ops t) (settle : Bool) (seqs : List ℕ) :
    Carries (without ops seqs) (seqs.foldl (LocalOutbox.takeOp settle) t) := by
  induction seqs generalizing ops t with
  | nil => rwa [without_nil]
  | cons a seqs ih =>
    rw [without_cons]
    exact ih (h.takeOp settle a)

theorem Settled.takeOps (h : Settled ops t) (seqs : List ℕ) :
    Settled (without ops seqs) (seqs.foldl (LocalOutbox.takeOp true) t) := by
  induction seqs generalizing ops t with
  | nil => rwa [without_nil]
  | cons a seqs ih =>
    rw [without_cons]
    exact ih (h.takeOp a)

/-- What a shelf holds of an outbox: where its ops are, or nothing. -/
structure Held (k : Kept D) (t : Tab D) : Prop extends Settled k.ops t where
  yielded : t.adapter.yielded = false
  doc : t.shelf.doc = k.about.map fun about => .parts about t.adapter.first
  blank : k.about = none → ∀ s, k.ops s = none
  bounded : k.Bounded

theorem adapter_putOps (l : List (Op D)) (t : Tab D) : (l.foldl putOp t).adapter.yielded = t.adapter.yielded := by
  induction l generalizing t with
  | nil => rfl
  | cons op l ih => exact ih (putOp t op)

theorem adapter_takeOps (settle : Bool) (l : List ℕ) (t : Tab D) :
    (l.foldl (takeOp settle) t).adapter.yielded = t.adapter.yielded := by
  induction l generalizing t with
  | nil => rfl
  | cons s l ih => exact ih (takeOp settle t s)

theorem Settled.writeMeta (h : Settled ops t) (about : Meta) : Settled ops (writeMeta about t) :=
  ⟨⟨h.pending, h.stored, h.seqs⟩, h.first⟩

/-- A call that leaves what is pending settled, and writes the document last. -/
theorem Held.of_settled {about : Meta} (h : Settled ops t) (hy : t.adapter.yielded = false)
    (hbounded : Kept.Bounded ⟨some about, ops⟩) : Held ⟨some about, ops⟩ (writeMeta about t) :=
  ⟨h.writeMeta about, hy, rfl, nofun, hbounded⟩

theorem foldl_put (l : List (Op D)) (ops : ℕ → Option (Op D)) (s : ℕ) :
    l.foldl Kept.put ops s = ((l.foldl Kept.put fun _ => none) s).or (ops s) := by
  induction l using List.reverseRecOn with
  | nil => rfl
  | append_singleton l op ih =>
    rw [List.foldl_append, List.foldl_append]
    simp only [List.foldl_cons, List.foldl_nil, Kept.put, Function.update_apply]
    by_cases hs : s = op.seq
    · rw [if_pos hs, if_pos hs]
      rfl
    · rw [if_neg hs, if_neg hs, ih]

theorem foldl_put_isSome (l : List (Op D)) (s : ℕ) :
    ((l.foldl Kept.put fun _ => none) s).isSome = true ↔ s ∈ l.map Op.seq := by
  induction l using List.reverseRecOn with
  | nil => simp
  | append_singleton l op ih =>
    rw [List.foldl_append, List.foldl_cons, List.foldl_nil, put_isSome, ih, List.map_append, List.mem_append, or_comm]
    simp

/-- A whole outbox over what was pending: only it is. -/
theorem Held.save (h : Held k t) (outbox : Outbox D) (hbounded : (k.after (.save outbox)).Bounded) :
    Held (k.after (.save outbox)) (save outbox t) := by
  have hleft := (h.toSettled.takeOps (t.adapter.pending.filter (· ∉ outbox.ops.map Op.seq))).putOps outbox.ops
  have hops : outbox.ops.foldl Kept.put (without k.ops (t.adapter.pending.filter (· ∉ outbox.ops.map Op.seq))) =
      outbox.ops.foldl Kept.put fun _ => none := by
    funext s
    rw [foldl_put]
    cases hs : (outbox.ops.foldl Kept.put fun _ => none) s with
    | some op => rfl
    | none =>
      rw [Option.none_or, without]
      split
      · rfl
      · next hnot =>
        have hseq : s ∉ outbox.ops.map Op.seq := by
          rw [← foldl_put_isSome, hs]
          exact nofun
        cases hk : k.ops s with
        | none => rfl
        | some op =>
          exact absurd (List.mem_filter.mpr ⟨(h.pending s).mpr (by rw [hk]; rfl), decide_eq_true hseq⟩) hnot
  rw [hops] at hleft
  rw [LocalOutbox.save, if_neg (by rw [h.yielded]; exact nofun)]
  exact .of_settled hleft (by rw [adapter_putOps, adapter_takeOps, h.yielded]) hbounded

theorem Held.saveOp (h : Held k t) (op : Op D) (about : Meta) (hbounded : (k.after (.saveOp op about)).Bounded) :
    Held (k.after (.saveOp op about)) (saveOp op about t) := by
  rw [LocalOutbox.saveOp, if_neg (by rw [h.yielded]; exact nofun)]
  exact .of_settled (h.toSettled.putOp op) h.yielded hbounded

theorem Held.removeOp (h : Held k t) (seq : ℕ) (about : Meta) (hbounded : (k.after (.removeOp seq about)).Bounded) :
    Held (k.after (.removeOp seq about)) (removeOp seq about t) := by
  rw [LocalOutbox.removeOp, if_neg (by rw [h.yielded]; exact nofun)]
  exact .of_settled (h.toSettled.takeOp seq) h.yielded hbounded

theorem Held.dropOps (h : Held k t) (seq : ℕ) (about : Meta) (hbounded : (k.after (.dropOps seq about)).Bounded) :
    Held (k.after (.dropOps seq about)) (dropOps seq about t) := by
  have hleft := h.toCarries.takeOps false (t.adapter.pending.filter (· ≤ seq))
  have hops : without k.ops (t.adapter.pending.filter (· ≤ seq)) = (k.after (.dropOps seq about)).ops := by
    funext s
    change (if s ∈ _ then none else k.ops s) = if s ≤ seq then none else k.ops s
    simp only [List.mem_filter, h.pending, decide_eq_true_eq]
    cases hk : k.ops s with
    | none => simp
    | some op => simp
  rw [hops] at hleft
  rw [LocalOutbox.dropOps, if_neg (by rw [h.yielded]; exact nofun)]
  refine .of_settled ⟨⟨hleft.pending, hleft.stored, hleft.seqs⟩, least_lowest hleft.pending⟩ ?_ hbounded
  exact (adapter_takeOps false _ t).trans h.yielded

theorem claim_eq {now : ℕ} {t' : Tab D} (h : claim now t = some t') :
    t' = { t with shelf := { t.shelf with lease := some ⟨t.adapter.tab, now⟩ } } := by
  rw [claim] at h
  split at h
  · split at h
    · exact nomatch h
    · exact (Option.some.inj h).symm
  · exact (Option.some.inj h).symm

theorem Held.lease (h : Held k t) (lease : Option Lease) : Held k { t with shelf := { t.shelf with lease } } :=
  ⟨⟨⟨h.pending, h.stored, h.seqs⟩, h.first⟩, h.yielded, h.doc, h.blank, h.bounded⟩

theorem Held.release (h : Held k t) : Held k (release t) := by
  rw [LocalOutbox.release, if_neg (by rw [h.yielded]; exact nofun)]
  split
  · exact h.lease none
  · exact h

/-- Between the oldest and the last, what has an op key is what is pending. -/
theorem Held.mem_range (h : Held k t) {about : Meta} (habout : k.about = some about) {f : ℕ}
    (hf : t.adapter.first = some f) (s : ℕ) :
    s ∈ List.range' f (about.seq + 1 - f) ∧ (k.ops s).isSome = true ↔ (k.ops s).isSome = true := by
  refine and_iff_right_of_imp fun hs => ?_
  have hlow := ((h.first f).mp hf).2 s hs
  have hhigh := h.bounded about habout s hs
  rw [List.mem_range'_1]
  omega

/-- A fresh adapter that has the key finds the outbox again, and carries it on. -/
theorem Held.load (h : Held k t) {tab : String} {now : ℕ} (hclaim : (claim now (fresh tab t.shelf)).isSome = true) :
    k.Loads (load now (fresh tab t.shelf)).1 ∧ Held k (load now (fresh tab t.shelf)).2 := by
  obtain ⟨t', ht'⟩ := Option.isSome_iff_exists.mp hclaim
  have heq := claim_eq ht'
  have hempty : (∀ s, ¬ (k.ops s).isSome = true) → ∀ shelf : Shelf D, shelf.ops = t.shelf.ops →
      Settled k.ops ⟨shelf, tab, false, [], none⟩ := by
    intro hnone shelf hops
    refine ⟨⟨fun s => iff_of_false List.not_mem_nil (hnone s), fun s => hops ▸ h.stored s, h.seqs⟩, fun f => ?_⟩
    exact iff_of_false nofun fun hf => hnone f hf.1
  rw [LocalOutbox.load, ht', if_neg nofun, heq]
  dsimp only [fresh]
  rw [h.doc]
  cases habout : k.about with
  | none =>
    have hnone : ∀ s, ¬ (k.ops s).isSome = true := fun s => by rw [h.blank habout s]; exact nofun
    exact ⟨habout, hempty hnone _ rfl, rfl, by rw [habout]; rfl, h.blank, h.bounded⟩
  | some about =>
    dsimp only [Option.map_some]
    cases hf : t.adapter.first with
    | none =>
      have hnone : ∀ s, ¬ (k.ops s).isSome = true := (hf ▸ h.first).none_iff
      refine ⟨⟨habout, .nil, fun op => iff_of_false List.not_mem_nil fun hop => hnone op.seq (by rw [hop]; rfl)⟩,
        hempty hnone _ rfl, rfl, by rw [habout]; rfl, h.blank, h.bounded⟩
    | some f =>
      dsimp only
      have hrange := h.mem_range habout hf
      have hmem : ∀ s, s ∈ (List.range' f (about.seq + 1 - f)).filter (fun s => (t.shelf.ops.get s).isSome) ↔
          (k.ops s).isSome = true := by
        intro s
        rw [List.mem_filter, h.stored, hrange]
      have hlowest : lowest ((List.range' f (about.seq + 1 - f)).filter fun s => (t.shelf.ops.get s).isSome) = some f :=
        (least_lowest hmem f).mpr ((h.first f).mp hf)
      refine ⟨⟨habout, ?_, fun op => ?_⟩, ⟨⟨hmem, h.stored, h.seqs⟩, least_lowest hmem⟩, rfl, ?_, h.blank, h.bounded⟩
      · refine List.pairwise_filterMap.mpr (List.Pairwise.imp (fun {i j} hij op hop op' hop' => ?_)
          (List.pairwise_lt_range' 1 Nat.one_pos))
        rw [h.stored] at hop hop'
        rwa [h.seqs i op hop, h.seqs j op' hop']
      · rw [List.mem_filterMap]
        constructor
        · rintro ⟨s, -, hs⟩
          rw [h.stored] at hs
          rwa [h.seqs s op hs]
        · intro hop
          refine ⟨op.seq, ((hrange op.seq).mpr (by rw [hop]; rfl)).1, ?_⟩
          rw [h.stored, hop]
      · rw [habout, hlowest]
        rfl

/-- What is under a key before a first load: nothing, or an outbox an earlier version wrote as one document. -/
inductive Earlier : Shelf D → Kept D → Prop
  | nothing {shelf : Shelf D} (hops : shelf.ops = .empty) (hdoc : shelf.doc = none) : Earlier shelf ⟨none, fun _ => none⟩
  | whole {shelf : Shelf D} {about : Meta} {l : List (Op D)} (hops : shelf.ops = .empty)
    (hdoc : shelf.doc = some (.whole about l)) (hsorted : l.Pairwise (·.seq < ·.seq))
    (hseq : ∀ op ∈ l, op.seq ≤ about.seq) : Earlier shelf ⟨some about, l.foldl Kept.put fun _ => none⟩

theorem foldl_put_eq {l : List (Op D)} (h : l.Pairwise (·.seq < ·.seq)) (op : Op D) :
    op ∈ l ↔ (l.foldl Kept.put fun _ => none) op.seq = some op := by
  induction l using List.reverseRecOn with
  | nil => simp
  | append_singleton l o ih =>
    obtain ⟨hl, -, hlast⟩ := List.pairwise_append.mp h
    rw [List.foldl_append, List.foldl_cons, List.foldl_nil, Kept.put, Function.update_apply, List.mem_append,
      List.mem_singleton, ih hl]
    by_cases hs : op.seq = o.seq
    · rw [if_pos hs, Option.some.injEq]
      refine ⟨fun hop => hop.elim (fun hop => ?_) Eq.symm, fun heq => .inr heq.symm⟩
      have := hlast op ((ih hl).mpr hop) o (List.mem_singleton_self o)
      omega
    · rw [if_neg hs]
      exact or_iff_left fun heq => hs (congrArg Op.seq heq)

theorem Earlier.load {shelf : Shelf D} (h : Earlier shelf k) {tab : String} {now : ℕ}
    (hclaim : (claim now (fresh tab shelf)).isSome = true) :
    k.Loads (load now (fresh tab shelf)).1 ∧ Held k (load now (fresh tab shelf)).2 := by
  obtain ⟨t', ht'⟩ := Option.isSome_iff_exists.mp hclaim
  have heq := claim_eq ht'
  have hempty : ∀ s : Shelf D, s.ops = .empty → Settled (fun _ => none) ⟨s, tab, false, [], none⟩ := by
    intro s hops
    exact ⟨⟨fun s => iff_of_false List.not_mem_nil nofun, fun s => by rw [hops]; rfl, nofun⟩,
      fun f => iff_of_false nofun fun hf => nomatch hf.1⟩
  rw [LocalOutbox.load, ht', if_neg nofun, heq]
  cases h with
  | nothing hops hdoc =>
    dsimp only [fresh]
    rw [hdoc]
    exact ⟨rfl, hempty _ hops, rfl, rfl, fun _ _ => rfl, nofun⟩
  | whole hops hdoc hsorted hseq =>
    dsimp only [fresh]
    rw [hdoc]
    have hsettled := fun s hs => (hempty s hs).putOps
    refine ⟨⟨rfl, hsorted, foldl_put_eq hsorted⟩, .of_settled (hsettled _ ?_ _) (adapter_putOps _ _) ?_⟩
    · exact hops
    · intro about habout s hs
      obtain rfl := Option.some.inj habout
      obtain ⟨op, hop, rfl⟩ := List.mem_map.mp ((foldl_put_isSome _ s).mp hs)
      exact hseq op hop

/-- Whether the adapter has the key for what it does, and each op's seq is at most the seq given with it. -/
def Proper (e : Event D) (s : Kept D × Tab D) : Prop :=
  match e with
  | .opened tab now => (claim now (fresh tab s.2.shelf)).isSome = true
  | .renew now => (claim now s.2).isSome = true
  | .release => True
  | .save _ | .saveOp .. | .removeOp .. | .dropOps .. => (s.1.after e).Bounded

/-- A tab and the outbox it is to keep. -/
def run (e : Event D) (s : Kept D × Tab D) : Option (Kept D × Tab D) := some (s.1.after e, step e s.2)

theorem Held.step (h : Held k t) {e : Event D} (hproper : Proper e (k, t)) : Held (k.after e) (step e t) := by
  cases e with
  | opened tab now => exact (h.load hproper).2
  | renew now =>
    obtain ⟨t', ht'⟩ := Option.isSome_iff_exists.mp hproper
    rw [LocalOutbox.step, ht', claim_eq ht']
    exact h.lease _
  | release => exact h.release
  | save outbox => exact h.save outbox hproper
  | saveOp op about => exact h.saveOp op about hproper
  | removeOp seq about => exact h.removeOp seq about hproper
  | dropOps seq about => exact h.dropOps seq about hproper

/-- Whenever a fresh adapter loads the key, at first or after any calls, it reads the last replica id and seq given
and what is pending by then, each op as last written, by ascending seq. -/
theorem outbox_kept {start : Shelf D} {k₀ : Kept D} (hstart : Earlier start k₀) {tab : String} {now : ℕ}
    (hclaim : (claim now (fresh tab start)).isSome = true) :
    k₀.Loads (load now (fresh tab start)).1 ∧
      ∀ s, Reaches run Proper (k₀, (load now (fresh tab start)).2) s → ∀ tab' now',
        (claim now' (fresh tab' s.2.shelf)).isSome = true → s.1.Loads (load now' (fresh tab' s.2.shelf)).1 := by
  obtain ⟨hloads, hheld⟩ := hstart.load hclaim
  refine ⟨hloads, fun s hs tab' now' hclaim' => ?_⟩
  have hkeeps : Held s.1 s.2 := by
    refine hs.invariant (P := fun s => Held s.1 s.2) hheld ?_
    rintro e ⟨k, t⟩ s' h hproper hrun
    obtain rfl := Option.some.inj hrun
    exact h.step hproper
  exact (hkeeps.load hclaim').1

/-- An op saved after an earlier version's outbox is taken over, by an adapter that then lets go of the key. -/
theorem outbox_kept_over :
    let shelf : Shelf String := ⟨some (.whole ⟨"r", 2⟩ [⟨1, "x"⟩]), .empty, none⟩
    let t := step .release (step (.saveOp ⟨3, "y"⟩ ⟨"r", 4⟩) (load 1 (fresh "a" shelf)).2)
    Kept.Loads ⟨some ⟨"r", 4⟩, Kept.put ([⟨1, "x"⟩].foldl Kept.put fun _ => none) ⟨3, "y"⟩⟩
      (load 2 (fresh "b" t.shelf)).1 := by
  have hproper : Kept.Bounded ⟨some ⟨"r", 4⟩, Kept.put ([⟨1, "x"⟩].foldl Kept.put fun _ => none) ⟨3, "y"⟩⟩ := by
    rintro about habout s hs
    obtain rfl := Option.some.inj habout
    rw [put_isSome, foldl_put_isSome] at hs
    rcases hs with rfl | hs
    · decide
    · obtain rfl := List.mem_singleton.mp hs
      decide
  have hstart : Earlier (⟨some (.whole ⟨"r", 2⟩ [⟨1, "x"⟩]), .empty, none⟩ : Shelf String)
      ⟨some ⟨"r", 2⟩, [⟨1, "x"⟩].foldl Kept.put fun _ => none⟩ :=
    .whole rfl rfl (List.pairwise_singleton ..) (by simp)
  have hclaim : (claim 1 (fresh "a" (⟨some (.whole ⟨"r", 2⟩ [⟨1, "x"⟩]), .empty, none⟩ : Shelf String))).isSome = true := rfl
  exact (outbox_kept hstart hclaim).2 _
    ((Reaches.start.next (.saveOp ⟨3, "y"⟩ ⟨"r", 4⟩) hproper rfl).next .release trivial rfl) "b" 2 rfl

end LazyStorage.Client.LocalOutbox
