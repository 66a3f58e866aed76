import Mathlib.Data.List.Infix

/-! # Writes over a tree, made again

A tree is what stands at each place, a place being the segments that lead to it.
A write replaces all that is at a place and beneath; a node is made where none
is. Writes made again in order, over what they left, leave it as it is, where
each found nodes all the way to its place.
-/
namespace LazyStorage.Lib

variable {K σ : Type}

/-- What stands at a place: nothing, a node, or anything else. -/
inductive Spot (σ : Type)
  | nothing
  | node
  | leaf (s : σ)

namespace Spot

def isNode : Spot σ → Bool
  | node => true
  | _ => false

@[simp] theorem isNode_iff {s : Spot σ} : s.isNode = true ↔ s = .node := by cases s <;> simp [isNode]

end Spot

abbrev Spots (K σ : Type) := List K → Spot σ

namespace Spots

variable {q r : List K} {t what : Spots K σ}

/-- Nodes all the way to a place, and at it. -/
def Solid (t : Spots K σ) (q : List K) : Prop := ∀ q', q' <+: q → t q' = .node

/-- Nodes all the way to a place. -/
def Leads (t : Spots K σ) (q : List K) : Prop := ∀ q', q' <+: q → q' ≠ q → t q' = .node

theorem Solid.leads (h : t.Solid q) : t.Leads q := fun q' hq _ => h q' hq

theorem Solid.at_prefix (h : t.Solid q) (hr : r <+: q) : t.Solid r := fun q' hq => h q' (hq.trans hr)

theorem Leads.solid (h : t.Leads q) (hq : t q = .node) : t.Solid q := by
  intro q' hq'
  by_cases heq : q' = q
  · exact heq ▸ hq
  · exact h q' hq' heq

variable [DecidableEq K]

/-- A node with nothing beneath. -/
def bare : Spots K σ := fun r => if r = [] then .node else .nothing

/-- All at and beneath a place replaced. -/
def write (t : Spots K σ) (q : List K) (what : Spots K σ) : Spots K σ :=
  fun r => if q <+: r then what (r.drop q.length) else t r

/-- What stands at a place and beneath. -/
def under (t : Spots K σ) (q : List K) : Spots K σ := fun r => t (q ++ r)

/-- A node made at a place, where none is. -/
def make (q : List K) (t : Spots K σ) : Spots K σ := if (t q).isNode then t else t.write q bare

/-- Where a place has no node, nodes made all the way to it. -/
def way (q : List K) (t : Spots K σ) : Spots K σ :=
  if (t q).isNode then t else q.inits.foldl (fun t q => t.make q) t

theorem write_at (h : q <+: r) : t.write q what r = what (r.drop q.length) := if_pos h

theorem write_off (h : ¬ q <+: r) : t.write q what r = t r := if_neg h

theorem write_under (t what : Spots K σ) (q : List K) : (t.write q what).under q = what := by
  funext r
  rw [under, write_at (List.prefix_append q r), List.drop_left]

theorem write_cons (t what : Spots K σ) (k : K) (q r : List K) :
    t.write (k :: q) what (k :: r) = write (fun r => t (k :: r)) q what r := by
  simp [write]

/-- What differs at a place and beneath alone is written over there. -/
theorem eq_write {s : Spots K σ} (hoff : ∀ r, ¬ q <+: r → s r = t r) (hunder : s.under q = what) :
    s = t.write q what := by
  funext r
  by_cases hr : q <+: r
  · obtain ⟨r, rfl⟩ := hr
    rw [write_at (List.prefix_append q r), List.drop_left, ← hunder, under]
  · rw [write_off hr, hoff r hr]

theorem make_of_node (h : t q = .node) : t.make q = t := if_pos (Spot.isNode_iff.mpr h)

theorem make_of_not_node (h : t q ≠ .node) : t.make q = t.write q bare := by
  rw [make, if_neg (by simpa using h)]

theorem way_of_node (h : t q = .node) : t.way q = t := if_pos (Spot.isNode_iff.mpr h)

/-- A write that is not above a place keeps the way to it. -/
theorem Solid.write (h : t.Solid r) (hq : ¬ q <+: r) : (t.write q what).Solid r := by
  intro q' hq'
  rw [write_off fun hle => hq (hle.trans hq')]
  exact h q' hq'

theorem Solid.make (h : t.Solid r) (q : List K) : (t.make q).Solid r := by
  by_cases hq : t q = .node
  · rwa [make_of_node hq]
  · rw [make_of_not_node hq]
    exact h.write fun hle => hq (h q hle)

theorem Solid.way (h : t.Solid r) (q : List K) : (t.way q).Solid r := by
  unfold Spots.way
  split_ifs
  · exact h
  · exact List.foldlRecOn _ _ (motive := fun t : Spots K σ => t.Solid r) h fun t ht q _ => ht.make q

theorem Leads.make_solid (h : t.Leads q) : (t.make q).Solid q := by
  by_cases hq : t q = .node
  · rw [make_of_node hq]
    exact h.solid hq
  · rw [make_of_not_node hq]
    refine Leads.solid (fun p hp hne => ?_) (by rw [write_at List.prefix_rfl]; simp [bare])
    rw [write_off fun hle => hne (hp.eq_of_length_le hle.length_le)]
    exact h p hp hne

theorem way_at (q : List K) (t : Spots K σ) : t.way q q = .node := by
  have hmade : ∀ q : List K, (q.inits.foldl (fun t q => t.make q) t).Solid q := by
    intro q
    induction q using List.reverseRecOn with
    | nil => exact Leads.make_solid fun p hp hne => absurd (List.prefix_nil.mp hp) hne
    | append_singleton q k ih =>
      rw [List.inits_append, List.foldl_append]
      refine Leads.make_solid fun p hp hne => ?_
      exact ih p ((List.prefix_concat_iff.mp hp).resolve_left hne)
  unfold Spots.way
  split_ifs with h
  · exact Spot.isNode_iff.mp h
  · exact hmade q q List.prefix_rfl

theorem foldl_make_cons (k : K) (qs : List (List K)) (t : Spots K σ) (r : List K) :
    (qs.map (k :: ·)).foldl (fun t q => t.make q) t (k :: r) =
      qs.foldl (fun t q => make q t) (fun r => t (k :: r)) r := by
  induction qs generalizing t with
  | nil => rfl
  | cons q qs ih =>
    have hmade : (fun r => t.make (k :: q) (k :: r)) = make q (fun r => t (k :: r)) := by
      funext r
      unfold make
      split_ifs
      · rfl
      · simp [write]
    rw [List.map_cons, List.foldl_cons, List.foldl_cons, ih, hmade]

theorem foldl_make_off {k : K} (hr : ¬ [k] <+: r) (qs : List (List K)) (t : Spots K σ) :
    (qs.map (k :: ·)).foldl (fun t q => t.make q) t r = t r := by
  induction qs generalizing t with
  | nil => rfl
  | cons q qs ih =>
    rw [List.map_cons, List.foldl_cons, ih]
    unfold make
    split_ifs
    · rfl
    · exact write_off fun hle => hr (List.IsPrefix.trans (by simp) hle)

/-- What stands beneath a child of a node; nothing, where there is no node. -/
def beneath (t : Spots K σ) (k : K) : Spots K σ :=
  fun r => if (t []).isNode then t (k :: r) else .nothing

/-- What stands at a place and beneath that nodes lead to. -/
def within (t : Spots K σ) : List K → Spots K σ
  | [] => t
  | k :: p => (t.beneath k).within p

/-- Nodes all the way to a place, and at it, made where none is. -/
def paved : List K → Spots K σ → Spots K σ
  | [], t, r => t.make [] r
  | _ :: _, _, [] => .node
  | k :: p, t, k' :: r => if k = k' then paved p (t.beneath k) r else t.beneath k' r

omit [DecidableEq K] in
theorem beneath_of_node (h : t [] = .node) (k : K) : t.beneath k = fun r => t (k :: r) := by
  funext r
  rw [beneath, if_pos (Spot.isNode_iff.mpr h)]

omit [DecidableEq K] in
theorem beneath_of_not_node (h : t [] ≠ .node) (k : K) : t.beneath k = fun _ => .nothing := by
  funext r
  rw [beneath, if_neg (by simpa using h)]

theorem make_root_nil (t : Spots K σ) : t.make [] [] = .node := by
  by_cases h : t [] = .node
  · rwa [make_of_node h]
  · rw [make_of_not_node h, write_at List.prefix_rfl]
    rfl

theorem make_root_cons (t : Spots K σ) (k : K) (r : List K) : t.make [] (k :: r) = t.beneath k r := by
  by_cases h : t [] = .node
  · rw [make_of_node h, beneath_of_node h]
  · rw [make_of_not_node h, write_at List.nil_prefix, beneath_of_not_node h]
    rfl

theorem foldl_make_inits (q : List K) (t : Spots K σ) :
    q.inits.foldl (fun t q => t.make q) t = paved q t := by
  induction q generalizing t with
  | nil => rfl
  | cons k q ih =>
    rw [List.inits_cons, List.foldl_cons]
    funext r
    cases r with
    | nil => rw [foldl_make_off (by simp), make_root_nil, paved]
    | cons k' r =>
      by_cases hk : k = k'
      · subst hk
        rw [foldl_make_cons, ih, paved, if_pos rfl]
        exact congrArg (paved q · r) (funext (make_root_cons t k))
      · rw [foldl_make_off (by simpa using hk), make_root_cons, paved, if_neg hk]

theorem Solid.paved (h : t.Solid q) : t.paved q = t := by
  rw [← foldl_make_inits]
  refine List.foldlRecOn _ _ (motive := fun t' : Spots K σ => t' = t) rfl fun t' ht' p hp => ?_
  rw [ht']
  exact make_of_node (h p ((List.mem_inits _ _).mp hp))

/-- Where a node is led to by nodes, the way is paved. -/
theorem way_eq_paved (h : t q = .node → t.Solid q) : t.way q = t.paved q := by
  unfold way
  split_ifs with hq
  · exact (h (Spot.isNode_iff.mp hq)).paved.symm
  · exact foldl_make_inits q t

end Spots

/-- A write, a node made, or the way made to a place. -/
inductive Overwrite (K σ : Type)
  | write (q : List K) (what : Spots K σ)
  | make (q : List K)
  | way (q : List K)

namespace Overwrite

/-- Whether a place is written over. -/
def Doomed (as : List (Overwrite K σ)) (r : List K) : Prop := ∃ q what, .write q what ∈ as ∧ q <+: r

variable {a : Overwrite K σ} {as bs : List (Overwrite K σ)} {q r : List K} {f s x t : Spots K σ}

theorem Doomed.beneath (h : Doomed as q) (hr : q <+: r) : Doomed as r := by
  obtain ⟨p, what, hmem, hp⟩ := h
  exact ⟨p, what, hmem, hp.trans hr⟩

theorem Doomed.of_cons (h : Doomed (a :: as) r) :
    (∃ q what, a = .write q what ∧ q <+: r) ∨ Doomed as r := by
  obtain ⟨q, what, hmem, hq⟩ := h
  rcases List.mem_cons.mp hmem with rfl | hmem
  · exact .inl ⟨q, what, rfl, hq⟩
  · exact .inr ⟨q, what, hmem, hq⟩

theorem Doomed.cons (h : Doomed as r) : Doomed (a :: as) r := by
  obtain ⟨q, what, hmem, hq⟩ := h
  exact ⟨q, what, List.mem_cons_of_mem _ hmem, hq⟩

variable [DecidableEq K]

def run : Overwrite K σ → Spots K σ → Spots K σ
  | write q what, t => t.write q what
  | make q, t => t.make q
  | way q, t => t.way q

def runAll (as : List (Overwrite K σ)) (t : Spots K σ) : Spots K σ := as.foldl (fun t a => a.run t) t

/-- Nodes all the way: a way that has nothing to make, a place whose way is there. -/
def Finds (t : Spots K σ) : Overwrite K σ → Prop
  | write q _ => t.Leads q
  | make q => t.Leads q
  | way q => t.Solid q

/-- Each finds nodes all the way when its turn comes. -/
def FindAll : List (Overwrite K σ) → Spots K σ → Prop
  | [], _ => True
  | a :: as, t => a.Finds t ∧ FindAll as (a.run t)

theorem runAll_append : runAll (as ++ bs) t = runAll bs (runAll as t) := List.foldl_append

theorem findAll_append : FindAll (as ++ bs) t ↔ FindAll as t ∧ FindAll bs (runAll as t) := by
  induction as generalizing t with
  | nil => simp [FindAll, runAll]
  | cons a as ih =>
    rw [List.cons_append, FindAll, FindAll, ih, and_assoc]
    rfl

/-- The way to a place that is not written over stays. -/
theorem solid_runAll (h : t.Solid r) (hr : ¬ Doomed as r) : (runAll as t).Solid r := by
  induction as generalizing t with
  | nil => exact h
  | cons a as ih =>
    refine ih ?_ fun hdoomed => hr hdoomed.cons
    cases a with
    | write q what => exact h.write fun hq => hr ⟨q, what, by simp, hq⟩
    | make q => exact h.make q
    | way q => exact h.way q

/-- Of a tree over which what made `f` of another, `s`, is made again: each place is still to be
written over, is as it is to be, or is as it is in `s`, along with all on the way that is no node. -/
def Mends (as : List (Overwrite K σ)) (f s x : Spots K σ) : Prop :=
  ∀ r, Doomed as r ∨ x r = f r ∨ ∀ q, q <+: r → q = r ∨ s q ≠ .node → x q = s q

namespace Mends

theorem write {what : Spots K σ} (h : Mends (.write q what :: as) f s x) (hq : s.Leads q) :
    Mends as f (s.write q what) (x.write q what) := by
  intro r
  by_cases hr : q <+: r
  · refine .inr (.inr fun p hp hno => ?_)
    by_cases hqp : q <+: p
    · rw [Spots.write_at hqp, Spots.write_at hqp]
    · -- above the place: a node in `s`, and not the place itself
      have hpq : p <+: q := (List.prefix_or_prefix_of_prefix hp hr).resolve_right hqp
      have hnode := hq p hpq fun heq => hqp (heq ▸ List.prefix_rfl)
      rw [Spots.write_off hqp] at hno
      rcases hno with rfl | hno
      · exact absurd hr hqp
      · exact absurd hnode hno
  · rcases h r with hdoomed | hdone | hsame
    · rcases hdoomed.of_cons with ⟨p, what', heq, hp⟩ | hdoomed
      · cases heq
        exact absurd hp hr
      · exact .inl hdoomed
    · exact .inr (.inl ((Spots.write_off hr).trans hdone))
    · refine .inr (.inr fun p hp hno => ?_)
      have hqp : ¬ q <+: p := fun hle => hr (hle.trans hp)
      rw [Spots.write_off hqp] at hno ⊢
      rw [Spots.write_off hqp]
      exact hsame p hp hno

/-- A node that `s` has and `x` lacks is beneath what is still to be written over. -/
theorem doomed_of_node (h : Mends as (runAll as s) s x) (hs : s.Solid q) (hx : x q ≠ .node) :
    Doomed as q := by
  by_contra hno
  rcases h q with hdoomed | hdone | hsame
  · exact hno hdoomed
  · exact hx (hdone.trans (solid_runAll hs hno q List.prefix_rfl))
  · exact hx ((hsame q List.prefix_rfl (.inl rfl)).trans (hs q List.prefix_rfl))

theorem make (h : Mends as f s x) (hf : f = runAll as (s.make q)) (hq : s.Leads q) :
    Mends as f (s.make q) (x.make q) := by
  by_cases hs : s q = .node <;> by_cases hx : x q = .node
  · rwa [Spots.make_of_node hs, Spots.make_of_node hx]
  · rw [Spots.make_of_node hs] at hf ⊢
    subst hf
    rw [Spots.make_of_not_node hx]
    intro r
    by_cases hr : q <+: r
    · exact .inl ((h.doomed_of_node (hq.solid hs) hx).beneath hr)
    · refine (h r).imp id (Or.imp (Spots.write_off hr).trans fun hsame p hp hno => ?_)
      exact (Spots.write_off fun hle => hr (hle.trans hp)).trans (hsame p hp hno)
  · rw [Spots.make_of_node hx, Spots.make_of_not_node hs]
    intro r
    by_cases hr : q <+: r
    · by_cases heq : r = q
      · subst heq
        refine .inr (.inr fun p hp hno => ?_)
        by_cases hpr : p = r
        · rw [hpr, hx, Spots.write_at List.prefix_rfl]
          simp [Spots.bare]
        · have hoff : ¬ r <+: p := fun hle => hpr (hp.eq_of_length_le hle.length_le)
          rw [Spots.write_off hoff] at hno
          exact absurd (hq p hp hpr) (hno.resolve_left hpr)
      · rcases h r with hdoomed | hdone | hsame
        · exact .inl hdoomed
        · exact .inr (.inl hdone)
        · exact absurd ((hsame q hr (.inr hs)).symm.trans hx) hs
    · refine (h r).imp id (Or.imp id fun hsame p hp hno => ?_)
      have hoff : ¬ q <+: p := fun hle => hr (hle.trans hp)
      rw [Spots.write_off hoff] at hno ⊢
      exact hsame p hp hno
  · rw [Spots.make_of_not_node hs, Spots.make_of_not_node hx]
    exact Mends.write (fun r => (h r).imp Doomed.cons id) hq

theorem way (h : Mends as f s x) (hf : f = runAll as s) (hq : s.Solid q) :
    Mends as f s (x.way q) := by
  unfold Spots.way
  split_ifs
  · exact h
  · refine List.foldlRecOn _ _ (motive := fun x : Spots K σ => Mends as f s x) h fun x hx p hp => ?_
    have hsolid := hq.at_prefix ((List.mem_inits _ _).mp hp)
    have hnode : s.make p = s := Spots.make_of_node (hsolid p List.prefix_rfl)
    have hmade := hx.make (q := p) (by rw [hnode, hf]) hsolid.leads
    rwa [hnode] at hmade

theorem runAll_eq (h : Mends as (runAll as s) s x) (hfind : FindAll as s) :
    runAll as x = runAll as s := by
  induction as generalizing s x with
  | nil =>
    funext r
    rcases h r with hdoomed | hdone | hsame
    · obtain ⟨q, what, hmem, -⟩ := hdoomed
      simp at hmem
    · exact hdone
    · exact hsame r List.prefix_rfl (.inl rfl)
  | cons a as ih =>
    have hshow : ∀ t : Spots K σ, runAll (a :: as) t = runAll as (a.run t) := fun _ => rfl
    rw [hshow, hshow] at *
    refine ih ?_ hfind.2
    cases a with
    | write q what => exact h.write hfind.1
    | make q =>
      refine Mends.make (fun r => (h r).imp (fun hd => ?_) id) rfl hfind.1
      exact hd.of_cons.resolve_left fun ⟨_, _, heq, _⟩ => nomatch heq
    | way q =>
      have hnode : s.way q = s := Spots.way_of_node (hfind.1 q List.prefix_rfl)
      simp only [run, hnode] at h ⊢
      refine Mends.way (fun r => (h r).imp (fun hd => ?_) id) rfl hfind.1
      exact hd.of_cons.resolve_left fun ⟨_, _, heq, _⟩ => nomatch heq

end Mends

/-- Made again over what they left, the same writes leave it as it is. -/
theorem runAll_again (h : FindAll as s) : runAll as (runAll as s) = runAll as s :=
  Mends.runAll_eq (fun _ => .inr (.inl rfl)) h

end Overwrite

end LazyStorage.Lib
