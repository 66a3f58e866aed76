import LazyStorage.Core.Diff

/-! # A diff does what its changes do

A trusted change leaves of its record what its own diff leaves, so long as no null
in it is stored for want of anything to erase, and its way leads through no array.
One after the other, the changes leave what the one diff does.
-/
namespace LazyStorage.Core

open Lib

variable {sh : Shape} {key : RecordKey} {ts : ℕ} {path : Path} {t : Spots String Leaf}
  {fs : List (String × Value)}

mutual

/-- Whether each null in a value finds an object to erase from, all the way from where it is put. -/
def erases (sh : Shape) (key : RecordKey) : Value → Path → Spots String Leaf → Bool
  | .obj fs, path, t => sh.isRegister key path || erasesFields sh key fs path t
  | _, _, _ => true

def erasesFields (sh : Shape) (key : RecordKey) :
    List (String × Value) → Path → Spots String Leaf → Bool
  | [], _, _ => true
  | (k, v) :: fs, path, t =>
    (v ≠ .null || (t []).isNode) && erases sh key v (path ++ [k]) (t.beneath k) &&
      erasesFields sh key fs path t

end

theorem erasesFields_iff : erasesFields sh key fs path t = true ↔ ∀ e ∈ fs,
    (e.2 ≠ .null ∨ t [] = .node) ∧ erases sh key e.2 (path ++ [e.1]) (t.beneath e.1) = true := by
  induction fs with
  | nil => simp [erasesFields]
  | cons e fs ih => simp [erasesFields, ih, and_assoc]

theorem erases_obj (hreg : sh.isRegister key path = false) : erases sh key (.obj fs) path t = true ↔
    ∀ e ∈ fs, (e.2 ≠ .null ∨ t [] = .node) ∧
      erases sh key e.2 (path ++ [e.1]) (t.beneath e.1) = true := by
  rw [erases, hreg, Bool.false_or, erasesFields_iff]

/-- Put where no object is, a value with nothing to erase stands there as it is. -/
theorem overlaid_fresh (v : Value) : ∀ {path : Path} {t : Spots String Leaf}, v ≠ .null → t [] ≠ .node →
    erases sh key v path t = true → overlaid sh key (some v) path t = Value.spots (some v) := by
  induction v using Value.merging_induction with
  | leaf v hv => exact fun hnull _ _ => overlaid_whole hnull (by simp [hv])
  | fields fs ih =>
    intro path t _ ht h
    by_cases hreg : sh.isRegister key path = true
    · exact overlaid_whole (by simp) fun _ => hreg
    have hreg := Bool.eq_false_iff.mpr hreg
    rw [erases_obj hreg] at h
    funext r
    cases r with
    | nil => rfl
    | cons k r =>
      rw [overlaid_obj_cons hreg, Value.spots_obj_cons]
      cases hget : Assoc.get fs k with
      | none =>
        rw [overlaid_none, Spots.beneath_of_not_node ht]
        rfl
      | some v =>
        have hmem := Assoc.mem_of_get hget
        obtain ⟨hnull, hin⟩ := h (k, v) hmem
        rw [ih (k, v) hmem (hnull.resolve_right ht) ?_ hin]
        rw [Spots.beneath_of_not_node ht]
        simp

/-- The first of a value's fields put where an object is, and then the others. -/
theorem overlaid_fields {k : String} {v : Value} (hreg : sh.isRegister key path = false)
    (hk : Assoc.get fs k = none) (ht : t path = .node) {t₁ : Spots String Leaf}
    (ht₁ : t₁ = t.write (path ++ [k]) (overlaid sh key (some v) (path ++ [k]) (t.under (path ++ [k])))) :
    t₁.write path (overlaid sh key (some (.obj fs)) path (t₁.under path)) =
      t.write path (overlaid sh key (some (.obj ((k, v) :: fs))) path (t.under path)) := by
  have hoff : ∀ r, ¬ path ++ [k] <+: r → t₁ r = t r := fun r hr => by rw [ht₁, Spots.write_off hr]
  have hself : ¬ path ++ [k] <+: path := fun hle => by
    have hlen := hle.length_le
    simp only [List.length_append, List.length_singleton] at hlen
    omega
  refine Spots.eq_write (fun r hr => ?_) ?_
  · rw [Spots.write_off hr, hoff r fun hle => hr ((List.prefix_append _ _).trans hle)]
  rw [Spots.write_under]
  have hnode : ∀ k' r, (t.under path).beneath k' r = t (path ++ k' :: r) := fun k' r => by
    rw [Spots.beneath_of_node (by simpa [Spots.under] using ht)]
    rfl
  have hnode₁ : ∀ k' r, (t₁.under path).beneath k' r = t₁ (path ++ k' :: r) := fun k' r => by
    have hp : t₁ path = .node := (hoff path hself).trans ht
    rw [Spots.beneath_of_node (by simpa [Spots.under] using hp)]
    rfl
  funext r
  cases r with
  | nil => rfl
  | cons k' r =>
    rw [overlaid_obj_cons hreg, overlaid_obj_cons hreg, Assoc.get_cons]
    split_ifs with heq
    · subst heq
      have hbeneath : (t.under path).beneath k = t.under (path ++ [k]) := by
        funext r
        rw [hnode, Spots.under, List.append_assoc]
        rfl
      have hfirst := congrArg (Spots.under · (path ++ [k])) ht₁
      simp only [Spots.write_under] at hfirst
      rw [hk, overlaid_none, hnode₁, hbeneath, ← hfirst, Spots.under, List.append_assoc]
      rfl
    · have hbeneath : (t₁.under path).beneath k' = (t.under path).beneath k' := by
        funext r
        rw [hnode, hnode₁]
        exact hoff _ (by simpa using heq)
      rw [hbeneath]

/-- What a trusted change leaves of its record, its way made: at its path what its value does to what
stood there. -/
theorem run_over (value : Value) : ∀ (kind : Kind) (path : Path) (d : Doc sh),
    fixedParent sh key path = false → distinct value = true → (kind = .del ↔ value = .null) →
    ∀ t, Overwrite.runAll (waysTo path) (d.spots key) = t →
      erases sh key value path (t.under path) = true →
      (run ts .trust key value kind path d).doc.spots key =
        t.write path (overlaid sh key (some value) path (t.under path)) := by
  have hdone : ∀ (value : Value) (kind : Kind) (path : Path) (t : Spots String Leaf),
      (kind = .del ↔ value = .null) → erases sh key value path (t.under path) = true →
      (settledKind sh key path kind value = .put → t path ≠ .node) →
      contents kind value = overlaid sh key (some value) path (t.under path) := by
    intro value kind path t hkind herases hnode
    by_cases hdel : kind = .del
    · rw [contents, if_pos hdel, hkind.mp hdel, overlaid_null]
    · have hnull : value ≠ .null := fun h => hdel (hkind.mpr h)
      rw [contents, if_neg hdel]
      by_cases hput : value.isObj = true → sh.isRegister key path = true
      · rw [overlaid_whole hnull hput]
      · rw [Classical.not_imp] at hput
        have hnot := hnode (by cases kind <;> simp_all [settledKind])
        exact (overlaid_fresh value hnull (by simpa [Spots.under] using hnot) herases).symm
  induction value using Value.merging_induction with
  | leaf v hv =>
    intro kind path d hfixed _ hkind t ht herases
    have hput : settledKind sh key path kind v ≠ .put := by cases kind <;> simp [settledKind, hv]
    rcases @step_trust sh key ts path hfixed v kind d t ht with ⟨-, -, -, h, -⟩ | ⟨out, hout, hspots, -⟩
    · exact absurd h hput
    · rw [run_of_done hout, hspots, hdone v kind path t hkind herases fun h => absurd h hput]
  | fields fs ih =>
    intro kind path d hfixed hdistinct hkind t ht herases
    rcases @step_trust sh key ts path hfixed (.obj fs) kind d t ht with
      ⟨out, hout, hspots, hput, hnode⟩ | ⟨out, hout, hspots, hnode⟩
    swap
    · rw [run_of_done hout, hspots, hdone (.obj fs) kind path t hkind herases hnode]
    have hreg := isRegister_of_put hput
    simp only [distinct, Bool.and_eq_true, decide_eq_true_eq, distinctFields_iff] at hdistinct
    rw [erases_obj hreg] at herases
    have hfields : ∀ gs : List (String × Value), (∀ e ∈ gs, e ∈ fs) → (gs.map Prod.fst).Nodup →
        ∀ d : Doc sh, d.spots key path = .node →
        (∀ e ∈ gs, erases sh key e.2 (path ++ [e.1]) ((d.spots key).under (path ++ [e.1])) = true) →
        (runFields ts .trust key gs path d).doc.spots key =
          (d.spots key).write path (overlaid sh key (some (.obj gs)) path ((d.spots key).under path)) := by
      intro gs hg hgs
      induction gs with
      | nil =>
        intro d hd _
        have hnil : (runFields ts .trust key [] path d).doc = d := rfl
        rw [hnil]
        refine Spots.eq_write (fun _ _ => rfl) (funext fun r => ?_)
        cases r with
        | nil => simpa [Spots.under] using hd
        | cons k r =>
          have hnode : (d.spots key).under path [] = .node := by simpa [Spots.under] using hd
          rw [overlaid_obj_cons hreg, Assoc.get_nil, overlaid_none, Spots.beneath_of_node hnode]
      | cons e gs ihg =>
        intro d hd herases
        obtain ⟨k, v⟩ := e
        simp only [List.map_cons, List.nodup_cons] at hgs
        have hways : Overwrite.runAll (waysTo (path ++ [k])) (d.spots key) = d.spots key := by
          rw [waysTo, if_neg (by simp), List.dropLast_concat]
          exact Spots.way_of_node hd
        have hin := hg (k, v) (by simp)
        have hone := ih (k, v) hin (changeFor v).kind (path ++ [k]) d (by simp [fixedParent, hreg])
          (hdistinct.2 _ hin) (by cases v <;> simp [changeFor, Write.kind]) _ hways
          (herases (k, v) (by simp))
        have hself : ¬ path ++ [k] <+: path := fun hle => by
          have hlen := hle.length_le
          simp only [List.length_append, List.length_singleton] at hlen
          omega
        have hnext : (runFields ts .trust key ((k, v) :: gs) path d).doc =
            (runFields ts .trust key gs path
              (run ts .trust key v (changeFor v).kind (path ++ [k]) d).doc).doc := rfl
        rw [hnext, ihg (fun e he => hg e (by simp [he])) hgs.2]
        · exact overlaid_fields hreg (Assoc.get_eq_none_iff.mpr hgs.1) hd hone
        · rw [hone, Spots.write_off hself, hd]
        · intro e he
          have hk : k ≠ e.1 := fun hk => hgs.1 (hk ▸ List.mem_map_of_mem he)
          have hsame : ((d.spots key).write (path ++ [k]) (overlaid sh key (some v) (path ++ [k])
              ((d.spots key).under (path ++ [k])))).under (path ++ [e.1]) =
              (d.spots key).under (path ++ [e.1]) := by
            funext r
            rw [Spots.under, Spots.write_off (by simpa using hk)]
            rfl
          rw [hone, hsame]
          exact herases e (by simp [he])
    have hrun : (run ts .trust key (.obj fs) kind path d).doc =
        (runFields ts .trust key fs path out.doc).doc := by
      rw [run, hout]
      rfl
    have hat : (out.doc.spots key).under path [] = .node := by
      rw [hspots]
      simpa [Spots.under] using hnode
    rw [hrun, hfields fs (fun _ h => h) hdistinct.1 out.doc (hspots ▸ hnode), hspots]
    intro e he
    have hbeneath : (t.under path).beneath e.1 = t.under (path ++ [e.1]) := by
      rw [← hspots, Spots.beneath_of_node hat]
      funext r
      rw [Spots.under, Spots.under, List.append_assoc]
      rfl
    rw [hspots, ← hbeneath]
    exact (herases e he).2

/-- Where the way to a place is paved, what stands there is what objects led to. -/
theorem paved_under {p : Path} (hp : p ≠ []) (t : Spots String Leaf) :
    (Spots.paved p.dropLast t).under p = t.within p := by
  induction p generalizing t with
  | nil => exact absurd rfl hp
  | cons k p ih =>
    cases p with
    | nil => exact funext (Spots.make_root_cons t k)
    | cons k' p =>
      rw [Spots.within, ← ih (by simp) (t.beneath k)]
      funext r
      simp [Spots.under, Spots.paved]

/-- A value laid by itself: its way made, and its effect at its path. -/
theorem overlaid_alone (v : Value) {p : Path} (hp : p ≠ []) : ∀ (path : Path) {t : Spots String Leaf},
    (∀ q, q <+: p → q ≠ p → sh.isRegister key (path ++ q) = false) →
    (Spots.paved p.dropLast t).write p (overlaid sh key (some v) (path ++ p) (t.within p)) =
      overlaid sh key (some (lay p v none)) path t := by
  induction p with
  | nil => exact absurd rfl hp
  | cons k p ih =>
    intro path t hfree
    have hreg : sh.isRegister key path = false := by simpa using hfree [] List.nil_prefix (by simp)
    have hlay : lay (k :: p) v none = .obj [(k, lay p v none)] := rfl
    rw [hlay, Spots.within]
    funext r
    cases r with
    | nil =>
      rw [Spots.write_off (by simp)]
      cases p with
      | nil => exact Spots.make_root_nil t
      | cons => rfl
    | cons k' r =>
      rw [overlaid_obj_cons hreg, Assoc.get_cons]
      split_ifs with hk
      · subst hk
        rw [Spots.write_cons]
        cases p with
        | nil => rw [lay_alone, Spots.within, write_root]
        | cons k' p =>
          have hin : ∀ q, q <+: k' :: p → q ≠ k' :: p → sh.isRegister key (path ++ [k] ++ q) = false := by
            intro q hq hne
            rw [List.append_assoc]
            exact hfree (k :: q) (List.cons_prefix_cons.mpr ⟨rfl, hq⟩) (by simpa using hne)
          rw [← ih (by simp) (path ++ [k]) hin, List.append_assoc]
          simp [Spots.paved]
      · rw [Spots.write_off (by simp [hk]), Assoc.get_nil, overlaid_none]
        cases p with
        | nil => exact Spots.make_root_cons t k' r
        | cons => simp [Spots.paved, hk]

/-! ## One change -/

/-- Whether a change finds in the state what its diff takes it to: an object for each null in it to erase
from, and no array on the way to its parent. -/
def Change.plain (sh : Shape) (d : Doc sh) (change : Change) : Bool :=
  let key := sh.recordKey change.c change.id
  change.write ≠ .set .null &&
    erases sh key change.write.value change.path ((d.spots key).within change.path) &&
    !(d.throughArray key change.path &&
      ((d.get key).bind (valueAt · change.path.dropLast)).any Value.isObj)

theorem fixedParent_of_accepts {change : Change} (h : sh.Accepts change) :
    fixedParent sh (sh.recordKey change.c change.id) change.path = false := by
  by_cases hpath : change.path = []
  · simp [fixedParent, hpath]
  · have hfree := free_of_accepts h (List.dropLast_prefix _) fun heq => by
      have hlen := congrArg List.length heq
      have hpos := List.length_pos_of_ne_nil hpath
      rw [List.length_dropLast] at hlen
      omega
    simp [fixedParent, hfree]

/-- A trusted change leaves of its record what its own diff does. -/
theorem run_diff {change : Change} (h : sh.Accepts change) (hvalue : distinct change.write.value = true)
    {d : Doc sh} (hplain : change.plain sh d = true) :
    (run ts .trust (sh.recordKey change.c change.id) change.write.value change.write.kind change.path
      d).doc.spots (sh.recordKey change.c change.id) =
      overlaid sh (sh.recordKey change.c change.id) (some change.diff) []
        (d.spots (sh.recordKey change.c change.id)) := by
  simp only [Change.plain, Bool.and_eq_true, decide_eq_true_eq, Bool.not_eq_true'] at hplain
  obtain ⟨⟨hset, herases⟩, harray⟩ := hplain
  have hkind : change.write.kind = .del ↔ change.write.value = .null := by
    have hput := h.isObj
    cases hw : change.write with
    | put v =>
      obtain ⟨fs, rfl⟩ := Value.isObj_iff.mp (hput v hw)
      simp [Write.kind, Write.value]
    | set v => simpa [Write.kind, Write.value, hw] using hset
    | del => simp [Write.kind, Write.value]
  have hfixed := fixedParent_of_accepts h
  by_cases hpath : change.path = []
  · rw [hpath] at hfixed herases
    rw [hpath, run_over _ _ _ _ hfixed hvalue hkind _ rfl herases, write_root, Change.diff, hpath, lay_alone]
    rfl
  have hway : Overwrite.runAll (waysTo change.path) (d.spots (sh.recordKey change.c change.id)) =
      Spots.paved change.path.dropLast (d.spots (sh.recordKey change.c change.id)) := by
    rw [waysTo, if_neg hpath]
    refine Spots.way_eq_paved fun hnode => ?_
    obtain ⟨fs, hfs⟩ := Value.spots_eq_node.mp hnode
    rw [hfs, Option.any_some, Value.isObj_obj, Bool.and_true] at harray
    obtain ⟨v, hv, hfs⟩ := Option.bind_eq_some_iff.mp hfs
    obtain ⟨e, he, rfl⟩ := Option.map_eq_some_iff.mp hv
    exact Doc.ObjAt.solid hpath ⟨e, fs, he, hfs⟩ harray
  rw [run_over _ _ _ _ hfixed hvalue hkind _ hway]
  · rw [paved_under hpath]
    exact overlaid_alone _ hpath [] fun q hq hne => free_of_accepts h hq hne
  · rwa [paved_under hpath]

/-- Whether each change finds in the state, when its turn comes, what its diff takes it to. -/
def plainAll (ts : ℕ) : List Change → Doc sh → Bool
  | [], _ => true
  | change :: changes, d =>
    change.plain sh d &&
      match apply ts .trust change d with
      | .ok out => plainAll ts changes out.doc
      | .error _ => true

/-! ## All of them -/

namespace Value

theorem distinct_reach {v w : Value} {p : Path} (hv : distinct v = true) (h : v.reach p = some w) :
    distinct w = true := by
  induction p generalizing v with
  | nil => exact Option.some.inj h ▸ hv
  | cons k p ih =>
    cases v with
    | obj fs =>
      obtain ⟨x, hx, h⟩ := Option.bind_eq_some_iff.mp h
      exact ih ((distinct_obj.mp hv).2 k x hx) h
    | _ => cases h

theorem reach_lay_at (v : Value) (q p : Path) (node : Option Value) :
    (lay (q ++ p) v node).reach q = some (lay p v (node.bind (reach · q))) := by
  induction q generalizing node with
  | nil => cases node <;> rfl
  | cons k q ih =>
    rw [List.cons_append, lay, reach, Assoc.get_set_self, Option.bind_some, ih]
    cases node with
    | none => cases q <;> rfl
    | some n => cases n <;> rfl

theorem reach_lay_off (v : Value) {q r : Path} (hq : ¬ q <+: r) (hr : ¬ r <+: q) (node : Option Value) :
    (lay q v node).reach r = node.bind (reach · r) := by
  induction q generalizing r node with
  | nil => exact absurd List.nil_prefix hq
  | cons k q ih =>
    cases r with
    | nil => exact absurd List.nil_prefix hr
    | cons k' r =>
      rw [lay, reach, Assoc.get_set]
      split_ifs with hk
      · subst hk
        rw [Option.bind_some, ih (fun h => hq (List.cons_prefix_cons.mpr ⟨rfl, h⟩))
          fun h => hr (List.cons_prefix_cons.mpr ⟨rfl, h⟩)]
        cases node with
        | none => rfl
        | some n => cases n <;> rfl
      · cases node with
        | none => rfl
        | some n => cases n <;> rfl

end Value

/-- Two records' paths from the root lead apart. -/
theorem full_apart {key key' : RecordKey} (h : sh.keyed key = true) (h' : sh.keyed key' = true)
    (hne : key ≠ key') (p : Path) :
    ¬ Shape.full key [] <+: Shape.full key' p ∧ ¬ Shape.full key' p <+: Shape.full key [] := by
  obtain ⟨c, id⟩ := key
  obtain ⟨c', id'⟩ := key'
  simp only [Shape.full, Shape.keyed] at *
  by_cases hc : c = c'
  · subst hc
    have hnot := @Shape.not_isSingleton sh c
    cases id <;> cases id' <;> simp_all
    exact fun heq => absurd heq.symm hne
  · simp [hc, Ne.symm hc]

theorem full_append (key : RecordKey) (p : Path) : Shape.full key p = Shape.full key [] ++ p := by
  simp [Shape.full]

/-- What the changes so far laid, and what it does: a record's part of a diff is made of what its changes
laid, and does to the record as it was what they did. -/
structure Follows (sh : Shape) (before : List Change) (diff : Value) (d₀ d : Doc sh) : Prop where
  once : distinct diff = true
  made : ∀ key, sh.keyed key = true → MadeOf (laid sh key before) (diff.reach (Shape.full key []))
  does : ∀ key, sh.keyed key = true →
    d.spots key = overlaid sh key (diff.reach (Shape.full key [])) [] (d₀.spots key)

/-- One more change laid, and made. -/
theorem Follows.next {before : List Change} {diff : Value} {d₀ d : Doc sh} {change : Change}
    {out : Outcome sh} (h : Follows sh before diff d₀ d) (hc : sh.Accepts change)
    (hvalue : distinct change.write.value = true) (hplain : change.plain sh d = true)
    (hmeet : ∀ b ∈ before, change.meets sh b = true) (hout : apply ts .trust change d = .ok out) :
    Follows sh (before.filter (fun b => !change.buries sh b) ++ [change])
      (lay (Shape.full (sh.recordKey change.c change.id) change.path) change.write.value (some diff))
      d₀ out.doc := by
  obtain ⟨-, rfl⟩ := of_apply hout
  have hkeyed := Shape.keyed_of_accepts hc
  have hdistinct : ∀ v, some diff = some v → distinct v = true :=
    fun v hv => Option.some.inj hv ▸ h.once
  have hself := Value.reach_lay_at change.write.value
    (Shape.full (sh.recordKey change.c change.id) []) change.path (some diff)
  rw [← full_append, Option.bind_some] at hself
  have hother : ∀ key, sh.keyed key = true → key ≠ sh.recordKey change.c change.id →
      (lay (Shape.full (sh.recordKey change.c change.id) change.path) change.write.value
        (some diff)).reach (Shape.full key []) = diff.reach (Shape.full key []) := by
    intro key hkey hne
    obtain ⟨h₁, h₂⟩ := full_apart hkey hkeyed hne change.path
    rw [Value.reach_lay_off _ h₂ h₁, Option.bind_some]
  refine ⟨Value.distinct_lay hvalue _ hdistinct, fun key hkey => ?_, fun key hkey => ?_⟩
  · by_cases heq : key = sh.recordKey change.c change.id
    · subst heq
      rw [hself]
      exact (h.made _ hkey).lay hvalue rfl
    · rw [hother key hkey heq]
      intro s u hu
      obtain ⟨n, hn, hw⟩ := h.made key hkey s u hu
      obtain ⟨b, hb, hbkey, rfl⟩ := mem_laid.mp hn
      have hspared : change.buries sh b = false := by
        simp [Change.buries, hbkey, Ne.symm heq]
      exact ⟨_, mem_laid.mpr ⟨b, by simp [hb, hspared], hbkey, rfl⟩, hw⟩
  · by_cases heq : key = sh.recordKey change.c change.id
    · subst heq
      have hmeets : meets sh (sh.recordKey change.c change.id) change.path change.write.value []
          (diff.reach (Shape.full (sh.recordKey change.c change.id) [])) = true := by
        refine meets_of_made _ _ (h.made _ hkey) fun n hn => ?_
        obtain ⟨b, hb, hbkey, rfl⟩ := mem_laid.mp hn
        simpa [Change.meets, hbkey] using hmeet b hb
      rw [run_diff hc hvalue hplain, hself, h.does _ hkey]
      refine (overlaid_lay hvalue (fun q hq hne => ?_) hmeets).symm
      exact free_of_accepts hc hq hne
    · rw [run_trust_off heq, hother key hkey heq, h.does key hkey]

theorem follows_all {changes : List Change} : ∀ {before : List Change} {diff : Value} {d₀ d : Doc sh},
    Follows sh before diff d₀ d → (∀ ch ∈ changes, sh.Accepts ch) →
    (∀ ch ∈ changes, distinct ch.write.value = true) → meetAll sh before changes = true →
    plainAll ts changes d = true → ∃ out, applyAll ts .trust changes d = .ok out ∧
      ∃ after, Follows sh after (changes.foldl (fun diff change =>
        lay (Shape.full (sh.recordKey change.c change.id) change.path) change.write.value (some diff)) diff)
        d₀ out.doc := by
  induction changes with
  | nil => exact fun h _ _ _ _ => ⟨_, rfl, _, h⟩
  | cons change changes ih =>
    intro before diff d₀ d h hc hvalues hmeet hplain
    rw [meetAll, Bool.and_eq_true, List.all_eq_true] at hmeet
    have hout := apply_of_accepts (hc change (by simp)) ts .trust d
    rw [plainAll, hout, Bool.and_eq_true] at hplain
    have hnext := h.next (hc change (by simp)) (hvalues change (by simp)) hplain.1 hmeet.1 hout
    obtain ⟨more, hmore, after, hafter⟩ := ih hnext (fun ch hch => hc ch (by simp [hch]))
      (fun ch hch => hvalues ch (by simp [hch])) hmeet.2 hplain.2
    exact ⟨_, applyAll_cons hout hmore, after, hafter⟩

/-- Changes that the diff can take one after the other do together what the diff does. -/
theorem diff_does_what_changes_do {changes : List Change} {d : Doc sh}
    (hc : ∀ ch ∈ changes, sh.assertChange ch = .ok ())
    (hvalues : ∀ ch ∈ changes, distinct ch.write.value = true) (hmeet : meetAll sh [] changes = true)
    (hplain : plainAll ts changes d = true) :
    ∃ out, applyAll ts .trust changes d = .ok out ∧ ∀ key, sh.keyed key = true →
      out.doc.spots key = Value.spots (diffed sh (diffOf sh changes) key (d.get key)) := by
  have hnone : ∀ key : RecordKey, (Value.obj []).reach (Shape.full key []) = none := fun key => rfl
  have hstart : Follows sh [] (.obj []) d d := by
    refine ⟨rfl, fun key _ s u hu => ?_, fun key _ => ?_⟩
    · rw [hnone] at hu
      cases hu
    · rw [hnone, overlaid_none]
  obtain ⟨out, hout, after, hafter⟩ := follows_all hstart
    (fun ch hch => Shape.accepts_of_assertChange (hc ch hch)) hvalues hmeet hplain
  refine ⟨out, hout, fun key hkey => ?_⟩
  have hdoes := hafter.does key hkey
  unfold diffed diffOf
  rw [hdoes]
  cases hreach : Value.reach _ (Shape.full key []) with
  | none => rw [overlaid_none]; rfl
  | some v => exact (spots_patched v [] (d.get key) (Value.distinct_reach hafter.once hreach)).symm

/-- A task renamed, and its due day made a month. -/
def replanned : List Change :=
  [⟨"tasks", some "t1", [], .put (.obj [("name", .str "Paint")])⟩,
   ⟨"tasks", some "t1", ["due", "day"], .del⟩,
   ⟨"tasks", some "t1", ["due"], .put (.obj [("month", .num 5)])⟩,
   ⟨"tasks", some "t1", ["name"], .set (.str "Paint the fence")⟩]

theorem replanned_as_diff : ∃ out, applyAll 7 .trust replanned
      (Doc.load board [(("tasks", some "t1"), ⟨.obj [("due", .obj [("day", .num 3)])], .born 1⟩)]) = .ok out ∧
    ∀ key, board.keyed key = true → out.doc.spots key = Value.spots (diffed board (diffOf board replanned) key
      ((Doc.load board [(("tasks", some "t1"), ⟨.obj [("due", .obj [("day", .num 3)])], .born 1⟩)]).get key)) :=
  diff_does_what_changes_do (by decide +kernel) (by decide +kernel) (by decide +kernel) (by decide +kernel)

/-- A task put twice, each time with something in the same field. -/
def putTwice : List Change :=
  [⟨"tasks", some "t1", [], .put (.obj [("due", .obj [("day", .num 3)])])⟩,
   ⟨"tasks", some "t1", [], .put (.obj [("due", .obj [("month", .num 5)])])⟩]

/-- What the first put wrote, and the second left, is not in the diff. -/
theorem put_missing_from_diff : (∀ ch ∈ putTwice, board.assertChange ch = .ok ()) ∧
    ∃ out, applyAll 7 .trust putTwice (Doc.load board []) = .ok out ∧
      out.doc.spots ("tasks", some "t1") ≠
        Value.spots (diffed board (diffOf board putTwice) ("tasks", some "t1")
          ((Doc.load board []).get ("tasks", some "t1"))) := by
  refine ⟨by decide +kernel, _, rfl, fun heq => ?_⟩
  have hday := congrArg (fun t => match t ["due", "day"] with | .leaf _ => true | _ => false) heq
  exact absurd hday (by decide +kernel)

end LazyStorage.Core
