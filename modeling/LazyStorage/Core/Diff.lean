import LazyStorage.Core.Arrays

/-! # Changes as one diff

`diffOf` lays changes one after the other in a tree of the state's shape, which a
validator or a listener reads as what they do together: objects merge key by key,
null deletes, anything else replaces. A change laid where earlier ones were does to
a state what they do after one another, so long as it meets there what an object
merged in would find, and not what was to take its place.
-/
namespace LazyStorage.Core

open Lib

variable {sh : Shape} {key : RecordKey}

namespace Value

/-- `Object.assign(fs, gs)` -/
def assign (fs gs : List (String × Value)) : List (String × Value) :=
  gs.foldl (fun fs e => Assoc.set fs e.1 e.2) fs

/-- Walk own keys, through objects alone. -/
def reach : Value → Path → Option Value
  | node, [] => some node
  | obj fs, seg :: path => (Assoc.get fs seg).bind (reach · path)
  | _, _ :: _ => none

end Value

/-- A value laid at a path: objects made on the way where none is, an object assigned to an object. -/
def lay : Path → Value → Option Value → Value
  | [], .obj gs, some (.obj fs) => .obj (Value.assign fs gs)
  | [], v, _ => v
  | seg :: path, v, node =>
    let fs := (node.bind Value.fields?).getD []
    .obj (Assoc.set fs seg (lay path v (Assoc.get fs seg)))

theorem lay_leaf {v : Value} (hv : v.isObj = false) (node : Option Value) : lay [] v node = v := by
  cases v with
  | obj gs => cases hv
  | _ => rfl

theorem lay_alone (v : Value) : lay [] v none = v := by cases v <;> rfl

/-- Changes as one diff in the tree's shape. -/
def diffOf (sh : Shape) (changes : List Change) : Value :=
  changes.foldl (fun diff change =>
    lay (Shape.full (sh.recordKey change.c change.id) change.path) change.write.value (some diff)) (.obj [])

mutual

/-- A diff read as one: objects merge key by key at every depth, null deletes, anything else
replaces, registers and arrays whole. -/
def patched (sh : Shape) (key : RecordKey) : Value → Path → Option Value → Option Value
  | .null, _, _ => none
  | .obj fs, path, there =>
    if sh.isRegister key path then some (.obj fs)
    else some (.obj (patchedFields sh key fs path ((there.bind Value.fields?).getD [])))
  | v, _, _ => some v

def patchedFields (sh : Shape) (key : RecordKey) :
    List (String × Value) → Path → List (String × Value) → List (String × Value)
  | [], _, there => there
  | (k, v) :: fs, path, there =>
    patchedFields sh key fs path <|
      match patched sh key v (path ++ [k]) (Assoc.get there k) with
      | some w => Assoc.set there k w
      | none => Assoc.erase there k

end

/-- A record once a diff of the whole state is applied. -/
def diffed (sh : Shape) (diff : Value) (key : RecordKey) (there : Option Value) : Option Value :=
  match diff.reach (Shape.full key []) with
  | some v => patched sh key v [] there
  | none => there

namespace Value

theorem distinct_obj {fs : List (String × Value)} :
    distinct (obj fs) = true ↔ (fs.map Prod.fst).Nodup ∧ ∀ k v, Assoc.get fs k = some v → distinct v = true := by
  simp only [distinct, Bool.and_eq_true, decide_eq_true_eq, distinctFields_iff]
  refine and_congr_right fun hdistinct => ⟨fun h k v hget => h _ (Assoc.mem_of_get hget), fun h e he => ?_⟩
  exact h e.1 e.2 (Assoc.get_of_mem hdistinct he)

theorem get_assign {gs : List (String × Value)} (hgs : (gs.map Prod.fst).Nodup)
    (fs : List (String × Value)) (k : String) :
    Assoc.get (assign fs gs) k = (Assoc.get gs k).or (Assoc.get fs k) := by
  unfold assign
  induction gs generalizing fs with
  | nil => rfl
  | cons e gs ih =>
    simp only [List.map_cons, List.nodup_cons] at hgs
    rw [List.foldl_cons, ih hgs.2, Assoc.get_set, Assoc.get_cons]
    split_ifs with hk
    · rw [hk] at hgs
      rw [Assoc.get_eq_none_iff.mpr hgs.1]
      rfl
    · rfl

theorem nodup_assign {fs : List (String × Value)} (hfs : (fs.map Prod.fst).Nodup)
    (gs : List (String × Value)) : ((assign fs gs).map Prod.fst).Nodup := by
  unfold assign
  induction gs generalizing fs with
  | nil => exact hfs
  | cons e gs ih => exact ih (Assoc.nodup_set hfs e.1 e.2)

theorem distinct_assign {fs gs : List (String × Value)} (hfs : distinct (obj fs) = true)
    (hgs : distinct (obj gs) = true) : distinct (obj (assign fs gs)) = true := by
  rw [distinct_obj] at *
  refine ⟨nodup_assign hfs.1 gs, fun k v hget => ?_⟩
  rw [get_assign hgs.1, Option.or_eq_some_iff] at hget
  rcases hget with hget | ⟨-, hget⟩
  · exact hgs.2 k v hget
  · exact hfs.2 k v hget

/-- The fields a node offers: none, where it is no object. -/
theorem distinct_fields {node : Option Value} (h : ∀ v, node = some v → distinct v = true) :
    distinct (obj ((node.bind fields?).getD [])) = true := by
  cases node with
  | none => rfl
  | some v =>
    cases v with
    | obj fs => exact h _ rfl
    | _ => rfl

theorem distinct_lay {v : Value} (hv : distinct v = true) (path : Path) {node : Option Value}
    (h : ∀ v, node = some v → distinct v = true) : distinct (lay path v node) = true := by
  induction path generalizing node with
  | nil =>
    unfold lay
    split
    · exact distinct_assign (h _ rfl) hv
    · exact hv
    · next heq => cases heq
  | cons seg path ih =>
    have hfields := distinct_fields h
    rw [distinct_obj] at hfields
    rw [lay, distinct_obj]
    refine ⟨Assoc.nodup_set hfields.1 _ _, fun k w hget => ?_⟩
    rw [Assoc.get_set] at hget
    split_ifs at hget
    · cases hget
      exact ih fun w hw => hfields.2 _ w hw
    · exact hfields.2 k w hget

end Value

theorem Value.spots_beneath (v : Option Value) (k : String) :
    (Value.spots v).beneath k = Value.spots (Assoc.get ((v.bind Value.fields?).getD []) k) := by
  funext r
  cases v with
  | none => rfl
  | some v =>
    cases v with
    | obj fs =>
      rw [Spots.beneath_of_node rfl]
      exact Value.spots_obj_cons fs k r
    | _ => rfl

/-! ## What a diff leaves at each place -/

/-- What stands at each place once a diff is applied to what stood there. -/
def overlaid (sh : Shape) (key : RecordKey) : Option Value → Path → Spots String Leaf → Spots String Leaf
  | none, _, t, r => t r
  | some .null, _, _, _ => .nothing
  | some (.obj _), _, _, [] => .node
  | some (.obj fs), path, t, k :: r =>
    if sh.isRegister key path then Value.spots (some (.obj fs)) (k :: r)
    else overlaid sh key (Assoc.get fs k) (path ++ [k]) (t.beneath k) r
  | some v, _, _, r => Value.spots (some v) r

variable {path : Path} {t : Spots String Leaf} {fs : List (String × Value)}

@[simp] theorem overlaid_none : overlaid sh key none path t = t := by
  funext r
  cases r <;> rfl

@[simp] theorem overlaid_null : overlaid sh key (some .null) path t = fun _ => .nothing := by
  funext r
  cases r <;> rfl

@[simp] theorem overlaid_obj_nil : overlaid sh key (some (.obj fs)) path t [] = .node := rfl

theorem overlaid_obj_cons (hreg : sh.isRegister key path = false) (k : String) (r : Path) :
    overlaid sh key (some (.obj fs)) path t (k :: r) =
      overlaid sh key (Assoc.get fs k) (path ++ [k]) (t.beneath k) r := by
  rw [overlaid, if_neg (by simp [hreg])]

/-- What is written whole stands as it is. -/
theorem overlaid_whole {v : Value} (hnull : v ≠ .null)
    (hwhole : v.isObj = true → sh.isRegister key path = true) :
    overlaid sh key (some v) path t = Value.spots (some v) := by
  funext r
  cases v with
  | null => exact absurd rfl hnull
  | obj fs =>
    cases r with
    | nil => rfl
    | cons k r => rw [overlaid, if_pos (hwhole rfl)]
  | _ => cases r <;> rfl

theorem get_patchedFields (hfs : (fs.map Prod.fst).Nodup) (there : List (String × Value)) (k : String) :
    Assoc.get (patchedFields sh key fs path there) k =
      match Assoc.get fs k with
      | some v => patched sh key v (path ++ [k]) (Assoc.get there k)
      | none => Assoc.get there k := by
  induction fs generalizing there with
  | nil => rfl
  | cons e fs ih =>
    obtain ⟨k', v⟩ := e
    simp only [List.map_cons, List.nodup_cons] at hfs
    rw [patchedFields, ih hfs.2, Assoc.get_cons]
    by_cases hk : k' = k
    · subst hk
      rw [if_pos rfl, Assoc.get_eq_none_iff.mpr hfs.1]
      cases hv : patched sh key v (path ++ [k']) (Assoc.get there k') <;> simp [Assoc.get_erase, hv]
    · rw [if_neg hk]
      cases patched sh key v (path ++ [k']) (Assoc.get there k') <;>
        simp [Assoc.get_erase, Assoc.get_set, hk]

/-- A diff read as one: at each place. -/
theorem spots_patched (v : Value) : ∀ (path : Path) (there : Option Value), distinct v = true →
    Value.spots (patched sh key v path there) = overlaid sh key (some v) path (Value.spots there) := by
  induction v using Value.merging_induction with
  | leaf v hv =>
    intro path there _
    cases v with
    | null => simp [patched, Value.spots_none]
    | obj fs => cases hv
    | _ =>
      rw [overlaid_whole (by simp) (by simp [hv])]
      simp [patched]
  | fields fs ih =>
    intro path there hdistinct
    rw [patched]
    split_ifs with hreg
    · rw [overlaid_whole (by simp) fun _ => hreg]
    have hreg := Bool.eq_false_iff.mpr hreg
    funext r
    cases r with
    | nil => rfl
    | cons k r =>
      rw [Value.distinct_obj] at hdistinct
      rw [Value.spots_obj_cons, overlaid_obj_cons hreg, get_patchedFields hdistinct.1, Value.spots_beneath]
      cases hget : Assoc.get fs k with
      | none => rw [overlaid_none]
      | some v => exact congrFun (ih (k, v) (Assoc.mem_of_get hget) _ _ (hdistinct.2 k v hget)) r

/-! ## One value laid where others were -/

mutual

/-- Whether a value takes the place of what a diff has there: where it is an object to merge, an
object with none but its keys, each in turn. -/
def absorbs (sh : Shape) (key : RecordKey) : Value → Path → Option Value → Bool
  | .obj gs, path, some u =>
    sh.isRegister key path ||
      match u with
      | .obj fs => fs.all (fun e => (Assoc.get gs e.1).isSome) && absorbsFields sh key gs path fs
      | _ => false
  | _, _, _ => true

def absorbsFields (sh : Shape) (key : RecordKey) :
    List (String × Value) → Path → List (String × Value) → Bool
  | [], _, _ => true
  | (k, w) :: gs, path, fs =>
    absorbs sh key w (path ++ [k]) (Assoc.get fs k) && absorbsFields sh key gs path fs

end

/-- Whether a value can be assigned to what a diff has, or replaces it. -/
def assignable (sh : Shape) (key : RecordKey) : Value → Path → Option Value → Bool
  | .obj gs, path, some (.obj fs) =>
    if sh.isRegister key path then fs.all fun e => (Assoc.get gs e.1).isSome
    else absorbsFields sh key gs path fs
  | .obj _, path, some _ => sh.isRegister key path
  | _, _, _ => true

/-- Whether a value laid at a path meets objects on the way, and there what it can be assigned to. -/
def meets (sh : Shape) (key : RecordKey) : Path → Value → Path → Option Value → Bool
  | [], v, path, node => assignable sh key v path node
  | k :: p, v, path, node =>
    match node with
    | none => true
    | some (.obj fs) => meets sh key p v (path ++ [k]) (Assoc.get fs k)
    | some _ => false

theorem absorbsFields_iff {gs fs : List (String × Value)} :
    absorbsFields sh key gs path fs = true ↔
      ∀ e ∈ gs, absorbs sh key e.2 (path ++ [e.1]) (Assoc.get fs e.1) = true := by
  induction gs with
  | nil => simp [absorbsFields]
  | cons e gs ih => simp [absorbsFields, ih]

/-- What is written whole, or erased, leaves nothing of what stood there. -/
theorem overlaid_settled {v : Value} (hwhole : v.isObj = true → sh.isRegister key path = true)
    (t' : Spots String Leaf) : overlaid sh key (some v) path t = overlaid sh key (some v) path t' := by
  by_cases hnull : v = .null
  · rw [hnull, overlaid_null, overlaid_null]
  · rw [overlaid_whole hnull hwhole, overlaid_whole hnull hwhole]

theorem beneath_over (hreg : sh.isRegister key path = false) (k : String) :
    (overlaid sh key (some (.obj fs)) path t).beneath k =
      overlaid sh key (Assoc.get fs k) (path ++ [k]) (t.beneath k) := by
  rw [Spots.beneath_of_node rfl]
  exact funext (overlaid_obj_cons hreg k)

/-- What takes the place of what a diff has leaves nothing of it. -/
theorem overlaid_absorbs (w : Value) : ∀ {path : Path} {u : Option Value} {t : Spots String Leaf},
    absorbs sh key w path u = true →
    overlaid sh key (some w) path (overlaid sh key u path t) = overlaid sh key (some w) path t := by
  induction w using Value.merging_induction with
  | leaf w hw => exact fun _ => overlaid_settled (by simp [hw]) _
  | fields gs ih =>
    intro path u t h
    cases u with
    | none => rw [overlaid_none]
    | some u =>
    by_cases hreg : sh.isRegister key path = true
    · exact overlaid_settled (fun _ => hreg) _
    have hreg := Bool.eq_false_iff.mpr hreg
    cases u with
    | obj fs =>
      simp only [absorbs, hreg, Bool.false_or, Bool.and_eq_true, List.all_eq_true, absorbsFields_iff] at h
      funext r
      cases r with
      | nil => rfl
      | cons k r =>
        rw [overlaid_obj_cons hreg, overlaid_obj_cons hreg, beneath_over hreg]
        cases hget : Assoc.get gs k with
        | some v =>
          have hmem := Assoc.mem_of_get hget
          exact congrFun (ih (k, v) hmem (h.2 (k, v) hmem)) r
        | none =>
          have hnone : Assoc.get fs k = none := by
            by_contra hsome
            obtain ⟨u, hu⟩ := Option.ne_none_iff_exists'.mp hsome
            have hthere := h.1 (k, u) (Assoc.mem_of_get hu)
            simp [hget] at hthere
          rw [hnone, overlaid_none]
    | _ => simp [absorbs, hreg] at h

/-- An object assigned to what it may be assigned to, as merged in. -/
theorem overlaid_assign {gs : List (String × Value)} (hgs : (gs.map Prod.fst).Nodup)
    (h : assignable sh key (.obj gs) path (some (.obj fs)) = true) :
    overlaid sh key (some (.obj (Value.assign fs gs))) path t =
      overlaid sh key (some (.obj gs)) path (overlaid sh key (some (.obj fs)) path t) := by
  rw [assignable] at h
  split_ifs at h with hreg
  · rw [overlaid_whole (by simp) fun _ => hreg, overlaid_whole (by simp) fun _ => hreg]
    funext r
    cases r with
    | nil => rfl
    | cons k r =>
      rw [Value.spots_obj_cons, Value.spots_obj_cons, Value.get_assign hgs]
      cases hget : Assoc.get gs k with
      | some w => rfl
      | none =>
        cases hf : Assoc.get fs k with
        | none => rfl
        | some u =>
          have hthere := List.all_eq_true.mp h _ (Assoc.mem_of_get hf)
          simp [hget] at hthere
  · have hreg := Bool.eq_false_iff.mpr hreg
    funext r
    cases r with
    | nil => rfl
    | cons k r =>
      rw [overlaid_obj_cons hreg, overlaid_obj_cons hreg, beneath_over hreg, Value.get_assign hgs]
      cases hget : Assoc.get gs k with
      | none => rw [Option.none_or, overlaid_none]
      | some w =>
        have hmem := Assoc.mem_of_get hget
        exact congrFun (overlaid_absorbs w (absorbsFields_iff.mp h (k, w) hmem)).symm r

/-- A value laid where it meets what it can be assigned to does what it does by itself, after what was
there. -/
theorem overlaid_lay {v : Value} (hv : distinct v = true) : ∀ {p path : Path} {node : Option Value}
    {t : Spots String Leaf}, (∀ q, q <+: p → q ≠ p → sh.isRegister key (path ++ q) = false) →
    meets sh key p v path node = true →
    overlaid sh key (some (lay p v node)) path t =
      overlaid sh key (some (lay p v none)) path (overlaid sh key node path t) := by
  intro p
  induction p with
  | nil =>
    intro path node t _ h
    cases node with
    | none => rw [overlaid_none]
    | some u =>
      cases v with
      | obj gs =>
        cases u with
        | obj fs => exact overlaid_assign (Value.distinct_obj.mp hv).1 h
        | _ => exact overlaid_settled (fun _ => by simpa [meets, assignable] using h) _
      | _ =>
        rw [lay_leaf rfl, lay_leaf rfl]
        refine overlaid_settled (fun hobj => ?_) _
        cases hobj
  | cons k p ih =>
    intro path node t hfree h
    have hreg : sh.isRegister key path = false := by
      simpa using hfree [] List.nil_prefix (by simp)
    cases node with
    | none => rw [overlaid_none]
    | some u =>
      cases u with
      | obj fs =>
        funext r
        cases r with
        | nil => rfl
        | cons k' r =>
          rw [lay, lay, overlaid_obj_cons hreg, overlaid_obj_cons hreg, beneath_over hreg]
          simp only [Option.bind_some, Value.fields?, Option.getD_some, Option.bind_none,
            Option.getD_none, Assoc.get_set, Assoc.get_nil]
          split_ifs with hk
          · subst hk
            refine congrFun (ih (fun q hq hne => ?_) h) r
            rw [List.append_assoc]
            exact hfree (k :: q) (List.cons_prefix_cons.mpr ⟨rfl, hq⟩) (by simpa using hne)
          · rw [overlaid_none]
      | _ => cases h

/-! ## What changes have laid -/

/-- Every place of a tree is a place of one of these, an object there where it is one here. -/
def MadeOf (nodes : List Value) (node : Option Value) : Prop :=
  ∀ s u, node.bind (Value.reach · s) = some u →
    ∃ n ∈ nodes, ∃ w, n.reach s = some w ∧ w.isObj = u.isObj

section MadeOf

variable {nodes : List Value}

theorem Value.reach_one {n w : Value} {k : String} (h : n.reach [k] = some w) :
    ∃ gs, n = .obj gs ∧ Assoc.get gs k = some w := by
  cases n with
  | obj gs => exact ⟨gs, rfl, by simpa [Value.reach] using h⟩
  | _ => simp [Value.reach] at h

theorem MadeOf.field (h : MadeOf nodes (some (.obj fs))) (k : String) :
    MadeOf (nodes.filterMap (Value.reach · [k])) (Assoc.get fs k) := by
  intro s u hu
  obtain ⟨n, hn, w, hw, hkind⟩ := h (k :: s) u hu
  cases n with
  | obj gs =>
    rw [Value.reach] at hw
    obtain ⟨x, hx, hw⟩ := Option.bind_eq_some_iff.mp hw
    exact ⟨x, List.mem_filterMap.mpr ⟨_, hn, by simp [Value.reach, hx]⟩, w, hw, hkind⟩
  | _ => simp [Value.reach] at hw

/-- An object's key is a key of one of those it is made of. -/
theorem MadeOf.mem (h : MadeOf nodes (some (.obj fs))) {e : String × Value} (he : e ∈ fs) :
    ∃ gs, .obj gs ∈ nodes ∧ ∃ x ∈ gs, x.1 = e.1 := by
  obtain ⟨u, hu⟩ : ∃ u, Assoc.get fs e.1 = some u := by
    refine Option.ne_none_iff_exists'.mp fun hnone => ?_
    exact Assoc.get_eq_none_iff.mp hnone (List.mem_map_of_mem he)
  obtain ⟨n, hn, w, hw, -⟩ := h [e.1] u (by simp [Value.reach, hu])
  obtain ⟨gs, rfl, hget⟩ := Value.reach_one hw
  exact ⟨gs, hn, _, Assoc.mem_of_get hget, rfl⟩

theorem absorbs_of_made (v : Value) : ∀ {path : Path} {nodes : List Value} {node : Option Value},
    MadeOf nodes node → (∀ n ∈ nodes, absorbs sh key v path (some n) = true) →
    absorbs sh key v path node = true := by
  induction v using Value.merging_induction with
  | leaf v hv =>
    intro path nodes node _ _
    cases v with
    | obj gs => cases hv
    | _ => simp [absorbs]
  | fields gs ih =>
    intro path nodes node hmade h
    cases node with
    | none => rw [absorbs]; simp
    | some u =>
    by_cases hreg : sh.isRegister key path = true
    · simp only [absorbs, hreg, Bool.true_or]
    have hreg := Bool.eq_false_iff.mpr hreg
    have heach : ∀ n ∈ nodes, ∃ us, n = .obj us ∧ (∀ e ∈ us, (Assoc.get gs e.1).isSome = true) ∧
        ∀ e ∈ gs, absorbs sh key e.2 (path ++ [e.1]) (Assoc.get us e.1) = true := by
      intro n hn
      have hn := h n hn
      cases n with
      | obj us =>
        refine ⟨us, rfl, ?_⟩
        simpa [absorbs, hreg, absorbsFields_iff, List.all_eq_true] using hn
      | _ => simp [absorbs, hreg] at hn
    obtain ⟨n, hn, w, hw, hkind⟩ := hmade [] u rfl
    obtain ⟨us, rfl, -⟩ := heach n hn
    obtain rfl := Option.some.inj hw
    obtain ⟨fs, rfl⟩ := Value.isObj_iff.mp hkind.symm
    simp only [absorbs, hreg, Bool.false_or, Bool.and_eq_true, List.all_eq_true, absorbsFields_iff]
    refine ⟨fun e he => ?_, fun e he => ih e he (hmade.field e.1) fun x hx => ?_⟩
    · obtain ⟨us, hus, x, hx, hk⟩ := hmade.mem he
      obtain ⟨us', heq, hkeys, -⟩ := heach _ hus
      cases heq
      exact hk ▸ hkeys x hx
    · obtain ⟨n, hn, hreach⟩ := List.mem_filterMap.mp hx
      obtain ⟨us, rfl, hget⟩ := Value.reach_one hreach
      obtain ⟨us', heq, -, hfields⟩ := heach _ hn
      cases heq
      exact hget ▸ hfields e he

theorem assignable_of_made (v : Value) {node : Option Value} (hmade : MadeOf nodes node)
    (h : ∀ n ∈ nodes, assignable sh key v path (some n) = true) :
    assignable sh key v path node = true := by
  cases node with
  | none => cases v <;> rfl
  | some u =>
  cases v with
  | obj gs =>
    obtain ⟨n, hn, w, hw, hkind⟩ := hmade [] u rfl
    obtain rfl := Option.some.inj hw
    by_cases hreg : sh.isRegister key path = true
    · cases u with
      | obj fs =>
        simp only [assignable, hreg, if_true, List.all_eq_true]
        intro e he
        obtain ⟨us, hus, x, hx, hk⟩ := hmade.mem he
        have hkeys := h _ hus
        simp only [assignable, hreg, if_true, List.all_eq_true] at hkeys
        exact hk ▸ hkeys x hx
      | _ => exact hreg
    have hreg := Bool.eq_false_iff.mpr hreg
    have heach : ∀ n ∈ nodes, ∃ us, n = .obj us ∧
        ∀ e ∈ gs, absorbs sh key e.2 (path ++ [e.1]) (Assoc.get us e.1) = true := by
      intro n hn
      have hn := h n hn
      cases n with
      | obj us => exact ⟨us, rfl, by simpa [assignable, hreg, absorbsFields_iff] using hn⟩
      | _ => simp [assignable, hreg] at hn
    obtain ⟨us, rfl, -⟩ := heach _ hn
    obtain ⟨fs, rfl⟩ := Value.isObj_iff.mp hkind.symm
    rw [assignable, if_neg (by simp [hreg]), absorbsFields_iff]
    refine fun e he => absorbs_of_made e.2 (hmade.field e.1) fun x hx => ?_
    obtain ⟨n, hn, hreach⟩ := List.mem_filterMap.mp hx
    obtain ⟨us, rfl, hget⟩ := Value.reach_one hreach
    obtain ⟨us', heq, hfields⟩ := heach _ hn
    cases heq
    exact hget ▸ hfields e he
  | _ => rfl

/-- What meets each of several trees meets what is made of them. -/
theorem meets_of_made (v : Value) (p : Path) : ∀ {path : Path} {nodes : List Value} {node : Option Value},
    MadeOf nodes node → (∀ n ∈ nodes, meets sh key p v path (some n) = true) →
    meets sh key p v path node = true := by
  induction p with
  | nil => exact fun hmade h => assignable_of_made v hmade h
  | cons k p ih =>
    intro path nodes node hmade h
    cases node with
    | none => rfl
    | some u =>
      have heach : ∀ n ∈ nodes, ∃ us, n = .obj us ∧
          meets sh key p v (path ++ [k]) (Assoc.get us k) = true := by
        intro n hn
        have hn := h n hn
        cases n with
        | obj us => exact ⟨us, rfl, hn⟩
        | _ => cases hn
      obtain ⟨n, hn, w, hw, hkind⟩ := hmade [] u rfl
      obtain ⟨us, rfl, -⟩ := heach n hn
      obtain rfl := Option.some.inj hw
      obtain ⟨fs, rfl⟩ := Value.isObj_iff.mp hkind.symm
      refine ih (hmade.field k) fun x hx => ?_
      obtain ⟨n, hn, hreach⟩ := List.mem_filterMap.mp hx
      obtain ⟨us, rfl, hget⟩ := Value.reach_one hreach
      obtain ⟨us', heq, hmeets⟩ := heach _ hn
      cases heq
      exact hget ▸ hmeets

end MadeOf

/-! ## Changes laid one after the other -/

namespace Change

/-- What a change by itself makes of its record's diff. -/
def diff (change : Change) : Value := lay change.path change.write.value none

/-- Whether a change writes over all that an earlier one left. -/
def buries (sh : Shape) (later earlier : Change) : Bool :=
  sh.recordKey later.c later.id = sh.recordKey earlier.c earlier.id &&
    later.path.isPrefixOf earlier.path && !later.write.value.isObj

/-- Whether a change meets what it can be laid over in what an earlier one left. -/
def meets (sh : Shape) (later earlier : Change) : Bool :=
  sh.recordKey later.c later.id ≠ sh.recordKey earlier.c earlier.id ||
    Core.meets sh (sh.recordKey later.c later.id) later.path later.write.value [] (some earlier.diff)

end Change

/-- Whether each change meets what it can be laid over in all that the ones before it left. -/
def meetAll (sh : Shape) : List Change → List Change → Bool
  | _, [] => true
  | before, change :: changes =>
    before.all (change.meets sh ·) &&
      meetAll sh (before.filter (fun b => !change.buries sh b) ++ [change]) changes

/-- What is at a place of a diff with a value laid in it was laid there now, or was there and is not
written over. -/
theorem reach_lay {v u : Value} (hv : distinct v = true) : ∀ {p : Path} {node : Option Value} {s : Path},
    (lay p v node).reach s = some u →
    (∃ w, (lay p v none).reach s = some w ∧ w.isObj = u.isObj) ∨
      ((∃ w, node.bind (Value.reach · s) = some w ∧ w.isObj = u.isObj) ∧
        ¬ (p <+: s ∧ v.isObj = false)) := by
  intro p
  induction p with
  | nil =>
    intro node s h
    by_cases hobj : v.isObj = true
    swap
    · rw [lay_leaf (by simpa using hobj)] at h ⊢
      exact .inl ⟨u, h, rfl⟩
    obtain ⟨gs, rfl⟩ := Value.isObj_iff.mp hobj
    cases node with
    | none => exact .inl ⟨u, h, rfl⟩
    | some n =>
      cases n with
      | obj fs =>
        cases s with
        | nil =>
          obtain rfl := Option.some.inj h
          exact .inl ⟨.obj gs, rfl, rfl⟩
        | cons k s =>
          rw [lay, Value.reach, Value.get_assign (Value.distinct_obj.mp hv).1] at h
          cases hget : Assoc.get gs k with
          | some w =>
            rw [hget] at h
            exact .inl ⟨u, by simpa [lay, Value.reach, hget] using h, rfl⟩
          | none =>
            rw [hget, Option.none_or] at h
            exact .inr ⟨⟨u, by simpa [Value.reach] using h, rfl⟩, by simp⟩
      | _ => exact .inl ⟨u, h, rfl⟩
  | cons k p ih =>
    intro node s h
    cases s with
    | nil =>
      obtain rfl := Option.some.inj h
      exact .inl ⟨_, rfl, rfl⟩
    | cons k' s =>
      simp only [lay, Value.reach, Assoc.get_set, Option.bind_none, Option.getD_none, Assoc.get_nil] at h ⊢
      by_cases hk : k = k'
      · subst hk
        rw [if_pos rfl, Option.bind_some] at h
        rw [if_pos rfl, Option.bind_some]
        refine (ih h).imp id fun ⟨⟨w, hw, hkind⟩, hoff⟩ => ⟨⟨w, ?_, hkind⟩, by simpa using hoff⟩
        cases node with
        | none => simp at hw
        | some n => cases n <;> exact hw
      · rw [if_neg hk] at h
        refine .inr ⟨⟨u, ?_, rfl⟩, by simp [hk]⟩
        cases node with
        | none => simp at h
        | some n => cases n <;> exact h

/-- What a value laid by itself holds is on the way to its path, or beneath it. -/
theorem reach_alone {v u : Value} {p s : Path} (h : (lay p v none).reach s = some u) :
    s <+: p ∨ p <+: s := by
  induction p generalizing s with
  | nil => exact .inr List.nil_prefix
  | cons k p ih =>
    cases s with
    | nil => exact .inl List.nil_prefix
    | cons k' s =>
      simp only [lay, Value.reach, Assoc.get_set, Option.bind_none, Option.getD_none, Assoc.get_nil] at h
      split_ifs at h with hk
      · subst hk
        exact (ih h).imp (fun hle => List.cons_prefix_cons.mpr ⟨rfl, hle⟩) fun hle =>
          List.cons_prefix_cons.mpr ⟨rfl, hle⟩
      · cases h

/-- The way to it is objects. -/
theorem reach_above (v : Value) {p s : Path} (hs : s <+: p) (hne : s ≠ p) :
    ∃ fs, (lay p v none).reach s = some (.obj fs) := by
  induction p generalizing s with
  | nil => exact absurd (List.prefix_nil.mp hs) hne
  | cons k p ih =>
    cases s with
    | nil => exact ⟨_, rfl⟩
    | cons k' s =>
      obtain ⟨rfl, hle⟩ := List.cons_prefix_cons.mp hs
      obtain ⟨fs, hfs⟩ := ih hle fun heq => hne (by rw [heq])
      exact ⟨fs, by simpa [lay, Value.reach] using hfs⟩

/-- What the changes of a record laid in its diff. -/
def laid (sh : Shape) (key : RecordKey) (changes : List Change) : List Value :=
  (changes.filter fun ch => sh.recordKey ch.c ch.id = key).map Change.diff

theorem mem_laid {changes : List Change} {v : Value} :
    v ∈ laid sh key changes ↔ ∃ ch ∈ changes, sh.recordKey ch.c ch.id = key ∧ ch.diff = v := by
  simp [laid, and_assoc]

/-- A diff with a change laid in it is made of what the changes laid that it does not write over. -/
theorem MadeOf.lay {before : List Change} {node : Option Value} {ch : Change}
    (hv : distinct ch.write.value = true) (hkey : sh.recordKey ch.c ch.id = key)
    (h : MadeOf (laid sh key before) node) :
    MadeOf (laid sh key (before.filter (fun b => !ch.buries sh b) ++ [ch]))
      (some (lay ch.path ch.write.value node)) := by
  intro s u hu
  have hself : ch.diff ∈ laid sh key (before.filter (fun b => !ch.buries sh b) ++ [ch]) :=
    mem_laid.mpr ⟨ch, by simp, hkey, rfl⟩
  rcases reach_lay hv hu with ⟨w, hw, hkind⟩ | ⟨⟨w, hw, hkind⟩, hoff⟩
  · exact ⟨_, hself, w, hw, hkind⟩
  obtain ⟨n, hn, x, hx, hkind'⟩ := h s w hw
  obtain ⟨b, hb, hbkey, rfl⟩ := mem_laid.mp hn
  cases hburied : ch.buries sh b with
  | false => exact ⟨_, mem_laid.mpr ⟨b, by simp [hb, hburied], hbkey, rfl⟩, x, hx, hkind'.trans hkind⟩
  | true =>
    simp only [Change.buries, Bool.and_eq_true, Bool.not_eq_true', List.isPrefixOf_iff_prefix] at hburied
    obtain ⟨⟨-, hle⟩, hleaf⟩ := hburied
    have hnot : ¬ ch.path <+: s := fun hs => hoff ⟨hs, hleaf⟩
    have hs : s <+: b.path := (reach_alone hx).resolve_right fun hs => hnot (hle.trans hs)
    have hs' : s <+: ch.path := (List.prefix_or_prefix_of_prefix hs hle).resolve_right hnot
    have hne : s ≠ ch.path := fun heq => hnot (heq ▸ List.prefix_rfl)
    obtain ⟨fs, hfs⟩ := reach_above ch.write.value hs' hne
    obtain ⟨gs, hgs⟩ := reach_above b.write.value hs fun heq => hnot (heq ▸ hle)
    obtain rfl : Value.obj gs = x := Option.some.inj (hgs.symm.trans hx)
    exact ⟨_, hself, _, hfs, hkind'.trans hkind⟩

end LazyStorage.Core
