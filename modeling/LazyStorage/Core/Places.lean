import LazyStorage.Core.Touches
import LazyStorage.Lib.Overwrite

/-! # What a trusted change writes, place by place

What stands at each place of a record is what makes two records the same, whatever
the order of their keys. A trusted change makes the way to its place, if it has to,
and writes over what is there; a put that meets a container makes nothing there and
is merged in.
-/
namespace LazyStorage.Core

open Lib

/-- What may stand at a place besides a container: an array of so many items, or a plain value. -/
inductive Leaf
  | array (length : ℕ)
  | plain (value : Value)

namespace Value

def spot : Value → Spot Leaf
  | obj _ => .node
  | arr items => .leaf (.array items.length)
  | v => .leaf (.plain v)

theorem spot_eq_node {v : Value} : v.spot = .node ↔ ∃ fs, v = obj fs := by
  cases v <;> simp [spot]

/-- What stands at each place of a value, if there is one. -/
def spots (v : Option Value) : Spots String Leaf := fun p =>
  match v.bind (valueAt · p) with
  | some w => w.spot
  | none => .nothing

theorem spots_none : spots none = fun _ => .nothing := rfl

theorem spots_root (v : Value) : spots (some v) [] = v.spot := rfl

theorem spots_obj_cons (fs : List (String × Value)) (k : String) (r : Path) :
    spots (some (obj fs)) (k :: r) = spots (Assoc.get fs k) r := by
  simp only [spots, Option.bind_some, valueAt_cons, prop]

theorem spots_append {v : Option Value} {q : Path} (r : Path) :
    spots v (q ++ r) = spots (v.bind (valueAt · q)) r := by
  cases v with
  | none => rfl
  | some v => simp only [spots, Option.bind_some, valueAt_append]

theorem spots_eq_node {v : Option Value} {q : Path} :
    spots v q = .node ↔ ∃ fs, v.bind (valueAt · q) = some (obj fs) := by
  unfold spots
  cases v.bind (valueAt · q) with
  | none => simp
  | some w => simp [spot_eq_node]

theorem spots_empty : spots (some (obj [])) = Spots.bare := by
  funext r
  cases r with
  | nil => rfl
  | cons k r => rw [spots_obj_cons]; rfl

theorem arrayIndex_eq {items : List Value} {seg : String} {i : ℕ}
    (h : arrayIndex items seg = some i) : toString i = seg := by
  simpa using List.find?_some h

/-- A property written leaves the others. -/
theorem prop_withProp_of_ne {v x y : Value} {seg k : String} (h : v.prop seg = some x) (hk : seg ≠ k) :
    (v.withProp seg y).prop k = v.prop k := by
  cases v with
  | obj fs => simp [withProp, prop, Assoc.get_set_of_ne _ _ hk]
  | arr items =>
    simp only [withProp]
    cases hi : arrayIndex items seg with
    | none => rfl
    | some i =>
      simp only [prop, List.length_set, arrayIndex_set]
      split_ifs
      · rfl
      cases hj : arrayIndex items k with
      | none => rfl
      | some j =>
        have hij : i ≠ j := fun hij => hk ((arrayIndex_eq hi).symm.trans (hij ▸ arrayIndex_eq hj))
        simp [List.getElem?_set_ne hij]
  | _ => simp [prop] at h

theorem spot_withProp (v : Value) (seg : String) (y : Value) : (v.withProp seg y).spot = v.spot := by
  cases v with
  | arr items =>
    simp only [withProp]
    split <;> simp [spot]
  | _ => rfl

/-- A change made in place to a container writes over that place. -/
theorem spots_modifyAt {f : Value → Value} {q : Path} {v : Value} {fs : List (String × Value)}
    (h : valueAt v q = some (obj fs)) :
    spots (some (modifyAt f q v)) = (spots (some v)).write q (spots (some (f (obj fs)))) := by
  induction q generalizing v with
  | nil =>
    obtain rfl := Option.some.inj h
    funext r
    rw [Spots.write_at List.nil_prefix]
    rfl
  | cons seg q ih =>
    rw [valueAt_cons] at h
    obtain ⟨x, hx, h⟩ := Option.bind_eq_some_iff.mp h
    have hwritten := prop_withProp (y := modifyAt f q x) hx (not_num_of_valueAt h)
    funext r
    simp only [modifyAt, hx]
    cases r with
    | nil =>
      rw [Spots.write_off (by simp), spots_root, spots_root, spot_withProp]
    | cons k r =>
      have hstep : ∀ w : Value, spots (some w) (k :: r) = spots (w.prop k) r := fun w => by
        simp only [spots, Option.bind_some, valueAt_cons]
      rw [hstep]
      by_cases hk : seg = k
      · subst hk
        rw [hwritten, ih h]
        unfold Spots.write
        simp only [List.cons_prefix_cons, true_and, List.length_cons, List.drop_succ_cons]
        split_ifs
        · rfl
        · rw [hstep, hx]
      · rw [prop_withProp_of_ne hx hk, Spots.write_off (by simp [hk]), hstep]

/-- A field of a container, written or erased: all at its place. -/
theorem spots_field (last : String) {f : Value → Value} {q : Path} {v : Value}
    {fs gs : List (String × Value)} (h : valueAt v q = some (obj fs)) (hf : f (obj fs) = obj gs)
    (hother : ∀ k, k ≠ last → Assoc.get gs k = Assoc.get fs k) :
    spots (some (modifyAt f q v)) =
      (spots (some v)).write (q ++ [last]) (spots (Assoc.get gs last)) := by
  rw [spots_modifyAt h, hf]
  funext r
  by_cases hq : q <+: r
  · obtain ⟨r, rfl⟩ := hq
    have hthere : ∀ r, spots (some v) (q ++ r) = spots (some (obj fs)) r := fun r => by
      rw [spots_append, Option.bind_some, h]
    rw [Spots.write_at (List.prefix_append _ _), List.drop_left]
    cases r with
    | nil =>
      have hoff : ¬ q ++ [last] <+: q ++ [] := fun hle => by
        have hlen := hle.length_le
        simp only [List.append_nil, List.length_append, List.length_singleton] at hlen
        omega
      rw [Spots.write_off hoff, hthere]
      rfl
    | cons k r =>
      rw [spots_obj_cons]
      by_cases hk : k = last
      · subst hk
        rw [Spots.write_at (by simp)]
        simp
      · rw [Spots.write_off (by simpa using Ne.symm hk), hthere, spots_obj_cons, hother k hk]
  · rw [Spots.write_off hq, Spots.write_off fun hle => hq ((List.prefix_append _ _).trans hle)]

end Value

/-- The loop over a parent path makes a container at each place where none is. -/
theorem spots_makeContainers (path : Path) (v : Option Value) :
    path.inits.foldl (fun t q => t.make q) (Value.spots v) =
      Value.spots (some (makeContainers path ((v.filter Value.isObj).getD (.obj [])))) := by
  have hroot : ∀ v : Option Value,
      (Value.spots v).make [] = Value.spots (some ((v.filter Value.isObj).getD (.obj []))) := by
    intro v
    by_cases hnode : Value.spots v [] = .node
    · obtain ⟨fs, hfs⟩ := Value.spots_eq_node.mp hnode
      cases v with
      | none => cases hfs
      | some v =>
        obtain rfl := Option.some.inj hfs
        rw [Spots.make_of_node hnode]
        rfl
    · have hnone : v.filter Value.isObj = none := by
        rw [Option.filter_eq_none_iff]
        rintro w rfl hobj
        exact hnode (Value.spot_eq_node.mpr (Value.isObj_iff.mp hobj))
      rw [Spots.make_of_not_node hnode, hnone, Option.getD_none, Value.spots_empty]
      funext r
      rw [Spots.write_at List.nil_prefix]
      rfl
  induction path generalizing v with
  | nil => exact hroot v
  | cons seg path ih =>
    rw [List.inits_cons, List.foldl_cons, hroot]
    obtain ⟨fs, hfs⟩ : ∃ fs, (v.filter Value.isObj).getD (.obj []) = .obj fs := by
      cases hv : v.filter Value.isObj with
      | none => exact ⟨[], rfl⟩
      | some w => exact Value.isObj_iff.mp (Option.filter_eq_some_iff.mp hv).2
    have hmade : makeContainers (seg :: path) (.obj fs) = .obj (Assoc.set fs seg
        (makeContainers path (((Assoc.get fs seg).filter Value.isObj).getD (.obj [])))) := by
      simp only [makeContainers, Value.fields?]
      cases (Assoc.get fs seg).filter Value.isObj <;> rfl
    rw [hfs, hmade]
    funext r
    cases r with
    | nil => exact Spots.foldl_make_off (by simp) _ _
    | cons k r =>
      rw [Value.spots_obj_cons]
      by_cases hk : k = seg
      · subst hk
        have hbeneath : (fun r => Value.spots (some (.obj fs)) (k :: r)) = Value.spots (Assoc.get fs k) :=
          funext fun r => Value.spots_obj_cons fs k r
        rw [Assoc.get_set_self, Spots.foldl_make_cons, ← ih, hbeneath]
      · rw [Assoc.get_set_of_ne _ _ (Ne.symm hk), Spots.foldl_make_off (by simpa using Ne.symm hk),
          Value.spots_obj_cons]

variable {sh : Shape} {key : RecordKey} {ts : ℕ}

/-- What a write leaves at its place and beneath. -/
def contents (kind : Kind) (value : Value) : Spots String Leaf :=
  if kind = .del then fun _ => .nothing else Value.spots (some value)

mutual

/-- A change whose place has a parent, as writes: a put makes a container, if there is none, and goes
on with its fields. -/
def overwrites (sh : Shape) (key : RecordKey) :
    Value → Kind → Path → List (Overwrite String Leaf)
  | .obj fs, kind, path =>
    if settledKind sh key path kind (.obj fs) = .put then .make path :: overwritesFields sh key fs path
    else [.write path (contents kind (.obj fs))]
  | v, kind, path => [.write path (contents kind v)]

def overwritesFields (sh : Shape) (key : RecordKey) :
    List (String × Value) → Path → List (Overwrite String Leaf)
  | [], _ => []
  | (k, v) :: fs, path =>
    overwrites sh key v (changeFor v).kind (path ++ [k]) ++ overwritesFields sh key fs path

end

mutual

/-- Whether a value is stored the same where nothing is as where it is merged in: each field once, and
none null. What is written whole is not looked into. -/
def mergeable (sh : Shape) (key : RecordKey) : Value → Path → Bool
  | .obj fs, path =>
    sh.isRegister key path || ((fs.map Prod.fst).Nodup && mergeableFields sh key fs path)
  | _, _ => true

def mergeableFields (sh : Shape) (key : RecordKey) : List (String × Value) → Path → Bool
  | [], _ => true
  | (k, v) :: fs, path =>
    v ≠ .null && mergeable sh key v (path ++ [k]) && mergeableFields sh key fs path

end

theorem contents_changeFor {v : Value} (h : v ≠ .null) :
    contents (changeFor v).kind v = Value.spots (some v) := by
  cases v <;> first | rfl | exact absurd rfl h

theorem overwrites_of_not_put {kind : Kind} {value : Value} {path : Path}
    (h : settledKind sh key path kind value ≠ .put) :
    overwrites sh key value kind path = [.write path (contents kind value)] := by
  cases value with
  | obj fs => rw [overwrites, if_neg h]
  | _ => rfl

theorem mergeableFields_iff {fs : List (String × Value)} {path : Path} :
    mergeableFields sh key fs path = true ↔
      ∀ e ∈ fs, e.2 ≠ .null ∧ mergeable sh key e.2 (path ++ [e.1]) = true := by
  induction fs with
  | nil => simp [mergeableFields]
  | cons e fs ih => simp [mergeableFields, ih, and_assoc]

/-- A change writes at its place and beneath alone. -/
theorem overwrites_off (value : Value) : ∀ (kind : Kind) (path : Path) {r : Path}
    (t : Spots String Leaf), ¬ path <+: r →
    Overwrite.runAll (overwrites sh key value kind path) t r = t r := by
  induction value using Value.merging_induction with
  | leaf v hv =>
    intro kind path r t hr
    rw [overwrites_of_not_put (by cases kind <;> simp [settledKind, hv])]
    exact Spots.write_off hr
  | fields fs ih =>
    intro kind path r t hr
    by_cases hput : settledKind sh key path kind (.obj fs) = .put
    · have hfields : ∀ (gs : List (String × Value)), (∀ e ∈ gs, e ∈ fs) → ∀ t : Spots String Leaf,
          Overwrite.runAll (overwritesFields sh key gs path) t r = t r := by
        intro gs hg
        induction gs with
        | nil => exact fun t => rfl
        | cons e gs ihg =>
          intro t
          have hoff : ¬ path ++ [e.1] <+: r := fun hle => hr ((List.prefix_append _ _).trans hle)
          rw [overwritesFields, Overwrite.runAll_append, ihg fun e he => hg e (by simp [he])]
          exact ih e (hg e (by simp)) _ _ t hoff
      rw [overwrites, if_pos hput]
      refine (hfields fs (fun _ h => h) (t.make path)).trans ?_
      unfold Spots.make
      split_ifs
      · rfl
      · exact Spots.write_off hr
    · rw [overwrites_of_not_put hput]
      exact Spots.write_off hr

/-- Fields put where none of them is. -/
theorem runAll_fields {fs : List (String × Value)} {path : Path} {t : Spots String Leaf}
    (hone : ∀ e ∈ fs, ∀ t : Spots String Leaf, t (path ++ [e.1]) ≠ .node →
      Overwrite.runAll (overwrites sh key e.2 (changeFor e.2).kind (path ++ [e.1])) t =
        t.write (path ++ [e.1]) (Value.spots (some e.2)))
    (hdistinct : (fs.map Prod.fst).Nodup) (ht : ∀ e ∈ fs, t (path ++ [e.1]) ≠ .node) :
    (∀ r, (∀ e ∈ fs, ¬ path ++ [e.1] <+: r) →
      Overwrite.runAll (overwritesFields sh key fs path) t r = t r) ∧
    ∀ k v rest, Assoc.get fs k = some v →
      Overwrite.runAll (overwritesFields sh key fs path) t (path ++ k :: rest) =
        Value.spots (some v) rest := by
  induction fs generalizing t with
  | nil => exact ⟨fun _ _ => rfl, fun k v rest h => nomatch h⟩
  | cons e fs ih =>
    simp only [List.map_cons, List.nodup_cons] at hdistinct
    obtain ⟨hnew, hdistinct⟩ := hdistinct
    have hfirst := hone e (by simp) t (ht e (by simp))
    have hapart : ∀ e' ∈ fs, ¬ path ++ [e.1] <+: path ++ [e'.1] := by
      intro e' he' hle
      have heq : e.1 = e'.1 := by simpa using hle
      exact hnew (heq ▸ List.mem_map_of_mem he')
    obtain ⟨hoff, hat⟩ := ih (t := t.write (path ++ [e.1]) (Value.spots (some e.2)))
      (fun e he => hone e (by simp [he])) hdistinct fun e' he' => by
        rw [Spots.write_off (hapart e' he')]
        exact ht e' (by simp [he'])
    simp only [overwritesFields, Overwrite.runAll_append, hfirst]
    refine ⟨fun r hr => ?_, fun k v rest hget => ?_⟩
    · rw [hoff r fun e he => hr e (by simp [he]), Spots.write_off (hr e (by simp))]
    · rw [Assoc.get_cons] at hget
      split_ifs at hget with hk
      · cases hget
        subst hk
        rw [hoff, Spots.write_at (by simp)]
        · simp
        · intro e' he' hle
          have heq : e'.1 = e.1 := by simpa using hle
          exact hnew (heq ▸ List.mem_map_of_mem he')
      · exact hat k v rest hget

/-- What is put where no container is stands there as it was given. -/
theorem runAll_fresh (value : Value) : ∀ (kind : Kind) (path : Path) (t : Spots String Leaf),
    kind ≠ .del → mergeable sh key value path = true → t path ≠ .node →
    Overwrite.runAll (overwrites sh key value kind path) t =
      t.write path (Value.spots (some value)) := by
  have hwhole : ∀ (value : Value) (kind : Kind) (path : Path) (t : Spots String Leaf), kind ≠ .del →
      settledKind sh key path kind value ≠ .put →
      Overwrite.runAll (overwrites sh key value kind path) t =
        t.write path (Value.spots (some value)) := by
    intro value kind path t hkind hput
    rw [overwrites_of_not_put hput, contents, if_neg hkind]
    rfl
  induction value using Value.merging_induction with
  | leaf v hv =>
    intro kind path t hkind _ _
    exact hwhole v kind path t hkind (by cases kind <;> simp [settledKind, hv])
  | fields fs ih =>
    intro kind path t hkind hmerge ht
    by_cases hput : settledKind sh key path kind (.obj fs) = .put
    swap
    · exact hwhole _ kind path t hkind hput
    have hreg := isRegister_of_put hput
    simp only [mergeable, hreg, Bool.false_or, Bool.and_eq_true, decide_eq_true_eq,
      mergeableFields_iff] at hmerge
    obtain ⟨hdistinct, hfields⟩ := hmerge
    have hmade : ∀ k, t.write path Spots.bare (path ++ [k]) ≠ .node := by
      intro k
      rw [Spots.write_at (List.prefix_append _ _), List.drop_left]
      simp [Spots.bare]
    obtain ⟨hoff, hat⟩ := runAll_fields (t := t.write path Spots.bare)
      (fun e he t ht => ih e he _ _ t (by
        have := (hfields e he).1
        cases hv : e.2 <;> simp_all [changeFor, Write.kind]) (hfields e he).2 ht)
      hdistinct fun e _ => hmade e.1
    have hrun : Overwrite.runAll (overwrites sh key (.obj fs) kind path) t =
        Overwrite.runAll (overwritesFields sh key fs path) (t.write path Spots.bare) := by
      rw [overwrites, if_pos hput, ← Spots.make_of_not_node ht]
      rfl
    funext r
    rw [hrun]
    by_cases hr : path <+: r
    swap
    · rw [hoff r fun e _ hle => hr ((List.prefix_append _ _).trans hle), Spots.write_off hr,
        Spots.write_off hr]
    obtain ⟨r, rfl⟩ := hr
    rw [Spots.write_at (List.prefix_append _ _), List.drop_left]
    have hbare : ∀ r, t.write path Spots.bare (path ++ r) = Spots.bare r := fun r => by
      rw [Spots.write_at (List.prefix_append _ _), List.drop_left]
    cases r with
    | nil =>
      rw [hoff _ fun e _ hle => by
        have hlen := hle.length_le
        simp only [List.append_nil, List.length_append, List.length_singleton] at hlen
        omega, hbare]
      rfl
    | cons k r =>
      rw [Value.spots_obj_cons]
      cases hget : Assoc.get fs k with
      | some v => exact hat k v r hget
      | none =>
        rw [hoff _ fun e he hle => ?_, hbare]
        · rfl
        · have heq : e.1 = k := by simpa using hle
          exact Assoc.get_eq_none_iff.mp hget (heq ▸ List.mem_map_of_mem he)

end LazyStorage.Core
