import LazyStorage.Core.Diffed

/-! # A batch as the changes it makes

The state library tells of a batch by a diff and an inverse. Walked together with
the state the batch left, they give the changes that make the batch: trusted, one after
the other, on a doc that holds the state as it was, they leave the state as it is.
-/
namespace LazyStorage.Core

open Lib

section Compile

variable (sh : Shape) (hasArrayMarker : List (String × Value) → Bool) (state : Value)

/-- Whether a diff node stands for an array: a whole one, or a fragment of one. -/
def arrayish : Value → Bool
  | .arr _ => true
  | .obj fs => hasArrayMarker fs
  | _ => false

/-- What of an inverse is under a key. -/
def inverseAt (inv : Option Value) (key : String) : Option Value :=
  match inv with
  | some (.obj is) => Assoc.get is key
  | _ => none

/-- The change that writes what the state has at a path, a leaf or not; where it has nothing, what was
there is deleted, if anything was. -/
def wholeOf (key : RecordKey) (path : Path) (leaf : Bool) (inv : Option Value) : List Change :=
  match valueAt state (Shape.full key path) with
  | none => if inv = none ∨ inv = some .null then [] else [⟨key.1, key.2, path, .del⟩]
  | some value => [⟨key.1, key.2, path, if value.isObj && !leaf then .put value else .set value⟩]

mutual

def walk (key : RecordKey) : Value → Path → Option Value → Except ModelError (List Change)
  | .null, path, _ => .ok [⟨key.1, key.2, path, .del⟩]
  | .obj fs, path, inv =>
    if sh.isRegister key path || hasArrayMarker fs || !inv.any Value.isObj then
      .ok (wholeOf state key path (sh.isRegister key path || hasArrayMarker fs) inv)
    else walkFields key fs path inv
  | _, path, inv => .ok (wholeOf state key path true inv)

def walkFields (key : RecordKey) : List (String × Value) → Path → Option Value → Except ModelError (List Change)
  | [], _, _ => .ok []
  | (k, node) :: fs, path, inv => do
    refuse (sh.forbidden k) ("\"" ++ "/".intercalate (Shape.full key (path ++ [k])) ++ "\" uses a reserved name")
      (Shape.full key (path ++ [k]))
    let changes ← walk key node (path ++ [k]) (inverseAt inv k)
    let more ← walkFields key fs path inv
    return changes ++ more

end

/-- The records of a collection, each walked. -/
def compileRecords (c : String) : List (String × Value) → Option Value → Except ModelError (List Change)
  | [], _ => .ok []
  | (id, value) :: fs, inv => do
    refuse (sh.forbidden id) ("\"" ++ c ++ "/" ++ id ++ "\" uses a reserved name") [c, id]
    refuse (value ≠ .null && !value.isObj && !sh.isRegister (c, some id) [])
      ("A record of \"" ++ c ++ "\" is an object") [c, id]
    let changes ← walk sh hasArrayMarker state (c, some id) value [] (inverseAt inv id)
    let more ← compileRecords c fs inv
    return changes ++ more

/-- What a diff has under a name of the top level. -/
def compileUnder (c : String) (node : Value) (inv : Option Value) : Except ModelError (List Change) := do
  refuse (!sh.has c) ("\"" ++ c ++ "\" is not a collection or singleton of this store") [c]
  if sh.isSingleton c then
    refuse (node = .null) ("\"" ++ c ++ "\" is a singleton, and cannot be deleted") [c]
    walk sh hasArrayMarker state (c, none) node [] inv
  else
    refuse (!node.isObj || arrayish hasArrayMarker node)
      ("\"" ++ c ++ "\" is a collection: write its records, not the collection") [c]
    compileRecords sh hasArrayMarker state c ((Value.fields? node).getD []) inv

def compileFields : List (String × Value) → Option Value → Except ModelError (List Change)
  | [], _ => .ok []
  | (c, node) :: fs, inverse => do
    let changes ← compileUnder sh hasArrayMarker state c node (inverseAt inverse c)
    let more ← compileFields fs inverse
    return changes ++ more

/-- A batch as the changes it makes, from its diff, its inverse and the state it left. -/
def compile (diff : Value) (inverse : Option Value) : Except ModelError (List Change) :=
  match diff with
  | .obj fs => compileFields sh hasArrayMarker state fs inverse
  | _ => .ok []

end Compile

/-- What the state library promises of a batch, at a place: the diff holds what was written, nested, null for a
deletion and arrays whole or marked as fragments; the inverse what was there before, null where
nothing was. -/
inductive Tells (hasArrayMarker : List (String × Value) → Bool) :
    Value → Option Value → Option Value → Option Value → Prop
  | deleted (inv before : Option Value) : Tells hasArrayMarker .null inv before none
  | gone {node : Value} {inv : Option Value} (there : node ≠ .null) (was : inv = none ∨ inv = some .null) :
      Tells hasArrayMarker node inv none none
  | written {node value : Value} (inv before : Option Value) (leaf : node.isObj = false ∨ arrayish hasArrayMarker node)
      (there : node ≠ .null) (whole : value.isObj = false) : Tells hasArrayMarker node inv before (some value)
  | made {fs gs : List (String × Value)} {inv before : Option Value} (object : hasArrayMarker fs = false)
      (was : before = none ∧ (inv = none ∨ inv = some .null) ∨
        ∃ v, before = some v ∧ inv = some v ∧ v.isObj = false) :
      Tells hasArrayMarker (.obj fs) inv before (some (.obj gs))
  | within {fs is bs gs : List (String × Value)} (object : hasArrayMarker fs = false)
      (told : ∀ k node, Assoc.get fs k = some node →
        Tells hasArrayMarker node (Assoc.get is k) (Assoc.get bs k) (Assoc.get gs k))
      (untold : ∀ k, Assoc.get fs k = none → Value.spots (Assoc.get bs k) = Value.spots (Assoc.get gs k)) :
      Tells hasArrayMarker (.obj fs) (some (.obj is)) (some (.obj bs)) (some (.obj gs))

/-- What the library promises of a whole batch, on a state whose collections are objects. -/
structure Batch (sh : Shape) (hasArrayMarker : List (String × Value) → Bool) (diff inverse before after : Value) :
    Prop where
  tells : Tells hasArrayMarker diff (some inverse) (some before) (some after)
  once : distinct diff = true
  states : before.isObj = true ∧ after.isObj = true
  collections : ∀ c, sh.isCollection c = true → (valueAt before [c]).any Value.isObj = true

variable {sh : Shape} {hasArrayMarker : List (String × Value) → Bool} {state : Value} {key : RecordKey} {ts : ℕ}
  {path : Path} {node : Value} {inv b a : Option Value} {changes : List Change} {d : Doc sh}

/-- Changes made one after the other write what a place is to have, and nothing else. -/
def Makes (ts : ℕ) (key : RecordKey) (path : Path) (a : Option Value) (changes : List Change) (d : Doc sh) : Prop :=
  ∃ out, applyAll ts .trust changes d = .ok out ∧ out.doc.spots key = (d.spots key).write path (Value.spots a) ∧
    ∀ other, other ≠ key → out.doc.spots other = d.spots other

/-- A change that merges with nothing, its way there, writes its value. -/
theorem makes_one {w : Write} (hkey : sh.keyed key = true) (hfixed : fixedParent sh key path = false)
    (hkept : path = [] → w = .del → sh.isSingleton key.1 = false)
    (hway : path ≠ [] → d.spots key path.dropLast = .node)
    (hput : settledKind sh key path w.kind w.value = .put → d.spots key path ≠ .node)
    (hwrites : contents w.kind w.value = Value.spots a) : Makes ts key path a [⟨key.1, key.2, path, w⟩] d := by
  have hrecord := Shape.recordKey_keyed hkey
  have happly : apply ts .trust ⟨key.1, key.2, path, w⟩ d = .ok (run ts .trust key w.value w.kind path d) := by
    unfold apply
    rw [if_neg]
    · dsimp only
      rw [hrecord]
    · simp only [Bool.and_eq_true, List.isEmpty_iff, decide_eq_true_eq, not_and, Bool.not_eq_true]
      exact fun h => hkept h.1 h.2
  have hways : Overwrite.runAll (waysTo path) (d.spots key) = d.spots key := by
    rw [waysTo]
    split_ifs with hpath
    · rfl
    · exact Spots.way_of_node (hway hpath)
  refine ⟨_, applyAll_one happly, ?_, fun other hne => run_trust_off hne _ _ _ _⟩
  rcases @step_trust sh key ts path hfixed w.value w.kind d _ hways with
    ⟨out, -, -, hmerge, hnode⟩ | ⟨out, hout, hspots, -⟩
  · exact absurd hnode (hput hmerge)
  · rw [run_of_done hout, hspots, hwrites]

/-- Nothing made where nothing was. -/
theorem makes_nothing (h : (d.spots key).under path = Value.spots none) : Makes ts key path none [] d :=
  ⟨_, rfl, Spots.eq_write (fun _ _ => rfl) h, fun _ _ => rfl⟩

/-- Two lists of changes compiled, one after the other. -/
theorem append_eq_ok {x y : Except ModelError (List Change)} {changes : List Change} :
    (do let first ← x; let rest ← y; return first ++ rest) = .ok changes ↔
      ∃ first rest, x = .ok first ∧ y = .ok rest ∧ changes = first ++ rest := by
  cases x <;> cases y <;> simp [bind, Except.bind, pure, Except.pure, eq_comm]

/-! ## One record -/

/-- Whether a node of a diff is written whole. -/
def whole (sh : Shape) (hasArrayMarker : List (String × Value) → Bool) (key : RecordKey) (path : Path) (node : Value) :
    Bool :=
  sh.isRegister key path || arrayish hasArrayMarker node || !node.isObj

theorem walk_whole (hnull : node ≠ .null)
    (h : whole sh hasArrayMarker key path node = true ∨ inv.any Value.isObj = false) :
    walk sh hasArrayMarker state key node path inv =
      .ok (wholeOf state key path (whole sh hasArrayMarker key path node) inv) := by
  cases node with
  | null => exact absurd rfl hnull
  | obj fs =>
    have hwhole : whole sh hasArrayMarker key path (.obj fs) = (sh.isRegister key path || hasArrayMarker fs) := by
      simp [whole, arrayish]
    rw [walk, hwhole, if_pos]
    rw [hwhole] at h
    rcases h with h | h <;> simp [h]
  | _ => simp [walk, whole, Value.isObj, Value.fields?]

theorem makes_wholeOf {leaf : Bool} (hkey : sh.keyed key = true) (hfixed : fixedParent sh key path = false)
    (hway : path ≠ [] → d.spots key path.dropLast = .node) (hstate : valueAt state (Shape.full key path) = a)
    (hgone : a = none → (inv = none ∨ inv = some .null) ∧ (d.spots key).under path = Value.spots none)
    (hleaf : ∀ v, a = some v → v.isObj = true → if leaf then sh.isRegister key path = true
      else d.spots key path ≠ .node) :
    Makes ts key path a (wholeOf state key path leaf inv) d := by
  rw [wholeOf, hstate]
  cases ha : a with
  | none =>
    obtain ⟨hinv, hnothing⟩ := hgone ha
    rw [if_pos hinv]
    exact makes_nothing hnothing
  | some v =>
    refine makes_one hkey hfixed (fun _ hdel => ?_) hway (fun hmerge => ?_) ?_
    · split_ifs at hdel
    · have hobj : v.isObj = true ∧ sh.isRegister key path = false := by
        split_ifs at hmerge <;> simpa [settledKind, Write.kind, Write.value] using hmerge
      have hv := hleaf v ha hobj.1
      cases leaf with
      | false => exact hv
      | true => exact absurd hv (by simp [hobj.2])
    · split_ifs <;> rfl

/-- The fields that were walked, each made. -/
theorem walkFields_makes {fs is bs gs : List (String × Value)} (hnode : d.spots key path = .node)
    (hreg : sh.isRegister key path = false) (hstate : valueAt state (Shape.full key path) = some (.obj gs))
    (hone : ∀ e ∈ fs, ∀ {path : Path} {changes : List Change} {d : Doc sh}, distinct e.2 = true →
      walk sh hasArrayMarker state key e.2 path (Assoc.get is e.1) = .ok changes →
      (path = [] → e.2 = .null → sh.isSingleton key.1 = false) → fixedParent sh key path = false →
      (path ≠ [] → d.spots key path.dropLast = .node) →
      (d.spots key).under path = Value.spots (Assoc.get bs e.1) →
      valueAt state (Shape.full key path) = Assoc.get gs e.1 → Makes ts key path (Assoc.get gs e.1) changes d)
    (hnodup : (fs.map Prod.fst).Nodup) (hdistinct : ∀ e ∈ fs, distinct e.2 = true)
    (hbefore : ∀ e ∈ fs, (d.spots key).under (path ++ [e.1]) = Value.spots (Assoc.get bs e.1))
    (hwalk : walkFields sh hasArrayMarker state key fs path (some (.obj is)) = .ok changes) :
    ∃ out, applyAll ts .trust changes d = .ok out ∧
      (∀ e ∈ fs, (out.doc.spots key).under (path ++ [e.1]) = Value.spots (Assoc.get gs e.1)) ∧
      (∀ r, (∀ e ∈ fs, ¬ path ++ [e.1] <+: r) → out.doc.spots key r = d.spots key r) ∧
      ∀ other, other ≠ key → out.doc.spots other = d.spots other := by
  induction fs generalizing changes d with
  | nil =>
    obtain rfl := Except.ok.inj hwalk
    exact ⟨_, rfl, nofun, fun _ _ => rfl, fun _ _ => rfl⟩
  | cons e fs ih =>
    obtain ⟨k, node⟩ := e
    obtain ⟨hk, hnodup⟩ := List.nodup_cons.mp hnodup
    rw [walkFields, refuse_bind_eq_ok, append_eq_ok] at hwalk
    obtain ⟨-, first, rest, hfirst, hrest, rfl⟩ := hwalk
    have hfixed : fixedParent sh key (path ++ [k]) = false := by simp [fixedParent, hreg]
    have hat : valueAt state (Shape.full key (path ++ [k])) = Assoc.get gs k := by
      have hfull : Shape.full key (path ++ [k]) = Shape.full key path ++ [k] := by simp [Shape.full]
      have hprop : (Value.obj gs).prop k = Assoc.get gs k := rfl
      rw [hfull, valueAt_append, hstate, Option.bind_some, valueAt_cons, hprop]
      cases Assoc.get gs k <;> rfl
    obtain ⟨out, hout, hmade, hothers⟩ := hone (k, node) List.mem_cons_self (hdistinct _ List.mem_cons_self) hfirst
      (by simp) hfixed (fun _ => by rwa [List.dropLast_concat]) (hbefore _ List.mem_cons_self) hat
    have hself : ¬ path ++ [k] <+: path := fun hle => absurd hle.length_le (by simp)
    have hapart : ∀ e ∈ fs, ∀ r, ¬ path ++ [k] <+: path ++ [e.1] ++ r := by
      intro e he r hle
      rw [List.append_assoc, List.prefix_append_right_inj] at hle
      exact hk (List.mem_map.mpr ⟨e, he, (List.cons_prefix_cons.mp hle).1.symm⟩)
    obtain ⟨more, hmore, hthere, hoff, hmoreothers⟩ := ih
      (by rw [hmade, Spots.write_off hself, hnode])
      (fun e he => hone e (List.mem_cons_of_mem _ he)) hnodup (fun e he => hdistinct e (List.mem_cons_of_mem _ he))
      (fun e he => by
        rw [← hbefore e (List.mem_cons_of_mem _ he)]
        funext r
        rw [Spots.under, Spots.under, hmade, Spots.write_off (hapart e he r)])
      hrest
    refine ⟨_, applyAll_append hout hmore, fun e he => ?_, fun r hr => ?_, fun other hne => ?_⟩
    · rcases List.mem_cons.mp he with rfl | he
      · funext r
        have hr : ∀ e ∈ fs, ¬ path ++ [e.1] <+: path ++ [k] ++ r := by
          intro e he hle
          rw [List.append_assoc, List.prefix_append_right_inj] at hle
          exact hk (List.mem_map.mpr ⟨e, he, (List.cons_prefix_cons.mp hle).1⟩)
        rw [Spots.under, hoff _ hr, hmade, Spots.write_at (List.prefix_append _ _), List.drop_left]
      · exact hthere e he
    · rw [hoff r fun e he => hr e (List.mem_cons_of_mem _ he), hmade, Spots.write_off (hr _ List.mem_cons_self)]
    · rw [hmoreothers other hne, hothers other hne]

/-- What is walked makes of a place what the state has there. -/
theorem walk_makes (hkey : sh.keyed key = true) (h : Tells hasArrayMarker node inv b a) :
    ∀ {path : Path} {changes : List Change} {d : Doc sh}, distinct node = true →
      walk sh hasArrayMarker state key node path inv = .ok changes →
      (path = [] → node = .null → sh.isSingleton key.1 = false) → fixedParent sh key path = false →
      (path ≠ [] → d.spots key path.dropLast = .node) → (d.spots key).under path = Value.spots b →
      valueAt state (Shape.full key path) = a → Makes ts key path a changes d := by
  induction h with
  | deleted inv before =>
    intro path changes d _ hwalk hkept hfixed hway _ _
    rw [walk] at hwalk
    obtain rfl := Except.ok.inj hwalk
    exact makes_one hkey hfixed (fun hpath _ => hkept hpath rfl) hway (fun h => by cases h) rfl
  | @gone node inv there was =>
    intro path changes d _ hwalk _ hfixed hway hbefore hstate
    have hinv : inv.any Value.isObj = false := by
      rcases was with rfl | rfl <;> rfl
    rw [walk_whole there (.inr hinv)] at hwalk
    obtain rfl := Except.ok.inj hwalk
    exact makes_wholeOf hkey hfixed hway hstate (fun _ => ⟨was, hbefore⟩) (by simp)
  | @written node value inv before leaf there nonobj =>
    intro path changes d _ hwalk _ hfixed hway hbefore hstate
    have hwhole : whole sh hasArrayMarker key path node = true := by
      rcases leaf with leaf | leaf <;> simp [whole, leaf]
    rw [walk_whole there (.inl hwhole)] at hwalk
    obtain rfl := Except.ok.inj hwalk
    refine makes_wholeOf hkey hfixed hway hstate (by simp) fun v hv hobj => ?_
    obtain rfl := Option.some.inj hv
    rw [nonobj] at hobj
    cases hobj
  | @made fs gs inv before object was =>
    intro path changes d _ hwalk _ hfixed hway hbefore hstate
    have hinv : inv.any Value.isObj = false := by
      rcases was with ⟨-, rfl | rfl⟩ | ⟨v, -, rfl, hv⟩
      · rfl
      · rfl
      · exact hv
    rw [walk_whole (by simp) (.inr hinv)] at hwalk
    obtain rfl := Except.ok.inj hwalk
    refine makes_wholeOf hkey hfixed hway hstate (by simp) fun v hv hobj => ?_
    split_ifs with hwhole
    · simpa [whole, arrayish, object] using hwhole
    · have hroot := congrFun hbefore []
      rw [Spots.under, List.append_nil] at hroot
      rw [hroot]
      rcases was with ⟨rfl, -⟩ | ⟨v, rfl, -, hv⟩
      · intro hnode
        cases hnode
      · rw [Value.spots_root]
        exact fun hnode => by
          obtain ⟨fs, rfl⟩ := Value.spot_eq_node.mp hnode
          cases hv
  | @within fs is bs gs object told untold ih =>
    intro path changes d honce hwalk _ hfixed hway hbefore hstate
    by_cases hreg : sh.isRegister key path = true
    · have hwhole : whole sh hasArrayMarker key path (.obj fs) = true := by simp [whole, hreg]
      rw [walk_whole (by simp) (.inl hwhole)] at hwalk
      obtain rfl := Except.ok.inj hwalk
      exact makes_wholeOf hkey hfixed hway hstate (by simp) fun v _ _ => by rw [if_pos hwhole]; exact hreg
    have hreg := Bool.eq_false_iff.mpr hreg
    rw [walk, if_neg (by simp [hreg, object, Value.isObj, Value.fields?])] at hwalk
    obtain ⟨hnodup, hfields⟩ := Value.distinct_obj.mp honce
    have hget : ∀ e ∈ fs, Assoc.get fs e.1 = some e.2 := fun e he => Assoc.get_of_mem hnodup he
    have hnode : d.spots key path = .node := by
      have hroot := congrFun hbefore []
      rwa [Spots.under, List.append_nil] at hroot
    have hcons : ∀ k r, d.spots key (path ++ k :: r) = Value.spots (Assoc.get bs k) r := fun k r =>
      (congrFun hbefore (k :: r)).trans (Value.spots_obj_cons bs k r)
    obtain ⟨out, hout, hthere, hoff, hothers⟩ := walkFields_makes hnode hreg hstate
      (fun e he => ih e.1 e.2 (hget e he)) hnodup (fun e he => hfields e.1 e.2 (hget e he))
      (fun e _ => funext fun r => by rw [Spots.under, List.append_assoc]; exact hcons e.1 r) hwalk
    refine ⟨out, hout, Spots.eq_write (fun r hr => ?_) (funext fun r => ?_), hothers⟩
    · exact hoff r fun e _ hle => hr ((List.prefix_append _ _).trans hle)
    cases r with
    | nil =>
      rw [Spots.under, List.append_nil, hoff path fun e _ hle => absurd hle.length_le (by simp), hnode]
      rfl
    | cons k r =>
      rw [Value.spots_obj_cons]
      cases hk : Assoc.get fs k with
      | some node =>
        have hmem := Assoc.mem_of_get hk
        have hat := congrFun (hthere (k, node) hmem) r
        rwa [Spots.under, List.append_assoc] at hat
      | none =>
        rw [Spots.under, hoff _ fun e he hle => ?_, hcons, untold k hk]
        rw [List.prefix_append_right_inj] at hle
        obtain ⟨heq, -⟩ := List.cons_prefix_cons.mp hle
        rw [← heq, hget e he] at hk
        cases hk

/-! ## A batch -/

section Batch

variable {before : Value} {c : String}

/-- The records of a collection that were walked, each made. -/
theorem compileRecords_makes (hc : sh.isCollection c = true) {fs bs gs : List (String × Value)} {inv : Option Value}
    (hstate : valueAt state [c] = some (.obj gs)) (hnodup : (fs.map Prod.fst).Nodup)
    (hdistinct : ∀ e ∈ fs, distinct e.2 = true)
    (htold : ∀ e ∈ fs, Tells hasArrayMarker e.2 (inverseAt inv e.1) (Assoc.get bs e.1) (Assoc.get gs e.1))
    (hbefore : ∀ e ∈ fs, d.spots (c, some e.1) = Value.spots (Assoc.get bs e.1))
    (hcompile : compileRecords sh hasArrayMarker state c fs inv = .ok changes) :
    ∃ out, applyAll ts .trust changes d = .ok out ∧
      (∀ e ∈ fs, out.doc.spots (c, some e.1) = Value.spots (Assoc.get gs e.1)) ∧
      ∀ other, (∀ e ∈ fs, other ≠ (c, some e.1)) → out.doc.spots other = d.spots other := by
  induction fs generalizing changes d with
  | nil =>
    obtain rfl := Except.ok.inj hcompile
    exact ⟨_, rfl, nofun, fun _ _ => rfl⟩
  | cons e fs ih =>
    obtain ⟨id, node⟩ := e
    obtain ⟨hid, hnodup⟩ := List.nodup_cons.mp hnodup
    rw [compileRecords, refuse_bind_eq_ok, refuse_bind_eq_ok, append_eq_ok] at hcompile
    obtain ⟨-, -, first, rest, hfirst, hrest, rfl⟩ := hcompile
    have hkeyed : sh.keyed (c, some id) = true := by simp [Shape.keyed, hc]
    have hat : valueAt state (Shape.full (c, some id) []) = Assoc.get gs id := by
      have hprop : (Value.obj gs).prop id = Assoc.get gs id := rfl
      have hfull : Shape.full (c, some id) [] = [c] ++ [id] := rfl
      rw [hfull, valueAt_append, hstate, Option.bind_some, valueAt_cons, hprop]
      cases Assoc.get gs id <;> rfl
    obtain ⟨out, hout, hmade, hothers⟩ := walk_makes hkeyed (htold _ List.mem_cons_self)
      (hdistinct _ List.mem_cons_self) hfirst (fun _ _ => Shape.not_isSingleton hc) rfl (fun h => absurd rfl h)
      (hbefore _ List.mem_cons_self) hat
    have hapart : ∀ e ∈ fs, (c, some e.1) ≠ (c, some id) := fun e he heq =>
      hid (List.mem_map.mpr ⟨e, he, Option.some.inj (congrArg Prod.snd heq)⟩)
    obtain ⟨more, hmore, hthere, hoff⟩ := ih hnodup (fun e he => hdistinct e (List.mem_cons_of_mem _ he))
      (fun e he => htold e (List.mem_cons_of_mem _ he))
      (fun e he => (hothers _ (hapart e he)).trans (hbefore e (List.mem_cons_of_mem _ he))) hrest
    refine ⟨_, applyAll_append hout hmore, fun e he => ?_, fun other hne => ?_⟩
    · rcases List.mem_cons.mp he with rfl | he
      · rw [hoff _ fun e he => (hapart e he).symm, hmade, write_root]
      · exact hthere e he
    · rw [hoff other fun e he => hne e (List.mem_cons_of_mem _ he), hothers other (hne _ List.mem_cons_self)]

/-- A name of the top level made. -/
theorem compileUnder_makes (hstates : sh.isCollection c = true → (valueAt before [c]).any Value.isObj = true)
    (htold : Tells hasArrayMarker node inv (valueAt before [c]) (valueAt state [c])) (honce : distinct node = true)
    (hbefore : ∀ key, sh.keyed key = true → key.1 = c → d.spots key = Value.spots (valueAt before (Shape.full key [])))
    (hcompile : compileUnder sh hasArrayMarker state c node inv = .ok changes) :
    ∃ out, applyAll ts .trust changes d = .ok out ∧
      (∀ key, sh.keyed key = true → key.1 = c →
        out.doc.spots key = Value.spots (valueAt state (Shape.full key []))) ∧
      ∀ key, key.1 ≠ c → out.doc.spots key = d.spots key := by
  rw [compileUnder, refuse_bind_eq_ok] at hcompile
  obtain ⟨hhas, hcompile⟩ := hcompile
  rw [Bool.not_eq_false'] at hhas
  by_cases hsingle : sh.isSingleton c = true
  · rw [if_pos hsingle, refuse_bind_eq_ok] at hcompile
    obtain ⟨hnull, hwalk⟩ := hcompile
    have hkeyed : sh.keyed (c, none) = true := by simp [Shape.keyed, hsingle]
    have honly : ∀ key, sh.keyed key = true → key.1 = c → key = (c, none) := by
      rintro ⟨c', id⟩ hkey rfl
      have hnot : sh.isCollection c' = false := Bool.eq_false_iff.mpr fun hcol => by
        simp [Shape.not_isSingleton hcol] at hsingle
      have hid : id = none := by simpa [Shape.keyed, hnot, hsingle] using hkey
      rw [hid]
    obtain ⟨out, hout, hmade, hothers⟩ := walk_makes hkeyed htold honce hwalk
      (fun _ h => absurd h (of_decide_eq_false hnull)) rfl (fun h => absurd rfl h) (hbefore _ hkeyed rfl) rfl
    refine ⟨out, hout, fun key hkey hname => ?_, fun key hname => hothers key fun heq => hname (heq ▸ rfl)⟩
    rw [honly key hkey hname, hmade, write_root]
    rfl
  · rw [if_neg hsingle, refuse_bind_eq_ok] at hcompile
    obtain ⟨hnode, hrecords⟩ := hcompile
    have hcol : sh.isCollection c = true := by simpa [Shape.has, hsingle] using hhas
    have hobj := hstates hcol
    rw [Bool.or_eq_false_iff, Bool.not_eq_false'] at hnode
    -- the collection is there, and is not written whole: it is told within
    generalize hb : valueAt before [c] = b at htold hobj
    generalize ha : valueAt state [c] = a at htold
    cases htold with
    | deleted => exact absurd hnode.1 (by decide)
    | gone => cases hobj
    | written _ _ leaf =>
      rcases leaf with leaf | leaf
      · rw [leaf] at hnode
        exact absurd hnode.1 (by decide)
      · rw [leaf] at hnode
        exact absurd hnode.2 (by decide)
    | made _ was =>
      rcases was with ⟨rfl, -⟩ | ⟨v, rfl, -, hv⟩
      · cases hobj
      · rw [Option.any_some, hv] at hobj
        cases hobj
    | @within fs is bs gs _ told untold =>
      obtain ⟨hnodup, hfields⟩ := Value.distinct_obj.mp honce
      have hget : ∀ e ∈ fs, Assoc.get fs e.1 = some e.2 := fun e he => Assoc.get_of_mem hnodup he
      have hat : ∀ {v : Value} {hs : List (String × Value)}, valueAt v [c] = some (.obj hs) → ∀ id,
          valueAt v (Shape.full (c, some id) []) = Assoc.get hs id := by
        intro v hs hv id
        have hfull : Shape.full (c, some id) [] = [c] ++ [id] := rfl
        have hprop : (Value.obj hs).prop id = Assoc.get hs id := rfl
        rw [hfull, valueAt_append, hv, Option.bind_some, valueAt_cons, hprop]
        cases Assoc.get hs id <;> rfl
      have hkeyed : ∀ id, sh.keyed (c, some id) = true := fun id => by simp [Shape.keyed, hcol]
      obtain ⟨out, hout, hthere, hoff⟩ := compileRecords_makes hcol ha hnodup (fun e he => hfields e.1 e.2 (hget e he))
        (fun e he => told e.1 e.2 (hget e he))
        (fun e _ => (hbefore _ (hkeyed e.1) rfl).trans (congrArg Value.spots (hat hb e.1))) hrecords
      refine ⟨out, hout, fun key hkey hname => ?_, fun key hname => hoff key fun e _ heq => hname (heq ▸ rfl)⟩
      obtain ⟨c', id⟩ := key
      obtain rfl : c' = c := hname
      cases id with
      | none => simp [Shape.keyed, hsingle] at hkey
      | some id =>
        rw [hat ha]
        cases hid : Assoc.get fs id with
        | some node => exact hthere (id, node) (Assoc.mem_of_get hid)
        | none =>
          rw [hoff _ fun e he heq => ?_, hbefore _ hkey rfl, hat hb, untold id hid]
          rw [Option.some.inj (congrArg Prod.snd heq), hget e he] at hid
          cases hid

/-- The names of the top level, each made. -/
theorem compileFields_makes (hstates : ∀ c, sh.isCollection c = true → (valueAt before [c]).any Value.isObj = true)
    {fs : List (String × Value)} {inverse : Option Value} (hnodup : (fs.map Prod.fst).Nodup)
    (hdistinct : ∀ e ∈ fs, distinct e.2 = true)
    (htold : ∀ e ∈ fs, Tells hasArrayMarker e.2 (inverseAt inverse e.1) (valueAt before [e.1]) (valueAt state [e.1]))
    (hbefore : ∀ key, sh.keyed key = true → key.1 ∈ fs.map Prod.fst →
      d.spots key = Value.spots (valueAt before (Shape.full key [])))
    (hcompile : compileFields sh hasArrayMarker state fs inverse = .ok changes) :
    ∃ out, applyAll ts .trust changes d = .ok out ∧
      (∀ key, sh.keyed key = true → key.1 ∈ fs.map Prod.fst →
        out.doc.spots key = Value.spots (valueAt state (Shape.full key []))) ∧
      ∀ key, key.1 ∉ fs.map Prod.fst → out.doc.spots key = d.spots key := by
  induction fs generalizing changes d with
  | nil =>
    obtain rfl := Except.ok.inj hcompile
    exact ⟨_, rfl, nofun, fun _ _ => rfl⟩
  | cons e fs ih =>
    obtain ⟨c, node⟩ := e
    obtain ⟨hc, hnodup⟩ := List.nodup_cons.mp hnodup
    rw [compileFields, append_eq_ok] at hcompile
    obtain ⟨first, rest, hfirst, hrest, rfl⟩ := hcompile
    obtain ⟨out, hout, hmade, hothers⟩ := compileUnder_makes (hstates c) (htold _ List.mem_cons_self)
      (hdistinct _ List.mem_cons_self) (fun key hkey hname => hbefore key hkey (by simp [hname])) hfirst
    have hapart : ∀ key : RecordKey, key.1 ∈ fs.map Prod.fst → key.1 ≠ c := fun key hkey heq => hc (heq ▸ hkey)
    obtain ⟨more, hmore, hthere, hoff⟩ := ih hnodup (fun e he => hdistinct e (List.mem_cons_of_mem _ he))
      (fun e he => htold e (List.mem_cons_of_mem _ he))
      (fun key hkey hname => (hothers key (hapart key hname)).trans
        (hbefore key hkey (List.mem_cons_of_mem _ hname))) hrest
    refine ⟨_, applyAll_append hout hmore, fun key hkey hname => ?_, fun key hname => ?_⟩
    · by_cases hmem : key.1 ∈ fs.map Prod.fst
      · exact hthere key hkey hmem
      · have heq : key.1 = c := (List.mem_cons.mp hname).resolve_right hmem
        rw [hoff key hmem, hmade key hkey heq]
    · rw [List.map_cons, List.mem_cons, not_or] at hname
      rw [hoff key hname.2, hothers key hname.1]

end Batch

/-- What stands at a place and beneath, read from there. -/
theorem spots_valueAt (v : Option Value) (p : Path) :
    Value.spots (v.bind (valueAt · p)) = (Value.spots v).under p := by
  funext r
  rw [Spots.under, Value.spots, Value.spots, Option.bind_assoc]
  simp only [valueAt_append]

/-- What a batch compiles to makes the batch: trusted, on a doc that holds the state as it was, it leaves
the state as it is. -/
theorem compiled_makes_batch {diff inverse before after : Value} {d : Doc sh} (ts : ℕ)
    (hbatch : Batch sh hasArrayMarker diff inverse before after)
    (hbefore : ∀ key, sh.keyed key = true → d.spots key = Value.spots (valueAt before (Shape.full key [])))
    (hcompile : compile sh hasArrayMarker after diff (some inverse) = .ok changes) :
    ∃ out, applyAll ts .trust changes d = .ok out ∧ ∀ key, sh.keyed key = true →
      out.doc.spots key = Value.spots (valueAt after (Shape.full key [])) := by
  obtain ⟨htells, honce, ⟨hb, ha⟩, hstates⟩ := hbatch
  obtain ⟨bs, rfl⟩ := Value.isObj_iff.mp hb
  obtain ⟨gs, rfl⟩ := Value.isObj_iff.mp ha
  have hat : ∀ (hs : List (String × Value)) c, valueAt (.obj hs) [c] = Assoc.get hs c := by
    intro hs c
    have hprop : (Value.obj hs).prop c = Assoc.get hs c := rfl
    rw [valueAt_cons, hprop]
    cases Assoc.get hs c <;> rfl
  have hunder : ∀ (hs : List (String × Value)) (key : RecordKey), Value.spots (valueAt (.obj hs) (Shape.full key [])) =
      (Value.spots (Assoc.get hs key.1)).under (key.2.toList ++ []) := fun hs key => spots_valueAt _ _
  cases htells with
  | written _ _ _ _ hwhole => cases hwhole
  | made _ was =>
    rcases was with ⟨hnone, -⟩ | ⟨v, hv, -, hobj⟩
    · cases hnone
    · rw [← Option.some.inj hv] at hobj
      cases hobj
  | @within fs is _ _ _ told untold =>
    obtain ⟨hnodup, hfields⟩ := Value.distinct_obj.mp honce
    have hget : ∀ e ∈ fs, Assoc.get fs e.1 = some e.2 := fun e he => Assoc.get_of_mem hnodup he
    obtain ⟨out, hout, hmade, hoff⟩ := compileFields_makes hstates hnodup (fun e he => hfields e.1 e.2 (hget e he))
      (fun e he => by rw [hat, hat]; exact told e.1 e.2 (hget e he)) (fun key hkey _ => hbefore key hkey) hcompile
    refine ⟨out, hout, fun key hkey => ?_⟩
    by_cases hname : key.1 ∈ fs.map Prod.fst
    · exact hmade key hkey hname
    · rw [hoff key hname, hbefore key hkey, hunder, hunder, untold key.1 (Assoc.get_eq_none_iff.mpr hname)]

/-- A board with one task. -/
def boardWith (task : Value) : Value := .obj [("tasks", .obj [("t1", task)]), ("comments", .obj []), ("title", .str "")]

/-- The task's name is written, and its due day deleted. -/
theorem compiled_makes_batch_on_board :
    let after := boardWith (.obj [("name", .str "Paint it")])
    let diff := Value.obj [("tasks", .obj [("t1", .obj [("name", .str "Paint it"), ("due", .null)])])]
    let inverse := Value.obj [("tasks", .obj [("t1", .obj [("name", .str "Paint"), ("due", .num 3)])])]
    let marker := fun fs : List (String × Value) => fs.any (·.1 = "$length")
    let d := Doc.load board [(("tasks", some "t1"), ⟨.obj [("name", .str "Paint"), ("due", .num 3)], .born 1⟩)]
    ∃ changes, compile board marker after diff (some inverse) = .ok changes ∧
      ∃ out, applyAll 7 .trust changes d = .ok out ∧ ∀ key, board.keyed key = true →
        out.doc.spots key = Value.spots (valueAt after (Shape.full key [])) := by
  intro after diff inverse marker d
  let before := boardWith (.obj [("name", .str "Paint"), ("due", .num 3)])
  have htask : Tells marker (.obj [("name", .str "Paint it"), ("due", .null)])
      (some (.obj [("name", .str "Paint"), ("due", .num 3)])) (some (.obj [("name", .str "Paint"), ("due", .num 3)]))
      (some (.obj [("name", .str "Paint it")])) := by
    refine .within rfl (fun k node hk => ?_) fun k hk => ?_
    · rcases List.mem_cons.mp (Assoc.mem_of_get hk) with heq | hk
      · obtain ⟨rfl, rfl⟩ := Prod.mk.inj heq
        exact .written _ _ (.inl rfl) (by simp) rfl
      · obtain ⟨rfl, rfl⟩ : k = "due" ∧ node = _ := by simpa using hk
        exact .deleted _ _
    · obtain ⟨hname, hdue⟩ : k ≠ "name" ∧ k ≠ "due" := by simpa using Assoc.get_eq_none_iff.mp hk
      simp [Assoc.get_cons, hname.symm, hdue.symm]
  have hbatch : Batch board marker diff inverse before after := by
    refine ⟨.within rfl (fun c node hc => ?_) (fun c hc => ?_), by decide +kernel, ⟨rfl, rfl⟩, fun c hc => ?_⟩
    · obtain ⟨rfl, rfl⟩ : c = "tasks" ∧ node = _ := by simpa using Assoc.mem_of_get hc
      refine .within rfl (fun id node hid => ?_) fun id hid => ?_
      · obtain ⟨rfl, rfl⟩ : id = "t1" ∧ node = _ := by simpa using Assoc.mem_of_get hid
        exact htask
      · have hne : id ≠ "t1" := by simpa using Assoc.get_eq_none_iff.mp hid
        simp [Assoc.get_cons, hne.symm]
    · have hne : c ≠ "tasks" := by simpa using Assoc.get_eq_none_iff.mp hc
      simp [Assoc.get_cons, hne.symm]
    · rcases (by simpa [Shape.isCollection, board] using hc : c = "tasks" ∨ c = "comments") with rfl | rfl <;> rfl
  have hbefore : ∀ key, board.keyed key = true → d.spots key = Value.spots (valueAt before (Shape.full key [])) := by
    rintro ⟨c, id⟩ hkey
    rw [Doc.spots, Doc.get, Doc.records_load _ (by decide +kernel)]
    have hnames : (c = "tasks" ∨ c = "comments") ∧ id.isSome = true ∨ c = "title" ∧ id = none := by
      simpa [Shape.keyed, Shape.isCollection, Shape.isSingleton, board] using hkey
    rcases hnames with ⟨rfl | rfl, hid⟩ | ⟨rfl, rfl⟩
    · obtain ⟨id, rfl⟩ := Option.isSome_iff_exists.mp hid
      by_cases h : "t1" = id
      · subst h
        rfl
      · simp [before, boardWith, Shape.full, valueAt_cons, Value.prop, Assoc.get_cons, OrderedMap.get_set, h, Doc.unset,
          Shape.isSingleton, board]
    · obtain ⟨id, rfl⟩ := Option.isSome_iff_exists.mp hid
      rfl
    · rfl
  exact ⟨_, rfl, compiled_makes_batch 7 hbatch hbefore rfl⟩

end LazyStorage.Core
