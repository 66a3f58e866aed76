import LazyStorage.Core.Kinship
import LazyStorage.Core.Times

/-! # Clocks are well formed

Whether a change is judged or the store's own, it leaves in its record's clock the
times of what it wrote and drops those of what went with it. So a clock's keys name
what is there and what was deleted, inside containers alone, and none of them says
only what the record's birth does.
-/
namespace LazyStorage.Core

open Lib

variable {sh : Shape} {ts : ℕ} {mode : Mode} {key : RecordKey} {path q r : Path}

/-- No register above a path: the record and the containers inside it are merged into. -/
def Free (sh : Shape) (key : RecordKey) (path : Path) : Prop :=
  ∀ q, q <+: path → q ≠ path → sh.isRegister key q = false

namespace Free

theorem at_prefix (h : Free sh key path) (hr : r <+: path) : Free sh key r := fun q hq hne =>
  h q (hq.trans hr) fun heq => hne (hq.eq_of_length_le (heq ▸ hr.length_le))

theorem field (h : Free sh key path) (hreg : sh.isRegister key path = false) (k : String) :
    Free sh key (path ++ [k]) := by
  intro q hq hne
  have hq := (List.prefix_concat_iff.mp hq).resolve_left hne
  by_cases heq : q = path
  · exact heq ▸ hreg
  · exact h q hq heq

end Free

namespace Clock

theorem live_of_prune {c : Clock} {cutoff : ℤ} {t : ℕ} (h : (c.prune cutoff).live.get r = some t) :
    c.live.get r = some t := by
  simp only [prune] at h
  split_ifs at h
  · exact h
  · rw [OrderedMap.get_filter] at h
    exact (Option.filter_eq_some_iff.mp h).1

theorem gone_of_prune {c : Clock} {cutoff : ℤ} {t : ℕ} (h : (c.prune cutoff).gone.get r = some t) :
    c.gone.get r = some t := by
  simp only [prune, OrderedMap.get_filter] at h
  exact (Option.filter_eq_some_iff.mp h).1

/-- A clock none of whose live times says what the birth does, with keys in no register. -/
structure Proper (sh : Shape) (key : RecordKey) (c : Clock) : Prop where
  unborn : ∀ r t, c.live.get r = some t → c.birth ≠ some t
  free : ∀ r, c.live.get r ≠ none ∨ c.gone.get r ≠ none → Free sh key r

namespace Proper

variable {c : Clock}

theorem of_bare (hlive : c.live = .empty) (hgone : c.gone = .empty) : c.Proper sh key := by
  constructor <;> simp [hlive, hgone]

theorem setLive (h : c.Proper sh key) (hpath : Free sh key path) (ts : ℕ) :
    (c.setLive path ts).Proper sh key where
  unborn r t ht := by
    rw [setLive_live] at ht
    rw [setLive_birth]
    split_ifs at ht with hr hbirth
    · rwa [← Option.some.inj ht]
    · exact h.unborn r t ht
  free r hr := by
    rw [setLive_live, setLive_gone] at hr
    split_ifs at hr with heq
    · exact heq ▸ hpath
    · exact heq ▸ hpath
    · exact h.free r hr

theorem setGone (h : c.Proper sh key) (hpath : Free sh key path) (ts : ℕ) :
    (c.setGone path ts).Proper sh key where
  unborn := h.unborn
  free r hr := by
    by_cases heq : path = r
    · exact heq ▸ hpath
    · refine h.free r (hr.imp_right fun hgone => ?_)
      rwa [Clock.setGone, OrderedMap.get_set_of_ne _ _ heq] at hgone

theorem dropBeneath (h : c.Proper sh key) (path : Path) (inclusive container : Bool) :
    (c.dropBeneath path inclusive container).Proper sh key where
  unborn r t ht := by
    rw [dropBeneath_live] at ht
    rw [dropBeneath_birth]
    split_ifs at ht
    exact h.unborn r t ht
  free r hr := by
    rw [dropBeneath_live, dropBeneath_gone] at hr
    split_ifs at hr with hdrop
    · simp at hr
    · exact h.free r hr

theorem stampInside (value : Value) : ∀ {path : Path} {c : Clock}, c.Proper sh key → Free sh key path →
    (Clock.stampInside sh key ts value path c).Proper sh key := by
  induction value using Value.merging_induction with
  | leaf v hv =>
    intro path c h hpath
    cases v <;> first | exact h.setLive hpath ts | exact absurd hv (by simp)
  | fields fs ih =>
    intro path c h hpath
    have hfields : ∀ gs : List (String × Value), (∀ e ∈ gs, e ∈ fs) → sh.isRegister key path = false →
        ∀ c : Clock, c.Proper sh key → (Clock.stampFields sh key ts gs path c).Proper sh key := by
      intro gs hg hreg
      induction gs with
      | nil => exact fun c h => h
      | cons e gs ihg =>
        intro c h
        refine ihg (fun e he => hg e (by simp [he])) _ ?_
        exact ih e (hg e (by simp)) h (hpath.field hreg e.1)
    simp only [Clock.stampInside]
    split_ifs with hreg
    · exact h.setLive hpath ts
    · exact hfields fs (fun _ h => h) (Bool.eq_false_iff.mpr hreg) _ (h.setLive hpath ts)

theorem prune (h : c.Proper sh key) (cutoff : ℤ) : (c.prune cutoff).Proper sh key where
  unborn r t ht hbirth := by
    have hthere := (Option.filter_eq_some_iff.mp hbirth).1
    simp only [Clock.prune] at ht hbirth
    rw [hbirth, Option.isSome_some, if_pos rfl] at ht
    exact h.unborn r t ht hthere
  free r hr := by
    refine h.free r (hr.imp (fun hlive hnone => ?_) fun hgone hnone => ?_)
    · obtain ⟨t, ht⟩ := Option.ne_none_iff_exists'.mp hlive
      rw [live_of_prune ht] at hnone
      cases hnone
    · obtain ⟨t, ht⟩ := Option.ne_none_iff_exists'.mp hgone
      rw [gone_of_prune ht] at hnone
      cases hnone

end Proper

end Clock

/-! ## The way to a parent, made -/

theorem containersMade_empty (done p : Path) :
    containersMade done p (.obj []) = p.inits.tail.map (done ++ ·) := by
  induction p generalizing done with
  | nil => rfl
  | cons seg p ih =>
    have hfirst : containersMade done (seg :: p) (.obj []) =
        (done ++ [seg]) :: containersMade (done ++ [seg]) p (.obj []) := rfl
    rw [hfirst, ih]
    cases p with
    | nil => rfl
    | cons seg' p => simp [List.map_map, Function.comp_def]

/-- The loop over a parent path finds containers all the way, or makes one, and in it all that are still
missing. -/
theorem makeContainers_cases (p : Path) : ∀ (done : Path) (fs : List (String × Value)),
    ((∀ q, q <+: p → ∃ gs, valueAt (.obj fs) q = some (.obj gs)) ∧
      containersMade done p (.obj fs) = [] ∧ makeContainers p (.obj fs) = .obj fs) ∨
    ∃ q last s, p = q ++ last :: s ∧ (∀ q', q' <+: q → ∃ gs, valueAt (.obj fs) q' = some (.obj gs)) ∧
      (∀ gs, valueAt (.obj fs) (q ++ [last]) ≠ some (.obj gs)) ∧
      containersMade done p (.obj fs) = s.inits.map (done ++ q ++ [last] ++ ·) ∧
      makeContainers p (.obj fs) =
        modifyAt (Value.setField last (makeContainers s (.obj []))) q (.obj fs) := by
  induction p with
  | nil =>
    intro done fs
    refine .inl ⟨fun q hq => ⟨fs, ?_⟩, rfl, rfl⟩
    rw [List.prefix_nil.mp hq]
    rfl
  | cons seg p ih =>
    intro done fs
    have hroot : ∃ gs, valueAt (.obj fs) [] = some (.obj gs) := ⟨fs, rfl⟩
    cases hchild : (Assoc.get fs seg).filter Value.isObj with
    | some child =>
      obtain ⟨hget, hobj⟩ := Option.filter_eq_some_iff.mp hchild
      obtain ⟨cs, rfl⟩ := Value.isObj_iff.mp hobj
      have hstep : ∀ q, valueAt (.obj fs) (seg :: q) = valueAt (.obj cs) q := fun q => by
        simp [valueAt_cons, Value.prop, hget]
      have hmade : containersMade done (seg :: p) (.obj fs) =
          containersMade (done ++ [seg]) p (.obj cs) := by
        simp [containersMade, Value.fields?, hchild]
      have hdata : makeContainers (seg :: p) (.obj fs) =
          .obj (Assoc.set fs seg (makeContainers p (.obj cs))) := by
        simp [makeContainers, Value.fields?, hchild]
      have hway : ∀ (q : Path), (∀ q', q' <+: q → ∃ gs, valueAt (.obj cs) q' = some (.obj gs)) →
          ∀ q', q' <+: seg :: q → ∃ gs, valueAt (.obj fs) q' = some (.obj gs) := by
        intro q hq q' hq'
        cases q' with
        | nil => exact hroot
        | cons k q' =>
          obtain ⟨rfl, hle⟩ := List.cons_prefix_cons.mp hq'
          rw [hstep]
          exact hq q' hle
      rcases ih (done ++ [seg]) cs with ⟨hall, hnone, hsame⟩ | ⟨q, last, s, rfl, hq, hnot, hsome, hnew⟩
      · refine .inl ⟨hway p hall, hmade.trans hnone, ?_⟩
        rw [hdata, hsame, Assoc.set_of_get hget]
      · refine .inr ⟨seg :: q, last, s, rfl, hway q hq, ?_, ?_, ?_⟩
        · intro gs
          rw [List.cons_append, hstep]
          exact hnot gs
        · rw [hmade, hsome]
          simp
        · rw [hdata, hnew]
          simp [modifyAt, Value.prop, hget, Value.withProp]
    | none =>
      refine .inr ⟨[], seg, p, rfl, fun q hq => ?_, fun gs hgs => ?_, ?_, ?_⟩
      · rw [List.prefix_nil.mp hq]
        exact hroot
      · have hget : Assoc.get fs seg = some (.obj gs) := by simpa [valueAt_cons, Value.prop] using hgs
        simp [hget, Option.filter] at hchild
      · have hfirst : containersMade done (seg :: p) (.obj fs) =
            (done ++ [seg]) :: containersMade (done ++ [seg]) p (.obj []) := by
          simp [containersMade, Value.fields?, hchild]
        rw [hfirst, containersMade_empty]
        cases p <;> simp
      · simp [makeContainers, Value.fields?, hchild, modifyAt, Value.setField]

section Containers

variable {c : Clock}

theorem makeContainers_live {qs : List Path}
    (h : (qs.foldl (fun c p => c.makeContainer p ts) c).live.get r ≠ none) :
    r ∈ qs ∨ c.live.get r ≠ none := by
  induction qs generalizing c with
  | nil => exact .inr h
  | cons q qs ih =>
    refine (ih h).elim (fun hr => .inl (List.mem_cons_of_mem q hr)) fun hr => ?_
    simp only [Clock.makeContainer, Clock.setLive_live, Clock.dropBeneath_live] at hr
    by_cases hq : q = r
    · exact .inl (hq ▸ List.mem_cons_self)
    · rw [if_neg hq] at hr
      split_ifs at hr with hdrop
      · exact absurd rfl hr
      · exact .inr hr

theorem makeContainers_gone {qs : List Path}
    (h : (qs.foldl (fun c p => c.makeContainer p ts) c).gone.get r ≠ none) :
    r ∉ qs ∧ c.gone.get r ≠ none := by
  induction qs generalizing c with
  | nil => exact ⟨List.not_mem_nil, h⟩
  | cons q qs ih =>
    obtain ⟨hnot, hr⟩ := ih h
    simp only [Clock.makeContainer, Clock.setLive_gone, Clock.dropBeneath_gone] at hr
    split_ifs at hr with hdrop
    · exact absurd rfl hr
    · have hne : r ≠ q := by simpa [Clock.drops] using hdrop
      exact ⟨by simp [hne, hnot], hr⟩

theorem makeContainers_off {qs : List Path} (h : ∀ q ∈ qs, path <+: q) :
    c.Off path (qs.foldl (fun c p => c.makeContainer p ts) c) := by
  induction qs generalizing c with
  | nil => exact .refl path c
  | cons q qs ih =>
    have hone : c.Off q (c.makeContainer q ts) := (Clock.Off.dropBeneath q c true false).trans (.setLive q _ ts)
    exact (hone.mono (h q (by simp))).trans (ih fun q hq => h q (by simp [hq]))

theorem makeContainers_proper {qs : List Path} (h : ∀ q ∈ qs, Free sh key q) (hc : c.Proper sh key) :
    (qs.foldl (fun c p => c.makeContainer p ts) c).Proper sh key := by
  induction qs generalizing c with
  | nil => exact hc
  | cons q qs ih =>
    refine ih (fun q hq => h q (by simp [hq])) ?_
    exact (hc.dropBeneath q true false).setLive (h q (by simp)) ts

end Containers

/-- An entry with a tidy clock that is proper. -/
structure Entry.Sound (sh : Shape) (key : RecordKey) (e : Entry) : Prop where
  tidy : e.Tidy
  proper : e.clock.Proper sh key

namespace Entry.Sound

variable {e e' : Entry}

theorem of_bare (hlive : e.clock.live = .empty) (hgone : e.clock.gone = .empty) : e.Sound sh key :=
  ⟨tidy_of_bare hlive hgone, .of_bare hlive hgone⟩

/-- What is missing on the way to a parent is made with its times. -/
theorem makeWay (h : e.Sound sh key) {p : Path} (hp : Free sh key p) : (e.makeWay ts p).Sound sh key := by
  have hmake : ∀ e : Entry, e.Sound sh key → e.data.isObj = true →
      (⟨makeContainers p e.data, (containersMade [] p e.data).foldl (fun c p => c.makeContainer p ts)
        e.clock⟩ : Entry).Sound sh key := by
    intro e h hobj
    obtain ⟨data, clock⟩ := e
    obtain ⟨fs, rfl⟩ := Value.isObj_iff.mp hobj
    rcases makeContainers_cases p [] fs with
      ⟨-, hnone, hsame⟩ | ⟨q, last, s, rfl, hway, hnot, hmade, hdata⟩
    · dsimp only
      rwa [hnone, hsame]
    have hfree : ∀ x ∈ s.inits.map (q ++ [last] ++ ·), Free sh key x := by
      intro x hx
      obtain ⟨s', hs', rfl⟩ := List.mem_map.mp hx
      refine hp.at_prefix ?_
      rw [List.append_assoc]
      exact (List.prefix_append_right_inj q).mpr (by simpa using (List.mem_inits _ _).mp hs')
    have hbeneath : ∀ x ∈ s.inits.map (q ++ [last] ++ ·), q ++ [last] <+: x := by
      intro x hx
      obtain ⟨s', -, rfl⟩ := List.mem_map.mp hx
      exact List.prefix_append _ _
    have hplace : makeContainers (q ++ last :: s) (.obj fs) =
        (⟨.obj fs, clock⟩ : Entry).place (q ++ [last]) (makeContainers s (.obj [])) := by
      simp [hdata, Entry.place]
    have hnone : ∀ r, q ++ [last] <+: r → r ≠ q ++ [last] →
        clock.live.get r = none ∧ clock.gone.get r = none := by
      intro r hr hne
      by_contra hthere
      rw [not_and_or] at hthere
      obtain ⟨gs, hgs⟩ := h.tidy.above r hthere _ hr (Ne.symm hne)
      exact hnot gs hgs
    have hne : q ++ [last] ≠ [] := by simp
    have hq : (q ++ [last]).dropLast = q := List.dropLast_concat
    obtain ⟨gs, hgs⟩ := hway q List.prefix_rfl
    have hparent : valueAt (⟨.obj fs, clock⟩ : Entry).data (q ++ [last]).dropLast = some (.obj gs) := by
      rw [hq]
      exact hgs
    have hoff : (⟨.obj fs, clock⟩ : Entry).Off (q ++ [last]) ⟨makeContainers (q ++ last :: s) (.obj fs),
        (s.inits.map (q ++ [last] ++ ·)).foldl (fun c p => c.makeContainer p ts) clock⟩ :=
      ⟨fun r hr hr' => by rw [hplace]; exact valueAt_place_off hne hparent _ hr hr',
        makeContainers_off hbeneath⟩
    have hplaced : ∀ r, valueAt (makeContainers (q ++ last :: s) (.obj fs)) (q ++ [last] ++ r) =
        valueAt (makeContainers s (.obj [])) r := fun r => by
      rw [hplace]
      exact valueAt_place hne hparent _ r
    have hall : ∀ q' : Path, q' <+: q ++ last :: s →
        ∃ gs, valueAt (makeContainers (q ++ last :: s) (.obj fs)) q' = some (.obj gs) :=
      fun q' hq' => objAt_makeContainers hq' fs
    rw [List.nil_append] at hmade
    simp only [hmade]
    refine ⟨h.tidy.of_off hoff hne ?_ ?_ ?_ ?_, makeContainers_proper hfree h.proper⟩
    · rw [hq]
      exact hway
    · rw [hq]
      exact fun q' hq' => hall q' (hq'.trans (List.prefix_append q _))
    · intro r hr hlive
      -- a live key is one of the containers made: nothing was beneath the first, which was none
      have hmem : r ∈ s.inits.map (q ++ [last] ++ ·) := by
        refine (makeContainers_live hlive).elim id fun hold => ?_
        by_cases heq : r = q ++ [last]
        · exact List.mem_map.mpr ⟨[], by simp, by simp [heq]⟩
        · exact absurd (hnone r hr heq).1 hold
      obtain ⟨s', hs', rfl⟩ := List.mem_map.mp hmem
      have hs' := (List.mem_inits _ _).mp hs'
      refine ⟨makeContainers s (.obj []), s', by simpa using hplaced [], rfl, ?_, fun x hx _ => ?_⟩
      · obtain ⟨xs, hxs⟩ := objAt_makeContainers hs' []
        simp [hxs]
      · exact objAt_makeContainers (hx.trans hs') []
    · intro r hr hgone
      obtain ⟨hnot, hold⟩ := makeContainers_gone hgone
      by_cases heq : r = q ++ [last]
      · exact absurd (List.mem_map.mpr ⟨[], by simp, by simp [heq]⟩) hnot
      · exact absurd (hnone r hr heq).2 hold
  unfold Entry.makeWay
  split_ifs with hobj
  · exact hmake e h hobj
  · exact hmake _ (of_bare rfl rfl) rfl

/-- What lands inside containers, under no register, leaves an entry sound. -/
theorem landed {kind : Kind} {value : Value} {w : Write} (h : e.Sound sh key)
    (hlands : e.Landing sh mode ts key path kind value e' w) (hpath : path ≠ [])
    (hvalue : distinct value = true) (hfree : Free sh key path)
    (hway : ∀ q, q <+: path.dropLast → ∃ fs, valueAt e.data q = some (.obj fs)) : e'.Sound sh key := by
  have hkept : ∀ f : Value → Value, KeepsObj f → ∀ q, q <+: path.dropLast →
      ∃ fs, valueAt (modifyAt f path.dropLast e.data) q = some (.obj fs) := by
    intro f hf q hq
    obtain ⟨s, hs⟩ := hq
    obtain ⟨gs, hgs⟩ := hway q ⟨s, hs⟩
    exact hs ▸ objAt_modifyAt hf q s hgs
  have hway' : ∀ q, q <+: path.dropLast → ∃ fs, valueAt e'.data q = some (.obj fs) := by
    cases hlands with
    | fresh => exact hkept _ (keepsObj_setField _ _)
    | replaced => exact hkept _ (keepsObj_setField _ _)
    | gone => exact hkept _ (keepsObj_eraseField _)
  refine ⟨(hlands.tidy hpath hvalue h.tidy hway hway').1, ?_⟩
  cases hlands with
  | fresh => exact (h.proper.dropBeneath path true false).stampInside value hfree
  | replaced => exact (h.proper.dropBeneath path true _).setLive hfree ts
  | gone => exact (h.proper.dropBeneath path true _).setGone hfree ts

theorem prune (h : e.Sound sh key) (cutoff : ℤ) : (⟨e.data, e.clock.prune cutoff⟩ : Entry).Sound sh key := by
  have hlive : ∀ r, (e.clock.prune cutoff).live.get r ≠ none → e.clock.live.get r ≠ none := by
    intro r hr
    obtain ⟨t, ht⟩ := Option.ne_none_iff_exists'.mp hr
    simp [Clock.live_of_prune ht]
  have hgone : ∀ r, (e.clock.prune cutoff).gone.get r ≠ none → e.clock.gone.get r ≠ none := by
    intro r hr
    obtain ⟨t, ht⟩ := Option.ne_none_iff_exists'.mp hr
    simp [Clock.gone_of_prune ht]
  refine ⟨⟨⟨?_, ?_⟩, fun r hr => ?_, fun r hr => ?_, fun r hr => ?_⟩, h.proper.prune cutoff⟩
  · exact not_not.mp fun hne => hlive [] hne h.tidy.root.1
  · exact not_not.mp fun hne => hgone [] hne h.tidy.root.2
  · exact h.tidy.above r (hr.imp (hlive r) (hgone r))
  · exact h.tidy.live r (hlive r hr)
  · exact h.tidy.gone r (hgone r hr)

end Entry.Sound

/-- Every record's clock is sound. -/
def Doc.Formed (d : Doc sh) : Prop := ∀ key e, d.records.get key = some e → e.Sound sh key

namespace Doc.Formed

variable {d d' : Doc sh}

theorem congr (h : d.Formed) (hsame : ∀ k, d'.records.get k = d.records.get k) : d'.Formed :=
  fun k e he => h k e (hsame k ▸ he)

theorem note (h : d.Formed) (key : RecordKey) : (d.note key).Formed := h.congr fun k => by simp

theorem relink (h : d.Formed) (key : RecordKey) : (d.relink key).Formed := h.congr fun k => by simp

theorem write {e : Entry} (h : d.Formed) (he : e.Sound sh key) : (d.write key e).Formed := by
  intro k e' he'
  rw [Doc.records_write, OrderedMap.get_set] at he'
  split_ifs at he' with hk
  · cases he'
    exact hk ▸ he
  · exact h k e' he'

theorem drop (h : d.Formed) (key : RecordKey) : (d.drop key).Formed := by
  intro k e he
  rw [Doc.records_drop, OrderedMap.get_erase] at he
  split_ifs at he
  exact h k e he

theorem removeRecord (h : d.Formed) (cascade : Bool) (fuel : ℕ) (key : RecordKey) :
    (d.removeRecord cascade fuel key).doc.Formed :=
  removeRecord_keeps (P := Doc.Formed) (fun _ k hd _ => ((hd.note k).drop k).relink k) cascade fuel h key

theorem prune (h : d.Formed) (cutoff : ℤ) : (d.prune cutoff).Formed := by
  intro k e he
  rw [Doc.prune, OrderedMap.get_mapVal] at he
  obtain ⟨e₀, he₀, rfl⟩ := Option.map_eq_some_iff.mp he
  exact (h k e₀ he₀).prune cutoff

end Doc.Formed

section Step

variable {value : Value} {kind : Kind} {d : Doc sh}

/-- A change to a record itself. -/
theorem atRoot_formed (hd : d.Formed) : (atRoot ts mode key value kind d).outcome.doc.Formed := by
  have hwrite : (writeRoot ts mode key value kind d).doc.Formed := by
    simp only [writeRoot, writeWhole]
    split_ifs
    · exact hd
    · exact hd
    · exact (hd.write (.of_bare rfl rfl)).relink key
  cases kind with
  | set => exact hwrite
  | put =>
    simp only [atRoot]
    split_ifs
    · exact hd
    · exact hwrite
  | del =>
    simp only [atRoot, Step.outcome, deleteRoot]
    split_ifs
    · exact hd
    · exact hd
    · exact hd.removeRecord _ _ _

theorem Entry.arrive_cases {e e' : Entry} (h : e.arrive sh mode ts key path = .ok e') :
    (e' = e ∧ e.hasParent sh key path = true) ∨ e' = e.makeWay ts path.dropLast := by
  simp only [Entry.arrive] at h
  split_ifs at h with _ hparent
  · exact .inl ⟨(Except.ok.inj h).symm, hparent⟩
  · exact .inr (Except.ok.inj h).symm

/-- A change inside a record: its clock stays sound, and a put to be merged in goes on from containers. -/
theorem within_formed {e : Entry} {out : Outcome sh} (hpath : path ≠ []) (hvalue : distinct value = true)
    (hfree : Free sh key path) (he : e.Sound sh key) (hd : out.doc.Formed)
    (hway : ∀ fs, valueAt e.data path.dropLast = some (.obj fs) →
      ∀ q, q <+: path.dropLast → ∃ fs, valueAt e.data q = some (.obj fs)) :
    (within ts mode key value kind path e out).outcome.doc.Formed ∧
      ∀ more, within ts mode key value kind path e out = .merge more →
        ∀ q, q <+: path → more.doc.ObjAt key q := by
  unfold within
  cases harrive : e.arrive sh mode ts key path with
  | error why => exact ⟨hd, fun more h => nomatch h⟩
  | ok e₁ =>
    obtain ⟨he₁, hway₁⟩ : e₁.Sound sh key ∧
        ∀ q, q <+: path.dropLast → ∃ fs, valueAt e₁.data q = some (.obj fs) := by
      rcases Entry.arrive_cases harrive with ⟨rfl, hparent⟩ | rfl
      · obtain ⟨⟨fs, hfs⟩, -⟩ := Entry.hasParent_iff.mp hparent
        exact ⟨he, hway fs hfs⟩
      · exact ⟨he.makeWay (hfree.at_prefix (List.dropLast_prefix path)), fun q hq => objAt_makeWay ts e hq⟩
    have hwritten : (out.doc.write key e₁).Formed := hd.write he₁
    dsimp only
    split_ifs
    · exact ⟨hwritten, fun more h => nomatch h⟩
    cases hsettle : e₁.settle sh mode ts key path kind value with
    | lose => exact ⟨hwritten, fun more h => nomatch h⟩
    | skip => exact ⟨hwritten, fun more h => nomatch h⟩
    | merge =>
      refine ⟨hwritten, fun more h q hq => ?_⟩
      cases h
      obtain ⟨-, gs, hgs⟩ := settle_merge hpath hsettle
      by_cases heq : q = path
      · exact ⟨e₁, gs, by simp, heq ▸ hgs⟩
      · obtain ⟨fs, hfs⟩ := hway₁ q (prefix_dropLast hq heq)
        exact ⟨e₁, fs, by simp, hfs⟩
    | land e₂ w =>
      have he₂ := he₁.landed (Entry.landing_of_settle hsettle) hpath hvalue hfree hway₁
      refine ⟨(hwritten.write he₂).congr fun k => ?_, fun more h => nomatch h⟩
      simp only [Step.outcome, landed, Outcome.report]
      split_ifs <;> simp

variable (ts mode kind) in
/-- One step, up to the keys of a put that is merged in. -/
theorem step_formed (hvalue : distinct value = true) (hfree : Free sh key path) (hd : d.Formed)
    (hsolid : path ≠ [] → d.ObjAt key path.dropLast → d.Solid key path) :
    (step ts mode key value kind path d).outcome.doc.Formed ∧
      ∀ more, step ts mode key value kind path d = .merge more →
        sh.isRegister key path = false ∧ ∀ q, q <+: path → more.doc.ObjAt key q := by
  by_cases hpath : path = []
  · subst hpath
    simp only [step, List.isEmpty_nil, if_true]
    refine ⟨atRoot_formed (hd.note key), fun more h => ?_⟩
    obtain ⟨hput, hobj⟩ := atRoot_merge h
    exact ⟨isRegister_of_put hput, fun q hq => List.prefix_nil.mp hq ▸ hobj⟩
  suffices h : (step ts mode key value kind path d).outcome.doc.Formed ∧
      ∀ more, step ts mode key value kind path d = .merge more → ∀ q, q <+: path → more.doc.ObjAt key q from
    ⟨h.1, fun more hmore => ⟨(step_merge ts value d hpath hmore).2, h.2 more hmore⟩⟩
  simp only [step, List.isEmpty_iff, hpath, if_false]
  split
  · next e he =>
    have he' : d.records.get key = some e := by rwa [Doc.get_note] at he
    refine within_formed hpath hvalue hfree (hd key e he') (hd.note key) fun fs hfs q hq => ?_
    obtain ⟨e', gs, hget, hgs⟩ := hsolid hpath ⟨e, fs, he', hfs⟩ hpath q hq
    rw [he'] at hget
    exact ⟨gs, Option.some.inj hget ▸ hgs⟩
  · split_ifs
    · have hbare : (⟨.obj [], .born ts⟩ : Entry).Sound sh key := .of_bare rfl rfl
      refine within_formed hpath hvalue hfree hbare ((hd.note key).write hbare) fun fs hfs q hq => ?_
      -- a record made for the change holds nothing yet
      cases hp : path.dropLast with
      | nil =>
        rw [hp] at hq
        exact ⟨[], by rw [List.prefix_nil.mp hq]; rfl⟩
      | cons k p => simp [hp, valueAt_cons, Value.prop] at hfs
    · exact ⟨hd.note key, fun more h => by cases h⟩

end Step

/-- A run keeps every clock sound, where its way leads through no array. -/
theorem run_formed (hkey : Normal sh key) (value : Value) : ∀ (kind : Kind) (path : Path) (d : Doc sh),
    distinct value = true → Free sh key path → d.Formed →
    (path ≠ [] → d.ObjAt key path.dropLast → d.Solid key path) →
    (run ts mode key value kind path d).doc.Formed := by
  induction value using Value.merging_induction with
  | leaf v hv =>
    intro kind path d hvalue hfree hd hsolid
    have hstep := (step_formed ts mode kind hvalue hfree hd hsolid).1
    cases v <;> first | exact hstep | exact absurd hv (by simp)
  | fields fs ih =>
    intro kind path d hvalue hfree hd hsolid
    obtain ⟨hformed, hmerge⟩ := step_formed ts mode kind hvalue hfree hd hsolid
    simp only [distinct, Bool.and_eq_true, distinctFields_iff] at hvalue
    have hfields : sh.isRegister key path = false → ∀ gs : List (String × Value), (∀ e ∈ gs, e ∈ fs) →
        ∀ d : Doc sh, d.Formed → (∀ q, q <+: path → d.ObjAt key q) →
        (runFields ts mode key gs path d).doc.Formed := by
      intro hreg gs hg
      induction gs with
      | nil => exact fun d hd _ => hd
      | cons e gs ihg =>
        intro d hd hway
        have hin := hg e (by simp)
        have hone := ih e hin (changeFor e.2).kind (path ++ [e.1]) d (hvalue.2 e hin)
          (hfree.field hreg e.1) hd fun _ _ _ q hq => hway q (by rwa [List.dropLast_concat] at hq)
        have hclear : d.Clear mode key (path ++ [e.1]) := (hway path List.prefix_rfl).clear hreg e.1
        have hfaithful : Faithful ts key (path ++ [e.1]) d _ :=
          run_faithful hkey e.2 (changeFor e.2).kind (path ++ [e.1]) d (by simp) hclear
        refine ihg (fun e he => hg e (by simp [he])) _ hone fun q hq => ?_
        exact hfaithful.keeps q (by rwa [List.dropLast_concat]) (by simp) (hway q hq)
    rw [run]
    cases hout : step ts mode key (.obj fs) kind path d with
    | done out =>
      rw [hout] at hformed
      exact hformed
    | merge out =>
      rw [hout] at hformed
      obtain ⟨hreg, hway⟩ := hmerge out hout
      exact hfields hreg fs (fun _ h => h) out.doc hformed hway

/-! ## Every run -/

/-- A clock whose keys are in their places: none both live and gone, none live that says what the birth
does; live ones where something is and gone ones where nothing is; and above each, containers alone. -/
structure Entry.WellFormed (sh : Shape) (key : RecordKey) (e : Entry) : Prop where
  apart : ∀ r, e.clock.live.get r = none ∨ e.clock.gone.get r = none
  unborn : ∀ r t, e.clock.live.get r = some t → e.clock.birth ≠ some t
  live : ∀ r, e.clock.live.get r ≠ none → valueAt e.data r ≠ none
  gone : ∀ r, e.clock.gone.get r ≠ none → valueAt e.data r = none
  inside : ∀ r, e.clock.live.get r ≠ none ∨ e.clock.gone.get r ≠ none → r ≠ [] ∧
    ∀ q, q <+: r → q ≠ r → (∃ fs, valueAt e.data q = some (.obj fs)) ∧ sh.isRegister key q = false

theorem Entry.Sound.wellFormed {e : Entry} (h : e.Sound sh key) : e.WellFormed sh key where
  apart r := by
    by_contra hboth
    rw [not_or] at hboth
    exact h.tidy.live r hboth.1 (h.tidy.gone r hboth.2)
  unborn := h.proper.unborn
  live := h.tidy.live
  gone := h.tidy.gone
  inside r hr := by
    refine ⟨?_, fun q hq hne => ⟨h.tidy.above r hr q hq hne, h.proper.free r hr q hq hne⟩⟩
    rintro rfl
    exact hr.elim (fun hlive => hlive h.tidy.root.1) fun hgone => hgone h.tidy.root.2

namespace Doc

/-- What a doc goes through: a replica's change is judged, the store makes one of its own, old times are
forgotten. -/
inductive Work
  | judged (ts : ℕ) (change : Change)
  | own (ts : ℕ) (change : Change)
  | prune (cutoff : ℤ)

def work : Work → Doc sh → Option (Doc sh)
  | .judged ts change, d => (apply ts .judge change d).toOption.map Outcome.doc
  | .own ts change, d => (apply ts .authority change d).toOption.map Outcome.doc
  | .prune cutoff, d => some (d.prune cutoff)

/-- A change as it is made for a store: it passes the shape's check, its value is one that can be, and it
steps into no array. -/
def makes (d : Doc sh) (change : Change) : Bool :=
  sh.assertChange change = .ok () && distinct change.write.value &&
    !d.throughArray (sh.recordKey change.c change.id) change.path

def suits (w : Work) (d : Doc sh) : Bool :=
  match w with
  | .judged _ change | .own _ change => d.makes change
  | .prune _ => true

variable {d d' : Doc sh}

theorem formed_apply {change : Change} {out : Outcome sh} (hmake : d.makes change = true) (hd : d.Formed)
    (h : apply ts mode change d = .ok out) : out.doc.Formed := by
  simp only [makes, Bool.and_eq_true, decide_eq_true_eq, Bool.not_eq_true'] at hmake
  obtain ⟨⟨haccept, hvalue⟩, harray⟩ := hmake
  obtain ⟨-, rfl⟩ := of_apply h
  have hfree : Free sh (sh.recordKey change.c change.id) change.path := fun q hq hne =>
    free_of_accepts (Shape.accepts_of_assertChange haccept) hq hne
  exact run_formed (normal_recordKey _ _) _ _ _ d hvalue hfree hd fun _ hobj => solid_of_throughArray harray hobj

theorem formed_work {w : Work} (hsuits : d.suits w = true) (hd : d.Formed) (h : work w d = some d') :
    d'.Formed := by
  have hone : ∀ mode ts change, d.makes change = true →
      (apply ts mode change d).toOption.map Outcome.doc = some d' → d'.Formed := by
    intro mode ts change hmake h
    cases hout : apply ts mode change d with
    | error _ => rw [hout] at h; cases h
    | ok out =>
      rw [hout] at h
      exact Option.some.inj h ▸ formed_apply hmake hd hout
  cases w with
  | judged ts change => exact hone .judge ts change hsuits h
  | own ts change => exact hone .authority ts change hsuits h
  | prune cutoff => exact Option.some.inj h ▸ hd.prune cutoff

/-- From records without clocks on, whatever is judged, made or forgotten, every record's clock is well
formed. -/
theorem clocks_well_formed {d₀ d : Doc sh} (hfresh : ∀ key e, d₀.records.get key = some e → e.clock = .new)
    (h : Reaches work (fun w d => d.suits w = true) d₀ d) {key : RecordKey} {e : Entry}
    (he : d.records.get key = some e) : e.WellFormed sh key := by
  have hstart : d₀.Formed := fun key e he => .of_bare (by rw [hfresh key e he]; rfl) (by rw [hfresh key e he]; rfl)
  have hformed := h.invariant (P := Doc.Formed) hstart fun w d d' hd hsuits hs => formed_work hsuits hd hs
  exact (hformed key e he).wellFormed

/-- A task's due day and month, the day then set, the month deleted, and old times forgotten. -/
def dueWork : List Work := [
  .own 4 ⟨"tasks", some "t1", [], .put (.obj [("due", .obj [("day", .num 3), ("month", .num 5)])])⟩,
  .judged 6 ⟨"tasks", some "t1", ["due", "day"], .set (.num 4)⟩,
  .judged 7 ⟨"tasks", some "t1", ["due", "month"], .del⟩,
  .prune 5]

/-- When the month was deleted is kept, in a clock that is well formed. -/
theorem clocks_well_formed_when_due : ∃ (d : Doc board) (e : Entry),
    d.records.get ("tasks", some "t1") = some e ∧ e.clock.gone.get ["due", "month"] = some 7 ∧
      e.WellFormed board ("tasks", some "t1") := by
  have hfresh : ∀ key e, (Doc.load board []).records.get key = some e → e.clock = .new := by
    intro key e he
    rw [Doc.records_load [] (by simp)] at he
    simp only [List.foldl_nil, OrderedMap.get_empty, Option.none_or, Doc.unset] at he
    split_ifs at he
    exact Option.some.inj he ▸ rfl
  obtain ⟨d, hreach, hgone⟩ := @Reaches.exists_of_replay (Doc board) Work work
    (fun w d => d.suits w = true) (.load board []) (fun w d => d.suits w) (fun _ _ h => h) dueWork
    (fun d => (d.records.get ("tasks", some "t1")).bind (·.clock.gone.get ["due", "month"]) = some 7) _
    (by decide +kernel)
  obtain ⟨e, he, hmonth⟩ := Option.bind_eq_some_iff.mp hgone
  exact ⟨d, e, he, hmonth, clocks_well_formed hfresh hreach he⟩

end Doc

end LazyStorage.Core
