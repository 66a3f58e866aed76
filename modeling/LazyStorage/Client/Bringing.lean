import LazyStorage.Client.Standing

/-! # What messages bring a base to

What is on the way to a client takes its base from version to version: patches in
turn while it is synced, nothing while it is not, and the answer to a hello from
the version the hello said.
-/
namespace LazyStorage.Client

open Lib LazyStorage.Core LazyStorage.Server

variable {sh : Shape} {U : Type}

/-- What messages do to a client, of which is kept whether it is synced and the version its base stands at, if it has
heard the store. Entries had already are brought only where they may be `again`. -/
inductive Brings (sh : Shape) (commits : List Commit) (epoch : String) (again : Prop) :
    Bool → Option ℕ → List Down → Bool → Option ℕ → Prop
  | done (f : Bool) (p : Option ℕ) : Brings sh commits epoch again f p [] f p
  | patch {v : ℕ} {entry : LogEntry} {msgs : List Down} {f : Bool} {q : Option ℕ}
      (logged : (logged commits)[v]? = some entry) (number : entry.v = v + 1) :
      Brings sh commits epoch again true (some (v + 1)) msgs f q →
      Brings sh commits epoch again true (some v) (.patch entry.changes entry.v entry.ts :: msgs) f q
  | ignored {p q : Option ℕ} {changes : List Change} {v ts : ℕ} {msgs : List Down} {f : Bool} :
      Brings sh commits epoch again false p msgs f q →
      Brings sh commits epoch again false p (.patch changes v ts :: msgs) f q
  | ack {v n seq now : ℕ} {as replica : Option String} {lost : List Lost} {msgs : List Down} {f : Bool} {q : Option ℕ}
      (counted : n ≤ v) : Brings sh commits epoch again true (some v) msgs f q →
      Brings sh commits epoch again true (some v) (.ack as replica seq n now lost :: msgs) f q
  | refusal {f g : Bool} {p q : Option ℕ} {as replica : Option String} {seq : Option ℕ} {refusal : Refusal}
      {msgs : List Down} : Brings sh commits epoch again f p msgs g q →
      Brings sh commits epoch again f p (.error as replica seq refusal :: msgs) g q
  | closed {f g : Bool} {p q : Option ℕ} {message : String} {msgs : List Down} :
      Brings sh commits epoch again f p msgs g q →
      Brings sh commits epoch again f p (.closed .replicaTaken message :: msgs) g q
  | snapshot {f g : Bool} {p q : Option ℕ} {records : List (RecordKey × Entry)} {seq w now : ℕ}
      {lost : List (ℕ × List Lost)} {msgs : List Down} (later : ∀ v ∈ p, v ≤ w)
      (stood : StoodAt commits w (Doc.load sh (records.filter fun r => sh.has r.1.1))) :
      Brings sh commits epoch again true (some w) msgs g q →
      Brings sh commits epoch again f p (.snapshot records seq w epoch now lost :: msgs) g q
  | delta {g : Bool} {q : Option ℕ} {n seq w now : ℕ} {lost : List (ℕ × List Lost)} {msgs : List Down}
      (later : n ≤ w) (counted : w ≤ (logged commits).length) :
      Brings sh commits epoch again true (some w) msgs g q →
      Brings sh commits epoch again false (some n) (.delta (entriesFrom commits n w) seq w epoch now lost :: msgs) g q
  | deltaAgain {g : Bool} {q : Option ℕ} {n seq w now : ℕ} {lost : List (ℕ × List Lost)} {msgs : List Down}
      (may : again) (later : n ≤ w) (counted : w ≤ (logged commits).length) :
      Brings sh commits epoch again true (some w) msgs g q →
      Brings sh commits epoch again true (some w) (.delta (entriesFrom commits n w) seq w epoch now lost :: msgs) g q

namespace Brings

variable {commits new : List Commit} {epoch : String} {again : Prop} {f g : Bool} {p q : Option ℕ} {msgs : List Down}

theorem append {g' : Bool} {q' : Option ℕ} {more : List Down} (h : Brings sh commits epoch again f p msgs g q)
    (h' : Brings sh commits epoch again g q more g' q') : Brings sh commits epoch again f p (msgs ++ more) g' q' := by
  induction h with
  | done => exact h'
  | patch hlogged hnumber _ ih => exact .patch hlogged hnumber (ih h')
  | ignored _ ih => exact .ignored (ih h')
  | ack hcounted _ ih => exact .ack hcounted (ih h')
  | refusal _ ih => exact .refusal (ih h')
  | closed _ ih => exact .closed (ih h')
  | snapshot hlater hstood _ ih => exact .snapshot hlater hstood (ih h')
  | delta hlater hcounted _ ih => exact .delta hlater hcounted (ih h')
  | deltaAgain hmay hlater hcounted _ ih => exact .deltaAgain hmay hlater hcounted (ih h')

/-- What is on the way stays right as the store goes on. -/
theorem more (h : Brings sh commits epoch again f p msgs g q) (new : List Commit) :
    Brings sh (commits ++ new) epoch again f p msgs g q := by
  have hlength : (logged commits).length ≤ (logged (commits ++ new)).length := by
    rw [logged_append, List.length_append]
    omega
  induction h with
  | done f p => exact .done f p
  | patch hlogged hnumber _ ih =>
    refine .patch ?_ hnumber ih
    rw [logged_append, List.getElem?_append_left]
    · exact hlogged
    · exact (List.getElem?_eq_some_iff.mp hlogged).1
  | ignored _ ih => exact .ignored ih
  | ack hcounted _ ih => exact .ack hcounted ih
  | refusal _ ih => exact .refusal ih
  | closed _ ih => exact .closed ih
  | snapshot hlater hstood _ ih => exact .snapshot hlater (hstood.more new) ih
  | delta hlater hcounted _ ih =>
    rw [← entriesFrom_more new hcounted]
    exact .delta hlater (hcounted.trans hlength) ih
  | deltaAgain hmay hlater hcounted _ ih =>
    rw [← entriesFrom_more new hcounted]
    exact .deltaAgain hmay hlater (hcounted.trans hlength) ih

/-- A client that is not synced after all of it was not before. -/
theorem back (h : Brings sh commits epoch again f p msgs g q) (hg : g = false) : f = false ∧ q = p := by
  induction h with
  | done => exact ⟨hg, rfl⟩
  | patch _ _ _ ih => cases (ih hg).1
  | ignored _ ih => exact ih hg
  | ack _ _ ih => cases (ih hg).1
  | refusal _ ih => exact ih hg
  | closed _ ih => exact ih hg
  | snapshot _ _ _ ih => cases (ih hg).1
  | delta _ _ _ ih => cases (ih hg).1
  | deltaAgain _ _ _ _ ih => cases (ih hg).1

/-- Versions go up. -/
theorem mono (h : Brings sh commits epoch again f p msgs g q) {v : ℕ} (hv : v ∈ p) : ∃ w ∈ q, v ≤ w := by
  induction h generalizing v with
  | done => exact ⟨v, hv, le_rfl⟩
  | patch _ _ _ ih =>
    obtain ⟨w, hw, hle⟩ := ih rfl
    obtain rfl := Option.some.inj hv
    exact ⟨w, hw, by omega⟩
  | ignored _ ih => exact ih hv
  | ack _ _ ih => exact ih hv
  | refusal _ ih => exact ih hv
  | closed _ ih => exact ih hv
  | snapshot hlater _ _ ih =>
    obtain ⟨w, hw, hle⟩ := ih rfl
    exact ⟨w, hw, (hlater v hv).trans hle⟩
  | delta hlater _ _ ih =>
    obtain ⟨w, hw, hle⟩ := ih rfl
    obtain rfl := Option.some.inj hv
    exact ⟨w, hw, hlater.trans hle⟩
  | deltaAgain _ _ _ _ ih => exact ih hv

/-- Without an answer to a hello, a client stays unsynced. -/
theorem unanswered (h : Brings sh commits epoch again f p msgs g q) (hf : f = false)
    (hnone : ∀ msg ∈ msgs, msg.answers = none) : g = false ∧ q = p := by
  induction h with
  | done => exact ⟨hf, rfl⟩
  | patch => cases hf
  | ignored _ ih => exact ih hf (fun msg hmsg => hnone msg (List.mem_cons_of_mem _ hmsg))
  | ack => cases hf
  | refusal _ ih => exact ih hf (fun msg hmsg => hnone msg (List.mem_cons_of_mem _ hmsg))
  | closed _ ih => exact ih hf (fun msg hmsg => hnone msg (List.mem_cons_of_mem _ hmsg))
  | snapshot => cases hnone _ List.mem_cons_self
  | delta => cases hnone _ List.mem_cons_self
  | deltaAgain => cases hf

/-- What is told of the entries that follow brings a synced client on past them; another waits. -/
theorem told {entries rest : List LogEntry} (hmsgs : Says entries msgs)
    (hnumbers : ∀ i entry, (logged commits)[i]? = some entry → entry.v = i + 1) {v : ℕ} (hp : f = true → p = some v)
    (hrest : (logged commits).drop v = entries ++ rest) :
    ∃ q, Brings sh commits epoch again f p msgs f q ∧ (f = true → q = some (v + entries.length)) ∧
      (f = false → q = p) := by
  cases f with
  | false =>
    refine ⟨p, ?_, by simp, fun _ => rfl⟩
    clear hrest
    induction hmsgs with
    | nil => exact .done false p
    | patch entry _ ih => exact .ignored ih
    | refusal as replica seq refusal _ ih => exact .refusal ih
  | true =>
    refine ⟨some (v + entries.length), ?_, fun _ => rfl, by simp⟩
    rw [hp rfl]
    clear hp
    induction hmsgs generalizing v with
    | nil => exact .done true _
    | @patch entries msgs entry _ ih =>
      have hentry : (logged commits)[v]? = some entry := by
        rw [← List.head?_drop, hrest]
        rfl
      have hnext : (logged commits).drop (v + 1) = entries ++ rest := by
        rw [← List.tail_drop, hrest]
        rfl
      have hfollow := ih hnext
      rw [Nat.add_right_comm] at hfollow
      exact .patch hentry (hnumbers v entry hentry) hfollow
    | refusal as replica seq refusal _ ih => exact .refusal (ih hrest)

end Brings

section Answered

variable {opts : Options sh U} {st : Store sh} {exact again : Prop} {f : Bool} {p : Option ℕ}

/-- The answer to a hello brings a client to where the store is: an unsynced one from where it says it is. -/
theorem brings_catchUp (h : st.Told opts exact) (hf : f = true → p = some st.version) (hp : ∀ v ∈ p, v ≤ st.version)
    {since : Option (ℕ × String)} (hsince : ∀ said ∈ since, (f = false → p = some said.1) ∧ (f = true → again))
    (now : ℕ) (replica : String) (clocks : Bool) (lost : List (ℕ × List Lost)) :
    Brings sh st.commits st.epoch again f p [st.catchUp now replica clocks since lost] true (some st.version) := by
  unfold Store.catchUp
  dsimp only
  split
  · next ops hops =>
    split at hops
    · next n e =>
      split_ifs at hops
      obtain ⟨hle, rfl⟩ := h.deltaSince_entries hops
      obtain ⟨hwaits, hmay⟩ := hsince _ rfl
      cases f with
      | false =>
        rw [hwaits rfl]
        exact .delta hle h.length_logged.ge (.done _ _)
      | true =>
        rw [hf rfl]
        exact .deltaAgain (hmay rfl) hle h.length_logged.ge (.done _ _)
    · cases hops
  · exact .snapshot hp (h.stood_snapshot clocks) (.done _ _)

end Answered

namespace Mirror

/-- The version last told, if the store has been heard. -/
def heard (c : Mirror sh) : Option ℕ := c.known.epoch.map fun _ => c.known.v

/-- A client that has heard the store has what it held at the version last told, and a synced one has heard it. -/
structure Stands (commits : List Commit) (epoch : String) (c : Mirror sh) : Prop where
  stood : ∀ e ∈ c.known.epoch, e = epoch ∧ StoodAt commits c.known.v c.base
  synced : c.synced = true → c.known.epoch = some epoch

/-- What a client may have said: ops once it is synced, and hellos from the version it has, or one it had. -/
def Meant (c : Mirror sh) : Up → Prop
  | .op as _ => as = none ∧ c.synced = true
  | .hello _ _ since _ follower => follower = false ∧
      ∀ said ∈ since, ∃ v ∈ c.heard, said.1 ≤ v ∧ (c.synced = false → said.1 = v)
  | .leave _ => False

variable {commits : List Commit} {epoch : String} {c c' : Mirror sh}

theorem Stands.same (h : c.Stands commits epoch) (hknown : c'.known = c.known) (hbase : c'.base = c.base)
    (hsynced : c'.synced = true → c.synced = true) : c'.Stands commits epoch where
  stood := by
    rw [hknown, hbase]
    exact h.stood
  synced hs := hknown ▸ h.synced (hsynced hs)

theorem Stands.more (h : c.Stands commits epoch) (new : List Commit) : c.Stands (commits ++ new) epoch :=
  ⟨fun e he => ⟨(h.stood e he).1, (h.stood e he).2.more new⟩, h.synced⟩

theorem heard_of_synced (h : c.Stands commits epoch) (hs : c.synced = true) : c.heard = some c.known.v := by
  rw [heard, h.synced hs]
  rfl

theorem stood_of_heard (h : c.Stands commits epoch) {v : ℕ} (hv : v ∈ c.heard) : StoodAt commits v c.base := by
  obtain ⟨e, he, rfl⟩ := Option.map_eq_some_iff.mp hv
  exact (h.stood e he).2

/-- What a client made of a message says it has come on. -/
structure GoesOn (c c' : Mirror sh) : Prop where
  linked : c'.linked = c.linked
  synced : c.synced = true → c'.synced = true
  heard : ∀ v ∈ c.heard, ∃ w ∈ c'.heard, v ≤ w
  waits : c'.synced = false → c'.heard = c.heard

theorem GoesOn.meant {msg : Up} (h : GoesOn c c') (hmsg : c.Meant msg) : c'.Meant msg := by
  cases msg with
  | op as op => exact ⟨hmsg.1, h.synced hmsg.2⟩
  | leave as => exact hmsg
  | hello replica ops since clocks follower =>
    refine ⟨hmsg.1, fun said hsaid => ?_⟩
    obtain ⟨v, hv, hle, hwaits⟩ := hmsg.2 said hsaid
    obtain ⟨w, hw, hvw⟩ := h.heard v hv
    refine ⟨w, hw, hle.trans hvw, fun hunsynced => ?_⟩
    have hbefore : c.synced = false := by
      cases hs : c.synced with
      | false => rfl
      | true => rw [h.synced hs] at hunsynced; cases hunsynced
    rw [h.waits hunsynced, Option.mem_def.mp hv] at hw
    obtain rfl := Option.some.inj hw
    exact hwaits hbefore

theorem GoesOn.same (hlinked : c'.linked = c.linked) (hknown : c'.known = c.known) (hsynced : c'.synced = c.synced) :
    GoesOn c c' where
  linked := hlinked
  synced hs := hsynced.trans hs
  heard v hv := ⟨v, by rwa [Mirror.heard, hknown], le_rfl⟩
  waits _ := by rw [Mirror.heard, Mirror.heard, hknown]

/-- What a hello says is meant. -/
theorem meant_hello (c : Mirror sh) : ∀ msg ∈ (hello c).2, (hello c).1.Meant msg := by
  intro msg hmsg
  obtain rfl := List.mem_singleton.mp hmsg
  refine ⟨rfl, fun said hsaid => ?_⟩
  obtain ⟨e, he, rfl⟩ := Option.map_eq_some_iff.mp hsaid
  exact ⟨c.known.v, Option.mem_def.mpr (by rw [heard]; exact congrArg (Option.map _) he), le_rfl, fun _ => rfl⟩

/-- Caught up, a client stands where it was brought, and says ops only. -/
theorem caughtUp_goes (epoch : String) {applyToBase : Mirror sh → Mirror sh} {w : ℕ} (hlater : ∀ v ∈ c.heard, v ≤ w)
    (hlinked : ∀ c' : Mirror sh, (applyToBase c').linked = c'.linked)
    (hstood : ∀ c' : Mirror sh, c'.base = c.base → StoodAt commits w (applyToBase c').base) (seq serverNow : ℕ)
    (now : ℤ) :
    let out := c.caughtUp seq w epoch serverNow now applyToBase
    out.1.Stands commits epoch ∧ GoesOn c out.1 ∧ out.1.synced = true ∧ out.1.heard = some w ∧
      ∀ msg ∈ out.2, ∃ op, msg = .op none op := by
  refine ⟨⟨?_, fun _ => rfl⟩, ⟨?_, fun _ => rfl, ?_, ?_⟩, rfl, rfl, ?_⟩
  · intro e he
    obtain rfl := Option.some.inj he
    exact ⟨rfl, hstood _ rfl⟩
  · exact hlinked _
  · intro v hv
    exact ⟨w, rfl, hlater v hv⟩
  · intro hs
    cases hs
  · intro msg hmsg
    unfold caughtUp at hmsg
    dsimp only at hmsg
    split_ifs at hmsg
    · obtain ⟨op, -, rfl⟩ := List.mem_map.mp hmsg
      exact ⟨op, rfl⟩
    · cases hmsg

variable {again : Prop} {f : Bool} {p q : Option ℕ} {down : List Down}

/-- What a client made of the next message on its way: it stands where that brings it, and says ops only; told that its
replica is another's, it is off the link. -/
structure Handles (commits : List Commit) (epoch : String) (again : Prop) (c : Mirror sh) (msg : Down) (down : List Down)
    (f : Bool) (q : Option ℕ) (out : Mirror sh × List Up) : Prop where
  stands : out.1.Stands commits epoch
  goes : out.1.linked = false ∧ out.1.synced = false ∧ out.2 = [] ∨
    GoesOn c out.1 ∧ Brings sh commits epoch again out.1.synced out.1.heard down f q ∧
      (msg.answers = none → out.1.synced = c.synced) ∧ ∀ said ∈ out.2, out.1.synced = true ∧ ∃ op, said = .op none op

/-- What leaves a client where it stands. -/
theorem Handles.stays {msg : Down} (h : c.Stands commits epoch)
    (hrest : Brings sh commits epoch again c.synced c.heard down f q) (hknown : c'.known = c.known)
    (hbase : c'.base = c.base) (hsynced : c'.synced = c.synced) (hlinked : c'.linked = c.linked) :
    Handles commits epoch again c msg down f q (c', []) where
  stands := h.same hknown hbase fun hs => hsynced ▸ hs
  goes := by
    refine .inr ⟨.same hlinked hknown hsynced, ?_, fun _ => hsynced, by simp⟩
    rw [hsynced, heard, hknown, ← heard]
    exact hrest

/-- The answer to a hello, on top of whatever the base was. -/
theorem Handles.catchesUp {msg : Down} {applyToBase : Mirror sh → Mirror sh} {w n : ℕ} (hanswers : msg.answers = some n)
    (hlater : ∀ v ∈ c.heard, v ≤ w) (hlinked : ∀ c' : Mirror sh, (applyToBase c').linked = c'.linked)
    (hstood : ∀ c' : Mirror sh, c'.base = c.base → StoodAt commits w (applyToBase c').base)
    (hrest : Brings sh commits epoch again true (some w) down f q) (seq serverNow : ℕ) (now : ℤ) :
    Handles commits epoch again c msg down f q (c.caughtUp seq w epoch serverNow now applyToBase) := by
  obtain ⟨hstands, hgoes, hsynced, hheard, hsaid⟩ := caughtUp_goes epoch hlater hlinked hstood seq serverNow now
  refine ⟨hstands, .inr ⟨hgoes, ?_, fun hnone => ?_, fun said hmem => ⟨hsynced, hsaid said hmem⟩⟩⟩
  · rw [hsynced, hheard]
    exact hrest
  · rw [hanswers] at hnone
    cases hnone

/-- A patch next in number. -/
theorem Handles.patch {deltaLog v : ℕ} {entry : LogEntry} (hchronicle : Chronicle sh deltaLog commits)
    (hknown : ∀ entry ∈ logged commits, entry.Known sh) (h : c.Stands commits epoch) (hsynced : c.synced = true)
    (hheard : c.heard = some v) (hlogged : (logged commits)[v]? = some entry) (hnumber : entry.v = v + 1)
    (hrest : Brings sh commits epoch again true (some (v + 1)) down f q) (now : ℤ) :
    Handles commits epoch again c (.patch entry.changes entry.v entry.ts) down f q
      (c.handle (.patch entry.changes entry.v entry.ts) now) := by
  have hv : c.known.v = v := Option.some.inj ((heard_of_synced h hsynced).symm.trans hheard)
  have hlength : v + 1 ≤ (logged commits).length := (List.getElem?_eq_some_iff.mp hlogged).1
  have hone : entriesFrom commits v (v + 1) = [entry] := by
    rw [entriesFrom, Nat.add_sub_cancel_left, List.take_one, List.head?_drop, hlogged]
    rfl
  obtain ⟨d, hreplay, hnext⟩ := (stood_of_heard h hheard).replay hchronicle (Nat.le_succ v)
    (hchronicle.length_logged ▸ hlength)
  rw [hone] at hreplay
  let told : Mirror sh := { c with known := { c.known with v := entry.v } }
  have hout : c.handle (.patch entry.changes entry.v entry.ts) now = (told.intoBase entry.changes entry.ts, []) := by
    unfold handle
    dsimp only
    rw [if_neg (by simp [hsynced]), if_neg]
    rw [hnumber, hv]
    simp
  have hbase : (told.intoBase entry.changes entry.ts).base = d :=
    base_entries (c := told) (by simpa using hknown entry (List.mem_of_getElem? hlogged)) hreplay
  have hnow : (told.intoBase entry.changes entry.ts).heard = some (v + 1) := by
    rw [heard, ← hnumber]
    change c.known.epoch.map (fun _ => entry.v) = _
    rw [h.synced hsynced]
    rfl
  have hstill : (told.intoBase entry.changes entry.ts).synced = true := hsynced
  rw [hout]
  refine ⟨⟨fun e he => ⟨(h.stood e he).1, ?_⟩, fun _ => h.synced hsynced⟩, .inr ⟨⟨rfl, fun _ => hstill, ?_, ?_⟩, ?_, ?_, ?_⟩⟩
  · rw [hbase]
    change StoodAt commits entry.v d
    rwa [hnumber]
  · intro u hu
    rw [hheard] at hu
    obtain rfl := Option.some.inj hu
    exact ⟨v + 1, hnow, Nat.le_succ v⟩
  · intro hs
    rw [hstill] at hs
    cases hs
  · rw [hnow, hstill]
    exact hrest
  · exact fun _ => hstill.trans hsynced.symm
  · simp

/-- Whatever comes next, a client makes of it what it brings. -/
theorem handles {deltaLog : ℕ} {msg : Down} (hchronicle : Chronicle sh deltaLog commits)
    (hknown : ∀ entry ∈ logged commits, entry.Known sh)
    (hrepeat : again → repeatableLog (logged commits) (Saved.docAt sh []) = true) (h : c.Stands commits epoch)
    (hbrings : Brings sh commits epoch again c.synced c.heard (msg :: down) f q) (now : ℤ) :
    Handles commits epoch again c msg down f q (c.handle msg now) := by
  have hentries : ∀ n w, ∀ entry ∈ entriesFrom commits n w, entry.Known sh := fun n w entry hentry =>
    hknown entry (List.mem_of_mem_drop (List.mem_of_mem_take hentry))
  have hlinked : ∀ (ops : List LogEntry) (c : Mirror sh),
      (ops.foldl (fun c entry => c.intoBase entry.changes entry.ts) c).linked = c.linked := fun ops c =>
    (System.sameOps_entries ops c).linked
  generalize hsynced : c.synced = g at hbrings
  generalize hheard : c.heard = p at hbrings
  cases hbrings with
  | patch hlogged hnumber hrest => exact .patch hchronicle hknown h hsynced hheard hlogged hnumber hrest now
  | ignored hrest =>
    rw [← hsynced, ← hheard] at hrest
    unfold handle
    dsimp only
    rw [if_pos (by simp [hsynced])]
    exact .stays h hrest rfl rfl rfl rfl
  | @ack v n seq serverNow as replica lost _ _ _ hcounted hrest =>
    have hv : c.known.v = v := Option.some.inj ((heard_of_synced h hsynced).symm.trans hheard)
    refine .stays h (by rwa [hsynced, hheard]) ?_ rfl rfl rfl
    change ({ c.known with v := max c.known.v n } : Known) = c.known
    rw [hv, max_eq_left hcounted, ← hv]
  | @refusal _ _ _ _ as replica seq refusal _ hrest =>
    rw [← hsynced, ← hheard] at hrest
    unfold handle
    dsimp only
    split_ifs
    · exact .stays h hrest rfl rfl rfl rfl
    · cases seq with
      | some seq => exact .stays h hrest rfl rfl rfl rfl
      | none => exact .stays h hrest rfl rfl rfl rfl
  | closed hrest => exact ⟨h.same rfl rfl (by simp [handle]), .inl ⟨rfl, rfl, rfl⟩⟩
  | @snapshot _ _ _ _ records seq w serverNow lost _ hlater hstood hrest =>
    have hsame : ∀ c' : Mirror sh, (snapshotInto records c').linked = c'.linked := fun _ => rfl
    exact .catchesUp rfl (hheard ▸ hlater) hsame (fun _ _ => hstood) hrest seq serverNow now
  | @delta _ _ n seq w serverNow lost _ hlater hcounted hrest =>
    obtain ⟨d, hreplay, hnext⟩ := (stood_of_heard h hheard).replay hchronicle hlater (hchronicle.length_logged ▸ hcounted)
    refine .catchesUp rfl (by simpa [hheard] using hlater) (hlinked _) (fun c' hc' => ?_) hrest seq serverNow now
    rwa [base_entries (hentries n w) (hc' ▸ hreplay)]
  | @deltaAgain _ _ n seq w serverNow lost _ hmay hlater hcounted hrest =>
    obtain ⟨d, hreplay, hnext⟩ := (stood_of_heard h hheard).again hchronicle hlater (hrepeat hmay)
    refine .catchesUp rfl (by simp [hheard]) (hlinked _) (fun c' hc' => ?_) hrest seq serverNow now
    rwa [base_entries (hentries n w) (hc' ▸ hreplay)]

end Mirror

end LazyStorage.Client
