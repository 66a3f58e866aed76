import LazyStorage.Lib.Runs
import LazyStorage.Server.Deletions
import LazyStorage.Server.Host
import LazyStorage.Server.Progress
import LazyStorage.Server.Session

/-! # What a host keeps, turn by turn

Each turn of a host is one of a few moves of its store. What every move keeps
holds of every store a run reaches; the doc of a store is kept sound so.
-/
namespace LazyStorage.Server

open Lib LazyStorage.Core

variable {sh : Shape} {U : Type} {opts : Options sh U}

namespace Store

variable {st : Store sh}

@[simp] theorem doc_commit (c : Commit) : (commit opts c st).doc = st.doc := by
  unfold commit
  dsimp only
  split_ifs <;> rfl

@[simp] theorem doc_commitNow : st.commitNow.doc = st.doc := rfl

@[simp] theorem doc_rememberReplica (live : List String) (id : String) (entry : Replica) :
    (st.rememberReplica opts live id entry).doc = st.doc := by
  unfold rememberReplica
  dsimp only
  split_ifs
  · rfl
  · rw [doc_commit]
    rfl

@[simp] theorem doc_takeReplica (live : List String) (now : ℕ) (user : Option U)
    (replica : String) : (st.takeReplica opts live now user replica).doc = st.doc := by
  unfold takeReplica
  split
  · simp
  · rfl

@[simp] theorem doc_landed (applied : List Change) (ts : ℕ) (replica : Option (String × Replica))
    (op : Option (String × ℕ)) : (st.landed opts applied ts replica op).doc = st.doc := by
  unfold landed
  dsimp only
  split_ifs
  · cases replica <;> simp
  · rw [doc_commit]
  · rw [doc_commit]

theorem doc_compact (now : ℕ) : (st.compact opts now).doc = st.doc ∨
    ∃ cutoff, (st.compact opts now).doc = st.doc.prune cutoff := by
  unfold compact
  dsimp only
  cases opts.retention with
  | none => exact .inl rfl
  | some retention =>
    right
    refine ⟨(now : ℤ) - retention, ?_⟩
    dsimp only
    split_ifs
    · rfl
    · rw [doc_commit]

theorem doc_load (known : ℕ) (epoch : String) (now : ℕ) (stored : List Commit) :
    ∃ records, (load opts known epoch now stored).doc = Doc.load sh records ∨
      ∃ cutoff, (load opts known epoch now stored).doc = (Doc.load sh records).prune cutoff := by
  have hdoc : ∀ st : Store sh, st.doc = (restored opts known epoch stored).doc →
      (st.compact opts now).doc = (restored opts known epoch stored).doc ∨
        ∃ cutoff, (st.compact opts now).doc = (restored opts known epoch stored).doc.prune cutoff := by
    intro st hst
    rw [← hst]
    exact doc_compact now
  refine ⟨if stored.isEmpty then seeds sh else (Saved.ofCommits stored).records.entries, ?_⟩
  unfold load
  dsimp only
  rw [doc_commitNow]
  apply hdoc
  split_ifs <;> simp

end Store

/-- What each move of a store keeps: its own writes and its migrations, those that are `ok`. -/
structure Keeps (opts : Options sh U) (ok : OwnWrite → Store sh → Prop)
    (okm : Migration sh → Store sh → Prop) (P : Store sh → Prop) : Prop where
  judged : ∀ {st mid : Store sh} {live : List String} {now : ℕ} {op : Op} {speaker : Speaker U}
    {lost : List Lost}, P st → st.Admits opts now op speaker →
    st.judged opts live now op speaker = .ok (mid, lost) → P mid
  forbidden : ∀ {st : Store sh} {op : Op} {user : Option U} {ts : ℕ} {doc : Doc sh}
    {message : String}, P st → opts.rules.judge st.doc op.changes user op.replica
      (Store.applyOp opts op user ts) = (doc, .error message) → P { st with doc }
  taken : ∀ {st : Store sh} (live : List String) (now : ℕ) (user : Option U) (replica : String),
    P st → P (st.takeReplica opts live now user replica)
  own : ∀ {st : Store sh} {now : ℕ} {w : OwnWrite} {out : Store sh × List Change}, P st → ok w st →
    st.own opts now w = .ok out → P out.1
  compact : ∀ {st : Store sh} (now : ℕ), P st → P (st.compact opts now)
  flush : ∀ {st : Store sh}, P st → P st.commitNow
  migrated : ∀ {st out : Store sh} {now : ℕ} {migration : Migration sh}, P st → okm migration st →
    st.migrateOne opts now migration = .ok out → P out
  load : ∀ {st : Store sh} (known : ℕ) (epoch : String) (now : ℕ), P st →
    P (Store.load opts known epoch now st.stored)

/-- What each move of a store keeps, where the ops it decides are such as may come. -/
structure KeepsFor (opts : Options sh U) (may : Op → Prop) (ok : OwnWrite → Store sh → Prop)
    (okm : Migration sh → Store sh → Prop) (P : Store sh → Prop) : Prop where
  judged : ∀ {st mid : Store sh} {live : List String} {now : ℕ} {op : Op} {speaker : Speaker U}
    {lost : List Lost}, may op → P st → st.Admits opts now op speaker →
    st.judged opts live now op speaker = .ok (mid, lost) → P mid
  forbidden : ∀ {st : Store sh} {op : Op} {user : Option U} {ts : ℕ} {doc : Doc sh}
    {message : String}, P st → opts.rules.judge st.doc op.changes user op.replica
      (Store.applyOp opts op user ts) = (doc, .error message) → P { st with doc }
  taken : ∀ {st : Store sh} (live : List String) (now : ℕ) (user : Option U) (replica : String),
    P st → P (st.takeReplica opts live now user replica)
  own : ∀ {st : Store sh} {now : ℕ} {w : OwnWrite} {out : Store sh × List Change}, P st → ok w st →
    st.own opts now w = .ok out → P out.1
  compact : ∀ {st : Store sh} (now : ℕ), P st → P (st.compact opts now)
  flush : ∀ {st : Store sh}, P st → P st.commitNow
  migrated : ∀ {st out : Store sh} {now : ℕ} {migration : Migration sh}, P st → okm migration st →
    st.migrateOne opts now migration = .ok out → P out
  load : ∀ {st : Store sh} (known : ℕ) (epoch : String) (now : ℕ), P st →
    P (Store.load opts known epoch now st.stored)

namespace KeepsFor

variable {may : Op → Prop} {ok : OwnWrite → Store sh → Prop}
  {okm : Migration sh → Store sh → Prop} {P : Store sh → Prop} (hP : KeepsFor opts may ok okm P)
include hP

theorem maybeCompact {st : Store sh} (now : ℕ) (h : P st) : P (st.maybeCompact opts now) := by
  unfold Store.maybeCompact
  dsimp only
  split_ifs
  · exact hP.compact now h
  · exact h

theorem apply {st : Store sh} (live : List String) (now : ℕ) (op : Op) (speaker : Speaker U)
    (hop : may op) (h : P st) : P (st.apply opts live now op speaker).1 := by
  have happlies := @Store.applies sh U opts st live now op speaker
  generalize st.apply opts live now op speaker = res at happlies
  cases happlies with
  | refused => exact h
  | duplicate => exact h
  | forbidden _ hjudge => exact hP.forbidden h hjudge
  | decided hadmits hjudged => exact hP.maybeCompact now (hP.judged hop h hadmits hjudged)

theorem step {e : HostEvent U} {h h' : Host sh}
    (hmay : ∀ op speaker live, e = .deliver op speaker live → may op) (hok : ∀ w, e = .own w → ok w h.store)
    (hokm : ∀ migration, e = .migrate → opts.migrations[h.store.schema]? = some migration →
      okm migration h.store)
    (hs : h.step opts e = some h') (hp : P h.store) : P h'.store := by
  cases e with
  | wait ms =>
    cases hs
    exact hp
  | deliver op speaker live =>
    cases hs
    exact hP.apply live h.wall op speaker (hmay op speaker live rfl) hp
  | hello replica speaker live =>
    simp only [Host.step] at hs
    split at hs
    · cases hs
      exact hp
    · cases hs
      exact hP.taken live h.wall speaker.user replica hp
  | own w =>
    simp only [Host.step] at hs
    split at hs
    · cases hs
      exact hp
    · next out hout =>
      cases hs
      exact hP.own hp (hok w rfl) hout
  | compact =>
    cases hs
    exact hP.compact h.wall hp
  | flush =>
    cases hs
    exact hP.flush hp
  | reload known epoch =>
    obtain ⟨-, hs⟩ := Option.ite_none_left_eq_some.mp hs
    cases hs
    exact hP.load known epoch h.wall hp
  | migrate =>
    simp only [Host.step] at hs
    split at hs
    · cases hs
    next migration hnext =>
    split at hs
    · cases hs
    · next hout =>
      cases hs
      exact hP.migrated hp (hokm migration rfl hnext) hout

end KeepsFor

/-- The ops a message brings. -/
def Up.ops : Up → List Op
  | .hello _ ops _ _ _ => ops
  | .op _ one => [one]
  | .leave _ => []

theorem Store.throttle_eq (opts : Options sh U) (st : Store sh) (now : ℕ) (key : String) :
    ∃ buckets, (st.throttle opts now key).1 = { st with buckets } := by
  unfold Store.throttle
  dsimp only
  cases opts.rateLimit with
  | none => exact ⟨st.buckets, rfl⟩
  | some limit =>
    dsimp only
    split_ifs <;> exact ⟨_, rfl⟩

namespace KeepsFor

variable {may : Op → Prop} {ok : OwnWrite → Store sh → Prop}
  {okm : Migration sh → Store sh → Prop} {P : Store sh → Prop} (hP : KeepsFor opts may ok okm P)
  (hidle : ∀ {st : Store sh} effects buckets, P st → P { st with effects, buckets })
  {others : List String} {now : ℕ} {st : Store sh}
include hP hidle

omit hP in
theorem throttled (key : String) (h : P st) : P (st.throttle opts now key).1 := by
  obtain ⟨buckets, heq⟩ := Store.throttle_eq opts st now key
  rw [heq]
  exact hidle st.effects buckets h

theorem liveOp (op : Op) (as : Option String) (speaker : Speaker U) (hop : may op) (h : P st) :
    P (liveOp opts others now op as speaker st).1 := by
  unfold LazyStorage.Server.liveOp
  dsimp only
  split
  · exact h
  · have hlimited : P (st.throttle opts now (Store.bucketOf opts speaker.user op.replica)).1 :=
      throttled hidle _ h
    split_ifs
    · exact hlimited
    · have happlied := hP.apply others now op
        { speaker with heldUntil := speaker.heldUntil.filter fun t : ℕ => as.isNone || now < t }
        hop hlimited
      split <;> simp_all

theorem tellOp (follows : Bool) {told : Told sh U} (op : Op) (hop : may op) (h : P told.store) :
    P (tellOp opts others now follows told op).store := by
  have happlied := hP.apply others now op told.speaker hop h
  unfold LazyStorage.Server.tellOp
  split
  · next st speaker lost duplicate heq =>
    rw [heq] at happlied
    exact hidle [] _ happlied
  · next heq =>
    rw [heq] at happlied
    exact happlied

theorem welcome (replica : String) (ops : List Op) (since : Option (ℕ × String))
    (clocks follower : Bool) (s : Session U) (hops : ∀ op ∈ ops, may op) (h : P st) :
    P (s.welcome opts others now replica ops since clocks follower st).store := by
  have htold : ∀ (follows : Bool) (start : Told sh U) (live : List String), P start.store →
      P ((ops.take helloOps).foldl (LazyStorage.Server.tellOp opts live now follows) start).store := by
    intro follows start live hstart
    exact List.foldlRecOn _ _ (motive := fun told : Told sh U => P told.store) hstart
      fun told htold op hop => hP.tellOp hidle follows op (hops op (List.mem_of_mem_take hop)) htold
  unfold Session.welcome
  dsimp only
  split_ifs <;> exact htold _ _ _ (hP.taken _ now s.speaker.user replica h)

/-- A message of a session leaves its store with what every move keeps. -/
theorem receive (msg : Up) (s : Session U) (hops : ∀ op ∈ msg.ops, may op) (h : P st) :
    P (s.receive opts others now msg st).store := by
  cases msg with
  | hello replica ops since clocks follower =>
    simp only [Session.receive, Session.hello]
    split
    · exact h
    split
    · split
      · exact hP.flush h
      · exact h
    · have hlimited : P (st.throttle opts now (Store.bucketOf opts s.speaker.user replica)).1 :=
        throttled hidle _ h
      split
      · exact hlimited
      · exact hP.welcome hidle replica ops since clocks follower s hops hlimited
  | op as op =>
    cases as with
    | none => exact hidle [] _ (hP.liveOp hidle op none s.speaker (hops op List.mem_cons_self) h)
    | some as =>
      simp only [Session.receive]
      split
      · exact h
      · next grant _ => exact hidle [] _ (hP.liveOp hidle op (some as) grant.speaker (hops op List.mem_cons_self) h)
  | leave as => exact h

end KeepsFor

namespace Keeps

variable {ok : OwnWrite → Store sh → Prop} {okm : Migration sh → Store sh → Prop}
  {P : Store sh → Prop} (hP : Keeps opts ok okm P)
include hP

theorem keepsFor : KeepsFor opts (fun _ => True) ok okm P :=
  ⟨fun _ => hP.judged, hP.forbidden, hP.taken, hP.own, hP.compact, hP.flush, hP.migrated, hP.load⟩

theorem step {e : HostEvent U} {h h' : Host sh} (hok : ∀ w, e = .own w → ok w h.store)
    (hokm : ∀ migration, e = .migrate → opts.migrations[h.store.schema]? = some migration →
      okm migration h.store)
    (hs : h.step opts e = some h') (hp : P h.store) : P h'.store :=
  hP.keepsFor.step (fun _ _ _ _ => trivial) hok hokm hs hp

/-- What every move keeps holds wherever a host gets. -/
theorem reached {cond : HostEvent U → Host sh → Prop}
    (hok : ∀ w h, cond (.own w) h → ok w h.store)
    (hokm : ∀ migration h, cond .migrate h → opts.migrations[h.store.schema]? = some migration →
      okm migration h.store) {known wall : ℕ} {epoch : String} {h : Host sh}
    (hstart : P (Store.load opts known epoch wall []))
    (hr : Reaches (Host.step opts) cond (Host.create opts known epoch wall) h) : P h.store :=
  hr.invariant (P := fun h => P h.store) hstart fun _ h _ hp hcond hs =>
    hP.step (fun w hw => hok w h (hw ▸ hcond)) (fun m hm => hokm m h (hm ▸ hcond)) hs hp

variable (hidle : ∀ {st : Store sh} effects buckets, P st → P { st with effects, buckets })
  {others : List String} {now : ℕ} {st : Store sh}
include hidle

theorem tellOp (follows : Bool) {told : Told sh U} (op : Op) (h : P told.store) :
    P (tellOp opts others now follows told op).store :=
  hP.keepsFor.tellOp hidle follows op trivial h

theorem receive (msg : Up) (s : Session U) (h : P st) :
    P (s.receive opts others now msg st).store :=
  hP.keepsFor.receive hidle msg s (fun _ _ => trivial) h

end Keeps

end LazyStorage.Server
