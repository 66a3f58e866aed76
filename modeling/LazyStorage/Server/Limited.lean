import LazyStorage.Server.Throttle
import LazyStorage.Server.Store

/-! # What the op rate lets through

Over a run of calls, a user is let through at most a burst and what the time fills, as
long as no bucket is dropped before it is full again; and whoever was refused is let
through after the time the refusal names, when a bucket holds a token at all.
-/
namespace LazyStorage.Server.Rate
open Lib

variable {U : Type} [DecidableEq U] {r : RateLimit} {buckets : Buckets U} {u : U} {now s e due : ℚ} {calls : List (Call U)}
  {c c' : Call U} {g j : ℕ}

/-- Whether no call of a run drops a bucket that is not full again. -/
def Gently (r : RateLimit) : Buckets U → List (Call U) → Prop
  | _, [] => True
  | buckets, c :: calls => buckets.Gentle r c ∧ Gently r (throttle r buckets c.user c.wall).2 calls

/-- The clock does not go back. -/
def Onwards (now : ℚ) : List (Call U) → Prop
  | [] => True
  | c :: calls => now ≤ c.wall ∧ Onwards c.wall calls

theorem Buckets.Sound.later (h : buckets.Sound now) (hle : now ≤ e) : buckets.Sound e :=
  fun u b hb => ⟨(h u b hb).1, (h u b hb).2.trans hle⟩

/-- A call of a run, counted when it is one of the user's in the window that is let through. -/
theorem allowance_throttle (hsound : buckets.Sound now) (hnow : now ≤ c.wall) (hgentle : buckets.Gentle r c)
    (h : Allowance r.burst r.perMs s e now g (buckets.level r u)) :
    Allowance r.burst r.perMs s e c.wall
      (if c.user = u ∧ s ≤ c.wall ∧ c.wall ≤ e ∧ (throttle r buckets c.user c.wall).1 = 0 then g + 1 else g)
      (Buckets.level r (throttle r buckets c.user c.wall).2 u) := by
  have hcall := throttled r hsound hnow c.user
  split
  · next hcount =>
    obtain ⟨rfl, hs, he, hzero⟩ := hcount
    refine h.spend hnow hs he (fun t ht => ?_) ((hcall.sound.later he).level_nonneg r)
    rw [hcall.own t ht, if_pos hzero]
    have hle := @level_le _ _ _ r.burst r.perMs (buckets.level r c.user c.wall - 1) c.wall t
    linarith
  · refine h.pass hnow fun t ht => ?_
    by_cases hu : c.user = u
    · subst hu
      rw [hcall.own t ht]
      split
      · rw [← buckets.level_again r c.user ht]
        refine min_le_min_left r.burst ?_
        linarith
      · exact le_refl _
    · exact le_of_eq ((hcall.others u t (Ne.symm hu) ht).2 hgentle)

theorem passed_le (hsound : buckets.Sound now) (honwards : Onwards now calls) (hgently : Gently r buckets calls)
    (h : Allowance r.burst r.perMs s e now g (buckets.level r u)) :
    ((g + passed u s e calls (answers r buckets calls) : ℕ) : ℚ) ≤ r.burst + r.perMs * (e - s) := by
  induction calls generalizing buckets now g with
  | nil => exact h.total
  | cons c calls ih =>
    have hstep := ih (throttled r hsound honwards.1 c.user).sound honwards.2 hgently.2
      (allowance_throttle hsound honwards.1 hgently.1 h)
    have hcount : passed u s e (c :: calls) (answers r buckets (c :: calls)) =
        passed u s e calls (answers r (throttle r buckets c.user c.wall).2 calls) +
          if c.user = u ∧ s ≤ c.wall ∧ c.wall ≤ e ∧ (throttle r buckets c.user c.wall).1 = 0 then 1 else 0 := by
      rw [passed, answers, List.zip_cons_cons, List.countP_cons]
      simp only [decide_eq_true_eq]
      rfl
    rw [hcount]
    refine le_trans (le_of_eq (congrArg Nat.cast ?_)) hstep
    split <;> omega

/-- Who is let through from some time on, asked or refused meanwhile, is let through then. -/
theorem answers_again (hsound : buckets.Sound now) (honwards : Onwards now calls)
    (hdue : ∀ w, now ≤ w → due ≤ w → 1 ≤ buckets.level r u w) (hj : calls[j]? = some c') (hu : c'.user = u)
    (hwait : due ≤ c'.wall)
    (hnone : ∀ k d, k < j → calls[k]? = some d → d.user = u → (answers r buckets calls)[k]? ≠ some 0) :
    (answers r buckets calls)[j]? = some 0 := by
  induction calls generalizing buckets now j with
  | nil => exact nomatch hj
  | cons c calls ih =>
    have hcall := throttled r hsound honwards.1 c.user
    cases j with
    | zero =>
      obtain rfl := Option.some.inj hj
      subst hu
      exact congrArg some (hcall.zero.mpr (hdue c.wall honwards.1 hwait))
    | succ j =>
      refine ih hcall.sound honwards.2 (fun w hw hd => ?_) hj fun k d hk hd => hnone (k + 1) d (Nat.succ_lt_succ hk) hd
      have hbefore := hdue w (honwards.1.trans hw) hd
      by_cases hcu : c.user = u
      · have hrefused : (throttle r buckets c.user c.wall).1 ≠ 0 := fun hzero =>
          hnone 0 c (Nat.succ_pos j) rfl hcu (congrArg some hzero)
        subst hcu
        rw [hcall.own w hw, if_neg hrefused]
        exact hbefore
      · exact hbefore.trans (hcall.others u w (Ne.symm hcu) hw).1

/-- What a user asks for again after a refusal is let through, nothing of theirs let through meanwhile. -/
def Retried (calls : List (Call U)) (given : List ℤ) : Prop :=
  ∀ (i j : ℕ) (c c' : Call U) (x : ℤ), i < j → calls[i]? = some c → calls[j]? = some c' → c'.user = c.user → given[i]? = some x → x ≠ 0 →
    c.wall + x ≤ c'.wall → (∀ (k : ℕ) (d : Call U), i < k → k < j → calls[k]? = some d → d.user = c.user → given[k]? ≠ some 0) →
    given[j]? = some 0

theorem retried (hburst : 1 ≤ r.burst) (hsound : buckets.Sound now) (honwards : Onwards now calls) :
    Retried calls (answers r buckets calls) := by
  induction calls generalizing buckets now with
  | nil => exact fun i j c c' x _ hi => nomatch hi
  | cons d calls ih =>
    have hcall := throttled r hsound honwards.1 d.user
    intro i j c c' x hij hi hj hu hx hx0 hwait hnone
    cases j with
    | zero => exact absurd hij (Nat.not_lt_zero i)
    | succ j =>
      cases i with
      | zero =>
        obtain rfl := Option.some.inj hi
        obtain rfl : (throttle r buckets d.user d.wall).1 = x := Option.some.inj hx
        have hdue : ∀ w, d.wall ≤ w → d.wall + (throttle r buckets d.user d.wall).1 ≤ w →
            1 ≤ Buckets.level r (throttle r buckets d.user d.wall).2 d.user w := by
          intro w hw hd
          rw [hcall.own w hw, if_neg hx0, ← buckets.level_again r d.user hw]
          have hfill := hcall.wait hx0
          have hlonger := mul_le_mul_of_nonneg_right (le_sub_iff_add_le'.mpr hd) (le_of_lt r.perMs_pos)
          exact le_min hburst (by linarith)
        change (answers r (throttle r buckets d.user d.wall).2 calls)[j]? = some 0
        exact answers_again hcall.sound honwards.2 hdue hj hu hwait
          fun k e hk he => hnone (k + 1) e (Nat.succ_pos k) (Nat.succ_lt_succ hk) he
      | succ i =>
        exact ih hcall.sound honwards.2 i j c c' x (Nat.lt_of_succ_lt_succ hij) hi hj hu hx hx0 hwait
          fun k e hk hk' he => hnone (k + 1) e (Nat.succ_lt_succ hk) (Nat.succ_lt_succ hk') he

/-- A bucket that never holds a token lets nothing through. -/
theorem answers_ne_zero (hburst : r.burst < 1) (hsound : buckets.Sound now) (honwards : Onwards now calls) :
    ∀ x ∈ answers r buckets calls, x ≠ 0 := by
  induction calls generalizing buckets now with
  | nil => exact nofun
  | cons c calls ih =>
    have hcall := throttled r hsound honwards.1 c.user
    refine List.forall_mem_cons.mpr ⟨fun hzero => ?_, ih hcall.sound honwards.2⟩
    exact absurd (hcall.zero.mp hzero) (not_le.mpr (lt_of_le_of_lt Buckets.level_le_burst hburst))

/-- At most a burst and what the time fills is let through of a user's in any interval, in a run that drops no
bucket too early. A user who asks again after the time a refusal names is let through, when the burst is at least
one; else nothing ever is. -/
theorem rate_limits (r : RateLimit) (calls : List (Call U)) (now : ℚ) (honwards : Onwards now calls) :
    (Gently r .empty calls → ∀ u s T, 0 ≤ T →
      (passed u s (s + T) calls (answers r .empty calls) : ℚ) ≤ r.burst + r.perSecond * T / 1000) ∧
      (1 ≤ r.burst → Retried calls (answers r .empty calls)) ∧
      (r.burst < 1 → ∀ x ∈ answers r (.empty : Buckets U) calls, x ≠ 0) := by
  have hsound : Buckets.Sound (.empty : Buckets U) now := fun u b hb => nomatch hb
  refine ⟨fun hgently u s T hT => ?_, fun hburst => retried hburst hsound honwards, fun hburst =>
    answers_ne_zero hburst hsound honwards⟩
  have hstart := Allowance.start (le_of_lt r.burst_pos) (le_of_lt r.perMs_pos) (le_add_of_nonneg_right hT : s ≤ s + T) now
  have hle := passed_le (u := u) hsound honwards hgently hstart
  rw [Nat.zero_add, RateLimit.perMs, add_sub_cancel_left] at hle
  rwa [mul_div_right_comm]

/-- The store's own limit. -/
def defaultLimit : RateLimit := ⟨500, 100, by decide, by decide⟩

/-- A limit that fills a burst within a minute drops no bucket that is not full again. -/
theorem gently_of_burst_le (hburst : r.burst ≤ 60 * r.perSecond) (hsound : buckets.Sound now)
    (honwards : Onwards now calls) : Gently r buckets calls := by
  induction calls generalizing buckets now with
  | nil => trivial
  | cons c calls ih =>
    refine ⟨fun _ _ u b hb hidle => ?_, ih (throttled r hsound honwards.1 c.user).sound honwards.2⟩
    have htokens := (hsound u b hb).1
    have hfill := mul_lt_mul_of_pos_right hidle r.perSecond_pos
    rw [MINUTE] at hfill
    rw [div_mul_eq_mul_div]
    linarith

theorem two_passed : (passed 0 0 (0 + 1000) [⟨0, 0⟩, ⟨1, 500⟩, ⟨0, 1000⟩]
    (answers defaultLimit .empty [⟨0, 0⟩, ⟨1, 500⟩, ⟨0, 1000⟩]) : ℚ) ≤ 500 + 100 * 1000 / 1000 := by
  have honwards : Onwards 0 ([⟨0, 0⟩, ⟨1, 500⟩, ⟨0, 1000⟩] : List (Call ℕ)) := by
    simp only [Onwards]
    decide
  exact (rate_limits defaultLimit _ 0 honwards).1
    (gently_of_burst_le (by decide +kernel) (fun u b hb => nomatch hb) honwards) 0 0 1000 (by decide)

section Dropped

/-- A burst that takes five minutes to fill. -/
def slow : RateLimit := ⟨3, 1 / 100, by decide, by decide +kernel⟩

def after (r : RateLimit) (buckets : Buckets U) (calls : List (Call U)) : Buckets U :=
  calls.foldl (fun buckets c => (throttle r buckets c.user c.wall).2) buckets

theorem answers_append (calls calls' : List (Call U)) :
    answers r buckets (calls ++ calls') = answers r buckets calls ++ answers r (after r buckets calls) calls' := by
  induction calls generalizing buckets with
  | nil => rfl
  | cons c calls ih => exact congrArg _ ih

theorem answers_length (buckets : Buckets U) (calls : List (Call U)) : (answers r buckets calls).length = calls.length := by
  induction calls generalizing buckets with
  | nil => rfl
  | cons c calls ih => exact congrArg Nat.succ (ih _)

theorem passed_append (calls calls' : List (Call U)) : passed u s e (calls ++ calls') (answers r buckets (calls ++ calls')) =
    passed u s e calls (answers r buckets calls) + passed u s e calls' (answers r (after r buckets calls) calls') := by
  rw [passed, answers_append, List.zip_append (answers_length buckets calls).symm, List.countP_append]
  rfl

/-- A burst by one user, and one call each by so many others. -/
def crowd (n : ℕ) : List (Call ℕ) := List.replicate 3 ⟨0, 0⟩ ++ (List.range n).map fun i => ⟨i + 1, 0⟩

theorem crowd_succ (n : ℕ) : crowd (n + 1) = crowd n ++ [⟨n + 1, 0⟩] := by
  rw [crowd, crowd, List.range_succ, List.map_append, ← List.append_assoc]
  rfl

/-- As many buckets as there are users, none asked for since. -/
theorem after_crowd {n : ℕ} (hn : n < MANY) : OrderedMap.size (after slow .empty (crowd n)) = n + 1 ∧
    ∀ u b, OrderedMap.get (after slow .empty (crowd n)) u = some b → b.since = 0 ∧ u ≤ n := by
  induction n with
  | zero =>
    have hentries : (after slow .empty (crowd 0)).entries = [(0, ⟨0, 0⟩)] := by decide +kernel
    refine ⟨by rw [OrderedMap.size, hentries]; rfl, fun u b hb => ?_⟩
    rw [← OrderedMap.mem_entries, hentries, List.mem_singleton] at hb
    obtain ⟨rfl, rfl⟩ := Prod.mk.inj hb
    exact ⟨rfl, Nat.le_refl 0⟩
  | succ n ih =>
    obtain ⟨hsize, hall⟩ := ih (Nat.lt_of_succ_lt hn)
    have hnone : OrderedMap.get (after slow .empty (crowd n)) (n + 1) = none := by
      cases hget : OrderedMap.get (after slow .empty (crowd n)) (n + 1) with
      | none => rfl
      | some b => exact absurd (hall _ b hget).2 (Nat.not_succ_le_self n)
    have hmake : (Buckets.make slow (after slow .empty (crowd n)) (n + 1) 0).2 = after slow .empty (crowd n) := by
      rw [Buckets.make, hnone]
      exact if_neg (by rw [hsize]; omega)
    have hstep : ∃ x, after slow .empty (crowd (n + 1)) = OrderedMap.set (after slow .empty (crowd n)) (n + 1) ⟨x, 0⟩ := by
      rw [crowd_succ, after, List.foldl_append]
      change ∃ x, (throttle slow (after slow .empty (crowd n)) (n + 1) 0).2 = _
      rcases throttle_cases slow (after slow .empty (crowd n)) (n + 1) 0 with ⟨-, heq⟩ | ⟨-, heq⟩
      · exact ⟨_, by rw [heq, hmake]⟩
      · exact ⟨_, by rw [heq, hmake]⟩
    obtain ⟨x, hafter⟩ := hstep
    rw [hafter, OrderedMap.size_set_of_get_none hnone, hsize]
    refine ⟨rfl, fun u b hb => ?_⟩
    rw [OrderedMap.get_set] at hb
    split at hb
    · next hu =>
      obtain rfl := Option.some.inj hb
      exact ⟨rfl, Nat.le_of_eq hu.symm⟩
    · exact ⟨(hall u b hb).1, Nat.le_succ_of_le (hall u b hb).2⟩

/-- One more user, a minute later, and the first user's burst again. -/
def returns : List (Call ℕ) := ⟨10000, 60001⟩ :: List.replicate 3 ⟨0, 60001⟩

/-- The new user's call has all of them dropped, so the first user's bucket is full again. -/
theorem passed_returns {buckets : Buckets ℕ} (hsize : OrderedMap.size buckets = MANY)
    (hall : ∀ u b, OrderedMap.get buckets u = some b → b.since = 0 ∧ u < MANY) :
    passed 0 0 (0 + 60001) returns (answers slow buckets returns) = 3 := by
  have hnone : OrderedMap.get buckets 10000 = none := by
    cases hget : OrderedMap.get buckets 10000 with
    | none => rfl
    | some b => exact absurd (hall _ b hget).2 (Nat.lt_irrefl MANY)
  have hdropped : OrderedMap.filter buckets (fun _ b => ¬ MINUTE < 60001 - b.since) = .empty := by
    refine OrderedMap.ext_entries (List.filter_eq_nil_iff.mpr fun x hx => ?_)
    dsimp only
    rw [(hall x.1 x.2 (OrderedMap.mem_entries.mp hx)).1]
    decide +kernel
  have hmake : Buckets.make slow buckets 10000 60001 = (⟨3, 60001⟩, .empty) := by
    rw [Buckets.make, hnone]
    dsimp only
    rw [if_pos (Nat.le_of_eq hsize.symm), hdropped]
    rfl
  have hthrottle : (throttle slow buckets 10000 60001).2 = OrderedMap.set .empty 10000 ⟨2, 60001⟩ := by
    rw [throttle, hmake]
    refine OrderedMap.ext_entries ?_
    decide +kernel
  have hreturns : returns = [⟨10000, 60001⟩] ++ List.replicate 3 ⟨0, 60001⟩ := rfl
  have hafter : after slow buckets [⟨10000, 60001⟩] = OrderedMap.set .empty 10000 ⟨2, 60001⟩ := hthrottle
  rw [hreturns, passed_append, hafter]
  have hother : passed 0 0 (0 + 60001) [⟨10000, 60001⟩] (answers slow buckets [⟨10000, 60001⟩]) = 0 := rfl
  rw [hother]
  decide +kernel

theorem passed_crowd (n : ℕ) : 3 ≤ passed 0 0 (0 + 60001) (crowd n) (answers slow .empty (crowd n)) := by
  rw [crowd, passed_append]
  refine Nat.le_add_right_of_le ?_
  decide +kernel

theorem onwards_returns {calls : List (Call ℕ)} (hcalls : ∀ c ∈ calls, c.wall = 0) : Onwards 0 (calls ++ returns) := by
  induction calls with
  | nil =>
    simp only [List.nil_append, returns, Onwards, List.replicate]
    decide +kernel
  | cons c calls ih =>
    have hc := hcalls c List.mem_cons_self
    exact ⟨le_of_eq hc.symm, by rw [hc]; exact ih fun d hd => hcalls d (List.mem_cons_of_mem c hd)⟩

theorem crowd_wall (n : ℕ) : ∀ c ∈ crowd n, c.wall = 0 := by
  intro c hc
  rcases List.mem_append.mp hc with hc | hc
  · rw [List.eq_of_mem_replicate hc]
  · obtain ⟨i, -, rfl⟩ := List.mem_map.mp hc
    rfl

/-- With ten thousand buckets, a new user's call gives one who was idle for a minute a fresh burst. -/
theorem burst_again : ¬ ∀ (r : RateLimit) (calls : List (Call ℕ)) (now : ℚ), Onwards now calls → ∀ u s T, 0 ≤ T →
    (passed u s (s + T) calls (answers r .empty calls) : ℚ) ≤ r.burst + r.perSecond * T / 1000 := by
  intro h
  obtain ⟨n, hn⟩ : ∃ n, n + 1 = MANY := ⟨9999, rfl⟩
  obtain ⟨hsize, hall⟩ := after_crowd (Nat.lt_of_succ_le (Nat.le_of_eq hn))
  have hagain := passed_returns (hsize.trans hn) fun u b hb => ⟨(hall u b hb).1, hn ▸ Nat.lt_succ_of_le (hall u b hb).2⟩
  have hsix : 6 ≤ passed 0 0 (0 + 60001) (crowd n ++ returns) (answers slow .empty (crowd n ++ returns)) := by
    have hfirst := passed_crowd n
    rw [passed_append, hagain]
    omega
  have hbound := h slow (crowd n ++ returns) 0 (onwards_returns (crowd_wall n)) 0 0 60001 (by decide +kernel)
  have hless : slow.burst + slow.perSecond * 60001 / 1000 < 6 := by decide +kernel
  have hcast : (6 : ℚ) ≤ passed 0 0 (0 + 60001) (crowd n ++ returns) (answers slow .empty (crowd n ++ returns)) := by
    exact_mod_cast hsix
  exact absurd (hcast.trans hbound) (not_le.mpr hless)

end Dropped

/-- A bucket of a store, whose clock reads whole milliseconds. -/
def ofStore (b : Server.Bucket) : Bucket := ⟨b.tokens, b.at_⟩

/-- The buckets of a store. -/
def bucketsOf {sh : Core.Shape} (st : Store sh) : Buckets String := st.buckets.mapVal fun _ => ofStore

theorem idle_iff (b : Server.Bucket) (wall : ℕ) : MINUTE < (wall : ℚ) - (ofStore b).since ↔ 60000 < wall - b.at_ := by
  change (60000 : ℚ) < (wall : ℚ) - (b.at_ : ℚ) ↔ _
  rw [lt_sub_iff_add_lt]
  constructor
  · intro h
    have hnat : 60000 + b.at_ < wall := by exact_mod_cast h
    omega
  · intro h
    have hnat : 60000 + b.at_ < wall := by omega
    exact_mod_cast hnat

/-- What a store does with its buckets is this. -/
theorem store_throttle {sh : Core.Shape} {V : Type} {opts : Options sh V}
    (hlimit : opts.rateLimit = some ⟨r.burst, r.perSecond⟩) (st : Store sh) (wall : ℕ) (key : String) :
    bucketsOf (st.throttle opts wall key).1 = (throttle r (bucketsOf st) key wall).2 ∧
      (st.throttle opts wall key).2 = (throttle r (bucketsOf st) key wall).1.toNat := by
  have hkept : ((if 10000 ≤ st.buckets.size then st.buckets.filter fun _ b => !decide (60000 < wall - b.at_)
      else st.buckets).mapVal fun _ => ofStore) = if MANY ≤ OrderedMap.size (bucketsOf st) then
        OrderedMap.filter (bucketsOf st) fun _ b => ¬ MINUTE < (wall : ℚ) - b.since else bucketsOf st := by
    rw [bucketsOf, OrderedMap.size_mapVal, MANY]
    split
    · refine OrderedMap.mapVal_filter _ _ _ (fun b => ?_) _
      rw [← decide_not, decide_eq_decide, not_iff_not, idle_iff]
    · rfl
  have hget : OrderedMap.get (bucketsOf st) key = (st.buckets.get key).map ofStore := OrderedMap.get_mapVal _ _
  rw [Store.throttle, hlimit]
  dsimp only
  cases hb : st.buckets.get key with
  | some b =>
    have hmake : Buckets.make r (bucketsOf st) key wall = (ofStore b, bucketsOf st) := by
      rw [Buckets.make, hget, hb]
      rfl
    rw [throttle, hmake, hb]
    dsimp only [Option.getD_some, ofStore]
    split
    · exact ⟨OrderedMap.mapVal_set _ _ _ _, rfl⟩
    · exact ⟨OrderedMap.mapVal_set _ _ _ _, rfl⟩
  | none =>
    have hmake : Buckets.make r (bucketsOf st) key wall = (⟨r.burst, wall⟩,
        if MANY ≤ OrderedMap.size (bucketsOf st) then
          OrderedMap.filter (bucketsOf st) fun _ b => ¬ MINUTE < (wall : ℚ) - b.since else bucketsOf st) := by
      rw [Buckets.make, hget, hb]
      rfl
    rw [throttle, hmake, ← hkept]
    dsimp only
    rw [OrderedMap.get_set_self]
    dsimp only [Option.getD_some]
    split
    · exact ⟨by rw [bucketsOf, OrderedMap.set_set, OrderedMap.mapVal_set]; rfl, rfl⟩
    · exact ⟨by rw [bucketsOf, OrderedMap.set_set, OrderedMap.mapVal_set]; rfl, rfl⟩

end LazyStorage.Server.Rate
