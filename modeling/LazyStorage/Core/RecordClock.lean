import LazyStorage.Core.Shape
import Mathlib.Order.Lattice
import Mathlib.Order.MinMax
import Mathlib.Algebra.Order.Ring.Int

/-! # A record's clock

`birth` is when the record was made with what it held (`at` in the source), and
the time of every path inside it without an entry of its own. `live` holds the
paths written since, `gone` those deleted inside the living record. Keys are the
paths themselves: their encoding as text tells ancestry. Times are whole
milliseconds.
-/
namespace LazyStorage.Core

open Lib

structure Clock where
  birth : Option ℕ
  live : OrderedMap Path ℕ
  gone : OrderedMap Path ℕ

/-- Whether a clock key is at or beneath `path`; strictly beneath with `inclusive` false. -/
def beneath (path : Path) (inclusive : Bool) (key : Path) : Bool :=
  path.isPrefixOf key && (inclusive || key ≠ path)

/-- Whether a time is there and strictly larger than `ts`. -/
def newer (time : Option ℕ) (ts : ℕ) : Bool := time.any (ts < ·)

/-- What lies below the largest of some values. -/
theorem lt_foldl_max {α : Type*} (f : α → ℤ) {l : List α} {m ts : ℤ} :
    ts < l.foldl (fun m a => max m (f a)) m ↔ ts < m ∨ ∃ a ∈ l, ts < f a := by
  induction l generalizing m with
  | nil => simp
  | cons a l ih => simp [ih, or_assoc]

namespace Clock

def new : Clock := ⟨none, .empty, .empty⟩

instance : Inhabited Clock := ⟨new⟩

/-- A record written whole at `ts`. -/
def born (ts : ℕ) : Clock := ⟨some ts, .empty, .empty⟩

/-- When a path was written or made: its own entry, else the record's birth. -/
def liveAt (clock : Clock) (path : Path) : Option ℕ := (clock.live.get path).or clock.birth

/-- An entry for a path, unless it says no more than the record's birth. -/
def setLive (clock : Clock) (path : Path) (ts : ℕ) : Clock :=
  if clock.birth = some ts then { clock with live := clock.live.erase path }
  else { clock with live := clock.live.set path ts }

def setGone (clock : Clock) (path : Path) (ts : ℕ) : Clock :=
  { clock with gone := clock.gone.set path ts }

/-- Every time a clock holds. -/
def times (clock : Clock) : List ℕ :=
  clock.birth.toList ++ clock.live.values ++ clock.gone.values

/-- The newest time, -1 for none. -/
def maxOf (clock : Clock) : ℤ := clock.times.foldl (fun (m : ℤ) (t : ℕ) => max m t) (-1)

/-- Drop the entries beneath a path. What is not a container has none beneath it, so there the
path's own go, if they are meant. -/
def dropBeneath (clock : Clock) (path : Path) (inclusive : Bool) (container : Bool) : Clock :=
  if container then
    { clock with
      live := clock.live.filter (fun key _ => !beneath path inclusive key)
      gone := clock.gone.filter (fun key _ => !beneath path inclusive key) }
  else if inclusive then
    { clock with live := clock.live.erase path, gone := clock.gone.erase path }
  else clock

/-- Whether the record was born, or anything strictly beneath the path happened, after `ts`. -/
def newerBeneath (clock : Clock) (path : Path) (ts : ℕ) : Bool :=
  newer clock.birth ts ||
    (clock.live.entries ++ clock.gone.entries).any (fun e => ts < e.2 && beneath path false e.1)

/-- A container made on the way to a path. -/
def makeContainer (clock : Clock) (path : Path) (ts : ℕ) : Clock :=
  (clock.dropBeneath path true false).setLive path ts

mutual

/-- A value written at a path inside the record: an entry for it and for every path in it. -/
def stampInside (sh : Shape) (key : RecordKey) (ts : ℕ) : Value → Path → Clock → Clock
  | .obj fs, path, clock =>
    let clock := clock.setLive path ts
    if sh.isRegister key path then clock else stampFields sh key ts fs path clock
  | _, path, clock => clock.setLive path ts

def stampFields (sh : Shape) (key : RecordKey) (ts : ℕ) :
    List (String × Value) → Path → Clock → Clock
  | [], _, clock => clock
  | (k, v) :: fs, path, clock =>
    stampFields sh key ts fs path (stampInside sh key ts v (path ++ [k]) clock)

end

/-- Forget what is older than `cutoff`. A live entry dropped would fall back to the birth, so
only once that is gone too. -/
def prune (cutoff : ℤ) (clock : Clock) : Clock :=
  let birth := clock.birth.filter (fun t : ℕ => !decide ((t : ℤ) < cutoff))
  { birth
    live := if birth.isSome then clock.live
      else clock.live.filter (fun _ t => !decide ((t : ℤ) < cutoff))
    gone := clock.gone.filter (fun _ t => !decide ((t : ℤ) < cutoff)) }

variable (clock : Clock) (path : Path) (ts : ℕ)

theorem mem_times {t : ℕ} : t ∈ clock.times ↔
    clock.birth = some t ∨ (∃ p, clock.live.get p = some t) ∨ ∃ p, clock.gone.get p = some t := by
  simp [times, OrderedMap.mem_values]

theorem lt_maxOf : (ts : ℤ) < clock.maxOf ↔ ∃ t ∈ clock.times, ts < t := by
  rw [maxOf, lt_foldl_max fun t : ℕ => (t : ℤ)]
  have : ¬ (ts : ℤ) < -1 := by omega
  simp [this]

theorem newer_iff {time : Option ℕ} : newer time ts = true ↔ ∃ t, time = some t ∧ ts < t := by
  cases time <;> simp [newer]

theorem newerBeneath_iff : clock.newerBeneath path ts = true ↔
    newer clock.birth ts = true ∨ ∃ p, beneath path false p = true ∧
      (newer (clock.live.get p) ts = true ∨ newer (clock.gone.get p) ts = true) := by
  simp only [newerBeneath, Bool.or_eq_true, List.any_append, List.any_eq_true, Bool.and_eq_true,
    decide_eq_true_eq, newer_iff, Prod.exists, OrderedMap.mem_entries]
  grind

@[simp] theorem setLive_birth : (clock.setLive path ts).birth = clock.birth := by
  unfold setLive; split_ifs <;> rfl

@[simp] theorem setLive_gone : (clock.setLive path ts).gone = clock.gone := by
  unfold setLive; split_ifs <;> rfl

theorem setLive_live (q : Path) : (clock.setLive path ts).live.get q =
    if path = q then (if clock.birth = some ts then none else some ts)
    else clock.live.get q := by
  unfold setLive
  split_ifs <;> simp_all [OrderedMap.get_erase, OrderedMap.get_set]

@[simp] theorem dropBeneath_birth (inclusive container : Bool) :
    (clock.dropBeneath path inclusive container).birth = clock.birth := by
  unfold dropBeneath; split_ifs <;> rfl

/-- What `dropBeneath` drops. -/
def drops (path : Path) (inclusive container : Bool) (key : Path) : Bool :=
  if container then beneath path inclusive key else inclusive && key = path

theorem dropBeneath_live (inclusive container : Bool) (q : Path) :
    (clock.dropBeneath path inclusive container).live.get q =
      if drops path inclusive container q then none else clock.live.get q := by
  cases container
  · cases inclusive <;> simp [dropBeneath, drops, OrderedMap.get_erase, eq_comm]
  · simp only [dropBeneath, drops, if_true, OrderedMap.get_filter]
    cases clock.live.get q <;> simp [Option.filter, Bool.not_eq_eq_eq_not]
    split_ifs <;> simp_all

theorem dropBeneath_gone (inclusive container : Bool) (q : Path) :
    (clock.dropBeneath path inclusive container).gone.get q =
      if drops path inclusive container q then none else clock.gone.get q := by
  cases container
  · cases inclusive <;> simp [dropBeneath, drops, OrderedMap.get_erase, eq_comm]
  · simp only [dropBeneath, drops, if_true, OrderedMap.get_filter]
    cases clock.gone.get q <;> simp [Option.filter, Bool.not_eq_eq_eq_not]
    split_ifs <;> simp_all

end Clock

end LazyStorage.Core
