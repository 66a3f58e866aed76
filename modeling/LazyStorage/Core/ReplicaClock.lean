import Mathlib.Algebra.Order.Ring.Int

/-! # Timestamps a server can trust

A replica stamps after everything it has seen: the wall clock with the offset
learnt from the server, or the highest time seen plus one. A received time ahead
of the receiver's is clamped to it. The wall clock is read by the caller.
-/
namespace LazyStorage.Core

structure ReplicaClock where
  offset : ℤ
  highest : ℕ

namespace ReplicaClock

def create : ReplicaClock := ⟨0, 0⟩

/-- A time for a local event: never below one seen, never repeated. -/
def stamp (clock : ReplicaClock) (now : ℤ) : ℕ × ReplicaClock :=
  let t := max (now + clock.offset).toNat (clock.highest + 1)
  (t, { clock with highest := t })

/-- A time received from elsewhere: later stamps sort after it. -/
def observe (clock : ReplicaClock) (ts : ℤ) : ReplicaClock :=
  if (clock.highest : ℤ) < ts then { clock with highest := ts.toNat } else clock

/-- The server's time, as it said it, adopted as an offset. -/
def adopt (clock : ReplicaClock) (serverNow : ℕ) (now : ℤ) : ReplicaClock :=
  { offset := serverNow - now
    highest := if clock.highest < serverNow then serverNow - 1 else clock.highest }

/-- Where this clock thinks the server's time is: never before a stamp it has made or seen. -/
def time (clock : ReplicaClock) (now : ℤ) : ℕ := max (now + clock.offset).toNat clock.highest

end ReplicaClock

/-- A received time, clamped to the receiver's when ahead of it. -/
def clamp (ts limit : ℕ) : ℕ := if limit < ts then limit else ts

end LazyStorage.Core
