/-!
# Spans of time

Delays, deadlines and clock readings are all spans of time, counted in whole
nanoseconds. A span has a largest value, `2^64 - 1` seconds and `999999999`
nanoseconds, and the bound is part of the type: `add` stops there instead of
going past it, so a deadline computed from any clock reading and any delay is
again a span. `plus?` is the addition that refuses to stop, for the one caller
(a clock moved by hand) for whom running past the end is a mistake.
-/

namespace Statechart

/-- The largest span: `2^64 - 1` seconds and `999999999` nanoseconds. -/
def Duration.maxNanos : Nat := (UInt64.size - 1) * 1000000000 + 999999999

/-- A span of time in nanoseconds, at most `Duration.maxNanos`. -/
structure Duration where
  nanos : Nat
  nanos_le : nanos ≤ Duration.maxNanos
deriving DecidableEq

namespace Duration

/-- The span of `n` nanoseconds, cut off at the largest one. -/
def ofNanos (n : Nat) : Duration := ⟨min n maxNanos, Nat.min_le_right ..⟩

/-- The span of `n` milliseconds. -/
def ofMillis (n : Nat) : Duration := ofNanos (n * 1000000)

/-- The span of `seconds` seconds and `nanos` nanoseconds. -/
def ofParts (seconds nanos : Nat) : Duration := ofNanos (seconds * 1000000000 + nanos)

/-- No time at all. -/
def zero : Duration := ⟨0, Nat.zero_le _⟩

instance : Inhabited Duration := ⟨zero⟩

/-- Whole milliseconds, the rest dropped. -/
def toMillis (d : Duration) : Nat := d.nanos / 1000000

/-- The sum, or the largest span where the sum would exceed it. -/
def add (a b : Duration) : Duration := ofNanos (a.nanos + b.nanos)

/-- The sum, if it is a span. -/
def plus? (a b : Duration) : Option Duration :=
  if h : a.nanos + b.nanos ≤ maxNanos then some ⟨a.nanos + b.nanos, h⟩ else none

/-- The time from `b` to `a`, or no time where `a` is the earlier one. -/
def since (a b : Duration) : Duration :=
  ⟨a.nanos - b.nanos, Nat.le_trans (Nat.sub_le ..) a.nanos_le⟩

/-- The span rounded up to whole milliseconds. -/
def ceilMillis (d : Duration) : Duration := ofMillis ((d.nanos + 999999) / 1000000)

instance : LE Duration := ⟨fun a b => a.nanos ≤ b.nanos⟩
instance : LT Duration := ⟨fun a b => a.nanos < b.nanos⟩
instance (a b : Duration) : Decidable (a ≤ b) := inferInstanceAs (Decidable (a.nanos ≤ b.nanos))
instance (a b : Duration) : Decidable (a < b) := inferInstanceAs (Decidable (a.nanos < b.nanos))

theorem ext {a b : Duration} (h : a.nanos = b.nanos) : a = b := by
  cases a; cases b; cases h; rfl

theorem le_def {a b : Duration} : a ≤ b ↔ a.nanos ≤ b.nanos := Iff.rfl

@[simp] theorem nanos_ofNanos (n : Nat) : (ofNanos n).nanos = min n maxNanos := rfl

/-- Addition stops at the largest span. -/
@[simp] theorem nanos_add (a b : Duration) :
    (a.add b).nanos = min (a.nanos + b.nanos) maxNanos := rfl

end Duration

end Statechart
