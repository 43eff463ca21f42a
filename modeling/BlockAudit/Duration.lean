/-! Spans of time. -/
namespace BlockAudit

/-- The seconds of the longest duration fit into 64 bits. -/
def Duration.limit : Nat := UInt64.size * 1000000000

/-- A span of time in nanoseconds. -/
structure Duration where
  nanos : Nat
  lt_limit : nanos < Duration.limit
deriving DecidableEq

namespace Duration

instance : LE Duration := ⟨fun a b => a.nanos ≤ b.nanos⟩

instance (a b : Duration) : Decidable (a ≤ b) := inferInstanceAs (Decidable (a.nanos ≤ b.nanos))

instance : Min Duration := minOfLe

/-- A number of milliseconds, or the longest duration if there are more. -/
def ofMillis (millis : Nat) : Duration where
  nanos := min (millis * 1000000) (limit - 1)
  lt_limit := Nat.lt_of_le_of_lt (Nat.min_le_right _ _) (by decide)

/-- The whole milliseconds. -/
def millis (duration : Duration) : Nat :=
  duration.nanos / 1000000

/-- Settings and reports count in milliseconds. -/
instance : Coe Nat Duration := ⟨ofMillis⟩

instance : Coe Duration Nat := ⟨millis⟩

/-- A multiple of a duration, unless it is too long. -/
def times? (duration : Duration) (factor : Nat) : Option Duration :=
  if h : duration.nanos * factor < limit then some ⟨duration.nanos * factor, h⟩ else none

end Duration

end BlockAudit
