import Mathlib.Tactic

/-!
# Times

Points in time as the `chrono` crate has them, and the seconds that are written down instead.
-/

namespace NomadRs

/-- Nanoseconds from the epoch. -/
abbrev DateTime := Int

def second : ℤ := 1000000000

def timestamp (t : DateTime) : ℤ := t / second

end NomadRs
