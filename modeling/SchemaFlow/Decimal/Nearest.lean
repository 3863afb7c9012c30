/-!
# The nearest binary number

Sizes are held as doubles: 53 significant binary digits, below `2^1024`. A whole number that needs
more is rounded to the nearest one that does not, and a tie goes to the even one.
`nearest?_of_lt`: below `2^53` nothing is rounded.
-/

namespace SchemaFlow.Decimal

/-- Rounds to 53 binary digits. -/
def roundTo53 (n : Nat) : Nat :=
  if n < Nat.pow 2 53 then n
  else
    let unit := Nat.pow 2 (Nat.log2 n - 52)
    let whole := n / unit
    let gap := 2 * (n % unit)
    if gap < unit then whole * unit
    else if unit < gap then (whole + 1) * unit
    else (whole + whole % 2) * unit

/-- The nearest double of a whole number, if there is a finite one. -/
def nearest? (n : Nat) : Option Nat :=
  let r := roundTo53 n
  if Nat.log2 r < 1024 then some r else none

/-- **Small numbers are exact.** -/
theorem nearest?_of_lt {n : Nat} (h : n < Nat.pow 2 53) : nearest? n = some n := by
  have h' : Nat.log2 n < 1024 := by
    by_cases hn : n = 0
    · subst hn; decide
    · exact Nat.lt_trans ((Nat.log2_lt hn).2 h) (by decide)
  simp only [nearest?, roundTo53, if_pos h, if_pos h']

/-- The number that a run of decimal digits spells. -/
def ofDigits (cs : List Char) : Nat := cs.foldl (fun n c => 10 * n + (c.toNat - 48)) 0

/-- The double nearest to `mantissa · 10^exponent`; out of the range of doubles it is infinite,
    or zero. -/
def toFloat (mantissa : Nat) (exponent : Int) : Float :=
  let size := (Nat.toDigits 10 mantissa).length
  if mantissa = 0 ∨ (size : Int) + exponent < -400 then 0
  else if 400 < (size : Int) + exponent then 1.0 / 0.0
  else Float.ofScientific mantissa (decide (exponent < 0)) exponent.natAbs

end SchemaFlow.Decimal
