import SchemaFlow.Decimal.Shortest

/-!
# Numbers as text

A number is written with the shortest digits that read back as it. `Layout.number` fixes where the
positional notation ends: from `10^21` on, and below `10^-6`, the exponent is written out.
Sizes below `2^53` are written with all their digits (`sizeText_of_lt`).
-/

namespace SchemaFlow.Decimal

/-! ## 1. The layout -/

/-- Where positional notation ends: a number is written positionally when its decimal point stands
    at most `largestPoint` places after the first digit, and at most `largestGap` zeros stand
    between point and first digit. -/
structure Layout where
  largestPoint : Int
  largestGap : Int

/-- Numbers are positional below `10^21` and from `10^-6` on. -/
def Layout.number : Layout := ⟨21, 5⟩

/-- The sign and digits of an exponent. -/
def exponentText (e : Int) : String :=
  (if e < 0 then "e-" else "e+") ++ toString e.natAbs

/-- Lays out the decimal `d`. -/
def Layout.write (l : Layout) (d : Digits) : String :=
  let ds := Nat.toDigits 10 d.digits
  let count : Int := ds.length
  let point := count + d.exponent
  if 0 < point ∧ point ≤ l.largestPoint then
    if count ≤ point then String.ofList (ds ++ List.replicate (point - count).toNat '0')
    else String.ofList (ds.take point.toNat ++ '.' :: ds.drop point.toNat)
  else if point ≤ 0 ∧ -l.largestGap ≤ point then
    String.ofList ('0' :: '.' :: (List.replicate (-point).toNat '0' ++ ds))
  else
    let tail := if count = 1 then [] else '.' :: ds.drop 1
    String.ofList (ds.take 1 ++ tail) ++ exponentText (point - 1)

/-! ## 2. Doubles and sizes -/

/-- The significand and the binary exponent of a positive finite double, from its bits. -/
def significand (bits : UInt64) : Nat × Int :=
  let n := bits.toNat % Nat.pow 2 63
  let fraction := n % Nat.pow 2 52
  match n / Nat.pow 2 52 with
  | 0 => (fraction, -1074)
  | e + 1 => (Nat.pow 2 52 + fraction, (e : Int) - 1074)

/-- A double as text. Zero has no sign. -/
def numberText (x : Float) : String :=
  if x.isNaN then "NaN"
  else if x == 0 then "0"
  else
    let sign := if x < 0 then "-" else ""
    if x.isInf then sign ++ "Infinity"
    else
      let (m, q) := significand x.toBits
      sign ++ Layout.number.write (shortest m q)

/-- The whole number of a double that is a positive integer. -/
def positiveInteger? (x : Float) : Option Nat :=
  if x.isNaN || x.isInf || x ≤ 0 then none
  else
    let (m, q) := significand x.toBits
    if 0 ≤ q then some (m * Nat.pow 2 q.toNat)
    else if m % Nat.pow 2 (-q).toNat = 0 then some (m / Nat.pow 2 (-q).toNat)
    else none

/-- A whole number of at most 53 significant binary digits as text. -/
def sizeText (n : Nat) : String :=
  if n < Nat.pow 2 53 then toString n
  else
    let shift := Nat.log2 n - 52
    Layout.number.write (shortest (n / Nat.pow 2 shift) shift)

theorem sizeText_of_lt {n : Nat} (h : n < Nat.pow 2 53) : sizeText n = toString n := by
  simp only [sizeText, if_pos h]

end SchemaFlow.Decimal
