/-!
# The shortest decimal of a binary number

A positive binary number `m · 2^q` stands for every real that rounds to it. Among the decimals of
at most 17 digits in that interval the shortest is chosen, and of the shortest the nearest; the
search tests, for each count of digits, the two neighbours of the number on that decimal grid, in
exact arithmetic.
-/

namespace SchemaFlow.Decimal

/-- The decimal `digits · 10^exponent`. -/
structure Digits where
  digits : Nat
  exponent : Int
deriving Repr, DecidableEq

/-- The reals that round to a binary number: the number itself, and the ends of the interval, as
    numerators over one denominator. The ends belong to it when `closed`. -/
structure Interval where
  value : Nat
  low : Nat
  high : Nat
  denominator : Nat
  closed : Bool

/-- The interval of `m · 2^q`. Below a power of two the neighbour is half as far away, unless the
    number is of the smallest exponent. -/
def intervalOf (m : Nat) (q : Int) : Interval :=
  let scale := Nat.pow 2 q.toNat
  { value := 4 * m * scale
    low := (4 * m - (if m = Nat.pow 2 52 ∧ -1074 < q then 1 else 2)) * scale
    high := (4 * m + 2) * scale
    denominator := 4 * Nat.pow 2 (-q).toNat
    closed := m % 2 = 0 }

namespace Interval

/-- The same interval in units of `10^e`. -/
def inUnits (i : Interval) (e : Int) : Interval :=
  let up := Nat.pow 10 (-e).toNat
  { i with
    value := i.value * up
    low := i.low * up
    high := i.high * up
    denominator := i.denominator * Nat.pow 10 e.toNat }

/-- Whether the interval holds a whole number. -/
def holds (i : Interval) (d : Nat) : Bool :=
  if i.closed then i.low ≤ d * i.denominator && d * i.denominator ≤ i.high
  else i.low < d * i.denominator && d * i.denominator < i.high

/-- Of the two whole numbers around the value the one in the interval; of two hits the nearer,
    and of two at the same distance the even one. -/
def nearestWhole? (i : Interval) : Option Nat :=
  let below := i.value / i.denominator
  let gap := i.value % i.denominator
  match i.holds below, i.holds (below + 1) with
  | true, true =>
    if 2 * gap < i.denominator then some below
    else if i.denominator < 2 * gap then some (below + 1)
    else some (below + below % 2)
  | true, false => some below
  | false, true => some (below + 1)
  | false, false => none

/-- The exponent of the leading decimal digit: looks for the first power of ten that lifts the
    value to one or more. -/
def leadingExponentBelowOne (i : Interval) : Nat → Nat → Int
  | 0, k => -(k : Int)
  | fuel + 1, k =>
    if i.denominator ≤ i.value * Nat.pow 10 k then -(k : Int)
    else leadingExponentBelowOne i fuel (k + 1)

/-- The exponent of the leading decimal digit of the value. -/
def leadingExponent (i : Interval) : Int :=
  if i.denominator ≤ i.value then
    ((Nat.toDigits 10 (i.value / i.denominator)).length : Int) - 1
  else i.leadingExponentBelowOne 340 1

/-- The first hit on the grids with `count`, `count + 1`, … digits. -/
def searchFrom (i : Interval) (lead : Int) : Nat → Nat → Option Digits
  | 0, _ => none
  | fuel + 1, count =>
    let e := lead - ((count : Int) - 1)
    match (i.inUnits e).nearestWhole? with
    | some d => some ⟨d, e⟩
    | none => searchFrom i lead fuel (count + 1)

end Interval

/-- Takes trailing zeros out of the digits. -/
def Digits.trimmed (d : Digits) : Digits :=
  go d.digits d
where
  /-- One zero a step; a number has fewer zeros than its own size. -/
  go : Nat → Digits → Digits
    | 0, d => d
    | fuel + 1, d =>
      if d.digits ≠ 0 ∧ d.digits % 10 = 0 then go fuel ⟨d.digits / 10, d.exponent + 1⟩ else d

/-- **The shortest decimal of `m · 2^q`**, for `0 < m`. -/
def shortest (m : Nat) (q : Int) : Digits :=
  let i := intervalOf m q
  let found := (i.searchFrom i.leadingExponent 17 1).getD
    ⟨i.value / i.denominator, 0⟩
  found.trimmed

end SchemaFlow.Decimal
