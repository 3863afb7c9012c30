/-!
# Positions in sixteen-bit units

A position in a text is counted in sixteen-bit units: one for a character of the basic plane, two
for any other. `units_append` makes positions additive.
-/

namespace SchemaFlow.Text

/-- The units that one character takes. -/
def unitsOf (c : Char) : Nat := if c.toNat < 0x10000 then 1 else 2

/-- The units of a text. -/
def units : List Char → Nat
  | [] => 0
  | c :: cs => unitsOf c + units cs

@[simp] theorem units_nil : units [] = 0 := rfl

@[simp] theorem units_cons (c : Char) (cs : List Char) : units (c :: cs) = unitsOf c + units cs :=
  rfl

/-- **Units add up over a concatenation.** -/
theorem units_append : ∀ cs ds : List Char, units (cs ++ ds) = units cs + units ds
  | [], ds => by simp
  | c :: cs, ds => by simp [units_append cs ds, Nat.add_assoc]

/-- The position in `whole` at which `rest` is left to read. -/
def offsetOf (whole rest : List Char) : Nat := units whole - units rest

/-- **The position before the rest of a text is the length of what stands before it.** -/
theorem offsetOf_append (read rest : List Char) : offsetOf (read ++ rest) rest = units read := by
  simp [offsetOf, units_append]

end SchemaFlow.Text
