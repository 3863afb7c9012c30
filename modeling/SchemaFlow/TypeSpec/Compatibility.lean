import SchemaFlow.TypeSpec.Basic

/-!
# Compatibility

`diagnose declared observed` says whether data of the observed type may stand where the declared
type is demanded, and if not, how they disagree. A record may have more fields than are declared;
a fixed dimension is met by the same size only, a free one by any. Arrays of one element kind that
disagree in rank or size are told apart from all other disagreements, also inside containers.
-/

namespace SchemaFlow

/-- How a declared and an observed type disagree. -/
inductive Mismatch
  | type
  | shape
deriving Repr, DecidableEq

/-- A declared dimension is met: a free one by any, a fixed one by its own size only. -/
def Dimension.fits : Dimension → Dimension → Bool
  | .free, _ => true
  | .fixed n, .fixed m => n == m
  | .fixed _, .free => false

/-- Declared dimensions are met one by one, in the same rank. -/
def dimensionsFit : List Dimension → List Dimension → Bool
  | [], [] => true
  | d :: ds, e :: es => d.fits e && dimensionsFit ds es
  | _, _ => false

namespace TypeSpec

mutual

/-- The disagreement of two types, if they disagree. -/
def diagnose : (declared observed : TypeSpec) → Option Mismatch
  | .scalar k, .scalar l => if k = l then none else some .type
  | .sequence e, .sequence f => diagnose e f
  | .array k ds, .array l es =>
    if k ≠ l then some .type else if dimensionsFit ds es then none else some .shape
  | .mapping k v, .mapping l w => if k = l then diagnose v w else some .type
  | .handle a, .handle b => if a = b then none else some .type
  | .record fs _, .record gs _ => diagnoseFields fs gs
  | _, _ => some .type

/-- The first disagreement among declared fields; a field that was not observed disagrees. -/
def diagnoseFields : (declared observed : List (String × TypeSpec)) → Option Mismatch
  | [], _ => none
  | (name, t) :: rest, observed =>
    match Entries.find? observed name with
    | none => some .type
    | some u =>
      match diagnose t u with
      | some m => some m
      | none => diagnoseFields rest observed

end

/-- Whether the observed type may stand for the declared one. -/
def isCompatible (declared observed : TypeSpec) : Bool := (diagnose declared observed).isNone

/-- Types of different sorts disagree. -/
theorem diagnose_of_sortName_ne {declared observed : TypeSpec}
    (h : declared.sortName ≠ observed.sortName) : diagnose declared observed = some .type := by
  cases declared <;> cases observed <;> first | exact absurd rfl h | simp [diagnose]

end TypeSpec

end SchemaFlow
