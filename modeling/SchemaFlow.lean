import SchemaFlow.Text.Blank
import SchemaFlow.Text.Units
import SchemaFlow.Text.Quoted
import SchemaFlow.Entries
import SchemaFlow.Decimal.Nearest
import SchemaFlow.Decimal.Text
import SchemaFlow.TypeSpec.Compatibility
import SchemaFlow.TypeSpec.Printer
import SchemaFlow.TypeSpec.Parser
import SchemaFlow.Fault
import SchemaFlow.Value.Basic
import SchemaFlow.Value.Family
import SchemaFlow.Value.Parts
import SchemaFlow.Value.Bag
import SchemaFlow.Json
import SchemaFlow.Value.Text
import SchemaFlow.Value.Typed
import SchemaFlow.Observation
import SchemaFlow.Observation.Unchecked
import SchemaFlow.Production.Effect
import SchemaFlow.Production.Unchecked
import SchemaFlow.Contract.Check
import SchemaFlow.Contract.Unchecked
import SchemaFlow.Chain.Pass
import SchemaFlow.Declaration.Compile
import SchemaFlow.Execution.Guarded
import SchemaFlow.Execution.Recipe
import SchemaFlow.Main
import SchemaFlow.Proofs.Entries.Distinct
import SchemaFlow.Proofs.TypeSpec.Compatibility
import SchemaFlow.Proofs.Entries.Agreement
import SchemaFlow.Proofs.TypeSpec.FieldOrder
import SchemaFlow.Proofs.Production.Apply
import SchemaFlow.Proofs.Production.Composition
import SchemaFlow.Proofs.Production.OnData
import SchemaFlow.Proofs.Steps
import SchemaFlow.Proofs.Contract.WellFormed
import SchemaFlow.Proofs.Contract.Check
import SchemaFlow.Proofs.Chain.Leaves
import SchemaFlow.Proofs.Chain.Walk
import SchemaFlow.Proofs.Chain.Verdicts
import SchemaFlow.Proofs.Chain.NetEffect
import SchemaFlow.Proofs.Chain.Nesting
import SchemaFlow.Proofs.Observation.Refinement
import SchemaFlow.Proofs.Observation.Acyclic
import SchemaFlow.Proofs.Observation.Plain
import SchemaFlow.Proofs.Observation.Conformance
import SchemaFlow.Proofs.Chain.Soundness
import SchemaFlow.Proofs.TypeSpec.Language
import SchemaFlow.Proofs.TypeSpec.RoundTrip
import SchemaFlow.Proofs.Observation.Nodes
import SchemaFlow.Proofs.Observation.Unhinted
import SchemaFlow.Proofs.Production.Refinement
import SchemaFlow.Proofs.Chain.Approval
import SchemaFlow.Proofs.Chain.Guard
import SchemaFlow.Proofs.Chain.Sharpening
import SchemaFlow.Proofs.TypeSpec.Parts
import SchemaFlow.Proofs.Observation.Forms
import SchemaFlow.Proofs.Observation.Acceptance
import SchemaFlow.Proofs.Observation.Weakening
import SchemaFlow.Proofs.Observation.Fits
import SchemaFlow.Proofs.Chain.Requirement
import SchemaFlow.Proofs.Production.InTurn
import SchemaFlow.Proofs.Contract.Parameters
import SchemaFlow.Proofs.Chain.Parameters
import SchemaFlow.Proofs.Execution.Moments
import SchemaFlow.Proofs.Execution.State
import SchemaFlow.Proofs.Execution.Guarded
import SchemaFlow.Proofs.Execution.Standing
import SchemaFlow.Proofs.Observation.Culprits
import SchemaFlow.Proofs.Chain.Findings
import SchemaFlow.Proofs.Chain.Fitting
import SchemaFlow.Proofs.Chain.Regrouping
import SchemaFlow.Proofs.Execution.FitInput
import SchemaFlow.Proofs.TypeSpec.Order
import SchemaFlow.Proofs.Chain.Locality
import SchemaFlow.Proofs.Chain.Exchange
import SchemaFlow.Proofs.Observation.Keys
import SchemaFlow.Proofs.Observation.Depth
import SchemaFlow.Proofs.Observation.Sharing
import SchemaFlow.Proofs.Observation.Unfolding
import SchemaFlow.Proofs.TypeSpec.Notation
import SchemaFlow.Proofs.TypeSpec.Spelling
import SchemaFlow.Proofs.TypeSpec.Failures
import SchemaFlow.Proofs.TypeSpec.Viable
import SchemaFlow.Proofs.Decimal.Rounding
import SchemaFlow.Proofs.Decimal.Shortest
import SchemaFlow.Proofs.TypeSpec.NormalForm
import SchemaFlow.Proofs.Declaration.Stores
import SchemaFlow.Proofs.Declaration.Inversion
import SchemaFlow.Proofs.Declaration.Keys
import SchemaFlow.Proofs.Declaration.Compiled
import SchemaFlow.Proofs.Declaration.Faults
import SchemaFlow.Proofs.Declaration.JsonText
import SchemaFlow.Proofs.Entries.Ordered
import SchemaFlow.Proofs.Entries.Arrival
import SchemaFlow.Proofs.Contract.Revalidation
import SchemaFlow.Proofs.Production.Made
import SchemaFlow.Proofs.Production.Given
import SchemaFlow.Proofs.Chain.Construction
import SchemaFlow.Proofs.Chain.Derivation
import SchemaFlow.Proofs.Chain.QualifiedNames
import SchemaFlow.Proofs.Chain.Placeholders
import SchemaFlow.Proofs.Execution.Calls
import SchemaFlow.Proofs.Execution.Course
import SchemaFlow.Proofs.Execution.Passage
import SchemaFlow.Proofs.TypeSpec.Disagreement
import SchemaFlow.Proofs.Production.Paths
