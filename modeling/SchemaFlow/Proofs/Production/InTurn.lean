import SchemaFlow.Proofs.Observation.Nodes
import SchemaFlow.Proofs.Production.OnData

/-!
# Two productions on one value

Two productions done to a value one after the other leave what their composition leaves
(`applyTo_compose`), whatever the value is: nothing at all, a type, or data. The two ways look at the
value at different moments. In turn, the earlier production may read it and the later one reads the
type that is left; composed, one production reads the value, and only where both are modifications.
-/

namespace SchemaFlow

namespace Production

/-- What is left under a name is read without a fault by the next production. -/
theorem readable_stored? (g : Graph) (left : Option TypeSpec) :
    g.Readable ((stored? left).getD .absent) := by
  cases left with
  | none => exact g.readable_absent
  | some t => exact g.readable_type t

/-- The later of two productions works on the type that the earlier one leaves. -/
theorem applyTo_stored? (g : Graph) (p : Production) (left : Option TypeSpec) :
    p.applyTo g ((stored? left).getD .absent) = .ok (p.apply left) := by
  rw [applyTo_eq (readable_stored? g left), standsFor_stored?]

/-- **The composition of two productions does to a value what the two do in turn.** Neither way
    fails, and both leave nothing or both leave the same type up to the order of record fields. -/
theorem applyTo_compose {g : Graph} {earlier later : Production} (he : earlier.WellFormed)
    (hl : later.WellFormed) {v : Value} (hv : g.Readable v) :
    ∃ middle inTurn atOnce : Option TypeSpec,
      earlier.applyTo g v = .ok middle ∧
      later.applyTo g ((stored? middle).getD .absent) = .ok inTurn ∧
      (compose (some earlier) later).applyTo g v = .ok atOnce ∧
      Option.Rel TypeSpec.Alike inTurn atOnce := by
  have hfirst := applyTo_eq hv earlier
  have hsecond := applyTo_stored? g later (earlier.apply (g.standsFor v))
  have honce := applyTo_eq hv (compose (some earlier) later)
  exact ⟨_, _, _, hfirst, hsecond, honce, apply_compose hl he (g.standsFor v)⟩

end Production

/-! ## A customer whose key is dropped and given again -/

/-- Data with one customer. -/
def Graph.customer : Graph := ⟨#[.object .plain [("id", .text "c-1"), ("plan", .text "pro")]]⟩

/-- Drops the key, adds a risk and starts an address. -/
def Production.rating : Production :=
  .modify [("risk", .type (.scalar .float)), ("id", .drop),
    ("address", .modify [("city", .set (.scalar .string))])]

/-- Gives the key again and edits the address. -/
def Production.registering : Production :=
  .modify [("id", .type (.scalar .integer)),
    ("address", .modify [("zip", .set (.scalar .string)), ("city", .drop)])]

theorem Graph.customer_row :
    customer.Row 0 [("id", .text "c-1"), ("plan", .text "pro")] where
  node := rfl
  undescribed := rfl
  primitive := by simp [Value.isContainer]
  typeless := by simp
  observed := by simp [leafType, ProperName, ancestorName]

/-- Both productions edit the customer: done in turn the key goes to the end of the record, composed
    it keeps its place, and the address is edited below either. -/
theorem Production.applyTo_compose_customer :
    rating.WellFormed ∧ registering.WellFormed ∧ Graph.customer.Readable (.node 0) ∧
      ∃ middle inTurn atOnce : Option TypeSpec,
        rating.applyTo Graph.customer (.node 0) = .ok middle ∧
        registering.applyTo Graph.customer ((stored? middle).getD .absent) = .ok inTurn ∧
        (compose (some rating) registering).applyTo Graph.customer (.node 0) = .ok atOnce ∧
        Option.Rel TypeSpec.Alike inTurn atOnce := by
  have hearlier : rating.WellFormed := by decide
  have hlater : registering.WellFormed := by decide
  have hread : Graph.customer.Readable (.node 0) :=
    Graph.customer_row.tame.observable (some TypeSpec.emptyRecord)
  exact ⟨hearlier, hlater, hread, applyTo_compose hearlier hlater hread⟩

end SchemaFlow
