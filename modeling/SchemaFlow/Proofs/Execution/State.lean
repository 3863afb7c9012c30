import SchemaFlow.Proofs.Entries.Agreement
import SchemaFlow.Proofs.Execution.Moments

/-!
# The state of stages

However stages run, whether they fail or not, their state only grows, and it grows only by what their
contracts declare.

* `Member.isFitted_iff`: a stage is fitted when all state that it declares is set.
* `Moment.Step.grows`: a step leaves every member in its place, with the state that it had.
* `Session.Fitted.getState`: a fitted stage can read all state that it declares.
-/

namespace SchemaFlow

theorem Entries.mem_names_iff {α : Type} {es : Entries α} {name : String} :
    name ∈ es.names ↔ es.has name := by
  constructor
  · intro h
    by_contra hnone
    exact find?_eq_none_iff.1 (has_eq_false_iff.1 (eq_false_of_ne_true hnone)) h
  · intro h
    by_contra hnot
    have hnone := has_eq_false_iff.2 (find?_eq_none_iff.2 hnot)
    rw [h] at hnone
    cases hnone

/-! ## 1. Members -/

namespace Member

/-- No state is set but what the contract declares. -/
def Declared (m : Member) : Prop :=
  ∀ key, m.state.has key → m.stage.contract.fittedState.has key

theorem isFitted_iff {m : Member} :
    m.isFitted ↔ ∀ key, m.stage.contract.fittedState.has key → m.state.has key := by
  unfold isFitted
  rw [List.all_eq_true]
  exact forall_congr' fun key => imp_congr_left Entries.mem_names_iff

/-- A member at a later time: the same stage, with the state that it had. -/
structure Grows (m m' : Member) : Prop where
  stage : m'.stage = m.stage
  kept : ∀ key, m.state.has key → m'.state.has key
  declared : m.Declared → m'.Declared

namespace Grows

variable {m m' m'' : Member}

theorem refl (m : Member) : m.Grows m := ⟨rfl, fun _ h => h, fun h => h⟩

theorem trans (h : m.Grows m') (h' : m'.Grows m'') : m.Grows m'' where
  stage := h'.stage.trans h.stage
  kept key hkey := h'.kept key (h.kept key hkey)
  declared hm := h'.declared (h.declared hm)

/-- **A stage once fitted stays fitted.** -/
theorem isFitted (h : m.Grows m') (hm : m.isFitted) : m'.isFitted := by
  rw [isFitted_iff] at hm ⊢
  intro key hkey
  rw [h.stage] at hkey
  exact h.kept key (hm key hkey)

end Grows

/-- A member grows when a state is set that it declares. -/
theorem grows_put (m : Member) {key : String} (h : m.stage.contract.fittedState.has key) (v : Value) :
    m.Grows { m with state := m.state.put key v } where
  stage := rfl
  kept other hother := by
    rw [Entries.has, Entries.find?_put]
    split
    · rfl
    · exact hother
  declared hm other hother := by
    by_cases hkey : other = key
    · exact hkey ▸ h
    · rw [Entries.has, Entries.find?_put, if_neg hkey] at hother
      exact hm other hother

end Member

/-! ## 2. Sessions -/

namespace Session

/-- A session at a later time: the same members, each with the state that it had. -/
def Grows (s t : Session) : Prop :=
  ∀ i : Nat, Option.Rel Member.Grows s.members[i]? t.members[i]?

namespace Grows

variable {s t u : Session}

theorem of_members (h : t.members = s.members) : s.Grows t := fun i => by
  rw [h]
  exact OptionRel.refl Member.Grows.refl _

theorem refl (s : Session) : s.Grows s := of_members rfl

theorem trans (h : s.Grows t) (h' : t.Grows u) : s.Grows u := fun i =>
  OptionRel.trans (R := Member.Grows) (fun _ _ _ hab hbc => hab.trans hbc) (h i) (h' i)

theorem member (h : s.Grows t) {i : Nat} {m : Member} (hm : s.members[i]? = some m) :
    ∃ m', t.members[i]? = some m' ∧ m.Grows m' := by
  have hi := h i
  rw [hm] at hi
  exact OptionRel.exists_of_some hi

/-- What is set stays declared. -/
theorem declared (h : s.Grows t) (hs : ∀ m ∈ s.members, m.Declared) : ∀ m ∈ t.members, m.Declared := by
  intro m' hm'
  obtain ⟨i, hi⟩ := List.mem_iff_getElem?.1 hm'
  have hrel := h i
  rw [hi] at hrel
  generalize hfrom : s.members[i]? = o at hrel
  cases hrel with
  | some hgrows => exact hgrows.declared (hs _ (List.mem_of_getElem? hfrom))

end Grows

theorem grows_setState (s : Session) (i : Nat) (key : String) (v : Value) :
    s.Grows (s.setState i key v).2 := by
  unfold setState
  cases hm : s.members[i]? with
  | none => exact .refl s
  | some m =>
      by_cases hkey : m.stage.contract.fittedState.has key
      · simp only [hkey, if_true]
        intro j
        by_cases hj : i = j
        · subst hj
          have hlt : i < s.members.length := (List.getElem?_eq_some_iff.1 hm).1
          simp only [List.getElem?_set_self hlt, hm]
          exact .some (m.grows_put hkey v)
        · simp only [List.getElem?_set_ne hj]
          exact OptionRel.refl Member.Grows.refl _
      · simp only [hkey]
        exact .refl s

/-- The member at a position is there and fitted. -/
def Fitted (s : Session) (i : Nat) : Prop := ∃ m, s.members[i]? = some m ∧ m.isFitted

theorem Fitted.grows {s t : Session} {i : Nat} (h : s.Fitted i) (hst : s.Grows t) : t.Fitted i := by
  obtain ⟨m, hm, hfitted⟩ := h
  obtain ⟨m', hm', hgrows⟩ := hst.member hm
  exact ⟨m', hm', hgrows.isFitted hfitted⟩

/-- **A fitted stage can read all state that it declares.** -/
theorem Fitted.getState {s : Session} {i : Nat} (h : s.Fitted i) {m : Member}
    (hm : s.members[i]? = some m) {key : String} (hkey : m.stage.contract.fittedState.has key) :
    ∃ v, s.getState i key = .ok v := by
  obtain ⟨m', hm', hfitted⟩ := h
  obtain rfl : m = m' := Option.some.inj (hm.symm.trans hm')
  obtain ⟨v, hv⟩ := Entries.has_eq_true_iff.1 (Member.isFitted_iff.1 hfitted key hkey)
  refine ⟨v, ?_⟩
  unfold Session.getState
  simp only [hm, hv]

end Session

/-! ## 3. Steps -/

theorem Script.Step.grows {α : Type} {i : Nat} {logic logic' : Script α} {s s' : Session}
    (h : logic.Step i s logic' s') : s.Grows s' := by
  cases h with
  | setState key v next => exact s.grows_setState i key v
  | getState key next => exact .refl s
  | look next => exact .refl s
  | made next _ => exact .of_members rfl
  | unmade next _ => exact .refl s

/-- **A step keeps all members and their state.** -/
theorem Moment.Step.grows {α : Type} {m m' : Moment α} {s s' : Session} (h : m.Step s m' s') :
    s.Grows s' := by
  cases h with
  | look next => exact .refl s
  | report lines next => exact .of_members rfl
  | made next _ => exact .of_members rfl
  | unmade next _ => exact .refl s
  | enterFit i logic next => exact .of_members rfl
  | fit next hlogic => exact hlogic.grows
  | fitted i next => exact .refl s
  | fitFailed i e next => exact .refl s
  | enterTransform i logic next => exact .of_members rfl
  | transform next hlogic => exact hlogic.grows
  | transformed i out next => exact .refl s
  | transformFailed i e next => exact .refl s

end SchemaFlow
