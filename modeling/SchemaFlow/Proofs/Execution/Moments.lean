import Mathlib.Logic.Relation
import SchemaFlow.Execution.Guarded

/-!
# The moments of a run

What a run leaves behind says nothing of what was so while it ran. Here a run is followed step by
step: a moment is what is left to do, around the logic of stages or inside that of one member, and
`Moment.Step` does the next thing.

* `Moment.finish_step`: what is left to do comes to the same result at each moment.
* `Run.run_eq_iff`: the moments of a run lead to what `Run.run` returns, and end nowhere else.
-/

namespace SchemaFlow

variable {α : Type}

/-! ## 1. Steps -/

/-- One step in the logic of the member at a position. Logic that is done or has failed has none. -/
inductive Script.Step (i : Nat) : Script α → Session → Script α → Session → Prop
  | setState (key : String) (v : Value) (next : Except RunError Unit → Script α) (s : Session) :
      Step i (.setState key v next) s (next (s.setState i key v).1) (s.setState i key v).2
  | getState (key : String) (next : Except RunError Value → Script α) (s : Session) :
      Step i (.getState key next) s (next (s.getState i key)) s
  | look (next : Graph → Script α) (s : Session) : Step i (.look next) s (next s.graph) s
  | made {supply : Supply} {s : Session} {g : Graph} {v : Value} (next : Value → Script α) :
      supply s.graph = .ok (g, v) → Step i (.make supply next) s (next v) { s with graph := g }
  | unmade {supply : Supply} {s : Session} {e : Fault} (next : Value → Script α) :
      supply s.graph = .error e → Step i (.make supply next) s (.fail (.fault e)) s

/-- A moment of a run: what is left of it. -/
inductive Moment (α : Type) where
  /-- no logic is running -/
  | between (rest : Run α)
  /-- the logic of a fit is running -/
  | fitting (i : Nat) (logic : Script Unit) (rest : Run α)
  /-- the logic of a transform is running -/
  | transforming (i : Nat) (logic : Script Bag) (rest : Bag → Run α)

namespace Moment

/-- The moment at which a run has ended with a result. -/
def ended : Except RunError α → Moment α
  | .ok a => between (.done a)
  | .error e => between (.stop e)

/-- One step of a run. A run that has ended has none. -/
inductive Step : Moment α → Session → Moment α → Session → Prop
  | look (next : Session → Run α) (s : Session) : Step (between (.look next)) s (between (next s)) s
  | report (lines : List LogLine) (next : Run α) (s : Session) :
      Step (between (.report lines next)) s (between next) (s.tell lines)
  | made {supply : Supply} {s : Session} {g : Graph} {v : Value} (next : Value → Run α) :
      supply s.graph = .ok (g, v) →
      Step (between (.make supply next)) s (between (next v)) { s with graph := g }
  | unmade {supply : Supply} {s : Session} {e : Fault} (next : Value → Run α) :
      supply s.graph = .error e →
      Step (between (.make supply next)) s (between (.stop (.fault e))) s
  | enterFit (i : Nat) (logic : Script Unit) (next : Run α) (s : Session) :
      Step (between (.enterFit i logic next)) s (fitting i logic next) (s.record i .fit)
  | fit {i : Nat} {logic logic' : Script Unit} {s s' : Session} (next : Run α) :
      logic.Step i s logic' s' → Step (fitting i logic next) s (fitting i logic' next) s'
  | fitted (i : Nat) (next : Run α) (s : Session) : Step (fitting i (.done ()) next) s (between next) s
  | fitFailed (i : Nat) (e : RunError) (next : Run α) (s : Session) :
      Step (fitting i (.fail e) next) s (between (.stop e)) s
  | enterTransform (i : Nat) (logic : Script Bag) (next : Bag → Run α) (s : Session) :
      Step (between (.enterTransform i logic next)) s (transforming i logic next)
        (s.record i .transform)
  | transform {i : Nat} {logic logic' : Script Bag} {s s' : Session} (next : Bag → Run α) :
      logic.Step i s logic' s' → Step (transforming i logic next) s (transforming i logic' next) s'
  | transformed (i : Nat) (out : Bag) (next : Bag → Run α) (s : Session) :
      Step (transforming i (.done out) next) s (between (next out)) s
  | transformFailed (i : Nat) (e : RunError) (next : Bag → Run α) (s : Session) :
      Step (transforming i (.fail e) next) s (between (.stop e)) s

/-- One moment comes directly after another. -/
def Next (p q : Moment α × Session) : Prop := Step p.1 p.2 q.1 q.2

/-- One moment comes after another, or is the same. -/
abbrev Later : Moment α × Session → Moment α × Session → Prop := Relation.ReflTransGen Next

theorem Step.before {m m' : Moment α} {s s' : Session} {q : Moment α × Session}
    (h : m.Step s m' s') (hq : Later (m', s') q) : Later (m, s) q := by
  have hnext : Next (m, s) (m', s') := h
  exact .head hnext hq

/-- What a moment comes to in the end. -/
def finish : Moment α → Session → Except RunError α × Session
  | between rest, s => rest.run s
  | fitting i logic rest, s =>
    match logic.run i s with
    | (.ok (), s) => rest.run s
    | (.error e, s) => (.error e, s)
  | transforming i logic rest, s =>
    match logic.run i s with
    | (.ok out, s) => (rest out).run s
    | (.error e, s) => (.error e, s)

end Moment

/-! ## 2. Steps keep the result -/

/-- A script comes to the same result after each of its steps. -/
theorem Script.Step.run_eq {i : Nat} {logic logic' : Script α} {s s' : Session}
    (h : logic.Step i s logic' s') : logic.run i s = logic'.run i s' := by
  cases h with
  | setState key v next => rfl
  | getState key next => rfl
  | look next => rfl
  | made next hmade => simp only [run, hmade]
  | unmade next hunmade => simp only [run, hunmade]

namespace Moment

/-- **A run comes to the same result at each of its moments.** -/
theorem finish_step {m m' : Moment α} {s s' : Session} (h : m.Step s m' s') :
    m.finish s = m'.finish s' := by
  cases h with
  | look next => rfl
  | report lines next => rfl
  | made next hmade => simp only [finish, Run.run, hmade]
  | unmade next hunmade => simp only [finish, Run.run, hunmade]
  | enterFit i logic next => rfl
  | fit next hlogic => rw [finish, finish, hlogic.run_eq]
  | fitted i next => rfl
  | fitFailed i e next => rfl
  | enterTransform i logic next =>
      simp only [finish, Run.run]
      rcases logic.run i (s.record i .transform) with ⟨e | out, s'⟩ <;> rfl
  | transform next hlogic => rw [finish, finish, hlogic.run_eq]
  | transformed i out next => rfl
  | transformFailed i e next => rfl

theorem finish_later {p q : Moment α × Session} (h : Later p q) :
    p.1.finish p.2 = q.1.finish q.2 := by
  induction h with
  | refl => rfl
  | tail _ hstep ih => exact ih.trans (finish_step hstep)

theorem finish_ended (x : Except RunError α) (s : Session) : (ended x).finish s = (x, s) := by
  cases x <;> rfl

end Moment

/-! ## 3. Steps reach the result -/

/-- The steps of a script lead to its result. -/
theorem Script.reaches_result (i : Nat) (logic : Script α) (s : Session) :
    Relation.ReflTransGen (fun p q : Script α × Session => p.1.Step i p.2 q.1 q.2) (logic, s)
      (ofAnswer (logic.run i s).1, (logic.run i s).2) := by
  induction logic generalizing s with
  | done a => exact .refl
  | fail e => exact .refl
  | setState key v next ih => exact .head (.setState key v next s) (ih _ _)
  | getState key next ih => exact .head (.getState key next s) (ih _ _)
  | look next ih => exact .head (.look next s) (ih _ _)
  | make supply next ih =>
      rw [run]
      cases hmade : supply s.graph with
      | ok made => exact .head (.made next hmade) (ih _ _)
      | error e => exact .single (.unmade next hmade)

namespace Moment

/-- The steps of a run lead to its result. -/
theorem reaches_end (r : Run α) (s : Session) :
    Later (between r, s) (ended (r.run s).1, (r.run s).2) := by
  induction r generalizing s with
  | done a => exact .refl
  | stop e => exact .refl
  | look next ih => exact (Step.look next s).before (ih _ _)
  | report lines next ih => exact (Step.report lines next s).before (ih _)
  | make supply next ih =>
      rw [Run.run]
      cases hmade : supply s.graph with
      | ok made =>
          simp only [hmade]
          exact (Step.made next hmade).before (ih _ _)
      | error e =>
          simp only [hmade]
          exact (Step.unmade next hmade).before .refl
  | enterFit i logic next ih =>
      have hlogic := Script.reaches_result i logic (s.record i .fit)
      have hlater : Later (fitting i logic next, s.record i .fit) _ :=
        hlogic.lift (fun p => (fitting i p.1 next, p.2)) fun _ _ hstep => Step.fit next hstep
      refine (Step.enterFit i logic next s).before (hlater.trans ?_)
      simp only [Run.run]
      rcases logic.run i (s.record i .fit) with ⟨e | ⟨⟩, s'⟩
      · exact (Step.fitFailed i e next s').before .refl
      · exact (Step.fitted i next s').before (ih s')
  | enterTransform i logic next ih =>
      have hlogic := Script.reaches_result i logic (s.record i .transform)
      have hlater : Later (transforming i logic next, s.record i .transform) _ :=
        hlogic.lift (fun p => (transforming i p.1 next, p.2))
          fun _ _ hstep => Step.transform next hstep
      refine (Step.enterTransform i logic next s).before (hlater.trans ?_)
      simp only [Run.run]
      rcases logic.run i (s.record i .transform) with ⟨e | out, s'⟩
      · exact (Step.transformFailed i e next s').before .refl
      · exact (Step.transformed i out next s').before (ih out s')

end Moment

/-- **What a run returns is where its steps end.** -/
theorem Run.run_eq_iff {r : Run α} {s s' : Session} {x : Except RunError α} :
    r.run s = (x, s') ↔ Moment.Later (.between r, s) (.ended x, s') := by
  constructor
  · intro h
    have hend := Moment.reaches_end r s
    rw [h] at hend
    exact hend
  · intro h
    have hsame := Moment.finish_later h
    rw [Moment.finish_ended] at hsame
    exact hsame

end SchemaFlow
