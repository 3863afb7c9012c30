import SchemaFlow.Proofs.Execution.Guarded

/-!
# Calls on a set of stages

Stages are fitted and transformed by calls, each of which may fail midway and leave what it did. A
call need not have ended when the next one begins: a `Standing` is a session with all calls that were
made on it, each at its moment, and any of them may go on next.

* `Standing.Sound` holds at all times: what is set is declared, and no enforced transform that is
  still to come, or is running, is of a stage that is not fitted.
* `Standing.state_guarded` says what this means for the state of stages.
* `Standing.later_after`: calls that are made one after the other, each run to its end, are a case.
-/

namespace SchemaFlow

/-! ## 1. Calls -/

/-- A call that runs stages. -/
inductive Call
  | fit (options : RunOptions) (i : Nat) (name : String) (data parameters : Value)
  | transform (options : RunOptions) (i : Nat) (name : String) (data : Value)
  | fitChain (options : RunOptions) (row : Run.Row) (data parameters : Value)
  | transformChain (options : RunOptions) (row : Run.Row) (data : Value)

namespace Call

/-- What a call does. -/
def run : Call → Run Unit
  | fit options i name data parameters => Run.fitStage options i name data parameters
  | transform options i name data => do
    let _ ← Run.transformStage options i name data
  | fitChain options row data parameters => do
    let _ ← Run.fitRow options row data parameters
  | transformChain options row data => do
    let _ ← Run.transformRow options row data

/-- A transform behind an enforced guard. -/
def TransformsGuarded : Call → Prop
  | fit .. | fitChain .. => False
  | transform options .. | transformChain options .. => options.enforce = true

theorem sure_run {c : Call} (h : c.TransformsGuarded) (s : Session) :
    c.run.Sure (fun _ _ => True) s := by
  cases c with
  | fit options i name data parameters => exact h.elim
  | transform options i name data =>
      exact Run.sure_bind.2 (Run.sure_transformStage h i name data s)
  | fitChain options row data parameters => exact h.elim
  | transformChain options row data => exact Run.sure_bind.2 (Run.sure_transformRow h row data s)

end Call

/-- A session in which calls were made one after the other, each run to its end. -/
def Session.after : Session → List Call → Session
  | s, [] => s
  | s, c :: cs => (c.run.run s).2.after cs

/-! ## 2. Moments of a guarded call -/

namespace Moment

/-- What is sure of a run at one of its moments. -/
def Sure : Moment Unit → Session → Prop
  | between rest, s => rest.Sure (fun _ _ => True) s
  | fitting _ _ rest, s => rest.Sure (fun _ _ => True) s
  | transforming i _ rest, s => s.Fitted i ∧ ∀ out, (rest out).Sure (fun _ _ => True) s

theorem lasting_true {α : Type} : Run.Lasting fun (_ : α) _ => True := fun _ _ _ _ _ => trivial

theorem Sure.grows {m : Moment Unit} {s t : Session} (h : m.Sure s) (hst : s.Grows t) :
    m.Sure t := by
  cases m with
  | between rest => exact Run.Sure.grows h lasting_true hst
  | fitting i logic rest => exact Run.Sure.grows h lasting_true hst
  | transforming i logic rest =>
      exact ⟨h.1.grows hst, fun out => Run.Sure.grows (h.2 out) lasting_true hst⟩

theorem Sure.step {m m' : Moment Unit} {s s' : Session} (h : m.Sure s) (hstep : m.Step s m' s') :
    m'.Sure s' := by
  have hs : m.Sure s' := h.grows hstep.grows
  cases hstep with
  | look next => exact h s (.refl s)
  | report lines next => exact hs
  | made next _ => exact hs _
  | unmade next _ => trivial
  | enterFit i logic next => exact hs
  | fit next _ => exact hs
  | fitted i next => exact hs
  | fitFailed i e next => trivial
  | enterTransform i logic next => exact hs
  | transform next _ => exact hs
  | transformed i out next => exact hs.2 out
  | transformFailed i e next => trivial

end Moment

/-! ## 3. Standings -/

/-- A session with the calls that were made on it, each with what is left of it. -/
structure Standing where
  session : Session
  calls : List (Call × Moment Unit) := []

namespace Standing

/-- What may happen next. -/
inductive Step : Standing → Standing → Prop
  /-- a call is made -/
  | call (s : Session) (calls : List (Call × Moment Unit)) (c : Call) :
      Step ⟨s, calls⟩ ⟨s, calls ++ [(c, .between c.run)]⟩
  /-- a call goes on -/
  | go {s s' : Session} {m m' : Moment Unit} (before after : List (Call × Moment Unit)) (c : Call) :
      m.Step s m' s' → Step ⟨s, before ++ (c, m) :: after⟩ ⟨s', before ++ (c, m') :: after⟩
  /-- others than stages change the containers there are -/
  | outside (s : Session) (calls : List (Call × Moment Unit)) (g : Graph) :
      Step ⟨s, calls⟩ ⟨{ s with graph := g }, calls⟩

/-- One standing comes after another, or is the same. -/
abbrev Later : Standing → Standing → Prop := Relation.ReflTransGen Step

/-- **What holds at all times.** -/
structure Sound (st : Standing) : Prop where
  declared : ∀ m ∈ st.session.members, m.Declared
  sure : ∀ e ∈ st.calls, e.1.TransformsGuarded → e.2.Sure st.session

variable {st st' : Standing}

theorem Step.grows (h : Step st st') : st.session.Grows st'.session := by
  cases h with
  | call s calls c => exact .refl s
  | go before after c hstep => exact hstep.grows
  | outside s calls g => exact .of_members rfl

theorem Later.grows (h : Later st st') : st.session.Grows st'.session := by
  induction h with
  | refl => exact .refl _
  | tail _ hstep ih => exact ih.trans hstep.grows

theorem Sound.step (h : st.Sound) (hstep : Step st st') : st'.Sound where
  declared := hstep.grows.declared h.declared
  sure := by
    cases hstep with
    | call s calls c =>
        intro e he hguarded
        rcases List.mem_append.1 he with he | he
        · exact h.sure e he hguarded
        · obtain rfl := List.mem_singleton.1 he
          exact Call.sure_run hguarded s
    | @go s s' m m' before after c hm =>
        intro e he hguarded
        -- the call that went on made a step; the others saw the session grow
        have hother : e ∈ before ++ after → e.2.Sure s' := fun he => by
          have hmem : e ∈ before ++ (c, m) :: after := by
            simp only [List.mem_append, List.mem_cons] at he ⊢
            tauto
          exact (h.sure e hmem hguarded).grows hm.grows
        rcases List.mem_append.1 he with hb | ha
        · exact hother (List.mem_append_left _ hb)
        · rcases List.mem_cons.1 ha with rfl | ha
          · exact (h.sure (c, m) (List.mem_append_right _ List.mem_cons_self) hguarded).step hm
          · exact hother (List.mem_append_right _ ha)
    | outside s calls g =>
        exact fun e he hguarded => (h.sure e he hguarded).grows (.of_members rfl)

theorem Sound.later (h : st.Sound) (hlater : Later st st') : st'.Sound := by
  induction hlater with
  | refl => exact h
  | tail _ hstep ih => exact ih.step hstep

/-! ## 4. Calls one after the other -/

/-- A call that is made and run to its end. -/
theorem later_run {s s' : Session} {x : Except RunError Unit} {c : Call}
    (calls : List (Call × Moment Unit)) (h : c.run.run s = (x, s')) :
    Later ⟨s, calls⟩ ⟨s', calls ++ [(c, .ended x)]⟩ := by
  have hrun : Later ⟨s, calls ++ [(c, .between c.run)]⟩ ⟨s', calls ++ [(c, .ended x)]⟩ :=
    (Run.run_eq_iff.1 h).lift
      (fun p : Moment Unit × Session => (⟨p.2, calls ++ [(c, p.1)]⟩ : Standing))
      fun _ _ hstep => Step.go calls [] c hstep
  exact .head (.call s calls c) hrun

/-- **Calls that are made one after the other, each run to its end, lead to a later standing.** -/
theorem later_after : ∀ (cs : List Call) (s : Session) (calls : List (Call × Moment Unit)),
    ∃ calls', Later ⟨s, calls⟩ ⟨s.after cs, calls'⟩
  | [], _, calls => ⟨calls, .refl⟩
  | c :: cs, s, calls => by
      obtain ⟨calls', hlater⟩ :=
        later_after cs (c.run.run s).2 (calls ++ [(c, .ended (c.run.run s).1)])
      exact ⟨calls', (later_run calls rfl).trans hlater⟩

/-! ## 5. The state of stages -/

/-- **The state of stages is declared, lasts, and is there behind the guard.** Whatever calls are made
    on stages that set only declared state before, enforced or not, failing or not: at each moment a
    stage sets no state but what its contract declares, and is fitted exactly when all of that is
    set; a fitted stage stays fitted; and logic that transforms in a call behind an enforced guard
    can read all state that its stage declares. -/
theorem state_guarded {start now : Standing} (hnew : start.calls = [])
    (hdeclared : ∀ m ∈ start.session.members, m.Declared) (h : Later start now) :
    (∀ m ∈ now.session.members,
      (∀ key, m.state.has key → m.stage.contract.fittedState.has key) ∧
      (m.isFitted ↔ ∀ key, m.stage.contract.fittedState.has key → m.state.has key)) ∧
    (∀ later, Later now later → ∀ (i : Nat) (m : Member), now.session.members[i]? = some m →
      m.isFitted → ∃ m', later.session.members[i]? = some m' ∧ m'.stage = m.stage ∧ m'.isFitted) ∧
    (∀ c i key next rest, (c, .transforming i (.getState key next) rest) ∈ now.calls →
      c.TransformsGuarded →
      ∃ m, now.session.members[i]? = some m ∧
        (m.stage.contract.fittedState.has key → ∃ v, now.session.getState i key = .ok v)) := by
  have hstart : start.Sound := ⟨hdeclared, fun e he => by rw [hnew] at he; cases he⟩
  have hnow : now.Sound := hstart.later h
  refine ⟨fun m hm => ⟨hnow.declared m hm, Member.isFitted_iff⟩, ?_, ?_⟩
  · intro later hlater i m hm hfitted
    obtain ⟨m', hm', hgrows⟩ := hlater.grows.member hm
    exact ⟨m', hm', hgrows.stage, hgrows.isFitted hfitted⟩
  · intro c i key next rest hmem hguarded
    obtain ⟨m, hm, hfitted⟩ := (hnow.sure _ hmem hguarded).1
    exact ⟨m, hm, Session.Fitted.getState ⟨m, hm, hfitted⟩ hm⟩

/-- A stage that keeps a mean, and reads it when it transforms. -/
def meanStage : Stage where
  label := "Scaler"
  contract := { fittedState := [("mean", .scalar .float)] }
  fit := some fun _ _ => .put "mean" (.whole 3)
  transform data := do
    let _ ← Script.get "mean"
    return data

/-- A session with that stage, new or fitted. -/
def meanSession (state : Entries Value) (calls : List (Nat × Phase)) : Session where
  members := [⟨"scaler", meanStage, state⟩]
  calls := calls

/-- Fits the stage. -/
def meanFit : Call := .fit { settings := { stages := false } } 0 "scaler" .emptyTable .absent

/-- Transforms through the stage. -/
def meanTransform : Call := .transform { settings := { stages := false } } 0 "scaler" .emptyTable

/-- The stage was fitted, and is about to read its mean. -/
def meanRead : Standing where
  session := meanSession [("mean", .whole 3)] [(0, .fit), (0, .transform)]
  calls := [(meanFit, .ended (.ok ())),
    (meanTransform, .transforming 0 (.getState "mean" fun answer => do
      let _ ← Script.ofAnswer answer
      return {}) fun _ => .done ())]

/-- The stage is fitted by the first call, and the second one can read what the first one set. -/
theorem state_guarded_mean :
    Later ⟨meanSession [] [], []⟩ meanRead ∧ ∃ v, meanRead.session.getState 0 "mean" = .ok v := by
  have hfit : Later ⟨meanSession [] [], []⟩
      ⟨meanSession [("mean", .whole 3)] [(0, .fit)], [(meanFit, .ended (.ok ()))]⟩ :=
    later_run [] rfl
  have hread : Later ⟨meanSession [("mean", .whole 3)] [(0, .fit)], [(meanFit, .ended (.ok ()))]⟩
      meanRead :=
    .head (.call _ _ meanTransform) <| .head (.go [_] [] _ (.look _ _)) <|
      .head (.go [_] [] _ (.look _ _)) <| .single (.go [_] [] _ (.enterTransform 0 _ _ _))
  have hlater := hfit.trans hread
  refine ⟨hlater, ?_⟩
  have hall := state_guarded rfl (fun m hm key hkey => ?_) hlater
  · obtain ⟨m, hm, hget⟩ :=
      hall.2.2 meanTransform 0 "mean" _ _ (List.mem_cons_of_mem _ List.mem_cons_self) rfl
    cases hm
    exact hget rfl
  · obtain rfl := List.mem_singleton.1 hm
    cases hkey

end Standing

end SchemaFlow
