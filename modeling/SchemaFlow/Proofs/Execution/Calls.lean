import SchemaFlow.Proofs.Execution.FitInput

/-!
# The calls of a run

A run enters the logic of one member after the other, and ends with the first that fails.
`Run.entered` lists what it enters, each call with the session in which it is made.

* `Run.calls_run`: these are the calls that a session records.
* `Run.member_run`: a member that no call enters stays as it is.
* `Run.Leads`: the calls of a run are those of what it comes down to.
-/

namespace SchemaFlow

variable {α β γ : Type}

/-! ## 1. Calls -/

/-- Logic that is entered: of the member at a position, in a session. -/
inductive Entered
  | fit (i : Nat) (logic : Script Unit) (s : Session)
  | transform (i : Nat) (logic : Script Bag) (s : Session)

/-- The error that something ended with. -/
def errorOf? : Except RunError α → Option RunError
  | .ok _ => none
  | .error e => some e

namespace Entered

/-- A call as a session records it. -/
def call : Entered → Nat × Phase
  | fit i _ _ => (i, .fit)
  | transform i _ _ => (i, .transform)

/-- The error that the logic threw. -/
def error? : Entered → Option RunError
  | fit i logic s => errorOf? (logic.run i s).1
  | transform i logic s => errorOf? (logic.run i s).1

/-- The data behind a call: what a transform returned, and else what there was before. -/
def passes (data : Bag) : Entered → Bag
  | fit .. => data
  | transform i logic s =>
    match (logic.run i s).1 with
    | .ok out => out
    | .error _ => data

end Entered

/-- The calls that a run makes in a session, up to the one that fails. -/
def Run.entered : Run α → Session → List Entered
  | done _, _ => []
  | stop _, _ => []
  | look next, s => (next s).entered s
  | report lines next, s => next.entered (s.tell lines)
  | make supply next, s =>
    match supply s.graph with
    | .ok (g, v) => (next v).entered { s with graph := g }
    | .error _ => []
  | enterFit i logic next, s =>
    .fit i logic (s.record i .fit) ::
      match logic.run i (s.record i .fit) with
      | (.ok (), t) => next.entered t
      | (.error _, _) => []
  | enterTransform i logic next, s =>
    .transform i logic (s.record i .transform) ::
      match logic.run i (s.record i .transform) with
      | (.ok out, t) => (next out).entered t
      | (.error _, _) => []

/-! ## 2. What logic leaves alone -/

/-- Sessions that differ in their containers and in the state of one member at most. -/
structure Session.Touched (i : Nat) (s t : Session) : Prop where
  calls : t.calls = s.calls
  member : ∀ j, j ≠ i → t.members[j]? = s.members[j]?

theorem Session.Touched.trans {i : Nat} {s t u : Session} (h : s.Touched i t)
    (h' : t.Touched i u) : s.Touched i u :=
  ⟨h'.calls.trans h.calls, fun j hj => (h'.member j hj).trans (h.member j hj)⟩

theorem Session.touched_setState (s : Session) (i : Nat) (key : String) (v : Value) :
    s.Touched i (s.setState i key v).2 := by
  unfold setState
  cases s.members[i]? with
  | none => exact ⟨rfl, fun _ _ => rfl⟩
  | some m =>
      dsimp only
      split
      · exact ⟨rfl, fun j hj => List.getElem?_set_ne hj.symm⟩
      · exact ⟨rfl, fun _ _ => rfl⟩

/-- **The logic of a member makes no calls and changes no other member.** -/
theorem Script.touched_run (i : Nat) (logic : Script α) (s : Session) :
    s.Touched i (logic.run i s).2 := by
  induction logic generalizing s with
  | done a => exact ⟨rfl, fun _ _ => rfl⟩
  | fail e => exact ⟨rfl, fun _ _ => rfl⟩
  | setState key v next ih => exact (s.touched_setState i key v).trans (ih _ _)
  | getState key next ih => exact ih _ s
  | look next ih => exact ih _ s
  | make supply next ih =>
      rw [run]
      split
      · rename_i g v _
        have hgraph : s.Touched i { s with graph := g } := ⟨rfl, fun _ _ => rfl⟩
        exact hgraph.trans (ih v _)
      · exact ⟨rfl, fun _ _ => rfl⟩

namespace Run

/-! ## 3. What a run leaves behind -/

/-- **The calls that a session records of a run are those that it makes.** -/
theorem calls_run (r : Run α) (s : Session) :
    (r.run s).2.calls = s.calls ++ (r.entered s).map Entered.call := by
  induction r generalizing s with
  | done a => exact (List.append_nil _).symm
  | stop e => exact (List.append_nil _).symm
  | look next ih => exact ih s s
  | report lines next ih => exact ih (s.tell lines)
  | make supply next ih =>
      simp only [run, entered]
      cases supply s.graph with
      | ok made => exact ih made.2 _
      | error e => exact (List.append_nil _).symm
  | enterFit i logic next ih =>
      have htouched := logic.touched_run i (s.record i .fit)
      simp only [run, entered]
      rcases hlogic : logic.run i (s.record i .fit) with ⟨e | _, t⟩
      all_goals
        rw [hlogic] at htouched
        have hcalls : t.calls = s.calls ++ [(i, .fit)] := htouched.calls
      · exact hcalls
      · simp only [ih, hcalls, List.append_assoc]
        rfl
  | enterTransform i logic next ih =>
      have htouched := logic.touched_run i (s.record i .transform)
      simp only [run, entered]
      rcases hlogic : logic.run i (s.record i .transform) with ⟨e | out, t⟩
      all_goals
        rw [hlogic] at htouched
        have hcalls : t.calls = s.calls ++ [(i, .transform)] := htouched.calls
      · exact hcalls
      · simp only [ih, hcalls, List.append_assoc]
        rfl

/-- **A member that no call of a run enters stays as it is.** -/
theorem member_run {j : Nat} (r : Run α) {s : Session} (h : ∀ e ∈ r.entered s, e.call.1 ≠ j) :
    (r.run s).2.members[j]? = s.members[j]? := by
  induction r generalizing s with
  | done a => rfl
  | stop e => rfl
  | look next ih => exact ih s h
  | report lines next ih => exact ih h
  | make supply next ih =>
      simp only [run, entered] at h ⊢
      cases hmade : supply s.graph with
      | ok made =>
          rw [hmade] at h
          exact ih made.2 h
      | error e => rfl
  | enterFit i logic next ih =>
      simp only [run, entered] at h ⊢
      obtain ⟨hi, hnext⟩ := List.forall_mem_cons.1 h
      have hmember := (logic.touched_run i (s.record i .fit)).member j (Ne.symm hi)
      rcases hlogic : logic.run i (s.record i .fit) with ⟨e | _, t⟩
      all_goals rw [hlogic] at hmember
      · exact hmember
      · rw [hlogic] at hnext
        exact (ih hnext).trans hmember
  | enterTransform i logic next ih =>
      simp only [run, entered] at h ⊢
      obtain ⟨hi, hnext⟩ := List.forall_mem_cons.1 h
      have hmember := (logic.touched_run i (s.record i .transform)).member j (Ne.symm hi)
      rcases hlogic : logic.run i (s.record i .transform) with ⟨e | out, t⟩
      all_goals rw [hlogic] at hmember
      · exact hmember
      · rw [hlogic] at hnext
        exact (ih out hnext).trans hmember

/-! ## 4. Parts of a run -/

theorem bind_assoc (r : Run β) (f : β → Run γ) (k : γ → Run α) :
    (r >>= f) >>= k = r >>= fun b => f b >>= k := by
  show (r.bind f).bind k = r.bind fun b => (f b).bind k
  induction r with
  | done b => rfl
  | stop e => rfl
  | look next ih => exact congrArg look (funext ih)
  | report lines next ih => exact congrArg (report lines) ih
  | make supply next ih => exact congrArg (make supply) (funext ih)
  | enterFit i logic next ih => exact congrArg (enterFit i logic) ih
  | enterTransform i logic next ih => exact congrArg (enterTransform i logic) (funext ih)

/-- The calls of a run are those of its first part, and then those of the rest. -/
theorem entered_bind (r : Run β) (f : β → Run α) (s : Session) :
    (r >>= f).entered s = r.entered s ++ match r.run s with
      | (.ok b, t) => (f b).entered t
      | (.error _, _) => [] := by
  show (r.bind f).entered s = _
  induction r generalizing s with
  | done b => rfl
  | stop e => rfl
  | look next ih => exact ih s s
  | report lines next ih => exact ih (s.tell lines)
  | make supply next ih =>
      simp only [bind, entered, run]
      cases hmade : supply s.graph with
      | ok made => exact ih made.2 _
      | error e => rfl
  | enterFit i logic next ih =>
      simp only [bind, entered, run]
      rcases logic.run i (s.record i .fit) with ⟨e | _, t⟩
      · rfl
      · simp only [ih, List.cons_append]
  | enterTransform i logic next ih =>
      simp only [bind, entered, run]
      rcases logic.run i (s.record i .transform) with ⟨e | out, t⟩
      · rfl
      · simp only [ih, List.cons_append]

/-- A run after which a session records the same calls has made none. -/
theorem entered_eq_nil {r : Run α} {s : Session} (h : (r.run s).2.calls = s.calls) :
    r.entered s = [] := by
  have hcalls := calls_run r s
  rw [h] at hcalls
  exact List.map_eq_nil_iff.1 (List.self_eq_append_right.1 hcalls)

/-- A run in a session comes down to another run in another one: it ends as that one does, and makes
    the same calls. -/
structure Leads (r : Run α) (s : Session) (r' : Run α) (t : Session) : Prop where
  run_eq : r.run s = r'.run t
  entered_eq : r.entered s = r'.entered t

variable {r : Run β} {f : β → Run α} {s t : Session}

theorem Leads.trans {r r' r'' : Run α} {u : Session} (h : Leads r s r' t)
    (h' : Leads r' t r'' u) : Leads r s r'' u :=
  ⟨h.run_eq.trans h'.run_eq, h.entered_eq.trans h'.entered_eq⟩

/-- A first part that makes no calls leads to the rest. -/
theorem leads_bind {b : β} (h : r.run s = (.ok b, t)) (hcalls : t.calls = s.calls) :
    Leads (r >>= f) s (f b) t where
  run_eq := by rw [run_bind, h]
  entered_eq := by
    have hnone : r.entered s = [] := entered_eq_nil (by rw [h, hcalls])
    rw [entered_bind, h, hnone, List.nil_append]

/-- A first part that fails and makes no calls is all there is. -/
theorem leads_stop {e : RunError} (h : r.run s = (.error e, t)) (hcalls : t.calls = s.calls) :
    Leads (r >>= f) s (stop e) t where
  run_eq := by
    rw [run_bind, h]
    rfl
  entered_eq := by
    have hnone : r.entered s = [] := entered_eq_nil (by rw [h, hcalls])
    rw [entered_bind, h, hnone, List.nil_append]
    rfl

theorem leads_graph (f : Graph → Run α) (s : Session) : Leads (graph >>= f) s (f s.graph) s :=
  leads_bind rfl rfl

theorem leads_tell (lines : List LogLine) (f : Unit → Run α) (s : Session) :
    Leads (tell lines >>= f) s (f ()) (s.tell lines) :=
  leads_bind rfl rfl

theorem leads_lift {x : Except Fault β} {b : β} (h : x = .ok b) :
    Leads (lift x >>= f) s (f b) s := by
  subst h
  exact leads_bind rfl rfl

theorem leads_lift_error {x : Except Fault β} {fault : Fault} (h : x = .error fault) :
    Leads (lift x >>= f) s (stop (.fault fault)) s := by
  subst h
  exact leads_stop rfl rfl

end Run

end SchemaFlow
