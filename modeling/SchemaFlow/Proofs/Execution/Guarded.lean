import SchemaFlow.Proofs.Chain.Verdicts
import SchemaFlow.Proofs.Execution.State

/-!
# Transforms behind the guard

The guard looks at a stage once, before any logic runs. What it finds lasts, since state only grows:
no transform behind an enforced guard is entered that is not that of a fitted stage, whatever else
happens to the session meanwhile.

* `Run.Sure` is what is sure of a run in a session that others may work on, with a rule for each part
  of a run.
* `Run.sure_transformStage` and `Run.sure_transformRow` are the two transforms.
-/

namespace SchemaFlow

variable {α β : Type}

/-! ## 1. What is sure of a run -/

namespace Run

/-- What is sure of a run as long as the session only grows: each transform that it enters is that
    of a fitted member, and its result is as promised. -/
def Sure : Run α → (α → Session → Prop) → Session → Prop
  | done a, post, s => post a s
  | stop _, _, _ => True
  | look next, post, s => ∀ t, s.Grows t → (next t).Sure post t
  | report _ next, post, s => next.Sure post s
  | make _ next, post, s => ∀ v, (next v).Sure post s
  | enterFit _ _ next, post, s => next.Sure post s
  | enterTransform i _ next, post, s => s.Fitted i ∧ ∀ out, (next out).Sure post s

/-- A promise that lasts while the session grows. -/
def Lasting (post : α → Session → Prop) : Prop :=
  ∀ a s t, s.Grows t → post a s → post a t

variable {post : α → Session → Prop} {s t : Session}

theorem Sure.grows {r : Run α} (h : r.Sure post s) (hpost : Lasting post) (hst : s.Grows t) :
    r.Sure post t := by
  induction r with
  | done a => exact hpost a s t hst h
  | stop e => trivial
  | look next ih => exact fun u htu => h u (hst.trans htu)
  | report lines next ih => exact ih h
  | make supply next ih => exact fun v => ih v (h v)
  | enterFit i logic next ih => exact ih h
  | enterTransform i logic next ih => exact ⟨h.1.grows hst, fun out => ih out (h.2 out)⟩

theorem sure_bind {r : Run β} {f : β → Run α} :
    (r >>= f).Sure post s ↔ r.Sure (fun b t => (f b).Sure post t) s := by
  show (r.bind f).Sure post s ↔ _
  induction r generalizing s with
  | done b => exact Iff.rfl
  | stop e => exact Iff.rfl
  | look next ih => exact forall_congr' fun t => imp_congr_right fun _ => ih t
  | report lines next ih => exact ih
  | make supply next ih => exact forall_congr' fun v => ih v
  | enterFit i logic next ih => exact ih
  | enterTransform i logic next ih => exact and_congr_right fun _ => forall_congr' fun out => ih out

theorem sure_lift {x : Except Fault α} : (lift x).Sure post s ↔ ∀ a, x = .ok a → post a s := by
  cases x with
  | ok a =>
      constructor
      · intro h b hb
        cases hb
        exact h
      · exact fun h => h a rfl
  | error e =>
      constructor
      · intro _ b hb
        cases hb
      · exact fun _ => trivial

theorem sure_memberAt {i : Nat} {post : Member → Session → Prop} :
    (memberAt i).Sure post s ↔ ∀ t m, s.Grows t → t.members[i]? = some m → post m t := by
  unfold memberAt
  constructor
  · intro h t m hst hm
    have ht := h t hst
    simp only [hm] at ht
    exact ht
  · intro h t hst
    cases hm : t.members[i]? with
    | none =>
        simp only [hm]
        trivial
    | some m =>
        simp only [hm]
        exact h t m hst hm

/-- An enforced guard lets pass what has no violations. -/
theorem sure_guardWith {options : RunOptions} (henforce : options.enforce = true) {phase : String}
    {found : List Violation} {post : Unit → Session → Prop} (h : found = [] → post () s) :
    (guardWith options phase found).Sure post s := by
  unfold guardWith
  split
  · rename_i hempty
    exact h (List.isEmpty_iff.1 hempty)
  · trivial

theorem sure_tellStage (options : RunOptions) (line : LogLine) {post : Unit → Session → Prop}
    (h : post () s) : (tellStage options line).Sure post s := by
  unfold tellStage
  split
  · exact h
  · exact h

theorem sure_tellSchema (options : RunOptions) (word : String)
    (schema : Graph → Except Fault Schema) {post : Unit → Session → Prop}
    (h : ∀ t, s.Grows t → post () t) : (tellSchema options word schema).Sure post s := by
  unfold tellSchema
  split
  · refine sure_bind.2 fun t hst => sure_bind.2 (sure_lift.2 fun types _ => ?_)
    exact h t hst
  · exact h s (.refl s)

/-! ## 2. Transforms -/

theorem sure_transformLogged {i : Nat} {post : Bag → Session → Prop} (hfitted : s.Fitted i)
    (h : ∀ t out, s.Grows t → post out t) (options : RunOptions) (name : String) (stage : Stage)
    (data : Entries Value) : (transformLogged options i name stage data).Sure post s := by
  unfold transformLogged
  refine sure_bind.2 (sure_tellSchema options _ _ fun t hst => sure_bind.2 ?_)
  refine ⟨hfitted.grows hst, fun out => sure_bind.2 (sure_tellStage options _ (sure_bind.2 ?_))⟩
  exact sure_tellSchema options _ _ fun u htu => h u out (hst.trans htu)

/-- A row of fitted members transforms. -/
theorem sure_transformFrom (options : RunOptions) (count : Nat) {post : Bag → Session → Prop} :
    ∀ {ms : List (Nat × Member)} {s : Session} (k : Nat) (data : Bag),
      (∀ e ∈ ms, s.Fitted e.1) → (∀ t out, s.Grows t → post out t) →
      (transformFrom options count k ms data).Sure post s
  | [], s, _, data, _, h => h s data (.refl s)
  | (i, m) :: ms, s, k, data, hfitted, h => by
      obtain ⟨hi, hfitted⟩ := List.forall_mem_cons.1 hfitted
      unfold transformFrom
      refine sure_bind.2 (sure_tellStage options _ (sure_bind.2 ?_))
      refine sure_transformLogged hi (fun t out hst => ?_) options m.name m.stage data.entries
      exact sure_transformFrom options count (k + 1) out (fun e he => (hfitted e he).grows hst)
        fun u last htu => h u last (hst.trans htu)

/-- Nothing is missing of a stage that the guard lets pass. -/
theorem isFitted_of_fitMissing {m : Member} {stage : Option String} {fitted : Bool}
    (h : m.stage.contract.fitMissing stage fitted = []) (hfitted : fitted = true → m.isFitted) :
    m.isFitted := by
  unfold Contract.fitMissing Contract.needsFit at h
  cases hcounts : fitted with
  | true => exact hfitted hcounts
  | false =>
      -- only a stage without state need not be fitted
      cases hstate : m.stage.contract.fittedState with
      | nil =>
          refine Member.isFitted_iff.2 fun key hkey => ?_
          rw [hstate] at hkey
          cases hkey
      | cons e rest =>
          rw [hcounts, hstate] at h
          cases h

/-- **An enforced transform of one stage enters it only when it is fitted.** -/
theorem sure_transformStage {options : RunOptions} (henforce : options.enforce = true) (i : Nat)
    (name : String) (data : Value) (s : Session) :
    (transformStage options i name data).Sure (fun _ _ => True) s := by
  unfold transformStage
  refine sure_bind.2 (sure_memberAt.2 fun t m _ hm => sure_bind.2 fun u htu => ?_)
  refine sure_bind.2 (sure_lift.2 fun table _ => sure_bind.2 (sure_lift.2 fun found hfound => ?_))
  refine sure_bind.2 (sure_guardWith henforce fun hnone => ?_)
  have hfitted : m.isFitted := by
    unfold Contract.checkTransform at hfound
    obtain ⟨input, _, hall⟩ := Step.bind_eq_ok.1 hfound
    rw [hnone] at hall
    have hmissing := (List.append_eq_nil_iff.1 (Except.ok.inj hall)).2
    exact isFitted_of_fitMissing hmissing fun h => h
  have hu : u.Fitted i := Session.Fitted.grows ⟨m, hm, hfitted⟩ htu
  refine sure_bind.2 (sure_lift.2 fun entries _ => ?_)
  exact sure_transformLogged hu (fun _ _ _ => trivial) options name m.stage entries

/-! ## 3. Rows -/

/-- The members of a row are read one after the other; one that was fitted then is fitted still. -/
theorem sure_membersOf {post : List (Nat × Member) → Session → Prop} :
    ∀ {row : Row} {s : Session},
      (∀ t ms, s.Grows t → (∀ e ∈ ms, e.2.isFitted → t.Fitted e.1) → post ms t) →
      (membersOf row).Sure post s
  | [], s, h => h s [] (.refl s) fun _ he => absurd he List.not_mem_nil
  | (name, i) :: row, s, h => by
      unfold membersOf
      refine sure_bind.2 (sure_memberAt.2 fun t m hst hm => sure_bind.2 ?_)
      refine sure_membersOf fun u ms htu hms => ?_
      refine h u _ (hst.trans htu) (List.forall_mem_cons.2 ⟨fun hfitted => ?_, hms⟩)
      exact Session.Fitted.grows ⟨m, hm, hfitted⟩ htu

/-- The links of a row's chain. -/
theorem links_of_chainOf : ∀ {ms : List (Nat × Member)} {index : Nat} {seen : List String}
    {links : List (String × Link)},
    Chain.checkNames index seen
      (ms.map fun e => (Value.text e.2.name, Link.stage e.2.stage.contract)) = .ok links →
      links = stagesOf (ms.map fun e => (e.2.name, e.2.stage.contract))
  | [], _, _, _, h => by
      cases h
      rfl
  | (i, m) :: ms, index, seen, links, h => by
      rw [List.map_cons, Chain.checkNames] at h
      obtain ⟨name, hname, h⟩ := Step.bind_eq_ok.1 h
      obtain ⟨rest, hrest, h⟩ := Step.bind_eq_ok.1 h
      cases h
      have hsame : name = m.name := by
        unfold Chain.checkName at hname
        grind [refuse]
      rw [hsame, links_of_chainOf hrest]
      rfl

/-- The chain of a row has the members' contracts, in their order and under their names. -/
theorem eq_stagesOf_of_ofLinks {ms : List (Nat × Member)} {c : Chain}
    (hc : Chain.ofLinks (ms.map fun e => (Value.text e.2.name, Link.stage e.2.stage.contract)) =
      .ok c) :
    c = ⟨stagesOf (ms.map fun e => (e.2.name, e.2.stage.contract))⟩ ∧ Entries.Distinct c.links := by
  unfold Chain.ofLinks at hc
  obtain ⟨links, hlinks, hc⟩ := Step.bind_eq_ok.1 hc
  split at hc
  · cases hc
  obtain ⟨_, _, hc⟩ := Step.bind_eq_ok.1 hc
  cases hc
  have hnames : Entries.Distinct links := (checkNames_ok hlinks).1
  obtain rfl := links_of_chainOf hlinks
  exact ⟨rfl, hnames⟩

/-- **A chain of a row that the guard lets pass has all its members fitted.** -/
theorem isFitted_of_checkTransform {ms : List (Nat × Member)} {c : Chain}
    (hc : Chain.ofLinks (ms.map fun e => (Value.text e.2.name, Link.stage e.2.stage.contract)) =
      .ok c) {g : Graph} {table : Entries Value}
    (h : c.checkTransform g table (fittedNames ms) = .ok []) : ∀ e ∈ ms, e.2.isFitted := by
  obtain ⟨rfl, hnames⟩ := eq_stagesOf_of_ofLinks hc
  obtain ⟨founds, last, hwalk, hnone⟩ := Chain.walk_of_pass h
  intro e he
  -- nothing is found about the state of any member
  have hmissing :
      Pass.unfitted ⟨.transform, some (fittedNames ms)⟩ e.2.name e.2.stage.contract = [] := by
    have hall := hwalk.filter_unfitted
    rw [← hnone, List.filter_nil] at hall
    refine List.flatMap_eq_nil_iff.1 hall.symm (e.2.name, e.2.stage.contract) ?_
    rw [Chain.leaves, linkLeaves_stagesOf]
    exact List.mem_map.2 ⟨e, he, rfl⟩
  refine isFitted_of_fitMissing hmissing fun hcounts => ?_
  -- the names of a row are distinct, so the fitted member of this name is this one
  obtain ⟨e', he', hname⟩ := List.mem_map.1 (List.contains_iff_mem.1 hcounts)
  obtain ⟨hmem, hfitted⟩ := List.mem_filter.1 he'
  have hnodup : (ms.map fun e => e.2.name).Nodup := by
    simpa [Entries.Distinct, Entries.names, stagesOf, Function.comp_def] using hnames
  obtain rfl := List.inj_on_of_nodup_map hnodup hmem he hname
  exact hfitted

/-- **An enforced transform of a row enters its members only when all are fitted.** -/
theorem sure_transformRow {options : RunOptions} (henforce : options.enforce = true) (row : Row)
    (data : Value) (s : Session) : (transformRow options row data).Sure (fun _ _ => True) s := by
  unfold transformRow
  refine sure_bind.2 (sure_membersOf fun t ms _ hms => ?_)
  refine sure_bind.2 (sure_lift.2 fun c hc => sure_bind.2 fun u htu => ?_)
  refine sure_bind.2 (sure_lift.2 fun table _ => sure_bind.2 (sure_lift.2 fun found hfound => ?_))
  refine sure_bind.2 (sure_guardWith henforce fun hnone => ?_)
  rw [hnone] at hfound
  have hfitted : ∀ e ∈ ms, e.2.isFitted := isFitted_of_checkTransform hc hfound
  have hu : ∀ e ∈ ms, u.Fitted e.1 := fun e he => (hms e he (hfitted e he)).grows htu
  refine sure_bind.2 (sure_lift.2 fun entries _ => ?_)
  exact sure_transformFrom options ms.length 0 _ hu fun _ _ _ => trivial

end Run

end SchemaFlow
