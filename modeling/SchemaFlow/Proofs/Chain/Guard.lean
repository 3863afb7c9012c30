import SchemaFlow.Proofs.Chain.Approval
import SchemaFlow.Proofs.Observation.Unhinted

/-!
# What the check of a payload promises of runs

A chain that is checked against a payload is checked against everything that stages which keep to
their contracts make of it (`Chain.checkTransform_sound`). The table of the check mixes values and
types: under a name stands the value that the payload came with, until a stage produces the name, and
from then on a type that the value at hand has to back (`Stands`).

One step goes wrong without a proviso. A modification of a value turns the value into what is seen of
it when nothing is expected of its fields, and of a list this is what the first element is. The fields
that the modification keeps have to be uniform (`UniformAlong`).

* `Follows.backed_value`: a modified value backs what a modification leaves of the value.
* `Chain.checkTransform_sound`: what is found clean of a payload stays clean along a run.
* `Chain.not_guarded`: without the proviso this is false, because a list can hold what its first
  element does not show.
-/

namespace SchemaFlow

/-! ## 1. A modification of a value -/

variable {g : Graph}

/-- The fields of a value that a modification does not mention are uniform. -/
def UniformFields (g : Graph) (fields : Produced) (v : Value) : Prop :=
  ∀ name, fields.find? name = none → (g.fieldAt v name).isAbsent = false →
    g.Uniform (g.fieldAt v name)

/-- What a production makes of a plain object that it takes for a record with the fields `fs`, each
    seen as on its own. -/
theorem Follows.backed_plain (hg : g.NamesDistinct) {fields : Produced} {old new : Value}
    (h : Follows g (.modify fields) old new) (hp : (Production.modify fields).WellFormed)
    (hold : g.Tame old) (hnew : g.Tame new) (huniform : UniformFields g fields old) {fs : Schema}
    (hfs : ∀ name, ProperName name → ∀ t, fs.find? name = some t →
      (g.fieldAt old name).isAbsent = false ∧ g.observe none (g.fieldAt old name) = .ok t) :
    Backed g (some (.record (Production.applyFields fields fs) none)) new := by
  cases h with
  | modify hrecord hkept hfollows =>
      refine backed_applyFields hg hp.fields hnew hrecord (fun name hname hmention t ht => ?_)
        (fun name q hmention => ?_)
      · obtain ⟨hpresent, hseen⟩ := hfs name hname t ht
        rw [hkept name hmention hpresent]
        exact (huniform name hmention hpresent t hseen).backed (hold.fieldAt name).observable t rfl
      · obtain ⟨hname, hqw⟩ := hp.fields.find? hmention
        -- the production of a field finds no record there, because nothing is expected of the field
        have hnone : q.apply (fs.find? name) = q.apply none := by
          refine Production.apply_of_not_record (fun rs ancestor hrs => ?_) q
          obtain ⟨_, hseen⟩ := hfs name hname _ hrs
          exact unhinted_ne_record (hold.fieldAt name).typeless.ne_type rs ancestor hseen
        rw [hnone]
        exact (hfollows name q hmention).backed hg hqw (hold.fieldAt name) (hnew.fieldAt name)
          (backed_none g _)

/-- **What follows a production backs the type that the production gives**, also where the production
    looks at the value itself. -/
theorem Follows.backed_value (hg : g.NamesDistinct) {p : Production} {old new : Value}
    (h : Follows g p old new) (hp : p.WellFormed) (hold : g.Tame old) (hnew : g.Tame new)
    (huniform : ∀ fields, p = .modify fields → UniformFields g fields old) :
    Backed g (p.apply (g.standsFor old)) new := by
  by_cases hedit : ∃ fields fs ancestor,
      p = .modify fields ∧ g.standsFor old = some (.record fs ancestor)
  · obtain ⟨fields, fs, ancestor, rfl, hstands⟩ := hedit
    have hseen := g.observe_of_standsFor hstands
    have hrecord : g.looksRecord old = true := looksRecord_iff.2 ⟨fs, ancestor, hseen⟩
    obtain ⟨out, hout, hfields⟩ := observe_record hold hrecord [] none
    obtain ⟨rfl, -⟩ := TypeSpec.record.inj (Except.ok.inj (hseen.symm.trans hout))
    rw [hstands, Production.apply]
    exact h.backed_plain hg hp hold hnew (huniform fields rfl) fun name hname t ht =>
      find?_unhinted hg hold hrecord hfields hname.2 ht
  · have hnone : p.apply (g.standsFor old) = p.apply none := by
      by_cases hmodify : ∃ fields, p = .modify fields
      · obtain ⟨fields, rfl⟩ := hmodify
        exact Production.apply_of_not_record
          (fun fs ancestor hstands => hedit ⟨fields, fs, ancestor, rfl, hstands⟩) _
      · exact Production.apply_eq_of_not_modify (fun fields e => hmodify ⟨fields, e⟩) _ _
    rw [hnone]
    exact h.backed hg hp hold hnew (backed_none g old)

/-! ## 2. The table of the check -/

/-- What the table of the check has for a value: the value itself, as long as no stage has produced
    its name (`ahead` is the production that comes first), or a type that the value backs. -/
inductive Stands (g : Graph) (ahead : Option Production) (v : Value) : Value → Prop
  | value : g.Tame v → (∀ fields, ahead = some (.modify fields) → UniformFields g fields v) →
      Stands g ahead v v
  | type {t : TypeSpec} : Backed g (some t) v → Stands g ahead v (.type t)

/-- What the table of the check has under a name stands for what the payload has there. -/
def Guards (g : Graph) (ls : List (String × Contract)) (working data : Entries Value) : Prop :=
  ∀ key w, working.find? key = some w → Stands g (firstProduction ls key) (valueAt data key) w

/-- Where the first production of a name is a modification, the fields of the value that it does not
    mention are uniform. -/
def UniformAlong (g : Graph) (ls : List (String × Contract)) (data : Entries Value) : Prop :=
  ∀ key fields, firstProduction ls key = some (.modify fields) →
    UniformFields g fields (valueAt data key)

/-- At the start the table of the check is the payload. -/
theorem UniformAlong.guards {ls : List (String × Contract)} {data : Entries Value}
    (h : UniformAlong g ls data) (hdata : ∀ e ∈ data, g.Tame e.2) : Guards g ls data data := by
  intro key w hw
  obtain rfl := valueAt_of_find? hw
  exact .value (Graph.tame_valueAt hdata key) (h key)

namespace Guards

variable {ls : List (String × Contract)} {working data : Entries Value}

theorem readable (h : Guards g ls working data) : g.ReadableTable working := by
  intro key w hw
  cases h key w hw with
  | value htame _ => exact htame.observable _
  | type _ => exact g.readable_type _

/-- A demand that is met in the table of the check is met in the payload. -/
theorem conforms (h : Guards g ls working data) {key : String} {demanded : TypeSpec}
    (hwf : demanded.WellFormed) (hmet : g.Conforms demanded (valueAt working key)) :
    g.Conforms demanded (valueAt data key) := by
  cases hw : working.find? key with
  | none =>
      rw [valueAt_of_find?_none hw] at hmet
      cases hmet.1
  | some w =>
      rw [valueAt_of_find? hw] at hmet
      cases h key w hw with
      | value _ _ => exact hmet
      | type hbacked => exact hbacked _ rfl demanded hwf (Graph.conforms_type_iff.1 hmet)

/-- What follows the production of a stage backs the type that the check makes of the name. -/
theorem followed (hg : g.NamesDistinct) {l : String × Contract} (h : Guards g (l :: ls) working data)
    {key : String} {p : Production} (hp : l.2.produced.find? key = some p)
    (hl : l.2.produced.WellFormed) {new : Value} (hfollows : Follows g p (valueAt data key) new)
    (hdata : g.Tame (valueAt data key)) (hnew : g.Tame new) :
    Backed g (p.apply (g.standsFor (valueAt working key))) new := by
  have hpw := (hl.find? hp).2
  cases hw : working.find? key with
  | none =>
      rw [valueAt_of_find?_none hw]
      exact hfollows.backed hg hpw hdata hnew (backed_none g _)
  | some w =>
      have hstands := h key w hw
      rw [firstProduction_cons, hp, Option.some_or] at hstands
      rw [valueAt_of_find? hw]
      cases hstands with
      | value _ huniform =>
          exact hfollows.backed_value hg hpw hdata hnew fun fields e => huniform fields (e ▸ rfl)
      | type hbacked =>
          rw [g.standsFor_type]
          exact hfollows.backed hg hpw hdata hnew hbacked

/-- **A faithful stage keeps the invariant.** -/
theorem effectOn (hg : g.NamesDistinct) {l : String × Contract} (h : Guards g (l :: ls) working data)
    (hl : l.2.produced.WellFormed) {new working' : Entries Value}
    (hstep : Faithful g l.2.produced data new) (hdata : ∀ key, g.Tame (valueAt data key))
    (hnew : ∀ key, g.Tame (valueAt new key))
    (hworking : SchemaFlow.effectOn g l.2.produced working = .ok working') :
    Guards g ls working' new := by
  intro key w hw
  rw [find?_effectOn hl.distinct h.readable hworking key] at hw
  cases hp : l.2.produced.find? key with
  | none =>
      rw [hp] at hw
      have hstands := h key w hw
      rw [firstProduction_cons, hp, Option.none_or] at hstands
      rwa [hstep.kept key hp]
  | some p =>
      rw [hp] at hw
      obtain ⟨t, ht, rfl⟩ := Option.map_eq_some_iff.1 hw
      have hbacked := h.followed hg hp hl (hstep.followed key p hp) (hdata key) (hnew key)
      rw [ht] at hbacked
      exact .type hbacked

end Guards

/-! ## 3. Runs -/

theorem Guards.runInvariant (hg : g.NamesDistinct) : RunInvariant g (Guards g) where
  kept hl h hstep hdata hnew hworking := h.effectOn hg hl.produced hstep hdata hnew hworking
  meets h _ _ _ hwf := h.conforms hwf

/-- **The check of a payload is sound.** Where it finds nothing wrong with a chain, every stage
    counting as fitted, no stage finds anything wrong in a run that starts from the payload and whose
    stages keep to their contracts, provided that the fields are uniform that the first modification
    of a value does not mention. The leaves of a flat chain are its links. -/
theorem Chain.checkTransform_sound (hg : g.NamesDistinct) {chain : Chain} (hchain : chain.WellFormed)
    {d : Nat → Entries Value}
    (hclean : chain.checkTransform g (d 0) (chain.leaves.map Prod.fst) = .ok [])
    (hrun : FaithfulRun g chain.leaves d) (huniform : UniformAlong g chain.leaves (d 0)) :
    ∀ (i : Nat) (stage : String) (c : Contract), chain.leaves[i]? = some (stage, c) →
      ∀ label, c.checkTransform g label (d i) true = .ok [] := by
  obtain ⟨founds, last, hwalk, hfounds⟩ := Chain.walk_of_pass hclean
  have hls : ∀ l ∈ chain.leaves, l.2.WellFormed := fun _ hl => hchain.of_mem_leaves hl
  exact hwalk.sound_of_invariant (Guards.runInvariant hg) rfl hls hfounds.symm hrun
    (huniform.guards (hrun.tame 0 (Nat.zero_le _)))

/-! ## 4. A run of the row with a list in it -/

/-- The row comes in, is marked, and is read. -/
def listRun : Nat → Entries Value
  | 0 => listPayload
  | _ + 1 => [("row", .node 2)]

theorem Graph.listSample_distinct (items : List Value) : (listSample items).NamesDistinct := by
  rintro (_ | _ | _ | id) lineage entries h
  · cases h
  · cases h
    decide
  · cases h
    decide
  · cases h

section ListSample

variable {items : List Value} (hitems : ∀ w ∈ items, Graph.Atom w)

include hitems

theorem Graph.listSample_marked :
    (listSample items).Sheet 2 [("xs", .node 0), ("seen", .bool true)] where
  node := rfl
  undescribed := rfl
  proper := by simp [ProperName, ancestorName]
  cells := by
    simp only [List.forall_mem_cons]
    exact ⟨.list rfl hitems, .atom ⟨rfl, by simp, _, rfl⟩, fun _ h => absurd h List.not_mem_nil⟩

/-- The marked row is seen with what is seen in its list. -/
theorem Graph.listSample_marked_observe {fs : Schema} {e : TypeSpec}
    (he : listType (fun _ w => leafType w) ((Hint.table fs none).part "xs") items =
      .ok (.sequence e)) :
    (listSample items).observe (some (.record fs none)) (.node 2) =
      .ok (.record [("xs", .sequence e), ("seen", .scalar .boolean)] none) := by
  have hxs : (listSample items).observeAt [] [] ((Hint.table fs none).part "xs") (.node 0) =
      .ok (.sequence e) := (observeAt_atoms rfl hitems _).trans he
  have hseen : (listSample items).observeAt [] [] ((Hint.table fs none).part "seen") (.bool true) =
      .ok (.scalar .boolean) := observeAt_leaf _ _ _ _ rfl
  refine ((listSample_marked hitems).observeAt _).trans ?_
  have hfields : observeFields (fun hint w => (listSample items).observeAt [] [] hint w)
      (Hint.table fs none) {} [("xs", .node 0), ("seen", .bool true)] =
      .ok { entries := [("xs", .sequence e), ("seen", .scalar .boolean)] } := by
    rw [observeFields_cons rfl hxs rfl, observeFields_cons rfl hseen rfl]
    rfl
  have hsort : (Hint.ofType? (some (.record fs none))).sort? = some "record" := rfl
  rw [tableType, if_pos hsort]
  exact (Step.bind_of_ok hfields _).trans rfl

theorem listRun_marked :
    Faithful (Graph.listSample items) Contract.stamping.produced (listRun 0) (listRun 1) where
  kept key hkey := by
    simp only [Contract.stamping, Entries.find?_cons] at hkey
    simp only [listRun, listPayload, valueAt, Entries.find?_cons]
    grind
  followed key p hkey := by
    have hmem := Entries.mem_of_find? hkey
    simp only [Contract.stamping, List.mem_singleton, Prod.mk.injEq] at hmem
    obtain ⟨rfl, rfl⟩ := hmem
    have hold : valueAt (listRun 0) "row" = .node 1 := rfl
    have hnew : valueAt (listRun 1) "row" = .node 2 := rfl
    rw [hold, hnew]
    refine .modify (Graph.listSample_marked hitems).looksRecord (fun name hname hpresent => ?_)
      (fun name p hname => ?_)
    · rw [(Graph.listSample_sheet hitems).fieldAt] at hpresent ⊢
      rw [(Graph.listSample_marked hitems).fieldAt]
      simp only [Entries.find?_cons] at hname
      simp only [valueAt, Entries.find?_cons] at hpresent ⊢
      grind [Value.isAbsent]
    · have hmem := Entries.mem_of_find? hname
      simp only [List.mem_singleton, Prod.mk.injEq] at hmem
      obtain ⟨rfl, rfl⟩ := hmem
      rw [(Graph.listSample_marked hitems).fieldAt]
      exact .set (Graph.conforms_leaf rfl rfl rfl rfl)

theorem listRun_faithful :
    FaithfulRun (Graph.listSample items) Chain.listSample.leaves listRun where
  tame i _ := by
    cases i with
    | zero => exact Graph.listSample_tame hitems
    | succ i =>
        simp only [listRun, List.forall_mem_singleton]
        exact (Graph.listSample_marked hitems).tame
  faithful i stage c hi := by
    match i, hi with
    | 0, hi =>
        obtain ⟨rfl, rfl⟩ := Prod.mk.inj (Option.some.inj hi)
        exact listRun_marked hitems
    | 1, hi =>
        obtain ⟨rfl, rfl⟩ := Prod.mk.inj (Option.some.inj hi)
        exact ⟨fun _ _ => rfl, fun _ _ h => by cases h⟩
    | i + 2, hi => cases hi

/-- The check of the sample finds nothing wrong with a list whose first item is a text. -/
theorem Chain.listSample_guarded
    (hfirst : listType (fun _ w => leafType w) .none items = .ok (.sequence (.scalar .string))) :
    listSample.checkTransform (Graph.listSample items) (listRun 0)
      (listSample.leaves.map Prod.fst) = .ok [] := by
  refine Chain.listSample_checked hitems hfirst ?_
  simp only [listSchema, checkSchema, checkKey, Entries.find?, if_true, Option.getD_some,
    Graph.observe_type]
  rfl

end ListSample

/-- The sample on a row whose list holds a text. -/
theorem Chain.checkTransform_sound_text :
    listSample.checkTransform (Graph.listSample [.text "a"]) (listRun 0)
        (listSample.leaves.map Prod.fst) = .ok [] ∧
      FaithfulRun (Graph.listSample [.text "a"]) listSample.leaves listRun ∧
      UniformAlong (Graph.listSample [.text "a"]) listSample.leaves (listRun 0) ∧
      Contract.stamping.checkTransform (Graph.listSample [.text "a"]) (some "stamp") (listRun 0)
        true = .ok [] ∧
      Contract.joining.checkTransform (Graph.listSample [.text "a"]) (some "join") (listRun 1)
        true = .ok [] := by
  have hitems : ∀ w ∈ [Value.text "a"], Graph.Atom w := by
    simp only [List.forall_mem_singleton]
    exact ⟨rfl, by simp, _, rfl⟩
  have hlist : (Graph.listSample [.text "a"]).Uniform (.node 0) := by
    intro t ht
    obtain rfl : TypeSpec.sequence (.scalar .string) = t :=
      Except.ok.inj (((observeAt_atoms rfl hitems _).trans rfl).symm.trans ht)
    exact ⟨rfl, _, (observeAt_atoms rfl hitems _).trans rfl, rfl⟩
  have huniform : UniformAlong (Graph.listSample [.text "a"]) listSample.leaves (listRun 0) := by
    intro key fields hfirst name _ hpresent
    obtain rfl := Chain.listSample_edits hfirst
    have hrow : valueAt (listRun 0) "row" = .node 1 := rfl
    rw [hrow, (Graph.listSample_sheet hitems).fieldAt] at hpresent ⊢
    by_cases hname : "xs" = name
    · subst hname
      exact hlist
    · simp [valueAt, Entries.find?_cons, hname, Value.isAbsent] at hpresent
  have hchain : listSample.WellFormed := by decide
  have hsound := Chain.checkTransform_sound (Graph.listSample_distinct _) hchain
    (listSample_guarded hitems rfl) (listRun_faithful hitems) huniform
  exact ⟨listSample_guarded hitems rfl, listRun_faithful hitems, huniform,
    hsound 0 "stamp" .stamping rfl _, hsound 1 "join" .joining rfl _⟩

/-- A list that holds a text and then something else: the stage that marks the row sees a list of
    texts, which is what the next stage asks for, and the next stage finds the other item. -/
theorem Chain.not_guarded :
    listSample.WellFormed ∧ (Graph.listSample [.text "a", .bool true]).NamesDistinct ∧
      listSample.checkTransform (Graph.listSample [.text "a", .bool true]) (listRun 0)
        (listSample.leaves.map Prod.fst) = .ok [] ∧
      FaithfulRun (Graph.listSample [.text "a", .bool true]) listSample.leaves listRun ∧
      Contract.joining.checkTransform (Graph.listSample [.text "a", .bool true]) (some "join")
        (listRun 1) true =
        .ok [⟨some "join", .misfit (.slot .transformRequires) "row"
          (.record [("xs", .sequence (.scalar .string))] none)
          (.record [("xs", .sequence (.scalar .boolean)), ("seen", .scalar .boolean)] none)
          .type⟩] := by
  have hitems : ∀ w ∈ [Value.text "a", .bool true], Graph.Atom w := by
    simp only [List.forall_mem_cons]
    exact ⟨⟨rfl, by simp, _, rfl⟩, ⟨rfl, by simp, _, rfl⟩, fun _ h => absurd h List.not_mem_nil⟩
  refine ⟨by decide, Graph.listSample_distinct _, listSample_guarded hitems rfl,
    listRun_faithful hitems, ?_⟩
  have hrow : (Graph.listSample [.text "a", .bool true]).observe
      (some (.record [("xs", .sequence (.scalar .string))] none)) (.node 2) =
      .ok (.record [("xs", .sequence (.scalar .boolean)), ("seen", .scalar .boolean)] none) :=
    Graph.listSample_marked_observe hitems rfl
  simp only [Contract.checkTransform, Contract.joining, listSchema, listRun, checkSchema, checkKey,
    Entries.find?, if_true, Option.getD_some, hrow]
  rfl

end SchemaFlow
