import SchemaFlow.Proofs.Chain.NetEffect
import SchemaFlow.Proofs.Chain.Verdicts

/-!
# Nesting a chain by its derived contract

A row of stages may stand in a chain as they are, or as one stage with the contract that is derived
from them. In the transform phase the derived contract raises no false alarm: the stages around it
are told the same (`Walk.alike`), and where the stages themselves find nothing it finds nothing
either (`check_derivedContract`).

The reason for the latter is in what is demanded. A demand of the derived contract is a demand of
one of the stages on a name that no stage before it has made (`mem_requirement`); so either that
name is still as it was in front of the row, or it has been dropped and its stage misses it
(`Walk.untouched`).
-/

namespace SchemaFlow

/-! ## 1. Walks on the same data -/

theorem Pass.check_alike {g : Graph} {pass : Pass} {stage : String} {c : Contract}
    {data other : Entries Value} (hsame : SameData data other) {vs ws : List Violation}
    (h : pass.check g stage c data = .ok vs) (h' : pass.check g stage c other = .ok ws) :
    List.Forall₂ Violation.Alike vs ws := by
  obtain ⟨input, hinput, rfl⟩ := Pass.check_eq_ok.1 h
  obtain ⟨input', hinput', rfl⟩ := Pass.check_eq_ok.1 h'
  exact List.rel_append (checkSchema_alike hsame hinput hinput')
    (List.forall₂_same.2 fun v _ => Violation.Alike.refl v)

/-- **Walks on data that is the same up to order find the same.** -/
theorem Walk.alike {g : Graph} {pass : Pass} : ∀ {ls : List (String × Contract)}
    {data other last last' : Entries Value} {founds founds' : List (List Violation)},
    (∀ l ∈ ls, l.2.WellFormed) → g.ReadableTable data → SameData data other →
      Walk g pass ls data founds last → Walk g pass ls other founds' last' →
      List.Forall₂ (List.Forall₂ Violation.Alike) founds founds'
  | [], _, _, _, _, _, _, _, _, _, h, h' => by
      cases h
      cases h'
      exact .nil
  | (stage, c) :: ls, data, other, _, _, _, _, hls, hdata, hsame, h, h' => by
      obtain ⟨hc, hls⟩ := List.forall_mem_cons.1 hls
      cases h with
      | @cons _ _ _ _ next _ _ _ hcheck hnext hrest =>
          cases h' with
          | @cons _ _ _ _ next' _ _ _ hcheck' hnext' hrest' =>
              obtain ⟨n, n', hn, hn', hsame'⟩ :=
                effectOn_alike hc.produced hc.produced (SameProduced.refl _) hdata hsame
              obtain rfl : n = next := Except.ok.inj (hn.symm.trans hnext)
              obtain rfl : n' = next' := Except.ok.inj (hn'.symm.trans hnext')
              exact .cons (Pass.check_alike hsame hcheck hcheck')
                (Walk.alike hls (hdata.effectOn hc.produced.distinct hnext) hsame' hrest hrest')

/-! ## 2. What a derived contract demands -/

/-- The types that a row of contracts makes of a table. -/
def madeBy (cs : List Contract) (made : Entries TypeSpec) : Entries TypeSpec :=
  cs.foldl (fun made c => applyAll c.produced made) made

theorem mem_addDemand {made : Entries TypeSpec} {key : String} {t : TypeSpec} :
    ∀ {demand required : Schema}, (key, t) ∈ addDemand made demand required →
      (key, t) ∈ required ∨ ((key, t) ∈ demand ∧ made.find? key = none)
  | [], _, h => Or.inl h
  | (name, u) :: rest, required, h => by
      rw [addDemand] at h
      rcases mem_addDemand h with h | ⟨h, hmade⟩
      · split at h
        · exact Or.inl h
        · rename_i hnew
          rcases Entries.mem_insert h with h | h
          · exact Or.inl h
          · obtain ⟨rfl, rfl⟩ := Prod.mk.inj h
            rw [Bool.or_eq_true, not_or, Bool.not_eq_true, Entries.has_eq_false_iff] at hnew
            exact Or.inr ⟨List.mem_cons_self, hnew.1⟩
      · exact Or.inr ⟨List.mem_cons_of_mem _ h, hmade⟩

/-- **What is demanded from outside is demanded by one contract of the row**, on a name that those
    before it have not made. -/
theorem mem_requirementFrom {demand : Contract → Schema} {key : String} {t : TypeSpec} :
    ∀ {cs : List Contract} {made : Entries TypeSpec} {required : Schema},
      (key, t) ∈ requirementFrom demand cs made required →
      (key, t) ∈ required ∨ ∃ before c after, cs = before ++ c :: after ∧ (key, t) ∈ demand c ∧
        (madeBy before made).find? key = none
  | [], _, _, h => Or.inl h
  | c :: cs, made, required, h => by
      rw [requirementFrom] at h
      rcases mem_requirementFrom h with h | ⟨before, d, after, rfl, hd, hmade⟩
      · rcases mem_addDemand h with h | ⟨h, hmade⟩
        · exact Or.inl h
        · exact Or.inr ⟨[], c, cs, rfl, h, hmade⟩
      · exact Or.inr ⟨c :: before, d, after, rfl, hd, hmade⟩

theorem mem_requirement {demand : Contract → Schema} {cs : List Contract} {key : String}
    {t : TypeSpec} (h : (key, t) ∈ requirement demand cs) :
    ∃ before c after, cs = before ++ c :: after ∧ (key, t) ∈ demand c ∧
      (madeBy before []).find? key = none :=
  (mem_requirementFrom h).resolve_left fun h => absurd h List.not_mem_nil

/-- **A name that a row of stages has not made is as it was, or gone.** `made` is what the stages
    before have made, and `base` the data in front of them. -/
theorem Walk.untouched {g : Graph} {pass : Pass} {key : String} {base : Entries Value} :
    ∀ {ls : List (String × Contract)} {data last : Entries Value} {founds : List (List Violation)}
      {made : Entries TypeSpec}, (∀ l ∈ ls, l.2.WellFormed) → g.ReadableTable data →
      Walk g pass ls data founds last →
      (made.find? key = none → data.find? key = base.find? key ∨ data.find? key = none) →
      (madeBy (ls.map Prod.snd) made).find? key = none →
      last.find? key = base.find? key ∨ last.find? key = none
  | [], _, _, _, _, _, _, h, hinv, hmade => by
      cases h
      exact hinv hmade
  | (stage, c) :: ls, data, last, _, made, hls, hdata, h, hinv, hmade => by
      obtain ⟨hc, hls⟩ := List.forall_mem_cons.1 hls
      have hd := hc.produced.distinct
      cases h with
      | @cons _ _ _ _ next _ _ _ _ hnext hrest =>
          refine Walk.untouched hls (hdata.effectOn hd hnext) hrest (fun hnew => ?_) hmade
          rw [find?_applyAll key made hd] at hnew
          rw [find?_effectOn hd hdata hnext key]
          cases hp : c.produced.find? key with
          | none =>
              rw [hp] at hnew
              exact hinv hnew
          | some p =>
              rw [hp] at hnew
              obtain rfl := Production.apply_eq_none_iff.1 hnew
              exact Or.inr rfl

/-! ## 3. The check of a derived contract -/

theorem namedContracts_stagesOf : ∀ ls : List (String × Contract),
    namedContracts (stagesOf ls) = ls
  | [] => rfl
  | l :: ls => by
      have ih := namedContracts_stagesOf ls
      unfold stagesOf at ih ⊢
      rw [List.map_cons, namedContracts, ih, Link.contract]

theorem unfitted_of_counts {pass : Pass} {stage : String} (c : Contract)
    (h : pass.counts stage = true) : pass.unfitted stage c = [] := by
  unfold Pass.unfitted Contract.fitMissing
  cases pass.phase with
  | fit => rfl
  | transform => rw [h]; rfl

/-- **Where the stages find nothing the derived contract finds nothing.** -/
theorem Walk.check_derivedContract {g : Graph} {pass : Pass} {ls : List (String × Contract)}
    {data last : Entries Value} {founds : List (List Violation)} {name : String}
    (hphase : pass.phase = .transform) (hcounts : pass.counts name = true)
    (hls : ∀ l ∈ ls, l.2.WellFormed) (hdata : g.ReadableTable data)
    (h : Walk g pass ls data founds last) (hclean : founds.flatten = []) :
    pass.check g name (derivedContract ls) data = .ok [] := by
  refine Pass.check_eq_ok.2 ⟨[], ?_, (unfitted_of_counts _ hcounts).symm⟩
  rw [hphase]
  refine checkSchema_eq_nil_iff.2 ?_
  rintro ⟨key, t⟩ he
  obtain ⟨before, c, after, hcs, hc, hmade⟩ := mem_requirement he
  obtain ⟨first, rest, rfl, rfl, hrest⟩ := List.map_eq_append_iff.1 hcs
  obtain ⟨⟨stage, c⟩, after, rfl, rfl, rfl⟩ := List.map_eq_cons_iff.1 hrest
  obtain ⟨founds₁, middle, founds₂, rfl, hfirst, hsecond⟩ := h.of_append
  have hmiddle : middle.find? key = data.find? key ∨ middle.find? key = none :=
    Walk.untouched (fun l hl => hls l (List.mem_append_left _ hl)) hdata hfirst
      (fun _ => Or.inl rfl) hmade
  -- the stage that demands the name finds nothing about it
  have hverdict : Verdict g (.slot .transformRequires) (valueAt middle key) key t none := by
    cases hsecond with
    | cons hcheck _ _ =>
        rw [List.flatten_append, List.flatten_cons, List.append_eq_nil_iff,
          List.append_eq_nil_iff] at hclean
        obtain ⟨input, hinput, hfound⟩ := Pass.check_eq_ok.1 hcheck
        rw [hclean.2.1] at hfound
        obtain rfl : input = [] := (List.append_eq_nil_iff.1 hfound.symm).1
        rw [hphase] at hinput
        exact checkSchema_eq_nil_iff.1 hinput (key, t) hc
  unfold valueAt at hverdict ⊢
  rcases hmiddle with hsame | hgone
  · rw [hsame] at hverdict
    exact hverdict
  · rw [hgone] at hverdict
    exact absurd (verdict_none_iff.1 hverdict).1 (by decide)

theorem demand_derivedContract {ls : List (String × Contract)} {e : String × TypeSpec}
    (h : e ∈ (derivedContract ls).transformRequires) : e ∈ demandsOf .transform ls := by
  obtain ⟨before, c, after, hcs, hc, _⟩ := mem_requirement h
  obtain ⟨l, hl, rfl⟩ := List.mem_map.1 (hcs ▸ List.mem_append_right before List.mem_cons_self)
  exact mem_demandsOf hl hc

/-! ## 4. A row of stages and its derived contract -/

theorem filter_alike {vs ws : List Violation} (h : List.Forall₂ Violation.Alike vs ws)
    (stage : String) : List.Forall₂ Violation.Alike (vs.filter fun v => v.stage = some stage)
      (ws.filter fun w => w.stage = some stage) := by
  refine List.rel_filter (fun v w hvw => ?_) h
  simp only [decide_eq_true_eq, hvw.stage]

/-- What is found on a walk is not about stages that it does not pass. -/
theorem Walk.filter_other {g : Graph} {pass : Pass} {ls : List (String × Contract)}
    {data last : Entries Value} {founds : List (List Violation)} (h : Walk g pass ls data founds last)
    {stage : String} (hstage : stage ∉ ls.map Prod.fst) :
    founds.flatten.filter (fun v => v.stage = some stage) = [] := by
  refine List.filter_eq_nil_iff.2 fun v hv hv' => ?_
  obtain ⟨other, hmem, hother⟩ := h.stage_mem v hv
  rw [decide_eq_true_eq, hother, Option.some.injEq] at hv'
  exact hstage (hv' ▸ hmem)

/-- Three walks in a row, the middle one along stages of other names. -/
theorem Walk.filter_around {g : Graph} {pass : Pass} {ls : List (String × Contract)}
    {data last : Entries Value} {first founds later : List (List Violation)}
    (h : Walk g pass ls data founds last) {stage : String} (hstage : stage ∉ ls.map Prod.fst) :
    (first ++ founds ++ later).flatten.filter (fun v => v.stage = some stage) =
      first.flatten.filter (fun v => v.stage = some stage) ++
        later.flatten.filter (fun v => v.stage = some stage) := by
  rw [List.flatten_append, List.flatten_append, List.filter_append, List.filter_append,
    h.filter_other hstage, List.append_nil]

/-- What is found on two walks, with nothing between them, is found at stages of theirs. -/
theorem Walk.stage_around {g : Graph} {pass : Pass} {pre post : List (String × Contract)}
    {data middle behind last : Entries Value} {first later : List (List Violation)}
    (h : Walk g pass pre data first middle) (h' : Walk g pass post behind later last) :
    ∀ w ∈ (first ++ [[]] ++ later).flatten, ∃ l ∈ pre ++ post, w.stage = some l.1 := by
  intro w hw
  rw [List.flatten_append, List.flatten_append] at hw
  rcases List.mem_append.1 hw with hw | hw
  · rcases List.mem_append.1 hw with hw | hw
    · obtain ⟨stage, hstage, hw⟩ := h.stage_mem w hw
      obtain ⟨l, hl, rfl⟩ := List.mem_map.1 hstage
      exact ⟨l, List.mem_append_left _ hl, hw⟩
    · cases hw
  · obtain ⟨stage, hstage, hw⟩ := h'.stage_mem w hw
    obtain ⟨l, hl, rfl⟩ := List.mem_map.1 hstage
    exact ⟨l, List.mem_append_right _ hl, hw⟩

/-- The leaves of links with a row of stages between them. -/
theorem leaves_around (pre post : List (String × Link)) (ls : List (String × Contract)) :
    Chain.leaves ⟨pre ++ stagesOf ls ++ post⟩ = linkLeaves "" pre ++ ls ++ linkLeaves "" post := by
  rw [Chain.leaves, linkLeaves_append, linkLeaves_append, linkLeaves_stagesOf]

theorem not_mem_middle {pre ls post : List (String × Contract)}
    (h : ((pre ++ ls ++ post).map Prod.fst).Nodup) {l : String × Contract} (hl : l ∈ pre ++ post) :
    l.1 ∉ ls.map Prod.fst := by
  rw [List.map_append, List.map_append] at h
  obtain ⟨hfront, _, hpost⟩ := List.nodup_append.1 h
  obtain ⟨_, _, hpre⟩ := List.nodup_append.1 hfront
  intro hmem
  rcases List.mem_append.1 hl with hl | hl
  · exact hpre _ (List.mem_map_of_mem hl) _ hmem rfl
  · exact hpost _ (List.mem_append_right _ hmem) _ (List.mem_map_of_mem hl) rfl

/-- The two walks, part by part. -/
theorem exists_walks_nested {g : Graph} {pass : Pass} {pre ls post : List (String × Contract)}
    {name : String} {data : Entries Value} (hphase : pass.phase = .transform)
    (hcounts : pass.counts name = true) (hpre : ∀ l ∈ pre, l.2.WellFormed)
    (hls : ∀ l ∈ ls, l.2.WellFormed) (hpost : ∀ l ∈ post, l.2.WellFormed)
    (hderived : (derivedContract ls).WellFormed)
    (hdata : g.Answers (demandsOf .transform (pre ++ ls ++ post)) data) :
    ∃ first founds found later later' middle behind behind' last last',
      Walk g pass pre data first middle ∧ Walk g pass ls middle founds behind ∧
        Walk g pass post behind later last ∧
        Walk g pass [(name, derivedContract ls)] middle [found] behind' ∧
        Walk g pass post behind' later' last' ∧
        List.Forall₂ (List.Forall₂ Violation.Alike) later later' ∧
        (founds.flatten = [] → found = []) := by
  have hall : ∀ l ∈ pre ++ ls ++ post, l.2.WellFormed :=
    List.forall_mem_append.2 ⟨List.forall_mem_append.2 ⟨hpre, hls⟩, hpost⟩
  have hsub : ∀ l ∈ pre ++ ls ++ post, ∀ e ∈ (l.2.demand pass.phase).2,
      e ∈ demandsOf .transform (pre ++ ls ++ post) :=
    fun _ hl _ he => mem_demandsOf hl (hphase ▸ he)
  obtain ⟨all, last, hwalk⟩ := exists_walk hall hsub hdata
  obtain ⟨front, behind, later, rfl, hfront, hlater⟩ := hwalk.of_append
  obtain ⟨first, middle, founds, rfl, hfirst, hfounds⟩ := hfront.of_append
  have hmiddle := hfirst.answers hpre hdata
  -- the derived contract has the net effect of the stages
  obtain ⟨behind', other, hbehind', hother, hsame⟩ := dataBehind_netEffect
    (fun l hl => (hls l hl).produced) hmiddle.readable
  obtain rfl : other = behind := Except.ok.inj (hother.symm.trans hfounds.dataBehind)
  obtain ⟨found, hfound⟩ : ∃ found, pass.check g name (derivedContract ls) middle = .ok found := by
    refine pass.check_returns hmiddle name fun e he => ?_
    rw [hphase] at he
    obtain ⟨l, hl, hmem⟩ := List.mem_flatMap.1 (demand_derivedContract he)
    exact mem_demandsOf (List.mem_append_left _ (List.mem_append_right _ hl)) hmem
  obtain ⟨later', last', hlater'⟩ : ∃ founds last, Walk g pass post behind' founds last :=
    exists_walk hpost (fun l hl => hsub l (List.mem_append_right _ hl))
      (hmiddle.effectOn hderived.produced.distinct hbehind')
  refine ⟨first, founds, found, later, later', middle, other, behind', last, last', hfirst, hfounds,
    hlater, .cons hfound hbehind' (.nil _), hlater', ?_, fun hclean => ?_⟩
  · exact Walk.alike hpost (hfounds.answers hls hmiddle).readable hsame.symm hlater hlater'
  · have hnone := hfounds.check_derivedContract hphase hcounts hls hmiddle.readable hclean
    exact Except.ok.inj (hfound.symm.trans hnone)

/-- **Nesting by the derived contract raises no false alarm.** The stages `ls` stand between `pre`
    and `post`, once as they are and once as one stage with their derived contract. -/
theorem Chain.nested_by_contract {g : Graph} {pre post : List (String × Link)}
    {ls : List (String × Contract)} {name : String} {data : Entries Value} {fitted : List String}
    (hflat : Chain.WellFormed ⟨pre ++ stagesOf ls ++ post⟩)
    (hgrouped : Chain.WellFormed
      ⟨pre ++ [(name, .stage (Chain.contract ⟨stagesOf ls⟩))] ++ post⟩)
    (hdata : g.Answers (demandsOf .transform (Chain.leaves ⟨pre ++ stagesOf ls ++ post⟩)) data)
    (hfitted : ∀ l ∈ Chain.leaves ⟨pre ++ stagesOf ls ++ post⟩ ++
      Chain.leaves ⟨pre ++ [(name, .stage (Chain.contract ⟨stagesOf ls⟩))] ++ post⟩,
        l.1 ∈ fitted) :
    ∃ vs ws, Chain.checkTransform g ⟨pre ++ stagesOf ls ++ post⟩ data fitted = .ok vs ∧
      Chain.checkTransform g ⟨pre ++ [(name, .stage (Chain.contract ⟨stagesOf ls⟩))] ++ post⟩ data
        fitted = .ok ws ∧
      (∀ l ∈ linkLeaves "" pre ++ linkLeaves "" post, List.Forall₂ Violation.Alike
        (vs.filter fun v => v.stage = some l.1) (ws.filter fun w => w.stage = some l.1)) ∧
      ((∀ l ∈ ls, ∀ v ∈ vs, v.stage ≠ some l.1) → ∀ w ∈ ws, w.stage ≠ some name) := by
  have hcontract : Chain.contract ⟨stagesOf ls⟩ = derivedContract ls := by
    rw [Chain.contract, namedContracts_stagesOf]
  rw [hcontract] at hgrouped hfitted ⊢
  have hflatLeaves := leaves_around pre post ls
  have hgroupedLeaves : Chain.leaves ⟨pre ++ [(name, .stage (derivedContract ls))] ++ post⟩ =
      linkLeaves "" pre ++ [(name, derivedContract ls)] ++ linkLeaves "" post :=
    leaves_around pre post [(name, derivedContract ls)]
  have hwf : ∀ l ∈ linkLeaves "" pre ++ ls ++ linkLeaves "" post, l.2.WellFormed :=
    fun _ hl => hflat.of_mem_leaves (hflatLeaves ▸ hl)
  have hderived : (derivedContract ls).WellFormed :=
    hgrouped.of_mem_leaves (hgroupedLeaves ▸ List.mem_append_left _
      (List.mem_append_right _ (List.mem_singleton_self (name, derivedContract ls))))
  have hnames := hflat.nodup_leaves
  have hnames' := hgrouped.nodup_leaves
  have hcounts : fitted.contains name = true := by
    rw [List.contains_iff_mem]
    refine hfitted (name, derivedContract ls) (List.mem_append_right _ ?_)
    rw [hgroupedLeaves]
    exact List.mem_append_left _ (List.mem_append_right _ (List.mem_singleton_self _))
  rw [hflatLeaves] at hdata hnames
  rw [hgroupedLeaves] at hnames'
  obtain ⟨first, founds, found, later, later', middle, behind, behind', last, last', hfirst, hfounds,
    hlater, hfound, hlater', halike, hclean⟩ :=
    @exists_walks_nested g { phase := .transform, fitted := some fitted } (linkLeaves "" pre) ls
      (linkLeaves "" post) name data rfl hcounts
      (fun _ hl => hwf _ (List.mem_append_left _ (List.mem_append_left _ hl)))
      (fun _ hl => hwf _ (List.mem_append_left _ (List.mem_append_right _ hl)))
      (fun _ hl => hwf _ (List.mem_append_right _ hl)) hderived hdata
  refine ⟨_, _, Chain.violations_of_walk (hflatLeaves ▸ (hfirst.append hfounds).append hlater),
    Chain.violations_of_walk (hgroupedLeaves ▸ (hfirst.append hfound).append hlater'), ?_, ?_⟩
  · intro l hl
    rw [hfounds.filter_around (not_mem_middle hnames hl),
      hfound.filter_around (not_mem_middle hnames' hl)]
    exact List.rel_append (List.forall₂_same.2 fun v _ => Violation.Alike.refl v)
      (filter_alike (List.rel_flatten halike) l.1)
  · intro hnone w hw hname
    have hquiet : founds.flatten = [] := by
      refine List.eq_nil_iff_forall_not_mem.2 fun v hv => ?_
      obtain ⟨stage, hstage, hv'⟩ := hfounds.stage_mem v hv
      obtain ⟨l, hl, rfl⟩ := List.mem_map.1 hstage
      refine hnone l hl v ?_ hv'
      rw [List.flatten_append, List.flatten_append]
      exact List.mem_append_left _ (List.mem_append_right _ hv)
    obtain rfl := hclean hquiet
    obtain ⟨l, hl, hstage⟩ := hfirst.stage_around hlater' w hw
    have hsame : l.1 = name := Option.some.inj (hstage.symm.trans hname)
    exact not_mem_middle hnames' hl (hsame ▸ List.mem_cons_self)

/-- Two stages that edit a record and then read it; the second drops a name that it reads. -/
def Chain.rowSample : List (String × Contract) :=
  [("edit", {
      transformRequires := [("doc", .record [("id", .scalar .string)] none)]
      fittedState := [("seen", .scalar .integer)]
      produced := [("doc", .modify [("size", .set (.scalar .integer)), ("id", .drop)])] }),
    ("read", {
      transformRequires := [("doc", .record [("size", .scalar .integer)] none),
        ("raw", .scalar .string)]
      produced := [("raw", .drop), ("out", .set (.scalar .float))] })]

/-- A stage in front of the sample that makes the record. -/
def Chain.frontSample : List (String × Link) :=
  [("make", .stage { produced := [("doc", .modify [("id", .set (.scalar .string))])] })]

/-- A stage behind the sample that reads what is left, and one name that is gone. -/
def Chain.backSample : List (String × Link) :=
  [("last", .stage {
    transformRequires := [("doc", .record [("size", .scalar .float)] none),
      ("raw", .scalar .string)] })]

/-- The sample as it is and as one stage, on a payload. -/
theorem Chain.nested_by_contract_row :
    ∃ vs ws, Chain.checkTransform {} ⟨frontSample ++ stagesOf rowSample ++ backSample⟩
        [("raw", .text "t"), ("doc", .null)] ["make", "edit", "read", "row", "last"] = .ok vs ∧
      Chain.checkTransform {}
        ⟨frontSample ++ [("row", .stage (Chain.contract ⟨stagesOf rowSample⟩))] ++ backSample⟩
        [("raw", .text "t"), ("doc", .null)] ["make", "edit", "read", "row", "last"] = .ok ws ∧
      ((∀ l ∈ rowSample, ∀ v ∈ vs, v.stage ≠ some l.1) → ∀ w ∈ ws, w.stage ≠ some "row") := by
  have hflat : Chain.WellFormed ⟨frontSample ++ stagesOf rowSample ++ backSample⟩ := by decide
  have hgrouped : Chain.WellFormed
      ⟨frontSample ++ [("row", .stage (Chain.contract ⟨stagesOf rowSample⟩))] ++ backSample⟩ := by
    decide
  have hfitted : ∀ l ∈ Chain.leaves ⟨frontSample ++ stagesOf rowSample ++ backSample⟩ ++
      Chain.leaves
        ⟨frontSample ++ [("row", .stage (Chain.contract ⟨stagesOf rowSample⟩))] ++ backSample⟩,
      l.1 ∈ ["make", "edit", "read", "row", "last"] := by
    decide
  have hdata : ∀ e ∈ ([("raw", .text "t"), ("doc", .null)] : Entries Value),
      Graph.Observable {} e.2 := by
    simp only [List.forall_mem_cons]
    exact ⟨Graph.observable_text _ _, Graph.observable_null _, fun _ h => absurd h List.not_mem_nil⟩
  obtain ⟨vs, ws, hvs, hws, _, hrow⟩ :=
    Chain.nested_by_contract hflat hgrouped (Graph.Answers.of_observable hdata) hfitted
  exact ⟨vs, ws, hvs, hws, hrow⟩

end SchemaFlow
