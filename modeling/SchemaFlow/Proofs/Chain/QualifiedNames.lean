import SchemaFlow.Proofs.Chain.Verdicts

/-!
# Qualified names

A leaf of a chain is reached by a path, the names of the links that lead to it, and its qualified name
is the path with separators in between. No name of a link holds a separator, so the name gives the
path back: no two leaves share one, and the set of fitted names means each leaf by itself.

* `qualified_inj`: a qualified name has one path.
* `Walk.fit_one`: what a walk finds when one more stage counts as fitted.
* `Chain.qualified_names`: what it changes that one more name is fitted.
-/

namespace SchemaFlow

/-! ## 1. Paths -/

/-- The names along a path, with separators in between. -/
def qualified : List String → String
  | [] => ""
  | [name] => name
  | name :: rest => name ++ separator.toString ++ qualified rest

theorem qualified_cons {name : String} {rest : List String} (h : rest ≠ []) :
    qualified (name :: rest) = name ++ separator.toString ++ qualified rest := by
  cases rest with
  | nil => exact absurd rfl h
  | cons other rest => rfl

mutual

/-- The leaves of a link, each with the path that leads to it from there. -/
def Link.paths : Link → List (List String × Contract)
  | .stage c => [([], c)]
  | .chain links => linkPaths links

/-- The leaves of links, each with the path that leads to it. -/
def linkPaths : List (String × Link) → List (List String × Contract)
  | [] => []
  | (name, l) :: rest => (Link.paths l).map (fun p => (name :: p.1, p.2)) ++ linkPaths rest

end

/-- The leaves of a chain, each with the path that leads to it. -/
def Chain.paths (c : Chain) : List (List String × Contract) := linkPaths c.links

theorem ne_nil_of_mem_linkPaths : ∀ {links : List (String × Link)} {p : List String × Contract},
    p ∈ linkPaths links → p.1 ≠ []
  | [], p, hp => by
      rw [linkPaths] at hp
      cases hp
  | (name, l) :: rest, p, hp => by
      rw [linkPaths] at hp
      rcases List.mem_append.1 hp with hp | hp
      · obtain ⟨q, -, rfl⟩ := List.mem_map.1 hp
        exact List.cons_ne_nil _ _
      · exact ne_nil_of_mem_linkPaths hp

mutual

theorem Link.leaves_eq_paths (lead name : String) : ∀ l : Link,
    l.leaves (lead ++ name) = l.paths.map fun p => (lead ++ qualified (name :: p.1), p.2)
  | .stage c => rfl
  | .chain links => by
      rw [Link.leaves, Link.paths, linkLeaves_eq_paths]
      refine List.map_congr_left fun p hp => ?_
      rw [qualified_cons (ne_nil_of_mem_linkPaths hp)]
      simp only [String.append_assoc]

theorem linkLeaves_eq_paths (lead : String) : ∀ links : List (String × Link),
    linkLeaves lead links = (linkPaths links).map fun p => (lead ++ qualified p.1, p.2)
  | [] => rfl
  | (name, l) :: rest => by
      rw [linkLeaves, linkPaths, List.map_append, List.map_map, linkLeaves_eq_paths lead rest,
        Link.leaves_eq_paths lead name l]
      rfl

end

/-- **A leaf is called by its path.** -/
theorem Chain.leaves_eq_paths (c : Chain) :
    c.leaves = c.paths.map fun p => (qualified p.1, p.2) := by
  rw [Chain.leaves, linkLeaves_eq_paths]
  refine List.map_congr_left fun p _ => ?_
  rw [String.empty_append]

mutual

theorem linkName_of_mem_paths : ∀ {l : Link}, l.WellFormed → ∀ {p : List String × Contract},
    p ∈ l.paths → ∀ name ∈ p.1, LinkName name
  | .stage c, _, p, hp, name, hname => by
      rw [Link.paths] at hp
      obtain rfl := List.mem_singleton.1 hp
      cases hname
  | .chain links, h, p, hp, name, hname => by
      rw [Link.paths] at hp
      cases h with
      | chain _ _ hnames hlinks => exact linkName_of_mem_linkPaths hnames hlinks hp name hname

theorem linkName_of_mem_linkPaths : ∀ {links : List (String × Link)},
    (∀ e ∈ links, LinkName e.1) → (∀ e ∈ links, e.2.WellFormed) →
      ∀ {p : List String × Contract}, p ∈ linkPaths links → ∀ name ∈ p.1, LinkName name
  | [], _, _, p, hp, _, _ => by
      rw [linkPaths] at hp
      cases hp
  | (first, l) :: rest, hnames, hlinks, p, hp, name, hname => by
      obtain ⟨hfirst, hnames⟩ := List.forall_mem_cons.1 hnames
      obtain ⟨hl, hlinks⟩ := List.forall_mem_cons.1 hlinks
      rw [linkPaths] at hp
      rcases List.mem_append.1 hp with hp | hp
      · obtain ⟨q, hq, rfl⟩ := List.mem_map.1 hp
        rcases List.mem_cons.1 hname with rfl | hname
        · exact hfirst
        · exact linkName_of_mem_paths hl hq name hname
      · exact linkName_of_mem_linkPaths hnames hlinks hp name hname

end

theorem under_qualified (name : String) (rest : List String) :
    Under name (qualified (name :: rest)) := by
  cases rest with
  | nil => exact Or.inl rfl
  | cons other rest =>
      refine Or.inr ⟨(qualified (other :: rest)).toList, ?_⟩
      rw [qualified_cons (List.cons_ne_nil _ _)]
      simp [String.toList_append]

theorem qualified_ne_empty {path : List String} (hne : path ≠ []) (h : ∀ name ∈ path, LinkName name) :
    qualified path ≠ "" := by
  cases path with
  | nil => exact absurd rfl hne
  | cons name rest =>
      intro hempty
      have hname : name ≠ "" := (h name List.mem_cons_self).1
      rcases under_qualified name rest with he | ⟨more, hmore⟩
      · exact hname (he ▸ hempty)
      · rw [hempty] at hmore
        simp at hmore

/-- What stands behind the first name of a path. -/
theorem toList_qualified_cons {name : String} {rest : List String} (h : rest ≠ []) :
    (qualified (name :: rest)).toList = name.toList ++ separator :: (qualified rest).toList := by
  rw [qualified_cons h]
  simp [String.toList_append]

/-- **A qualified name has one path.** -/
theorem qualified_inj : ∀ {p q : List String}, (∀ name ∈ p, LinkName name) →
    (∀ name ∈ q, LinkName name) → qualified p = qualified q → p = q
  | [], [], _, _, _ => rfl
  | [], _ :: _, _, hq, h => absurd h.symm (qualified_ne_empty (List.cons_ne_nil _ _) hq)
  | _ :: _, [], hp, _, h => absurd h (qualified_ne_empty (List.cons_ne_nil _ _) hp)
  | name :: p, other :: q, hall, hall', h => by
      obtain ⟨hname, hp⟩ := List.forall_mem_cons.1 hall
      obtain ⟨hother, hq⟩ := List.forall_mem_cons.1 hall'
      -- the two names start alike, and behind that they go on alike
      have hu : Under ("" ++ name) (qualified (name :: p)) := by
        rw [String.empty_append]
        exact under_qualified name p
      have hu' : Under ("" ++ other) (qualified (name :: p)) := by
        rw [h, String.empty_append]
        exact under_qualified other q
      obtain rfl := under_inj hname.2 hother.2 hu hu'
      by_cases hpnil : p = []
      · by_cases hqnil : q = []
        · rw [hpnil, hqnil]
        · have hlist := congrArg String.toList h
          rw [hpnil, toList_qualified_cons hqnil] at hlist
          exact absurd (congrArg List.length hlist) (by simp [qualified])
      · by_cases hqnil : q = []
        · have hlist := congrArg String.toList h
          rw [hqnil, toList_qualified_cons hpnil] at hlist
          exact absurd (congrArg List.length hlist) (by simp [qualified])
        · have hlist := congrArg String.toList h
          rw [toList_qualified_cons hpnil, toList_qualified_cons hqnil,
            List.append_cancel_left_eq, List.cons.injEq] at hlist
          exact congrArg (name :: ·) (qualified_inj hp hq (String.toList_inj.1 hlist.2))

/-! ## 2. One more fitted name -/

variable {g : Graph} {ls : List (String × Contract)} {data last : Entries Value}
  {founds : List (List Violation)}

/-- The pass of a transform check. -/
def fittedPass (fitted : List String) : Pass := { phase := .transform, fitted := some fitted }

theorem counts_fittedPass {fitted : List String} {stage : String} :
    (fittedPass fitted).counts stage = true ↔ stage ∈ fitted := by
  rw [fittedPass, Pass.counts, List.contains_iff_mem]

/-- What a stage is found to be lacking whose fitting is undone. -/
theorem check_unfitted {fitted fitted' : List String} {stage : String} {d : Contract}
    {found : List Violation} (hout : stage ∉ fitted) (hin : stage ∈ fitted')
    (h : (fittedPass fitted).check g stage d data = .ok found) :
    ∃ input, found = input ++ d.fitMissing (some stage) false ∧
      (fittedPass fitted').check g stage d data = .ok input ∧
      ∀ v ∈ input, v.finding.kind ≠ "NotFitted" := by
  obtain ⟨input, hinput, rfl⟩ := Pass.check_eq_ok.1 h
  have hcounts : (fittedPass fitted).counts stage = false := by
    rw [← Bool.not_eq_true, counts_fittedPass]
    exact hout
  have hcounts' : (fittedPass fitted').counts stage = true := counts_fittedPass.2 hin
  refine ⟨input, ?_, Pass.check_eq_ok.2 ⟨input, hinput, ?_⟩,
    fun v hv => (mem_checkSchema hinput v hv).2.2.1⟩
  · rw [Pass.unfitted, hcounts]
    rfl
  · rw [Pass.unfitted, hcounts']
    exact (List.append_nil input).symm

/-- What is found on a walk along other stages is not about a stage. -/
theorem Walk.not_about {pass : Pass} (h : Walk g pass ls data founds last) {stage : String}
    (hstage : stage ∉ ls.map Prod.fst) : ∀ v ∈ founds.flatten, v.stage ≠ some stage := by
  intro v hv hsame
  obtain ⟨other, hmem, hother⟩ := h.stage_mem v hv
  obtain rfl := Option.some.inj (hsame.symm.trans hother)
  exact hstage hmem

/-- **With one more stage fitted a walk finds what it found**, except that this stage is no longer
    found not to be fitted. -/
theorem Walk.fit_one {before after : List (String × Contract)} {stage : String} {d : Contract}
    {fitted fitted' : List String}
    (h : Walk g (fittedPass fitted) (before ++ (stage, d) :: after) data founds last)
    (hbefore : stage ∉ before.map Prod.fst) (hafter : stage ∉ after.map Prod.fst)
    (hout : stage ∉ fitted) (hmore : ∀ name, name ∈ fitted' ↔ name = stage ∨ name ∈ fitted) :
    ∃ (front back : List Violation) (founds' : List (List Violation)),
      founds.flatten = front ++ d.fitMissing (some stage) false ++ back ∧
      founds'.flatten = front ++ back ∧
      Walk g (fittedPass fitted') (before ++ (stage, d) :: after) data founds' last ∧
      ∀ v ∈ front ++ back, v.stage = some stage → v.finding.kind ≠ "NotFitted" := by
  -- the set is another for this stage only
  have hcounts : ∀ {ls : List (String × Contract)}, stage ∉ ls.map Prod.fst →
      ∀ l ∈ ls, (fittedPass fitted').counts l.1 = (fittedPass fitted).counts l.1 := by
    intro ls hstage l hl
    rw [Bool.eq_iff_iff, counts_fittedPass, counts_fittedPass, hmore, or_iff_right]
    rintro rfl
    exact hstage (List.mem_map_of_mem hl)
  obtain ⟨first, middle, rest, rfl, hfirst, hrest⟩ := Walk.of_append h
  cases hrest with
  | @cons _ _ _ _ next _ found later hcheck hnext hlater =>
      obtain ⟨input, rfl, hcheck', hinput⟩ :=
        check_unfitted hout ((hmore stage).2 (Or.inl rfl)) hcheck
      have hfirst' : Walk g (fittedPass fitted') before data first middle :=
        hfirst.of_counts rfl (hcounts hbefore)
      have hlater' : Walk g (fittedPass fitted') after next later last :=
        hlater.of_counts rfl (hcounts hafter)
      refine ⟨first.flatten ++ input, later.flatten, first ++ input :: later, ?_, ?_,
        hfirst'.append (.cons hcheck' hnext hlater'), ?_⟩
      · simp [List.append_assoc]
      · simp [List.append_assoc]
      · intro v hv hstage
        rcases List.mem_append.1 hv with hv | hv
        · rcases List.mem_append.1 hv with hv | hv
          · exact absurd hstage (hfirst.not_about hbefore v hv)
          · exact hinput v hv
        · exact absurd hstage (hlater.not_about hafter v hv)

theorem Contract.fitMissing_eq (d : Contract) (stage : Option String) :
    d.fitMissing stage false =
      if d.fittedState = [] then [] else [⟨stage, .notFitted d.fittedState.names⟩] := by
  unfold Contract.fitMissing Contract.needsFit
  by_cases hstate : d.fittedState = [] <;> simp [hstate]

namespace Chain

/-- **Qualified names address leaves, each by itself.** A leaf is called by its path, no two leaves
    are called alike, and no two paths to leaves read alike. With one more leaf fitted a transform
    check finds what it found before, except that this leaf is no longer found not to be fitted. -/
theorem qualified_names {c : Chain} (hc : c.WellFormed) :
    c.leaves = c.paths.map (fun p => (qualified p.1, p.2)) ∧ (c.leaves.map Prod.fst).Nodup ∧
      (∀ p ∈ c.paths, ∀ q ∈ c.paths, qualified p.1 = qualified q.1 → p.1 = q.1) ∧
      ∀ (g : Graph) (data : Entries Value), g.Answers (demandsOf .transform c.leaves) data →
        ∀ (fitted fitted' : List String) (stage : String) (d : Contract), (stage, d) ∈ c.leaves →
          stage ∉ fitted → (∀ name, name ∈ fitted' ↔ name = stage ∨ name ∈ fitted) →
          ∃ front back : List Violation,
            c.checkTransform g data fitted =
              .ok (front ++ (if d.fittedState = [] then []
                else [⟨some stage, .notFitted d.fittedState.names⟩]) ++ back) ∧
            c.checkTransform g data fitted' = .ok (front ++ back) ∧
            ∀ v ∈ front ++ back, v.stage = some stage → v.finding.kind ≠ "NotFitted" := by
  obtain ⟨-, -, hnames, hlinks⟩ := Chain.wellFormed_iff.1 hc
  refine ⟨c.leaves_eq_paths, hc.nodup_leaves, fun p hp q hq => ?_, ?_⟩
  · exact qualified_inj (linkName_of_mem_linkPaths hnames hlinks hp)
      (linkName_of_mem_linkPaths hnames hlinks hq)
  · intro g data hdata fitted fitted' stage d hleaf hout hmore
    obtain ⟨founds, last, hwalk⟩ : ∃ founds last,
        Walk g (fittedPass fitted) c.leaves data founds last :=
      exists_walk_of_answers (fun _ hl => hc.of_mem_leaves hl) hdata
    have hfound : c.checkTransform g data fitted = .ok founds.flatten := violations_of_walk hwalk
    obtain ⟨before, after, hsplit⟩ := List.append_of_mem hleaf
    have hnodup := hc.nodup_leaves
    rw [hsplit] at hwalk
    rw [hsplit, List.map_append, List.map_cons, List.nodup_middle, List.nodup_cons] at hnodup
    have hothers := hnodup.1
    rw [List.mem_append, not_or] at hothers
    obtain ⟨front, back, founds', hflat, hflat', hwalk', hkinds⟩ :=
      hwalk.fit_one hothers.1 hothers.2 hout hmore
    rw [← hsplit] at hwalk'
    have hfound' : c.checkTransform g data fitted' = .ok founds'.flatten := violations_of_walk hwalk'
    rw [hflat, d.fitMissing_eq] at hfound
    rw [hflat'] at hfound'
    exact ⟨front, back, hfound, hfound', hkinds⟩

/-- The sample two deep, before and after the stage that learns a mean is fitted. -/
theorem qualified_names_nested : nestedSample.WellFormed ∧
    ("model/prepare/scale", { transformRequires := [("raw", .scalar .string),
        ("meta", .record [("seen", .scalar .integer)] none)]
                              fittedState := [("mean", .scalar .float)] }) ∈ nestedSample.leaves ∧
    ∃ front back : List Violation,
      nestedSample.checkTransform {} [("rows", .text "none"), ("raw", .null)] ["clean"] =
        .ok (front ++ [⟨some "model/prepare/scale", .notFitted ["mean"]⟩] ++ back) ∧
      nestedSample.checkTransform {} [("rows", .text "none"), ("raw", .null)]
        ["clean", "model/prepare/scale"] = .ok (front ++ back) := by
  have hc : nestedSample.WellFormed := by decide
  have hleaf : ("model/prepare/scale", { transformRequires := [("raw", .scalar .string),
      ("meta", .record [("seen", .scalar .integer)] none)]
                                         fittedState := [("mean", .scalar .float)] }) ∈
      nestedSample.leaves := List.mem_cons_of_mem _ List.mem_cons_self
  have hdata : ∀ e ∈ ([("rows", .text "none"), ("raw", .null)] : Entries Value),
      Graph.Observable {} e.2 := by
    simp only [List.forall_mem_cons]
    exact ⟨Graph.observable_text _ _, Graph.observable_null _, fun _ h => absurd h List.not_mem_nil⟩
  obtain ⟨front, back, hfound, hfound', -⟩ := (qualified_names hc).2.2.2 {} _
    (Graph.Answers.of_observable hdata) ["clean"] ["clean", "model/prepare/scale"] _ _ hleaf
    (by decide) (fun name => by simp [or_comm])
  exact ⟨hc, hleaf, front, back, hfound, hfound'⟩

end Chain

end SchemaFlow
