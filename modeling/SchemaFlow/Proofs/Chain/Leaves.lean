import SchemaFlow.Chain.Pass
import SchemaFlow.Proofs.Contract.Check
import SchemaFlow.Proofs.Contract.WellFormed

/-!
# The leaves of a chain

The leaves of a chain are its stages at any depth, from left to right, under qualified names such as
`outer/inner`. A pass without parameters sees nothing of a chain but its leaves:

* `passLinks_leaves`: it gives the same outcome, faults included, as a pass through the flat row of
  leaves;
* `nodup_leaves`: no two leaves of a well-formed chain have the same qualified name.
-/

namespace SchemaFlow

/-! ## 1. Leaves -/

mutual

/-- The leaves of a link under its name. -/
def Link.leaves (name : String) : Link → List (String × Contract)
  | .stage c => [(name, c)]
  | .chain links => linkLeaves (name ++ separator.toString) links

/-- The leaves of links; `lead` stands before their names. -/
def linkLeaves (lead : String) : List (String × Link) → List (String × Contract)
  | [] => []
  | (name, l) :: rest => Link.leaves (lead ++ name) l ++ linkLeaves lead rest

end

/-- The leaves of a chain. -/
def Chain.leaves (c : Chain) : List (String × Contract) := linkLeaves "" c.links

/-- A row of named contracts as links. -/
def stagesOf (ls : List (String × Contract)) : List (String × Link) :=
  ls.map fun l => (l.1, .stage l.2)

theorem linkLeaves_append (lead : String) : ∀ as bs : List (String × Link),
    linkLeaves lead (as ++ bs) = linkLeaves lead as ++ linkLeaves lead bs
  | [], _ => rfl
  | (name, l) :: as, bs => by
      rw [List.cons_append, linkLeaves, linkLeaves, linkLeaves_append lead as bs,
        List.append_assoc]

theorem linkLeaves_stagesOf : ∀ ls : List (String × Contract), linkLeaves "" (stagesOf ls) = ls
  | [] => rfl
  | (name, c) :: ls => by
      have ih := linkLeaves_stagesOf ls
      unfold stagesOf at ih ⊢
      rw [List.map_cons, linkLeaves, ih, Link.leaves, String.empty_append]
      rfl

mutual

theorem Link.WellFormed.of_mem_leaves : ∀ {l : Link}, l.WellFormed → ∀ {name : String},
    ∀ e ∈ l.leaves name, e.2.WellFormed
  | .stage c, h, name, e, he => by
      rw [Link.leaves] at he
      obtain rfl := List.mem_singleton.1 he
      cases h with
      | stage hc => exact hc
  | .chain links, h, name, e, he => by
      rw [Link.leaves] at he
      cases h with
      | chain _ _ _ hlinks => exact wellFormed_of_mem_linkLeaves hlinks e he

theorem wellFormed_of_mem_linkLeaves : ∀ {links : List (String × Link)},
    (∀ e ∈ links, e.2.WellFormed) → ∀ {lead : String}, ∀ e ∈ linkLeaves lead links, e.2.WellFormed
  | [], _, _, e, he => by
      rw [linkLeaves] at he
      cases he
  | (name, l) :: rest, h, lead, e, he => by
      obtain ⟨hl, hrest⟩ := List.forall_mem_cons.1 h
      rw [linkLeaves] at he
      rcases List.mem_append.1 he with he | he
      · exact Link.WellFormed.of_mem_leaves hl e he
      · exact wellFormed_of_mem_linkLeaves hrest e he

end

/-! ## 2. Qualified names -/

/-- A qualified name starts with another: it is the other, or goes on behind a separator. -/
def Under (name s : String) : Prop :=
  s = name ∨ ∃ rest, s.toList = name.toList ++ separator :: rest

theorem under_iff {name s : String} :
    Under name s ↔ ∃ rest, s.toList = name.toList ++ rest ∧ ∀ c ∈ rest.head?, c = separator := by
  constructor
  · rintro (rfl | ⟨rest, h⟩)
    · exact ⟨[], by simp, by simp⟩
    · exact ⟨separator :: rest, h, by simp⟩
  · rintro ⟨rest, h, hhead⟩
    cases rest with
    | nil => exact Or.inl (String.toList_inj.1 (by simpa using h))
    | cons c rest =>
        obtain rfl := hhead c (by simp)
        exact Or.inr ⟨rest, h⟩

/-- Names without a separator are told apart by what stands under them. -/
theorem under_inj {lead a b s : String} (ha : separator ∉ a.toList) (hb : separator ∉ b.toList)
    (hsa : Under (lead ++ a) s) (hsb : Under (lead ++ b) s) : a = b := by
  obtain ⟨r, hr, hhead⟩ := under_iff.1 hsa
  obtain ⟨q, hq, hhead'⟩ := under_iff.1 hsb
  have htake : ∀ {name : String} {rest : List Char}, separator ∉ name.toList →
      (∀ c ∈ rest.head?, c = separator) →
      (name.toList ++ rest).takeWhile (· ≠ separator) = name.toList := by
    intro name rest hname hrest
    have hall : ∀ c ∈ name.toList, decide (c ≠ separator) = true := by
      intro c hc
      refine decide_eq_true ?_
      rintro rfl
      exact hname hc
    rw [List.takeWhile_append_of_pos hall]
    cases rest with
    | nil => simp
    | cons c rest =>
        obtain rfl := hrest c (by simp)
        simp
  have h : a.toList ++ r = b.toList ++ q := by
    rw [hr] at hq
    simpa [String.toList_append, List.append_assoc] using hq
  refine String.toList_inj.1 ?_
  rw [← htake ha hhead, h, htake hb hhead']

theorem under_trans {lead name s : String}
    (h : Under (lead ++ separator.toString ++ name) s) : Under lead s := by
  obtain ⟨rest, hrest, _⟩ := under_iff.1 h
  refine Or.inr ⟨name.toList ++ rest, ?_⟩
  rw [hrest]
  simp [String.toList_append, List.append_assoc]

mutual

theorem under_of_mem_leaves : ∀ {l : Link} {name : String} {e : String × Contract},
    e ∈ l.leaves name → Under name e.1
  | .stage c, name, e, he => by
      rw [Link.leaves] at he
      obtain rfl := List.mem_singleton.1 he
      exact Or.inl rfl
  | .chain links, name, e, he => by
      rw [Link.leaves] at he
      obtain ⟨e', _, hu⟩ := under_of_mem_linkLeaves he
      exact under_trans hu

theorem under_of_mem_linkLeaves : ∀ {links : List (String × Link)} {lead : String}
    {e : String × Contract}, e ∈ linkLeaves lead links →
      ∃ e' ∈ links, Under (lead ++ e'.1) e.1
  | [], lead, e, he => by
      rw [linkLeaves] at he
      cases he
  | (name, l) :: rest, lead, e, he => by
      rw [linkLeaves] at he
      rcases List.mem_append.1 he with he | he
      · exact ⟨(name, l), List.mem_cons_self, under_of_mem_leaves he⟩
      · obtain ⟨e', he', hu⟩ := under_of_mem_linkLeaves he
        exact ⟨e', List.mem_cons_of_mem _ he', hu⟩

end

mutual

theorem nodup_link_leaves : ∀ {l : Link}, l.WellFormed → ∀ name : String,
    ((l.leaves name).map Prod.fst).Nodup
  | .stage c, _, name => by
      rw [Link.leaves]
      exact List.nodup_singleton name
  | .chain links, h, name => by
      rw [Link.leaves]
      cases h with
      | chain _ hd hnames hlinks => exact nodup_linkLeaves hd hnames hlinks _

theorem nodup_linkLeaves : ∀ {links : List (String × Link)}, Entries.Distinct links →
    (∀ e ∈ links, LinkName e.1) → (∀ e ∈ links, e.2.WellFormed) → ∀ lead : String,
      ((linkLeaves lead links).map Prod.fst).Nodup
  | [], _, _, _, _ => by
      rw [linkLeaves]
      exact List.nodup_nil
  | (name, l) :: rest, hd, hnames, hlinks, lead => by
      obtain ⟨hname, hd⟩ := Entries.distinct_cons_iff.1 hd
      obtain ⟨hn, hnames⟩ := List.forall_mem_cons.1 hnames
      obtain ⟨hl, hlinks⟩ := List.forall_mem_cons.1 hlinks
      rw [linkLeaves, List.map_append]
      refine List.nodup_append.2 ⟨nodup_link_leaves hl _, nodup_linkLeaves hd hnames hlinks lead, ?_⟩
      -- a name in both halves would stand under two links
      intro s hs s' hs' heq
      obtain ⟨e, he, rfl⟩ := List.mem_map.1 hs
      obtain ⟨e', he', rfl⟩ := List.mem_map.1 hs'
      obtain ⟨link, hlink, hu⟩ := under_of_mem_linkLeaves he'
      have hu' : Under (lead ++ name) e'.1 := heq ▸ under_of_mem_leaves he
      obtain rfl := under_inj hn.2 (hnames link hlink).2 hu' hu
      exact Entries.find?_eq_none_iff.1 hname (List.mem_map_of_mem hlink)

end

/-- **No two leaves of a chain have the same name.** -/
theorem Chain.WellFormed.nodup_leaves {c : Chain} (hc : c.WellFormed) :
    (c.leaves.map Prod.fst).Nodup := by
  obtain ⟨_, hd, hnames, hlinks⟩ := Chain.wellFormed_iff.1 hc
  exact nodup_linkLeaves hd hnames hlinks ""

theorem Chain.WellFormed.of_mem_leaves {c : Chain} (hc : c.WellFormed) {e : String × Contract}
    (he : e ∈ c.leaves) : e.2.WellFormed := by
  obtain ⟨_, _, _, hlinks⟩ := Chain.wellFormed_iff.1 hc
  exact wellFormed_of_mem_linkLeaves hlinks e he

/-! ## 3. A pass sees the leaves only -/

/-- A pass through links goes through the first of them and then through the others. -/
theorem passLinks_append (g : Graph) (pass : Pass) (lead : String) (parameters : Option Source) :
    ∀ (as bs : List (String × Link)) (data : Entries Value),
      passLinks g pass lead parameters (as ++ bs) data = do
        let first ← passLinks g pass lead parameters as data
        let later ← passLinks g pass lead parameters bs first.data
        .ok { later with
          violations := first.violations ++ later.violations
          fitted := first.fitted ++ later.fitted }
  | [], bs, data => by
      rw [List.nil_append, passLinks, Step.bind_of_ok rfl]
      cases passLinks g pass lead parameters bs data <;> rfl
  | (name, l) :: as, bs, data => by
      rw [List.cons_append, passLinks, passLinks, Step.bind_assoc]
      congr
      funext first
      rw [passLinks_append g pass lead parameters as bs, Step.bind_assoc, Step.bind_assoc]
      congr
      funext middle
      rw [Step.bind_of_ok rfl, Step.bind_assoc]
      congr
      funext last
      rw [Step.bind_of_ok rfl]
      simp only [List.append_assoc]

/-- Without parameters the violations of a stage depend on its qualified name only. -/
theorem passLink_stage (g : Graph) (pass : Pass) (lead name : String) (c : Contract)
    (data : Entries Value) :
    passLink g pass lead none name (.stage c) data =
      passLink g pass "" none (lead ++ name) (.stage c) data := by
  rw [passLink, passLink, String.empty_append]
  unfold stageViolations
  cases pass.phase <;> rfl

theorem passLinks_singleton (g : Graph) (pass : Pass) (lead name : String)
    (parameters : Option Source) (l : Link) (data : Entries Value) :
    passLinks g pass lead parameters [(name, l)] data =
      passLink g pass lead parameters name l data := by
  rw [passLinks]
  cases passLink g pass lead parameters name l data with
  | error e => rfl
  | ok first =>
      rw [Step.bind_of_ok rfl, passLinks, Step.bind_of_ok rfl]
      simp

mutual

theorem passLink_leaves (g : Graph) (pass : Pass) : ∀ (lead name : String) (l : Link)
    (data : Entries Value), passLink g pass lead none name l data =
      passLinks g pass "" none (stagesOf (l.leaves (lead ++ name))) data
  | lead, name, .stage c, data => by
      rw [passLink_stage, Link.leaves]
      exact (passLinks_singleton g pass "" (lead ++ name) none (.stage c) data).symm
  | lead, name, .chain links, data => by
      rw [passLink, nestedParameters, Link.leaves, ← passLinks_leaves g pass _ links data,
        Step.bind_of_ok rfl]
      dsimp only
      cases passLinks g pass (lead ++ name ++ separator.toString) none links data <;> rfl

/-- **Without parameters a pass through nested chains is a pass through their leaves**, with the
    same violations, the same data behind it and the same faults. -/
theorem passLinks_leaves (g : Graph) (pass : Pass) : ∀ (lead : String)
    (links : List (String × Link)) (data : Entries Value), passLinks g pass lead none links data =
      passLinks g pass "" none (stagesOf (linkLeaves lead links)) data
  | lead, [], data => by
      rw [linkLeaves, stagesOf, List.map_nil, passLinks, passLinks]
  | lead, (name, l) :: rest, data => by
      rw [linkLeaves, stagesOf, List.map_append, passLinks_append, passLinks,
        passLink_leaves g pass lead name l data]
      congr
      funext first
      rw [passLinks_leaves g pass lead rest first.data]
      rfl

end

end SchemaFlow
