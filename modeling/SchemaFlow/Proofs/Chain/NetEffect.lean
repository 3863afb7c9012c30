import SchemaFlow.Proofs.Chain.Walk

/-!
# The net effect of a chain

The productions that a chain derives from its links do to any table of data what its leaves do one
after the other (`dataBehind_netEffect`), and they depend on the leaves only, not on how the links
are grouped into chains (`produced_leaves`). Both hold up to the order of names and of record fields:
a name that is dropped and produced again goes to the end.
-/

namespace SchemaFlow

/-! ## 1. Rows of contracts -/

/-- The net effect of a row of contracts behind productions that are known. -/
def netFrom (net : Produced) (cs : List Contract) : Produced :=
  cs.foldl (fun net c => addEffect c.produced net) net

theorem netEffect_eq (cs : List Contract) : netEffect cs = netFrom [] cs := rfl

theorem netFrom_cons (net : Produced) (c : Contract) (cs : List Contract) :
    netFrom net (c :: cs) = netFrom (Production.composeFields c.produced net) cs := by
  rw [← addEffect_eq]
  rfl

theorem netFrom_append (net : Produced) (as bs : List Contract) :
    netFrom net (as ++ bs) = netFrom (netFrom net as) bs := List.foldl_append

theorem wellFormed_netFrom {net : Produced} {cs : List Contract}
    (hcs : ∀ c ∈ cs, c.produced.WellFormed) (hnet : net.WellFormed) :
    (netFrom net cs).WellFormed :=
  wellFormed_foldl_addEffect hcs hnet

theorem netFrom_agree : ∀ {cs : List Contract} {net net' : Produced},
    (∀ c ∈ cs, c.produced.WellFormed) → net.WellFormed → net'.WellFormed →
      SameProduced net net' → SameProduced (netFrom net cs) (netFrom net' cs)
  | [], _, _, _, _, _, h => h
  | c :: cs, net, net', hcs, hnet, hnet', h => by
      obtain ⟨hc, hcs⟩ := List.forall_mem_cons.1 hcs
      rw [netFrom_cons, netFrom_cons]
      exact netFrom_agree hcs (Production.wellFormed_composeFields hc hnet)
        (Production.wellFormed_composeFields hc hnet')
        (Production.composeFields_agree hc hc hnet hnet' (SameProduced.refl _) h)

/-- **A row of contracts can be composed first and put onto what was before then.** -/
theorem netFrom_composeFields : ∀ {cs : List Contract} {middle net : Produced},
    (∀ c ∈ cs, c.produced.WellFormed) → middle.WellFormed → net.WellFormed →
      SameProduced (netFrom (Production.composeFields middle net) cs)
        (Production.composeFields (netFrom middle cs) net)
  | [], _, _, _, _, _ => SameProduced.refl _
  | c :: cs, middle, net, hcs, hm, hnet => by
      obtain ⟨hc, hcs⟩ := List.forall_mem_cons.1 hcs
      have hcm := Production.wellFormed_composeFields hc hm
      rw [netFrom_cons, netFrom_cons]
      have hassoc := netFrom_agree hcs
        (Production.wellFormed_composeFields hc (Production.wellFormed_composeFields hm hnet))
        (Production.wellFormed_composeFields hcm hnet)
        (Production.composeFields_assoc hc hm hnet)
      exact hassoc.trans (netFrom_composeFields hcs hcm hnet)

theorem netEffect_append {as bs : List Contract} (has : ∀ c ∈ as, c.produced.WellFormed)
    (hbs : ∀ c ∈ bs, c.produced.WellFormed) :
    SameProduced (netEffect (as ++ bs))
      (Production.composeFields (netEffect bs) (netEffect as)) := by
  rw [netEffect_eq, netFrom_append, netEffect_eq bs, netEffect_eq as]
  have hnet := wellFormed_netFrom has .nil
  have h := netFrom_composeFields hbs .nil hnet
  rw [Production.composeFields] at h
  exact h

theorem netEffect_singleton {c : Contract} (hc : c.produced.WellFormed) :
    SameProduced (netEffect [c]) c.produced := by
  rw [netEffect_eq, netFrom_cons]
  exact Entries.Agree.of_find? Production.Alike.refl (Production.composeFields_nil hc.distinct)

/-! ## 2. The net effect on data -/

/-- **The net effect does to a table what the stages do one after the other.** `base` is the data in
    front of the row, and `net` what has been composed so far. -/
theorem dataBehind_netFrom {g : Graph} : ∀ {ls : List (String × Contract)} {net : Produced}
    {base middle data : Entries Value}, (∀ l ∈ ls, l.2.produced.WellFormed) → net.WellFormed →
      g.ReadableTable base → effectOn g net base = .ok middle → SameData middle data →
      ∃ next next', effectOn g (netFrom net (ls.map Prod.snd)) base = .ok next ∧
        dataBehind g ls data = .ok next' ∧ SameData next next'
  | [], _, _, middle, data, _, _, _, hmiddle, hsame => ⟨middle, data, hmiddle, rfl, hsame⟩
  | (stage, c) :: ls, net, base, middle, data, hls, hnet, hbase, hmiddle, hsame => by
      obtain ⟨hc, hls⟩ := List.forall_mem_cons.1 hls
      have hread : g.ReadableTable middle := hbase.effectOn hnet.distinct hmiddle
      obtain ⟨next, next', hnext, hnext', hcomposed⟩ :=
        effectOn_composeFields hc hnet hbase hmiddle
      obtain ⟨next'', behind, hnext'', hbehind, hstep⟩ :=
        effectOn_alike hc hc (SameProduced.refl c.produced) hread hsame
      obtain rfl : next'' = next := Except.ok.inj (hnext''.symm.trans hnext)
      obtain ⟨last, last', hlast, hlast', hsame'⟩ := dataBehind_netFrom hls
        (Production.wellFormed_composeFields hc hnet) hbase hnext' (hcomposed.trans hstep)
      refine ⟨last, last', ?_, ?_, hsame'⟩
      · rw [List.map_cons, netFrom_cons]
        exact hlast
      · rw [dataBehind, Step.bind_of_ok hbehind]
        exact hlast'

theorem dataBehind_netEffect {g : Graph} {ls : List (String × Contract)} {data : Entries Value}
    (hls : ∀ l ∈ ls, l.2.produced.WellFormed) (hdata : g.ReadableTable data) :
    ∃ next next', effectOn g (netEffect (ls.map Prod.snd)) data = .ok next ∧
      dataBehind g ls data = .ok next' ∧ SameData next next' :=
  dataBehind_netFrom hls .nil hdata rfl (SameData.refl data)

/-! ## 3. Groups of links -/

mutual

theorem Link.map_snd_leaves : ∀ (l : Link) (name other : String),
    (l.leaves name).map Prod.snd = (l.leaves other).map Prod.snd
  | .stage _, _, _ => by
      rw [Link.leaves, Link.leaves]
      rfl
  | .chain links, _, _ => by
      rw [Link.leaves, Link.leaves]
      exact map_snd_linkLeaves links _ _

/-- The contracts of the leaves do not depend on the names. -/
theorem map_snd_linkLeaves : ∀ (links : List (String × Link)) (lead other : String),
    (linkLeaves lead links).map Prod.snd = (linkLeaves other links).map Prod.snd
  | [], _, _ => by rw [linkLeaves, linkLeaves]
  | (name, l) :: rest, lead, other => by
      rw [linkLeaves, linkLeaves, List.map_append, List.map_append,
        Link.map_snd_leaves l (lead ++ name) (other ++ name), map_snd_linkLeaves rest lead other]

end

mutual

/-- **What a link produces is the net effect of its leaves.** -/
theorem Link.produced_leaves : ∀ {l : Link} {name : String},
    (∀ c ∈ (l.leaves name).map Prod.snd, c.produced.WellFormed) → l.contract.produced.WellFormed ∧
      SameProduced l.contract.produced (netEffect ((l.leaves name).map Prod.snd))
  | .stage c, name, h => by
      rw [Link.leaves, List.map_singleton] at h ⊢
      have hc : c.produced.WellFormed := h c (List.mem_singleton_self c)
      exact ⟨hc, SameProduced.symm (netEffect_singleton hc)⟩
  | .chain links, name, h => by
      rw [Link.leaves] at h ⊢
      obtain ⟨hall, hsame⟩ := produced_leaves h
      exact ⟨wellFormed_netEffect hall, hsame⟩

theorem produced_leaves : ∀ {links : List (String × Link)} {lead : String},
    (∀ c ∈ (linkLeaves lead links).map Prod.snd, c.produced.WellFormed) →
      (∀ c ∈ (namedContracts links).map Prod.snd, c.produced.WellFormed) ∧
        SameProduced (netEffect ((namedContracts links).map Prod.snd))
          (netEffect ((linkLeaves lead links).map Prod.snd))
  | [], _, _ => by
      rw [namedContracts, linkLeaves]
      exact ⟨fun _ h => absurd h List.not_mem_nil, SameProduced.refl _⟩
  | (name, l) :: rest, lead, h => by
      rw [linkLeaves, List.map_append] at h ⊢
      rw [namedContracts, List.map_cons]
      obtain ⟨hl, hrest⟩ := List.forall_mem_append.1 h
      obtain ⟨hcontract, hlink⟩ := Link.produced_leaves hl
      obtain ⟨hall, hlinks⟩ := produced_leaves hrest
      have hone : ∀ c ∈ [l.contract], c.produced.WellFormed :=
        fun c hc => List.mem_singleton.1 hc ▸ hcontract
      have hhead : SameProduced (netEffect [l.contract])
          (netEffect ((l.leaves (lead ++ name)).map Prod.snd)) :=
        (netEffect_singleton hcontract).trans hlink
      have hcompose := Production.composeFields_agree (wellFormed_netEffect hall)
        (wellFormed_netEffect hrest) (wellFormed_netEffect hone) (wellFormed_netEffect hl)
        hlinks hhead
      refine ⟨List.forall_mem_cons.2 ⟨hcontract, hall⟩, ?_⟩
      exact ((netEffect_append hone hall).trans hcompose).trans (netEffect_append hl hrest).symm

end

theorem Chain.producedOutput_leaves {c : Chain}
    (h : ∀ d ∈ c.leaves.map Prod.snd, d.produced.WellFormed) :
    SameProduced c.producedOutput (netEffect (c.leaves.map Prod.snd)) :=
  (produced_leaves h).2

/-- **A chain produces its net effect, however its links are grouped.** -/
theorem Chain.producedOutput_net {g : Graph} {c : Chain} (hc : c.WellFormed) :
    (∀ working : Entries Value, g.ReadableTable working →
      ∃ next next', effectOn g c.producedOutput working = .ok next ∧
        dataBehind g c.leaves working = .ok next' ∧ SameData next next') ∧
      (∀ (name : String) (pre mid post : List (String × Link)), c.links = pre ++ mid ++ post →
        SameProduced c.producedOutput
          (Chain.producedOutput ⟨pre ++ [(name, .chain mid)] ++ post⟩)) ∧
      ∀ d : Chain, d.leaves.map Prod.snd = c.leaves.map Prod.snd →
        SameProduced c.producedOutput d.producedOutput := by
  have hleaves : ∀ d ∈ c.leaves.map Prod.snd, d.produced.WellFormed := by
    intro d hd
    obtain ⟨e, he, rfl⟩ := List.mem_map.1 hd
    exact (hc.of_mem_leaves he).produced
  have hregroup : ∀ d : Chain, d.leaves.map Prod.snd = c.leaves.map Prod.snd →
      SameProduced c.producedOutput d.producedOutput := by
    intro d hd
    have hother := Chain.producedOutput_leaves (hd ▸ hleaves)
    rw [hd] at hother
    exact (Chain.producedOutput_leaves hleaves).trans hother.symm
  refine ⟨fun working hworking => ?_, fun name pre mid post hlinks => hregroup _ ?_, hregroup⟩
  · have hproduced : c.producedOutput.WellFormed := wellFormed_netEffect (produced_leaves hleaves).1
    obtain ⟨next, behind, hnext, hbehind, hsame⟩ :=
      dataBehind_netEffect (fun l hl => hleaves l.2 (List.mem_map_of_mem hl)) hworking
    obtain ⟨first, second, hfirst, hsecond, hsame'⟩ :=
      effectOn_alike hproduced (wellFormed_netEffect hleaves) (Chain.producedOutput_leaves hleaves)
        hworking (SameData.refl working)
    obtain rfl : second = next := Except.ok.inj (hsecond.symm.trans hnext)
    exact ⟨first, behind, hfirst, hbehind, hsame'.trans hsame⟩
  · unfold Chain.leaves
    rw [hlinks, linkLeaves_append, linkLeaves_append, linkLeaves_append, linkLeaves_append,
      linkLeaves, linkLeaves, Link.leaves, List.append_nil]
    simp only [List.map_append]
    rw [map_snd_linkLeaves mid _ ""]

/-- A chain that edits a record, drops it, and edits it again, two levels down. -/
def Chain.editingSample : Chain :=
  ⟨[("open", .stage { produced := [("k", .modify [("x", .drop), ("y", .set (.scalar .float))])] }),
    ("inner", .chain [
      ("edit", .stage { produced := [("k", .modify [("x", .type (.scalar .integer)), ("z", .drop)]),
        ("v", .set (.handle "Model"))] }),
      ("deep", .chain [
        ("drop", .stage { produced := [("k", .drop)] }),
        ("again", .stage { produced := [("k", .modify [("x", .drop), ("w", .modify [])])] })])])]⟩

/-- The sample on a record and on a text that it replaces. -/
theorem Chain.producedOutput_net_editing :
    ∃ next next',
      effectOn {} editingSample.producedOutput
        [("k", .type (.record [("x", .scalar .string)] none)), ("v", .text "raw")] = .ok next ∧
      dataBehind {} editingSample.leaves
        [("k", .type (.record [("x", .scalar .string)] none)), ("v", .text "raw")] = .ok next' ∧
      SameData next next' := by
  have hworking : ∀ e ∈ ([("k", .type (.record [("x", .scalar .string)] none)),
      ("v", .text "raw")] : Entries Value), Graph.Readable {} e.2 := by
    simp only [List.forall_mem_cons]
    exact ⟨Graph.readable_type _ _, Graph.observable_text _ _ _, fun _ h => absurd h List.not_mem_nil⟩
  exact (Chain.producedOutput_net (by decide)).1 _ fun _ v hv =>
    hworking (_, v) (Entries.mem_of_find? hv)

end SchemaFlow
