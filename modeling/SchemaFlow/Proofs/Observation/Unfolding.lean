import Mathlib.Data.List.Basic
import SchemaFlow.Proofs.Observation.Nodes
import SchemaFlow.Proofs.Observation.Sharing

/-!
# Copies that share nothing

A value without cycles has a copy that shares nothing: a container of its own for every path that
leads to a container. The paths are finitely many, since none leads to one container twice
(`Graph.Acyclic.exists_paths`), and the containers for them find room after those of the graph.

* `Graph.Acyclic.exists_unshared`: in a larger graph a value without cycles has such a copy.
* `Graph.observe_containers`: observations of containers that hold themselves, and of shared ones.
-/

namespace SchemaFlow

/-! ## 1. Paths -/

namespace Graph

/-- What a path leads to from a value. The last step of the path comes first. -/
def along (g : Graph) (v : Value) : List Nat → Option Value
  | [] => some v
  | i :: path => (g.along v path).bind fun w => (g.held w)[i]?

variable {g : Graph} {v : Value}

/-- A path goes on from what its first step leads to. -/
theorem along_append (i : Nat) : ∀ path : List Nat,
    g.along v (path ++ [i]) = ((g.held v)[i]?).bind fun w => g.along w path
  | [] => by
      rw [List.nil_append, along, along, Option.bind_some]
      cases (g.held v)[i]? <;> rfl
  | j :: path => by
      rw [List.cons_append, along, along_append i path]
      cases (g.held v)[i]? <;> rfl

theorem reaches_of_along : ∀ {path : List Nat} {w : Value}, g.along v path = some w → g.Reaches v w
  | [], w, h => by
      obtain rfl : v = w := by simpa [along] using h
      exact .refl
  | i :: path, w, h => by
      rw [along] at h
      obtain ⟨u, hu, hw⟩ := Option.bind_eq_some_iff.1 h
      exact (reaches_of_along hu).tail (List.mem_of_getElem? hw)

/-- **A value without cycles has finitely many paths.** -/
theorem Acyclic.exists_paths (hv : g.Acyclic v) :
    ∃ paths : List (List Nat), ∀ path, (g.along v path).isSome → path ∈ paths := by
  have hacc := hv.acc
  induction hacc with
  | intro v _ ih =>
      have hparts : ∀ w, ∃ paths : List (List Nat), g.Holds v w →
          ∀ path, (g.along w path).isSome → path ∈ paths := by
        intro w
        by_cases hw : g.Holds v w
        · obtain ⟨paths, hpaths⟩ := ih w hw (hv.of_holds hw)
          exact ⟨paths, fun _ => hpaths⟩
        · exact ⟨[], fun h => absurd h hw⟩
      choose paths hpaths using hparts
      refine ⟨[] :: (g.held v).zipIdx.flatMap fun e => (paths e.1).map (· ++ [e.2]), ?_⟩
      intro path hpath
      rcases path.eq_nil_or_concat with rfl | ⟨rest, i, rfl⟩
      · exact List.mem_cons_self
      · -- the first step leads to a part, and the rest of the path is one of its paths
        rw [List.concat_eq_append, along_append] at hpath
        obtain ⟨u, hu⟩ := Option.isSome_iff_exists.1 hpath
        obtain ⟨w, hw, hrest⟩ := Option.bind_eq_some_iff.1 hu
        refine List.mem_cons_of_mem _ (List.mem_flatMap.2 ⟨(w, i), ?_, ?_⟩)
        · exact List.mem_zipIdx_iff_getElem?.2 hw
        · rw [List.concat_eq_append]
          refine List.mem_map_of_mem (hpaths w (List.mem_of_getElem? hw) rest ?_)
          exact Option.isSome_iff_exists.2 ⟨u, hrest⟩

end Graph

/-! ## 2. Containers with other contents -/

/-- A value under another number, if it is a container. -/
def Value.moved (id : Nat) : Value → Value
  | .node _ => .node id
  | v => v

theorem Value.moved_of_not_node {id : Nat} {v : Value} (hv : ∀ i, v ≠ .node i) : v.moved id = v := by
  cases v with
  | node i => exact absurd rfl (hv i)
  | _ => rfl

/-- A container that holds other values in the places of its own. -/
def Node.fill (f : Nat → Value → Value) : Node → Node
  | .list items => .list (items.mapIdx f)
  | .object lineage entries => .object lineage (entries.mapIdx fun i e => (e.1, f i e.2))
  | .map entries => .map (entries.mapIdx fun i e => (f i e.1, f (i + entries.length) e.2))

theorem Node.held_fill (f : Nat → Value → Value) (n : Node) :
    (n.fill f).held = n.held.mapIdx f := by
  cases n with
  | list items => rfl
  | object lineage entries =>
      refine List.ext_getElem? fun i => ?_
      simp [Node.fill, Node.held, Function.comp_def]
  | map entries =>
      have hkeys : (entries.mapIdx fun i e => (f i e.1, f (i + entries.length) e.2)).map Prod.fst =
          (entries.map Prod.fst).mapIdx f :=
        List.ext_getElem? fun i => by simp [Function.comp_def]
      have hvalues : (entries.mapIdx fun i e => (f i e.1, f (i + entries.length) e.2)).map Prod.snd =
          (entries.map Prod.snd).mapIdx fun i => f (i + entries.length) :=
        List.ext_getElem? fun i => by simp [Function.comp_def]
      rw [Node.fill, Node.held, Node.held, hkeys, hvalues, List.mapIdx_append, List.length_map]

/-- A container that holds copies is a copy. -/
theorem Node.source_fill {f : Nat → Value → Value} {origin : Nat → Nat} {n : Node}
    (h : ∀ (i : Nat) v, n.held[i]? = some v → (f i v).source origin = v) :
    (n.fill f).source origin = n := by
  cases n with
  | list items =>
      refine congrArg Node.list (List.ext_getElem? fun i => ?_)
      rw [List.getElem?_map, List.getElem?_mapIdx]
      cases hi : items[i]? with
      | none => rfl
      | some v => exact congrArg some (h i v hi)
  | object lineage entries =>
      refine congrArg (Node.object lineage) (List.ext_getElem? fun i => ?_)
      rw [List.getElem?_map, List.getElem?_mapIdx]
      cases hi : entries[i]? with
      | none => rfl
      | some e =>
          have hvalue := h i e.2 (by simp [Node.held, hi])
          simp [hvalue]
  | map entries =>
      refine congrArg Node.map (List.ext_getElem? fun i => ?_)
      rw [List.getElem?_map, List.getElem?_mapIdx]
      cases hi : entries[i]? with
      | none => rfl
      | some e =>
          have hlt : i < (entries.map Prod.fst).length := by
            rw [List.length_map]
            exact (List.getElem?_eq_some_iff.1 hi).1
          have hkey := h i e.1 (by rw [Node.held, List.getElem?_append_left hlt]; simp [hi])
          have hvalue := h (i + entries.length) e.2
            (by simp [Node.held, List.getElem?_append_right, hi])
          simp [hkey, hvalue]

/-! ## 3. A container for each path -/

namespace Graph

/-- All containers in a value are in the graph. -/
def Closed (g : Graph) (v : Value) : Prop := ∀ id, g.Reaches v (.node id) → id < g.size

/-- No container is held in two places of a value. -/
def Unshared (g : Graph) (v : Value) : Prop :=
  ∀ a b (i j id : Nat), g.Reaches v a → g.Reaches v b → (g.held a)[i]? = some (.node id) →
    (g.held b)[j]? = some (.node id) → a = b ∧ i = j

section Unfolding

variable (g : Graph) (v : Value) (paths : List (List Nat))

/-- The number of the container for a path. -/
def place (path : List Nat) : Nat := g.size + paths.idxOf path

/-- The container for a path is filled with those for the paths one step longer. -/
def unfoldedNode (path : List Nat) : Node :=
  match g.along v path with
  | some (.node id) => (g.node id).fill fun i w => w.moved (g.place paths (i :: path))
  | _ => default

/-- A graph with a container for each path from a value. -/
def unfolded : Graph := ⟨g.nodes ++ (paths.map (g.unfoldedNode v paths)).toArray⟩

/-- The container that a path leads to, given the number of the one for the path. -/
def unfoldedOrigin (id : Nat) : Nat :=
  match paths[id - g.size]?.bind (g.along v) with
  | some (.node source) => source
  | _ => id

/-- The paths are all that there are, and do not leave the graph. -/
structure Covers : Prop where
  closed : g.Closed v
  all : ∀ path, (g.along v path).isSome → path ∈ paths

end Unfolding

variable {g : Graph} {v : Value} {paths : List (List Nat)}

theorem node?_unfolded {id : Nat} (hid : id < g.size) :
    (g.unfolded v paths).node? id = g.node? id := Array.getElem?_append_left hid

theorem node?_place {path : List Nat} (hpath : path ∈ paths) :
    (g.unfolded v paths).node? (g.place paths path) = some (g.unfoldedNode v paths path) := by
  have hsize : g.nodes.size ≤ g.place paths path := Nat.le_add_right _ _
  have hindex : g.place paths path - g.nodes.size = paths.idxOf path := Nat.add_sub_cancel_left _ _
  unfold Graph.node? Graph.unfolded
  rw [Array.getElem?_append_right hsize, hindex, List.getElem?_toArray, List.getElem?_map,
    List.getElem?_idxOf hpath, Option.map_some]

namespace Covers

theorem mem {path : List Nat} {w : Value} (h : g.Covers v paths) (hw : g.along v path = some w) :
    path ∈ paths := h.all path (by simp [hw])

theorem lt_size {path : List Nat} {id : Nat} (h : g.Covers v paths)
    (hid : g.along v path = some (.node id)) : id < g.size := h.closed id (reaches_of_along hid)

/-- The container for a path holds what there is for the paths one step longer. -/
theorem held_moved {path : List Nat} {w : Value} (h : g.Covers v paths)
    (hw : g.along v path = some w) :
    (g.unfolded v paths).held (w.moved (g.place paths path)) =
      (g.held w).mapIdx fun i x => x.moved (g.place paths (i :: path)) := by
  cases w with
  | node id =>
      have hnode := node?_of_lt_size (h.lt_size hw)
      have hfilled : g.unfoldedNode v paths path =
          (g.node id).fill fun i x => x.moved (g.place paths (i :: path)) := by
        unfold unfoldedNode
        rw [hw]
      rw [Value.moved, held_node (node?_place (h.mem hw)), hfilled, Node.held_fill,
        held_node hnode]
  | fieldTable fs ancestor =>
      rw [Value.moved_of_not_node (by simp)]
      refine List.ext_getElem? fun i => ?_
      simp [held, Value.moved, Function.comp_def]
  | _ => rfl

/-- Whatever the copy holds is there for a path. -/
theorem exists_path {x : Value} (h : g.Covers v paths)
    (hx : (g.unfolded v paths).Reaches (v.moved (g.place paths [])) x) :
    ∃ path w, g.along v path = some w ∧ x = w.moved (g.place paths path) := by
  induction hx with
  | refl => exact ⟨[], v, rfl, rfl⟩
  | tail _ hstep ih =>
      obtain ⟨path, w, hw, rfl⟩ := ih
      unfold Holds at hstep
      rw [h.held_moved hw] at hstep
      obtain ⟨i, hi, rfl⟩ := List.mem_mapIdx.1 hstep
      refine ⟨i :: path, _, ?_, rfl⟩
      rw [along, hw, Option.bind_some, List.getElem?_eq_getElem hi]

theorem unfoldedOrigin_place {path : List Nat} {id : Nat} (h : g.Covers v paths)
    (hid : g.along v path = some (.node id)) :
    g.unfoldedOrigin v paths (g.place paths path) = id := by
  have hindex : g.place paths path - g.size = paths.idxOf path := Nat.add_sub_cancel_left _ _
  unfold unfoldedOrigin
  rw [hindex, List.getElem?_idxOf (h.mem hid), Option.bind_some, hid]

theorem source_moved {path : List Nat} {w : Value} (h : g.Covers v paths)
    (hw : g.along v path = some w) :
    (w.moved (g.place paths path)).source (g.unfoldedOrigin v paths) = w := by
  cases w with
  | node id => exact congrArg Value.node (h.unfoldedOrigin_place hw)
  | _ => rfl

/-- **The containers for the paths make a copy.** -/
theorem copies (h : g.Covers v paths) :
    (g.unfolded v paths).Copies (g.unfoldedOrigin v paths) (v.moved (g.place paths [])) v where
  root := h.source_moved rfl
  nodes number hnumber := by
    obtain ⟨path, w, hw, hmoved⟩ := h.exists_path hnumber
    cases w with
    | node id =>
        obtain rfl : number = g.place paths path := Value.node.inj hmoved
        have hlt := h.lt_size hw
        have hnode := node?_of_lt_size hlt
        have hfilled :
            (g.unfoldedNode v paths path).source (g.unfoldedOrigin v paths) = g.node id := by
          unfold unfoldedNode
          rw [hw]
          refine Node.source_fill fun i x hx => h.source_moved ?_
          rw [along, hw, Option.bind_some, held_node hnode, hx]
        unfold CopyAt
        rw [h.unfoldedOrigin_place hw, node?_unfolded hlt, node?_place (h.mem hw), Option.map_some,
          hfilled, hnode]
    | _ => cases hmoved

/-- **The copy shares nothing**: there is one container for each path. -/
theorem unshared (h : g.Covers v paths) :
    (g.unfolded v paths).Unshared (v.moved (g.place paths [])) := by
  -- what is held in a place is there for the path to the place
  have hplace : ∀ {path : List Nat} {w : Value} {i id : Nat}, g.along v path = some w →
      ((g.unfolded v paths).held (w.moved (g.place paths path)))[i]? = some (.node id) →
        i :: path ∈ paths ∧ id = g.place paths (i :: path) := by
    intro path w i id hw hi
    rw [h.held_moved hw, List.getElem?_mapIdx] at hi
    obtain ⟨x, hx, hmoved⟩ := Option.map_eq_some_iff.1 hi
    have hlonger : g.along v (i :: path) = some x := by rw [along, hw, Option.bind_some, hx]
    refine ⟨h.mem hlonger, ?_⟩
    cases x with
    | node source => exact (Value.node.inj hmoved).symm
    | _ => cases hmoved
  intro a b i j id ha hb hi hj
  obtain ⟨path, w, hw, rfl⟩ := h.exists_path ha
  obtain ⟨other, x, hx, rfl⟩ := h.exists_path hb
  obtain ⟨hmem, hid⟩ := hplace hw hi
  obtain ⟨_, hid'⟩ := hplace hx hj
  have hsame : i :: path = j :: other :=
    (List.idxOf_inj hmem).1 (Nat.add_left_cancel (hid.symm.trans hid'))
  obtain ⟨rfl, rfl⟩ := List.cons.inj hsame
  obtain rfl : w = x := Option.some.inj (hw.symm.trans hx)
  exact ⟨rfl, rfl⟩

/-- The value itself holds what it held. -/
theorem held_unfolded {x : Value} (h : g.Covers v paths) (hx : g.Reaches v x) :
    (g.unfolded v paths).held x = g.held x := by
  cases x with
  | node id =>
      unfold held
      simp only [node?_unfolded (h.closed id hx)]
  | _ => rfl

theorem reaches_of_unfolded {x : Value} (h : g.Covers v paths)
    (hx : (g.unfolded v paths).Reaches v x) : g.Reaches v x := by
  induction hx with
  | refl => exact .refl
  | tail _ hstep ih =>
      unfold Holds at hstep
      rw [h.held_unfolded ih] at hstep
      exact ih.tail hstep

theorem acyclic (h : g.Covers v paths) (hv : g.Acyclic v) : (g.unfolded v paths).Acyclic v := by
  intro x hx hloop
  have hreach := h.reaches_of_unfolded hx
  have hback : ∀ y, Relation.TransGen (g.unfolded v paths).Holds x y →
      Relation.TransGen g.Holds x y := by
    intro y hy
    induction hy with
    | single hstep =>
        unfold Holds at hstep
        rw [h.held_unfolded hreach] at hstep
        exact .single hstep
    | tail _ hstep ih =>
        unfold Holds at hstep
        rw [h.held_unfolded (hreach.trans ih.to_reflTransGen)] at hstep
        exact ih.tail hstep
  exact hv x hreach (hback x hloop)

end Covers

/-- **A value without cycles has a copy that shares nothing**, in a graph with more containers. -/
theorem Acyclic.exists_unshared (hv : g.Acyclic v) (hclosed : g.Closed v) :
    ∃ (larger : Graph) (origin : Nat → Nat) (w : Value),
      (∀ id < g.size, larger.node? id = g.node? id) ∧ larger.Acyclic v ∧
        larger.Copies origin w v ∧ larger.Unshared w := by
  obtain ⟨paths, hpaths⟩ := hv.exists_paths
  have hcovers : g.Covers v paths := ⟨hclosed, hpaths⟩
  exact ⟨g.unfolded v paths, g.unfoldedOrigin v paths, v.moved (g.place paths []),
    fun _ hid => node?_unfolded hid, hcovers.acyclic hv, hcovers.copies, hcovers.unshared⟩

/-! ## 4. Containers that hold themselves, and shared ones -/

/-- **Observations of containers.** Where no map is reached from its own keys an observation comes to
    an end. It shows what a walk shows that goes down a bounded number of steps, stops only at
    containers that it is inside of, and need not stop at those of them that do not hold themselves.
    In a value without cycles the walk stops nowhere; such a value is observed as each of its copies,
    and it has one that shares nothing. -/
theorem observe_containers (g : Graph) :
    (∀ v, g.KeysApart v → ∀ hint : Option TypeSpec,
      g.observe hint v ≠ .error .endless ∧
        ∀ again, g.Stops v again → ∀ below n, (g.size + 1) * (g.size + 1) ≤ n →
          g.observeTo again below n [] (.ofType? hint) v = g.observe hint v) ∧
    (∀ v, g.Acyclic v → ∀ hint : Option TypeSpec,
      (∀ below n, (g.size + 1) * (g.size + 1) ≤ n →
        g.observeTo (fun _ _ => false) below n [] (.ofType? hint) v = g.observe hint v) ∧
      ∀ origin w, g.Copies origin w v → g.observe hint w = g.observe hint v) ∧
    (∀ v, g.Acyclic v → g.Closed v →
      ∃ (larger : Graph) (origin : Nat → Nat) (w : Value),
        (∀ id < g.size, larger.node? id = g.node? id) ∧ larger.Copies origin w v ∧
          larger.Unshared w ∧
            ∀ hint : Option TypeSpec, larger.observe hint w = larger.observe hint v) := by
  refine ⟨fun v hv hint => ⟨hv.ends _, ?_⟩, fun v hv hint => ⟨?_, ?_⟩, ?_⟩
  · exact fun again hstops below n hn => observeTo_eq hv hstops below hn _
  · exact fun below n hn => hv.observeTo_eq below hn _
  · exact fun origin w hcopy => hcopy.observeAt_eq hv _
  · intro v hv hclosed
    obtain ⟨larger, origin, w, hsame, hacyclic, hcopy, hunshared⟩ := hv.exists_unshared hclosed
    exact ⟨larger, origin, w, hsame, hcopy, hunshared, fun hint => hcopy.observeAt_eq hacyclic _⟩

/-- A list of one list twice, a copy of it that shares nothing, and a map that holds itself. -/
def tangledSample : Graph :=
  ⟨#[.list [.node 1, .node 1], .list [.text "x"], .list [.node 3, .node 4], .list [.text "x"],
    .list [.text "x"], .map [(.text "self", .node 5), (.text "row", .node 0)]]⟩

/-- What the containers of the sample are copies of. -/
def tangledOrigin : Nat → Nat
  | 2 => 0
  | 3 | 4 => 1
  | id => id

theorem tangledSample_keysApart : tangledSample.KeysApart (.node 5) := by
  intro id entries _ hnode e he
  have hkeys : e.1.isContainer = false := by
    match id with
    | 0 | 1 | 2 | 3 | 4 | _ + 6 => cases hnode
    | 5 =>
        obtain rfl := Node.map.inj (Option.some.inj hnode)
        simp only [List.mem_cons, List.not_mem_nil, or_false] at he
        rcases he with rfl | rfl <;> rfl
  exact not_reaches_of_leaf hkeys

/-- The lists of the sample do not lead back to themselves. -/
theorem tangledSample_acyclic : tangledSample.Acyclic (.node 0) := by
  have hleaf : ∀ w ∈ [Value.text "x"], w.isContainer = false := by simp [Value.isContainer]
  have hrow : tangledSample.Acyclic (.node 1) := acyclic_of_holds fun w hw =>
    ⟨acyclic_of_held (held_leaf (hleaf w hw)), not_reaches_of_leaf (hleaf w hw)⟩
  refine acyclic_of_holds fun w hw => ?_
  obtain rfl : w = .node 1 := by simpa [Holds, held, tangledSample, node?] using hw
  exact ⟨hrow, not_reaches_list rfl (by decide) hleaf⟩

theorem tangledSample_copies : tangledSample.Copies tangledOrigin (.node 2) (.node 0) where
  root := rfl
  nodes id _ := by
    match id with
    | 0 | 1 | 2 | 3 | 4 | 5 => rfl
    | id + 6 => rfl

theorem tangledSample_closed : tangledSample.Closed (.node 0) := by
  intro id hid
  rcases Relation.ReflTransGen.cases_tail hid with h | ⟨w, _, hw⟩
  · obtain rfl := Value.node.inj h
    decide
  · rcases hw.cases with ⟨i, rfl, _⟩ | ⟨t, ht⟩
    · have hsize : tangledSample.size = 6 := rfl
      match i with
      | 0 | 2 | 5 =>
          simp [Holds, held, tangledSample, node?] at hw
          omega
      | 1 | 3 | 4 | _ + 6 => simp [Holds, held, tangledSample, node?] at hw
    · cases ht

/-- The map of the sample is observed, its list shows what the copy shows, and there is a copy that
    shares nothing. -/
theorem observe_containers_tangled :
    tangledSample.KeysApart (.node 5) ∧ tangledSample.Acyclic (.node 0) ∧
      tangledSample.Copies tangledOrigin (.node 2) (.node 0) ∧ tangledSample.Closed (.node 0) ∧
      tangledSample.observe none (.node 5) ≠ .error .endless ∧
      tangledSample.observeTo (fun visiting id => visiting.contains id) (.error .endless) 49 [] .none
        (.node 5) = tangledSample.observe none (.node 5) ∧
      tangledSample.observe none (.node 2) = tangledSample.observe none (.node 0) ∧
      ∃ (larger : Graph) (origin : Nat → Nat) (w : Value),
        larger.Copies origin w (.node 0) ∧ larger.Unshared w ∧
          larger.observe none w = larger.observe none (.node 0) := by
  obtain ⟨hlooped, hshared, hcopies⟩ := observe_containers tangledSample
  obtain ⟨hends, hwalk⟩ := hlooped (.node 5) tangledSample_keysApart none
  obtain ⟨larger, origin, w, _, hcopy, hunshared, hsame⟩ :=
    hcopies (.node 0) tangledSample_acyclic tangledSample_closed
  exact ⟨tangledSample_keysApart, tangledSample_acyclic, tangledSample_copies, tangledSample_closed,
    hends, hwalk _ (stops_contains _ _) _ 49 (by decide),
    (hshared (.node 0) tangledSample_acyclic none).2 _ _ tangledSample_copies,
    larger, origin, w, hcopy, hunshared, hsame none⟩

/-- Inside of itself the map is shown as a handle. -/
example : tangledSample.observe none (.node 5) = .ok (.mapping .string (.handle "Map")) := by
  have hwalk := observeTo_eq tangledSample_keysApart (stops_contains _ _) (.error .endless)
    (show (tangledSample.size + 1) * (tangledSample.size + 1) ≤ 49 by decide) .none
  exact hwalk.symm.trans (by cbv)

end Graph

end SchemaFlow
