import SchemaFlow.Proofs.Observation.Acyclic

/-!
# How deep an observation goes

An observation goes down into what a container holds, and into a container that it is inside of it
does not go again. So it comes to an end, unless a map stands inside one of its own keys: keys are
observed from the start. Here a value is observed by a walk that remembers nothing but the containers
it is inside of, that may only go down so many steps, and that has a test of its own by which it
shows a container as a handle.

* `Graph.observeTo_eq`: where no map is reached from its own keys, the walk does not need more steps
  than there are pairs of containers, and shows what the observation shows. It makes no difference
  which test it has, as long as the test lets it stop only at containers that the walk is inside of,
  and makes it stop at those of them that hold themselves.
* `Graph.Acyclic.observeTo_eq`: in a value without cycles the walk does not stop anywhere.
* `Graph.KeysApart.ends`: so an observation of such a value does not fail for want of an end.
-/

namespace SchemaFlow

namespace Graph

/-! ## 1. Keys that do not lead back -/

/-- No map in a value is reached from one of its own keys. -/
def KeysApart (g : Graph) (v : Value) : Prop :=
  ∀ id entries, g.Reaches v (.node id) → g.node? id = some (.map entries) →
    ∀ e ∈ entries, ¬ g.Reaches e.1 (.node id)

variable {g : Graph} {v : Value}

theorem KeysApart.of_holds (h : g.KeysApart v) {w : Value} (hvw : g.Holds v w) : g.KeysApart w :=
  fun id entries hid => h id entries (.head hvw hid)

theorem lt_size_of_holds {id : Nat} {w : Value} (h : g.Holds (.node id) w) : id < g.size := by
  unfold Holds held at h
  dsimp only at h
  cases hnode : g.node? id with
  | none =>
      rw [hnode] at h
      cases h
  | some n => exact lt_size_of_node? hnode

theorem holds_key {id : Nat} {entries : List (Value × Value)}
    (hnode : g.node? id = some (.map entries)) {e : Value × Value} (he : e ∈ entries) :
    g.Holds (.node id) e.1 := by
  unfold Holds held
  simp only [hnode]
  exact List.mem_append_left _ (List.mem_map_of_mem he)

/-- In a value without cycles no key leads back. -/
theorem Acyclic.keysApart (hv : g.Acyclic v) : g.KeysApart v := by
  intro id entries hid hnode e he hback
  exact hv _ hid (.head' (holds_key hnode he) hback)

/-! ## 2. Walks of a given depth -/

/-- Observes a value by a walk that goes down `n` steps, inside the containers of `visiting`. Where
    `again` says so a container is shown as a handle, and too far down `below` is shown. Keys of maps
    are observed from the start. -/
def observeTo (g : Graph) (again : List Nat → Nat → Bool) (below : Except Fault TypeSpec) :
    Nat → List Nat → Hint → Value → Except Fault TypeSpec
  | 0, _, _, _ => below
  | n + 1, visiting, hint, v =>
    match v with
    | .node id =>
      if again visiting id then handle (g.label (.node id))
      else
        g.nodeType (fun hint w => observeTo g again below n (id :: visiting) hint w)
          (fun w => observeTo g again below n [] .none w) hint id
    | v => g.observeAt [] [] hint v

/-- What is no node is shown as it is on its own. -/
theorem observeTo_not_node {again : List Nat → Nat → Bool} {below : Except Fault TypeSpec} {n : Nat}
    {visiting : List Nat} {hint : Hint} (hv : ∀ id, v ≠ .node id) :
    g.observeTo again below (n + 1) visiting hint v = g.observeAt [] [] hint v := by
  cases v with
  | node id => exact absurd rfl (hv id)
  | _ => rfl

/-- A test that stops a walk through a value: it stops the walk only at containers that it is inside
    of, and at all of these that hold themselves. -/
structure Stops (g : Graph) (v : Value) (again : List Nat → Nat → Bool) : Prop where
  inside : ∀ visiting id, again visiting id = true → id ∈ visiting
  looped : ∀ visiting id, g.Reaches v (.node id) → id ∈ visiting →
    Relation.TransGen g.Holds (.node id) (.node id) → again visiting id = true

theorem Stops.of_holds {again : List Nat → Nat → Bool} (h : g.Stops v again) {w : Value}
    (hvw : g.Holds v w) : g.Stops w again :=
  ⟨h.inside, fun visiting id hid => h.looped visiting id (.head hvw hid)⟩

/-- The test of the observation itself: whether the walk is inside of the container. -/
theorem stops_contains (g : Graph) (v : Value) : g.Stops v fun visiting id => visiting.contains id :=
  ⟨fun visiting id h => by simpa using h, fun visiting id _ h _ => by simpa using h⟩

/-- A value without cycles needs no test. -/
theorem Acyclic.stops (hv : g.Acyclic v) : g.Stops v fun _ _ => false :=
  ⟨fun _ _ h => absurd h Bool.false_ne_true, fun _ _ hid _ hloop => absurd hloop (hv _ hid)⟩

/-- The steps that are left to a walk: into what containers hold, and anew into keys. -/
def stepsLeft (g : Graph) (keyed visiting : List Nat) : Nat :=
  g.unvisited keyed * (g.size + 1) + g.unvisited visiting

theorem unvisited_le_size (g : Graph) (visited : List Nat) : g.unvisited visited ≤ g.size := by
  have hcount : g.unvisited visited ≤ (List.range g.size).length := List.countP_le_length
  rwa [List.length_range] at hcount

/-- A step into a container leaves fewer steps. -/
theorem stepsLeft_visit {id : Nat} (hid : id < g.size) {keyed visiting : List Nat}
    (hnew : id ∉ visiting) : g.stepsLeft keyed (id :: visiting) < g.stepsLeft keyed visiting := by
  have hless := unvisited_cons_lt hid hnew
  unfold stepsLeft
  omega

/-- A step into a key leaves fewer steps, though the containers of the walk are forgotten. -/
theorem stepsLeft_key {id : Nat} (hid : id < g.size) {keyed : List Nat} (hnew : id ∉ keyed)
    (visiting : List Nat) : g.stepsLeft (id :: keyed) [] < g.stepsLeft keyed visiting := by
  have hless := unvisited_cons_lt hid hnew
  have hrest := g.unvisited_le_size []
  have hstep : (g.unvisited (id :: keyed) + 1) * (g.size + 1) ≤ g.unvisited keyed * (g.size + 1) :=
    Nat.mul_le_mul_right _ hless
  unfold stepsLeft
  rw [Nat.add_mul, Nat.one_mul] at hstep
  omega

/-- **A walk of a value whose maps are apart from their keys shows what the observation shows.** The
    walk is inside of the containers of `visiting`, which lead to the value, and in keys of the maps
    of `keyed`, which the value does not lead back to. -/
theorem observeTo_eq_observeAt {again : List Nat → Nat → Bool} (below : Except Fault TypeSpec) :
    ∀ {n : Nat} {keyed visiting : List Nat} {v : Value} (hint : Hint), g.KeysApart v →
      g.Stops v again → (∀ id ∈ keyed, ¬ g.Reaches v (.node id)) →
      (∀ id ∈ visiting, Relation.TransGen g.Holds (.node id) v) →
      g.stepsLeft keyed visiting < n →
      g.observeTo again below n visiting hint v = g.observeAt keyed visiting hint v := by
  intro n
  induction n with
  | zero => exact fun _ _ _ _ _ hn => absurd hn (Nat.not_lt_zero _)
  | succ n ih =>
      intro keyed visiting v hint hapart hstops hkeyed hvisiting hn
      rcases v.not_node_or with hnode | ⟨id, rfl⟩
      · rw [observeTo_not_node hnode]
        exact observeAt_not_node g [] [] keyed visiting hint hnode
      rw [observeTo]
      by_cases hmem : id ∈ visiting
      · -- the walk is inside of the container, and so the container is inside of itself
        rw [if_pos (hstops.looped visiting id .refl hmem (hvisiting id hmem)),
          observeAt_visited g keyed hint hmem]
      · have hgo : ¬ again visiting id = true := fun h => hmem (hstops.inside visiting id h)
        have hout : id ∉ keyed := fun h => hkeyed id h .refl
        rw [if_neg hgo, observeAt_node g hint hmem fun _ _ => hout]
        refine nodeType_congr_of_keys hint (fun entries hmap e he => ?_) (fun w hw hint => ?_)
        · have hw := holds_key hmap he
          refine ih .none (hapart.of_holds hw) (hstops.of_holds hw) (fun other hother => ?_)
            (fun _ h => absurd h List.not_mem_nil) ?_
          · rcases List.mem_cons.1 hother with rfl | hother
            · exact hapart other entries .refl hmap e he
            · exact fun hback => hkeyed other hother (.head hw hback)
          · exact Nat.lt_of_lt_of_le (stepsLeft_key (lt_size_of_node? hmap) hout visiting)
              (Nat.le_of_lt_succ hn)
        · refine ih hint (hapart.of_holds hw) (hstops.of_holds hw)
            (fun other hother hback => hkeyed other hother (.head hw hback))
            (fun other hother => ?_) ?_
          · rcases List.mem_cons.1 hother with rfl | hother
            · exact .single hw
            · exact (hvisiting other hother).tail hw
          · exact Nat.lt_of_lt_of_le (stepsLeft_visit (lt_size_of_holds hw) hmem)
              (Nat.le_of_lt_succ hn)

/-- As many steps as there are pairs of containers, and a few, are enough. -/
theorem stepsLeft_lt (g : Graph) {n : Nat} (hn : (g.size + 1) * (g.size + 1) ≤ n) :
    g.stepsLeft [] [] < n := by
  have hall := g.unvisited_le_size []
  have hkeys : g.unvisited [] * (g.size + 1) ≤ g.size * (g.size + 1) := Nat.mul_le_mul_right _ hall
  unfold stepsLeft
  rw [Nat.add_mul, Nat.one_mul] at hn
  omega

/-- **A value whose maps are apart from their keys is observed in a bounded number of steps**,
    without a memory of the keys, and shown as a handle are only containers inside themselves. -/
theorem observeTo_eq (hv : g.KeysApart v) {again : List Nat → Nat → Bool} (hstops : g.Stops v again)
    (below : Except Fault TypeSpec) {n : Nat} (hn : (g.size + 1) * (g.size + 1) ≤ n) (hint : Hint) :
    g.observeTo again below n [] hint v = g.observeAt [] [] hint v :=
  observeTo_eq_observeAt below hint hv hstops (fun _ h => absurd h List.not_mem_nil)
    (fun _ h => absurd h List.not_mem_nil) (g.stepsLeft_lt hn)

/-- **Nothing in a value without cycles is shown as a handle** because the walk is inside of it. -/
theorem Acyclic.observeTo_eq (hv : g.Acyclic v) (below : Except Fault TypeSpec) {n : Nat}
    (hn : (g.size + 1) * (g.size + 1) ≤ n) (hint : Hint) :
    g.observeTo (fun _ _ => false) below n [] hint v = g.observeAt [] [] hint v :=
  Graph.observeTo_eq hv.keysApart hv.stops below hn hint

end Graph

/-! ## 3. Ends -/

/-- A computation does not fail for want of an end. -/
def Ends {α : Type} (r : Except Fault α) : Prop := r ≠ .error .endless

section Ends

variable {obs : Hint → Value → Except Fault TypeSpec} {f : Value → Except Fault TypeSpec}

theorem ends_ok {α : Type} (a : α) : Ends (.ok a : Except Fault α) := by simp [Ends]

theorem Ends.bind {α β : Type} {r : Except Fault α} {next : α → Except Fault β} (hr : Ends r)
    (hnext : ∀ a, r = .ok a → Ends (next a)) : Ends (r >>= next) := by
  cases r with
  | error e =>
      intro h
      cases h
      exact hr rfl
  | ok a => exact hnext a rfl

theorem ends_firstMisfit (e : TypeSpec) : ∀ {vs : List Value} (first : Option TypeSpec),
    (∀ v, Ends (f v)) → Ends (firstMisfit f e first vs)
  | [], _, _ => ends_ok _
  | v :: vs, first, h => by
      rw [firstMisfit]
      refine (h v).bind fun t _ => ?_
      split
      · exact ends_ok t
      · exact ends_firstMisfit e _ h

theorem ends_elementType (e : Option TypeSpec) (vs : List Value) (h : ∀ v, Ends (f v)) :
    Ends (elementType f e vs) := by
  cases e with
  | some e => exact ends_firstMisfit e none h
  | none =>
      cases vs with
      | nil => exact ends_ok _
      | cons v vs => exact h v

theorem ends_listType (hint : Hint) (items : List Value) (h : ∀ hint v, Ends (obs hint v)) :
    Ends (listType obs hint items) :=
  (ends_elementType _ items (h _)).bind fun _ _ => ends_ok _

theorem ends_observeFields (fields : Hint) : ∀ (out : Filling TypeSpec) (entries : Entries Value),
    (∀ hint v, Ends (obs hint v)) → Ends (observeFields obs fields out entries)
  | out, [], _ => ends_ok out
  | out, (name, v) :: rest, h => by
      rw [observeFields]
      split
      · exact ends_observeFields fields out rest h
      · refine (h _ v).bind fun t _ => ?_
        split
        · exact ends_observeFields fields _ rest h
        · simp [Ends]

theorem ends_tableType (hint : Hint) (entries : Entries Value) (h : ∀ hint v, Ends (obs hint v)) :
    Ends (tableType obs hint entries) := by
  unfold tableType
  split
  · refine (ends_observeFields _ _ entries h).bind fun out _ => ?_
    split
    · simp [Ends, refuse]
    · exact ends_ok _
  · exact (ends_elementType _ _ (h _)).bind fun _ _ => ends_ok _

theorem ends_keyKinds : ∀ (kinds : List ScalarKind) (keys : List Value), (∀ v, Ends (f v)) →
    Ends (keyKinds f kinds keys)
  | kinds, [], _ => ends_ok kinds
  | kinds, key :: keys, h => by
      rw [keyKinds]
      refine (h key).bind fun t _ => ?_
      cases t <;> exact ends_keyKinds _ keys h

theorem ends_keyKind (hint : Hint) (kinds : List ScalarKind) : Ends (keyKind hint kinds) := by
  have hhinted : Ends (hintedKey hint) := by
    unfold hintedKey
    split
    · exact ends_ok _
    · split
      · simp [Ends, refuseHere]
      · exact ends_ok _
      · exact ends_ok _
    · exact ends_ok _
  unfold keyKind
  split
  · exact ends_ok _
  · split
    · exact hhinted
    · exact ends_ok _

theorem ends_mapType (hint : Hint) (entries : List (Value × Value)) (hkey : ∀ v, Ends (f v))
    (h : ∀ hint v, Ends (obs hint v)) : Ends (mapType obs f hint entries) := by
  refine (ends_keyKinds [] _ hkey).bind fun kinds _ => ?_
  refine (ends_elementType _ _ (h _)).bind fun t _ => ?_
  exact (ends_keyKind hint kinds).bind fun _ _ => ends_ok _

theorem ends_handle (label : String) : Ends (Graph.handle label) := by
  unfold Graph.handle
  split <;> simp [Ends, refuseHere]

theorem ends_shapeDimensions : ∀ (index : Nat) (shape : List (Option Float)),
    Ends (shapeDimensions index shape)
  | _, [] => ends_ok _
  | index, none :: rest => by
      rw [shapeDimensions]
      exact ends_shapeDimensions (index + 1) rest
  | index, some x :: rest => by
      rw [shapeDimensions]
      split
      · split
        · exact (ends_shapeDimensions (index + 1) rest).bind fun _ _ => ends_ok _
        · simp [Ends, refuseHere]
      · exact (ends_shapeDimensions (index + 1) rest).bind fun _ _ => ends_ok _

theorem ends_describedType (label dtype : String) (shape : List (Option Float)) :
    Ends (describedType label dtype shape) := by
  unfold describedType
  split
  · exact (ends_shapeDimensions 0 shape).bind fun _ _ => ends_ok _
  · split
    · simp [Ends, refuseHere]
    · split
      · simp [Ends, refuseHere]
      · exact ends_handle label

theorem ends_leafType (v : Value) : Ends (leafType v) := by
  unfold leafType
  split <;> first | exact ends_ok _ | exact ends_handle _

end Ends

namespace Graph

variable {g : Graph} {v : Value}

theorem ends_nodeType {obs : Hint → Value → Except Fault TypeSpec}
    {keyObs : Value → Except Fault TypeSpec} (hint : Hint) (id : Nat) (hkey : ∀ v, Ends (keyObs v))
    (h : ∀ hint v, Ends (obs hint v)) : Ends (g.nodeType obs keyObs hint id) := by
  unfold nodeType
  split
  · exact ends_tableType hint [] fun _ => ends_leafType
  · exact ends_listType hint _ h
  · exact ends_mapType hint _ hkey h
  · split
    · exact ends_describedType _ _ _
    · split
      · exact ends_handle _
      · exact ends_handle _
      · exact ends_tableType hint _ h
      · exact ends_tableType hint _ h
      · exact ends_tableType hint _ h

theorem ends_founderType (hint : Hint) (f : Family) : Ends (g.founderType hint f) := by
  have hparts : Ends (g.partsOf (.founder f)) := by
    unfold partsOf
    split <;> simp [Ends]
  refine hparts.bind fun entries _ => ?_
  split
  · exact ends_tableType hint entries fun _ => ends_leafType
  · exact ends_leafType _

/-- What is no node holds nothing that an observation could get lost in. -/
theorem ends_observeAt_not_node (hint : Hint) (hv : ∀ id, v ≠ .node id) :
    Ends (g.observeAt [] [] hint v) := by
  cases v with
  | node id => exact absurd rfl (hv id)
  | fieldTable fs ancestor =>
      cases ancestor with
      | some t =>
          rw [observeAt]
          exact ends_handle _
      | none =>
          rw [observeAt]
          exact ends_tableType hint _ fun _ => ends_leafType
  | drop =>
      rw [observeAt]
      exact ends_tableType hint _ fun _ => ends_leafType
  | sizeList ds =>
      rw [observeAt]
      exact ends_listType hint _ fun _ => ends_leafType
  | founder f =>
      by_cases hf : f = .list
      · subst hf
        rw [observeAt]
        exact ends_listType hint [] fun _ => ends_leafType
      · rw [observeAt_founder g [] [] hint hf]
        exact ends_founderType hint f
  | _ =>
      rw [observeAt_leaf g [] [] hint rfl]
      exact ends_leafType _

/-- **A walk of a given depth does not fail for want of an end.** -/
theorem ends_observeTo (again : List Nat → Nat → Bool) {below : Except Fault TypeSpec}
    (hbelow : Ends below) : ∀ (n : Nat) (visiting : List Nat) (hint : Hint) (v : Value),
      Ends (g.observeTo again below n visiting hint v)
  | 0, _, _, _ => hbelow
  | n + 1, visiting, hint, v => by
      rcases v.not_node_or with hnode | ⟨id, rfl⟩
      · rw [observeTo_not_node hnode]
        exact ends_observeAt_not_node hint hnode
      rw [observeTo]
      split
      · exact ends_handle _
      · exact ends_nodeType hint id (fun w => ends_observeTo again hbelow n [] .none w)
          fun hint w => ends_observeTo again hbelow n (id :: visiting) hint w

/-- **A value whose maps are apart from their keys is observed to an end.** -/
theorem KeysApart.ends (hv : g.KeysApart v) (hint : Hint) : Ends (g.observeAt [] [] hint v) := by
  rw [← observeTo_eq hv (g.stops_contains v) (.ok (.handle "below")) (Nat.le_refl _) hint]
  exact ends_observeTo _ (ends_ok _) _ [] hint v

end Graph

end SchemaFlow
