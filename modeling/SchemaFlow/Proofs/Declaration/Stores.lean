import SchemaFlow.Declaration.Compile
import SchemaFlow.Proofs.Entries.Distinct
import SchemaFlow.Proofs.Steps

/-!
# Tables filled from a declaration

The compiler goes through the entries of a table, makes something of each content and stores it under
the entry's name. Schemas and productions are filled in this way, at every depth; what can be said of
the table that arises does not depend on what is made of the contents.

* `Stores`: a table is filled with what `R` makes of the entries of another.
* `Stores.find?`: every name is kept but that of the ancestor.
* `Graph.stores_of_fillTexts`: what the compiler stores.
-/

namespace SchemaFlow

/-- What `R` makes of the entries is stored one after the other; `partNames` are the names that the
    ancestor keeps. -/
inductive Stores {α : Type} (partNames : α → List String) (R : Value → α → Prop) :
    Filling α → Entries Value → Filling α → Prop
  | nil (f : Filling α) : Stores partNames R f [] f
  | cons {f f' last : Filling α} {key : String} {v : Value} {a : α} {rest : Entries Value} :
      R v a → f.store (partNames a) key a = some f' → Stores partNames R f' rest last →
      Stores partNames R f ((key, v) :: rest) last

/-- A table has exactly the names of another but that of the ancestor, and for each of them what `R`
    makes of the content. -/
structure Entries.Declares {α : Type} (R : Value → α → Prop) (es : Entries Value)
    (s : Entries α) : Prop where
  keys : ∀ key, s.has key = true ↔ key ≠ ancestorName ∧ es.has key = true
  contents : ∀ key v a, es.find? key = some v → s.find? key = some a → R v a

/-- Where nothing is listed nothing is declared. -/
theorem Entries.declares_nil {α : Type} (R : Value → α → Prop) : Entries.Declares R [] [] where
  keys key := by simp [Entries.has]
  contents key v a hv := by cases hv

namespace Stores

variable {α : Type} {partNames : α → List String} {R : Value → α → Prop} {f last : Filling α}
  {es : Entries Value}

/-- What a step stores: the ancestor, or an entry in its place. -/
theorem store_cases {f f' : Filling α} {kept : List String} {name : String} {a : α}
    (h : f.store kept name a = some f') :
    name = ancestorName ∧ f'.entries = f.entries ∨
      name ≠ ancestorName ∧ f'.entries = f.entries.insert name a := by
  by_cases he : name = ancestorName
  · subst he
    rw [Filling.store_ancestor] at h
    cases h
    exact Or.inl ⟨rfl, rfl⟩
  · exact Or.inr ⟨he, (Filling.store_entry he h).1⟩

/-- **A name has what is made of its content**; that of the ancestor, and a name that is not among
    the entries, has what it had. -/
theorem find? (h : Stores partNames R f es last) : es.Distinct → ∀ key,
    match es.find? key with
    | some v => (key ≠ ancestorName → ∃ a, R v a ∧ last.entries.find? key = some a) ∧
        (key = ancestorName → last.entries.find? key = f.entries.find? key)
    | none => last.entries.find? key = f.entries.find? key := by
  induction h with
  | nil f => exact fun _ key => rfl
  | @cons f f' last name v a rest hv hstore _ ih =>
      intro hd key
      obtain ⟨hnew, hrest⟩ := Entries.distinct_cons_iff.1 hd
      have hlater := ih hrest key
      rw [Entries.find?_cons]
      by_cases hkey : name = key
      · subst hkey
        rw [hnew] at hlater
        rw [if_pos rfl]
        dsimp only at hlater ⊢
        rcases store_cases hstore with ⟨he, hentries⟩ | ⟨he, hentries⟩
        · rw [hlater, hentries]
          exact ⟨fun hne => absurd he hne, fun _ => rfl⟩
        · rw [hlater, hentries, Entries.find?_insert, if_pos rfl]
          exact ⟨fun _ => ⟨a, hv, rfl⟩, fun e => absurd e he⟩
      · have hsame : f'.entries.find? key = f.entries.find? key := by
          rcases store_cases hstore with ⟨-, hentries⟩ | ⟨-, hentries⟩
          · rw [hentries]
          · rw [hentries, Entries.find?_insert, if_neg (Ne.symm hkey)]
        rw [hsame] at hlater
        rw [if_neg hkey]
        exact hlater

/-- **A table that is filled from nothing has the names of the entries.** -/
theorem declares (h : Stores partNames R {} es last) (hd : es.Distinct) :
    Entries.Declares R es last.entries where
  keys key := by
    have hkey := h.find? hd key
    rw [Entries.has, Entries.has]
    cases hv : es.find? key with
    | none =>
        rw [hv] at hkey
        dsimp only at hkey
        rw [hkey]
        simp
    | some v =>
        rw [hv] at hkey
        obtain ⟨hproper, hancestor⟩ := hkey
        by_cases he : key = ancestorName
        · rw [hancestor he]
          simp [he]
        · obtain ⟨a, -, ha⟩ := hproper he
          rw [ha]
          simp [he]
  contents key v a hv ha := by
    have hkey := h.find? hd key
    rw [hv] at hkey
    obtain ⟨hproper, hancestor⟩ := hkey
    by_cases he : key = ancestorName
    · rw [hancestor he] at ha
      cases ha
    · obtain ⟨b, hb, hfound⟩ := hproper he
      rw [ha] at hfound
      cases hfound
      exact hb

theorem distinct (h : Stores partNames R f es last) : f.entries.Distinct →
    last.entries.Distinct := by
  induction h with
  | nil f => exact id
  | cons _ hstore _ ih =>
      intro hd
      refine ih ?_
      rcases store_cases hstore with ⟨-, hentries⟩ | ⟨-, hentries⟩
      · rw [hentries]
        exact hd
      · rw [hentries]
        exact hd.insert _ _

theorem mono {S : Value → α → Prop} (h : Stores partNames R f es last)
    (hRS : ∀ v a, (∃ key, (key, v) ∈ es) → R v a → S v a) : Stores partNames S f es last := by
  induction h with
  | nil f => exact .nil f
  | @cons f f' last name v a rest hv hstore _ ih =>
      refine .cons (hRS v a ⟨name, List.mem_cons_self⟩ hv) hstore (ih fun w b hw => ?_)
      obtain ⟨key, hkey⟩ := hw
      exact hRS w b ⟨key, List.mem_cons_of_mem _ hkey⟩

end Stores

namespace Graph

/-- Stores what `make` makes of the entries of a table. -/
def fillTexts {α : Type} (partNames : α → List String) (make : Value → String → Except Fault α)
    (path : String) : Filling α → Entries Value → Except Fault (Filling α)
  | f, [] => .ok f
  | f, (key, v) :: rest => do
    let a ← make v (path ++ "." ++ key)
    match f.store (partNames a) key a with
    | some f => fillTexts partNames make path f rest
    | none => .error (.sealed key)

/-- A schema is filled with the types that the contents spell. -/
theorem fillTypeTexts_eq (path : String) : ∀ (es : Entries Value) (f : Filling TypeSpec),
    fillTypeTexts path f es = fillTexts TypeSpec.partNames typeTextOf path f es
  | [], _ => rfl
  | (key, v) :: es, f => by
      rw [fillTypeTexts, fillTexts]
      refine congrArg _ (funext fun t => ?_)
      cases f.store t.partNames key t with
      | none => rfl
      | some f' => exact fillTypeTexts_eq path es f'

/-- The productions of a stage are filled with those that the contents spell. -/
theorem fillProducedTexts_eq (g : Graph) (sub : Value → String → Except Fault Produced)
    (path : String) : ∀ (es : Entries Value) (f : Filling Production),
    g.fillProducedTexts sub path f es =
      fillTexts Production.partNames (g.productionTextOf sub) path f es
  | [], _ => rfl
  | (key, v) :: es, f => by
      rw [fillProducedTexts, fillTexts]
      refine congrArg _ (funext fun p => ?_)
      cases f.store p.partNames key p with
      | none => rfl
      | some f' => exact fillProducedTexts_eq g sub path es f'

theorem stores_of_fillTexts {α : Type} {partNames : α → List String}
    {make : Value → String → Except Fault α} {path : String} : ∀ {es : Entries Value}
    {f last : Filling α}, fillTexts partNames make path f es = .ok last →
      Stores partNames (fun v a => ∃ at', make v at' = .ok a) f es last
  | [], f, _, h => by
      cases h
      exact .nil f
  | (key, v) :: es, f, last, h => by
      rw [fillTexts] at h
      obtain ⟨a, ha, hmore⟩ := Step.bind_eq_ok.1 h
      cases hstore : f.store (partNames a) key a with
      | none =>
          rw [hstore] at hmore
          cases hmore
      | some f' =>
          rw [hstore] at hmore
          exact .cons ⟨_, ha⟩ hstore (stores_of_fillTexts hmore)

end Graph

end SchemaFlow
