import Mathlib.Data.List.Forall2
import Mathlib.Data.List.Nodup
import SchemaFlow.Proofs.Entries.Distinct

/-!
# Tables that agree

Two tables agree when they have the same names and, under each name, contents that are related. The
order of the entries does not matter: for tables with distinct names, to agree is to be a permutation
of each other up to related contents (`agree_iff_perm`).
-/

namespace SchemaFlow

/-! ## 1. Related options -/

namespace OptionRel

variable {α β : Type} {R : α → α → Prop}

theorem refl (h : ∀ a, R a a) : ∀ o : Option α, Option.Rel R o o
  | some a => .some (h a)
  | none => .none

theorem symm (h : ∀ a b, R a b → R b a) {o p : Option α} (hop : Option.Rel R o p) :
    Option.Rel R p o := by
  cases hop with
  | some hab => exact .some (h _ _ hab)
  | none => exact .none

theorem trans (h : ∀ a b c, R a b → R b c → R a c) {o p q : Option α} (hop : Option.Rel R o p)
    (hpq : Option.Rel R p q) : Option.Rel R o q := by
  cases hop with
  | some hab =>
      cases hpq with
      | some hbc => exact .some (h _ _ _ hab hbc)
  | none =>
      cases hpq
      exact .none

theorem exists_of_some {a : α} {p : Option α} (h : Option.Rel R (some a) p) :
    ∃ b, p = some b ∧ R a b := by
  cases h with
  | some hab => exact ⟨_, rfl, hab⟩

theorem eq_none {p : Option α} (h : Option.Rel R none p) : p = none := by
  cases h
  rfl

theorem map {S : β → β → Prop} {f : α → β} (h : ∀ a b, R a b → S (f a) (f b)) {o p : Option α}
    (hop : Option.Rel R o p) : Option.Rel S (o.map f) (p.map f) := by
  cases hop with
  | some hab => exact .some (h _ _ hab)
  | none => exact .none

end OptionRel

namespace Entries

variable {α β : Type} {R : α → α → Prop}

/-! ## 2. Agreement -/

/-- Two tables have the same names, and under each name contents that are related. -/
def Agree (R : α → α → Prop) (es fs : Entries α) : Prop :=
  ∀ name, Option.Rel R (es.find? name) (fs.find? name)

theorem Agree.refl (h : ∀ a, R a a) (es : Entries α) : es.Agree R es :=
  fun _ => OptionRel.refl h _

theorem Agree.symm (h : ∀ a b, R a b → R b a) {es fs : Entries α} (hef : es.Agree R fs) :
    fs.Agree R es := fun name => OptionRel.symm h (hef name)

theorem Agree.trans (h : ∀ a b c, R a b → R b c → R a c) {es fs gs : Entries α}
    (hef : es.Agree R fs) (hfg : fs.Agree R gs) : es.Agree R gs :=
  fun name => OptionRel.trans h (hef name) (hfg name)

theorem Agree.of_find? (h : ∀ a, R a a) {es fs : Entries α}
    (hef : ∀ name, es.find? name = fs.find? name) : es.Agree R fs := fun name => by
  rw [hef name]
  exact OptionRel.refl h _

theorem Agree.find?_some {es fs : Entries α} (h : es.Agree R fs) {name : String} {v : α}
    (hv : es.find? name = some v) : ∃ w, fs.find? name = some w ∧ R v w :=
  OptionRel.exists_of_some (hv ▸ h name)

theorem Agree.find?_none {es fs : Entries α} (h : es.Agree R fs) {name : String}
    (hn : es.find? name = none) : fs.find? name = none :=
  OptionRel.eq_none (hn ▸ h name)

/-- To agree is to have the same names, and related contents where both have one. -/
theorem agree_iff {es fs : Entries α} :
    es.Agree R fs ↔ (∀ name, es.has name = fs.has name) ∧
      ∀ name v w, es.find? name = some v → fs.find? name = some w → R v w := by
  constructor
  · intro h
    refine ⟨fun name => ?_, fun name v w hv hw => ?_⟩
    · unfold has
      cases hv : es.find? name with
      | none => rw [h.find?_none hv]
      | some v =>
          obtain ⟨w, hw, _⟩ := h.find?_some hv
          rw [hw]
          rfl
    · obtain ⟨w', hw', hvw⟩ := h.find?_some hv
      obtain rfl : w' = w := Option.some.inj (hw'.symm.trans hw)
      exact hvw
  · rintro ⟨hhas, hcontents⟩ name
    have hn := hhas name
    unfold has at hn
    cases hv : es.find? name with
    | none =>
        rw [hv] at hn
        rw [Option.isSome_eq_false_iff.1 hn.symm |> Option.isNone_iff_eq_none.1]
        exact .none
    | some v =>
        rw [hv] at hn
        obtain ⟨w, hw⟩ := Option.isSome_iff_exists.1 hn.symm
        rw [hw]
        exact .some (hcontents name v w hv hw)

/-! ## 3. Tables side by side -/

/-- Two tables have the same names in the same order, and related contents under each of them. -/
def Parallel (R : α → β → Prop) (es : Entries α) (fs : Entries β) : Prop :=
  List.Forall₂ (fun e f => e.1 = f.1 ∧ R e.2 f.2) es fs

namespace Parallel

variable {R S : α → β → Prop} {es : Entries α} {fs : Entries β} {name : String} {v : α} {w : β}

theorem mono (hRS : ∀ v w, R v w → S v w) (h : Parallel R es fs) : Parallel S es fs :=
  List.Forall₂.imp (fun _ _ hef => ⟨hef.1, hRS _ _ hef.2⟩) h

theorem names_eq (h : Parallel R es fs) : es.names = fs.names := by
  induction h with
  | nil => rfl
  | cons hef _ ih => exact congrArg₂ List.cons hef.1 ih

theorem find? (h : Parallel R es fs) (name : String) :
    Option.Rel R (es.find? name) (fs.find? name) := by
  induction h with
  | nil => exact .none
  | @cons e f es fs hef _ ih =>
      rw [find?_cons, find?_cons, hef.1]
      split
      · exact .some hef.2
      · exact ih

theorem has_eq (h : Parallel R es fs) (name : String) : es.has name = fs.has name := by
  have hsome : ∀ {o : Option α} {p : Option β}, Option.Rel R o p → o.isSome = p.isSome := by
    intro o p h
    cases h <;> rfl
  exact hsome (h.find? name)

theorem replace (h : Parallel R es fs) (hvw : R v w) :
    Parallel R (es.replace name v) (fs.replace name w) := by
  refine List.forall₂_map_left_iff.2 (List.forall₂_map_right_iff.2 (List.Forall₂.imp ?_ h))
  rintro ⟨k, x⟩ ⟨l, y⟩ ⟨rfl, hxy⟩
  dsimp only
  split
  · exact ⟨rfl, hvw⟩
  · exact ⟨rfl, hxy⟩

theorem insertNew (h : Parallel R es fs) (hvw : R v w) :
    Parallel R (Entries.insertNew name v es) (Entries.insertNew name w fs) := by
  induction h with
  | nil => exact .cons ⟨rfl, hvw⟩ .nil
  | @cons e f es fs hef hrest ih =>
      rw [Entries.insertNew, Entries.insertNew, hef.1]
      split
      · exact .cons ⟨rfl, hvw⟩ (.cons hef hrest)
      · exact .cons hef ih

theorem insert (h : Parallel R es fs) (hvw : R v w) :
    Parallel R (es.insert name v) (fs.insert name w) := by
  rw [Entries.insert, Entries.insert, h.has_eq]
  split
  · exact h.replace hvw
  · exact h.insertNew hvw

theorem put (h : Parallel R es fs) (hvw : R v w) :
    Parallel R (es.put name v) (fs.put name w) := by
  rw [Entries.put, Entries.put, h.has_eq]
  split
  · exact h.replace hvw
  · exact List.rel_append h (.cons ⟨rfl, hvw⟩ .nil)

theorem erase (h : Parallel R es fs) (name : String) :
    Parallel R (es.erase name) (fs.erase name) := by
  induction h with
  | nil => exact .nil
  | @cons e f es fs hef hrest ih =>
      rw [Entries.erase, Entries.erase, List.filter_cons, List.filter_cons, hef.1]
      split
      · exact .cons hef ih
      · exact ih

end Parallel

/-! ## 4. Agreement and permutations -/

theorem find?_of_perm {es fs : Entries α} (hd : es.Distinct) (h : es.Perm fs) (name : String) :
    es.find? name = fs.find? name := by
  have hfs : fs.Distinct := (h.map Prod.fst).nodup_iff.1 hd
  refine Option.ext fun v => ?_
  rw [← hd.mem_iff_find?, ← hfs.mem_iff_find?]
  exact h.mem_iff

/-- An entry taken out and put in front. -/
theorem perm_cons_erase {es : Entries α} (hd : es.Distinct) {name : String} {v : α}
    (h : es.find? name = some v) : ((name, v) :: es.erase name).Perm es := by
  have hn : Entries.Distinct ((name, v) :: es.erase name) := by
    refine distinct_cons_iff.2 ⟨?_, hd.erase name⟩
    rw [find?_erase, if_pos rfl]
  refine (List.perm_ext_iff_of_nodup (List.Nodup.of_map _ hn) (List.Nodup.of_map _ hd)).2 ?_
  rintro ⟨k, w⟩
  rw [hn.mem_iff_find?, hd.mem_iff_find?, find?_cons, find?_erase]
  by_cases hk : name = k
  · subst hk
    rw [if_pos rfl, h]
  · rw [if_neg hk, if_neg fun e => hk e.symm]

theorem exists_perm_of_agree : ∀ {es fs : Entries α}, es.Distinct → fs.Distinct → es.Agree R fs →
    ∃ gs : Entries α, gs.Perm fs ∧
      List.Forall₂ (fun e f : String × α => e.1 = f.1 ∧ R e.2 f.2) es gs
  | [], fs, _, _, h => by
      have hfs : fs = [] := by
        cases fs with
        | nil => rfl
        | cons f fs =>
            have hf := h f.1
            rw [find?_nil, find?_cons, if_pos rfl] at hf
            cases hf
      exact ⟨[], hfs ▸ List.Perm.refl _, .nil⟩
  | (name, v) :: es, fs, hes, hfs, h => by
      obtain ⟨hname, hes⟩ := distinct_cons_iff.1 hes
      obtain ⟨w, hw, hvw⟩ : ∃ w, fs.find? name = some w ∧ R v w :=
        h.find?_some (by rw [find?_cons, if_pos rfl])
      -- the rest agrees with what is left when the entry is taken out
      have hrest : Entries.Agree R es (fs.erase name) := by
        intro other
        have ho := h other
        rw [find?_cons] at ho
        rw [find?_erase]
        by_cases hk : other = name
        · subst hk
          rw [if_pos rfl, hname]
          exact .none
        · rw [if_neg hk]
          rw [if_neg fun e => hk e.symm] at ho
          exact ho
      obtain ⟨gs, hperm, hgs⟩ := exists_perm_of_agree hes (hfs.erase name) hrest
      exact ⟨(name, w) :: gs, (hperm.cons _).trans (perm_cons_erase hfs hw), .cons ⟨rfl, hvw⟩ hgs⟩

/-- **Tables with distinct names agree when one is a permutation of the other**, up to related
    contents. -/
theorem agree_iff_perm {es fs : Entries α} (hes : es.Distinct) (hfs : fs.Distinct) :
    es.Agree R fs ↔ ∃ gs : Entries α, gs.Perm fs ∧
      List.Forall₂ (fun e f : String × α => e.1 = f.1 ∧ R e.2 f.2) es gs := by
  constructor
  · exact exists_perm_of_agree hes hfs
  · rintro ⟨gs, hperm, hgs⟩ name
    rw [← find?_of_perm ((hperm.map Prod.fst).nodup_iff.2 hfs) hperm name]
    exact Parallel.find? hgs name

end Entries

end SchemaFlow
