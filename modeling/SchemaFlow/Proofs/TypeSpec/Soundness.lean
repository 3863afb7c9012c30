import SchemaFlow.Proofs.TypeSpec.Completeness
import SchemaFlow.Proofs.TypeSpec.Viable

/-!
# What is read is derived by the grammar

What is read is the value of a notation that the text spells. Two things could come between this value
and what the grammar derives, and a clean text has neither: a field that takes the name of the
ancestor, and a number that is too large to be exact.

* `Clean`: the ancestor is not named, and numbers are exact.
* `derives_of_spells`: in a clean text the value of a notation is derived.
* `yields_read`: what is read as a whole text is denoted by it.
-/

namespace SchemaFlow

namespace Reading

open Grammar

/-! ## 1. Clean texts -/

/-- A text in which the ancestor's name does not stand, and every number is exact. -/
structure Clean (cs : List Char) : Prop where
  unnamed : ¬ ancestorName.toList <:+: cs
  exact : ∀ ds, ds <:+: cs → (∀ c ∈ ds, c.isDigit = true) → Decimal.ofDigits ds < Nat.pow 2 53

theorem Clean.suffix {cs rest : List Char} (h : Clean cs) (hrest : rest <:+ cs) : Clean rest where
  unnamed hname := h.unnamed (hname.trans hrest.isInfix)
  exact ds hds hdigits := h.exact ds (hds.trans hrest.isInfix) hdigits

theorem Clean.token {cs rest word : List Char} (h : Clean cs) (hrest : Token word cs rest) :
    Clean rest :=
  h.suffix hrest.suffix

theorem Clean.ne_ancestorName {cs rest : List Char} {name : String} (h : Clean cs)
    (hname : Token name.toList cs rest) : name ≠ ancestorName :=
  fun e => h.unnamed (e ▸ hname.infix_left)

/-! ## 2. Sizes -/

/-- A number that is exact is a size unless it is zero. -/
theorem eq_fixed_of_toDimension {n : Nat} {d : Dimension} (hn : n < Nat.pow 2 53)
    (h : toDimension (some n) = .ok d) : 0 < n ∧ d = .fixed n := by
  rcases Nat.eq_zero_or_pos n with rfl | hpos
  · simp [toDimension, Decimal.nearest?_of_lt hn] at h
  · rw [toDimension_size hpos hn] at h
    cases h
    exact ⟨hpos, rfl⟩

theorem dim_of_size {size : Option Nat} {d : Dimension} {cs rest : List Char}
    (h : Size size cs rest) (hcs : Clean cs) (hd : toDimension size = .ok d) : Dim d cs rest := by
  cases h with
  | star h =>
      obtain rfl : .free = d := Except.ok.inj hd
      exact .free h
  | digits _ hdigits h =>
      obtain ⟨hpos, rfl⟩ := eq_fixed_of_toDimension (hcs.exact _ h.infix_left hdigits) hd
      exact .fixed ⟨hdigits, hpos⟩ h

theorem dims_of_sizes {sizes : List (Option Nat)} {cs rest : List Char} (h : Sizes sizes cs rest) :
    Clean cs → ∀ i ds, toDimensions i sizes = .ok ds → Dims ds cs rest := by
  induction h with
  | one h =>
      intro hcs i ds hds
      obtain ⟨d, ds', rfl, hd, hnil⟩ := toDimensions_cons_eq_ok hds
      cases hnil
      exact .one (dim_of_size h hcs hd)
  | more h hcomma _ ih =>
      intro hcs i ds hds
      obtain ⟨d, ds', rfl, hd, hds'⟩ := toDimensions_cons_eq_ok hds
      exact .more (dim_of_size h hcs hd) hcomma
        (ih ((hcs.suffix h.onward.suffix).token hcomma) (i + 1) ds' hds')

/-! ## 3. Values -/

/-- The value of a part is derived; fields are put behind those that are there already. -/
def Derived : Part → List Char → List Char → Prop
  | .type n, cs, rest => ∀ t, n.value = .ok t → Derives (.type t) cs rest
  | .base n, cs, rest => ∀ t, n.value = .ok t → Derives (.base t) cs rest
  | .fields ns, cs, rest => ∀ f f' : Filling TypeSpec, f.kept = [] → f.entries.Distinct →
      Notation.fieldsValue f ns = .ok f' → f'.entries.Distinct ∧
        ∃ fs, f'.entries = f.entries ++ fs ∧ Derives (.fields fs) cs rest

/-- A field with a value goes to the end of the table. -/
theorem fieldsValue_proper {f f' : Filling TypeSpec} {name : String} {n : Notation}
    {ns : List (String × Notation)} (hname : IsFieldName name) (hkept : f.kept = [])
    (hdistinct : f.entries.Distinct) (h : Notation.fieldsValue f ((name, n) :: ns) = .ok f') :
    ∃ t, n.value = .ok t ∧ Entries.Distinct (f.entries ++ [(name, t)]) ∧
      Notation.fieldsValue { f with entries := f.entries ++ [(name, t)] } ns = .ok f' := by
  obtain ⟨hnew, t, _, ht, -, -⟩ := Notation.fieldsValue_cons_eq_ok h
  rw [fieldsValue_new hname ht hkept hnew] at h
  have hinsert := hdistinct.insert name t
  rw [Entries.insert_of_isName hname.isName hnew] at hinsert
  exact ⟨t, ht, hinsert, h⟩

/-- **In a clean text the value of a notation is derived.** -/
theorem derives_of_spells {p : Part} {cs rest : List Char} (h : Spells p cs rest) :
    Clean cs → Derived p cs rest := by
  induction h with
  | scalar hword =>
      intro _ t ht
      cases ht
      exact .scalar hword
  | sequence hword hopen _ hclose ih =>
      intro hcs t ht
      rw [Notation.value] at ht
      obtain ⟨e, he, ht⟩ := Step.bind_eq_ok.1 ht
      cases ht
      exact .sequence hword hopen (ih ((hcs.token hword).token hopen) e he) hclose
  | point hword hopen hkind hclose hleft hright =>
      intro _ t ht
      cases ht
      exact .point hword hopen hkind hclose hleft hright
  | @array k sizes cs a b c d e f rest hword hopen hkind hclose hleft hsizes hright =>
      intro hcs t ht
      have he : Clean e := ((((hcs.token hword).token hopen).token hkind).token hclose).token hleft
      rw [Notation.value] at ht
      cases hds : toDimensions 0 sizes with
      | ok ds =>
          rw [hds] at ht
          cases ht
          exact .array hword hopen hkind hclose hleft (dims_of_sizes hsizes he 0 ds hds) hright
      | error e =>
          rw [hds] at ht
          cases ht
  | mapping hword hopen hkind hcomma _ hclose ih =>
      intro hcs t ht
      rw [Notation.value] at ht
      obtain ⟨v, hv, ht⟩ := Step.bind_eq_ok.1 ht
      cases ht
      have hvalue := ih ((((hcs.token hword).token hopen).token hkind).token hcomma) v hv
      exact .mapping hword hopen hkind hcomma hvalue hclose
  | handle hword hopen hlabel hname hclose =>
      intro _ t ht
      cases ht
      exact .handle hword hopen hlabel hname hclose
  | bare hword hopen hclose =>
      intro _ t ht
      cases ht
      exact .bare hword hopen hclose
  | record hword hopen _ hclose ih =>
      intro hcs t ht
      rw [Notation.value] at ht
      obtain ⟨f, hf, ht⟩ := Step.bind_eq_ok.1 ht
      cases ht
      obtain ⟨hdistinct, fs, hentries, hfields⟩ :=
        ih ((hcs.token hword).token hopen) {} f rfl Entries.distinct_nil hf
      obtain rfl : f.entries = fs := hentries
      exact .record hword hopen hfields hdistinct hclose
  | @field name n cs a b rest hfield hname hcolon _ ih =>
      intro hcs f f' hkept hdistinct hvalue
      obtain ⟨t, ht, hnew, hf'⟩ :=
        fieldsValue_proper ⟨hfield, hcs.ne_ancestorName hname⟩ hkept hdistinct hvalue
      rw [Notation.fieldsValue] at hf'
      cases hf'
      exact ⟨hnew, [(name, t)], rfl,
        .field hfield hname hcolon (ih ((hcs.token hname).token hcolon) t ht)⟩
  | @fields name n ns cs a b c d rest hfield hname hcolon htype hcomma _ ih ih' =>
      intro hcs f f' hkept hdistinct hvalue
      have hb : Clean b := (hcs.token hname).token hcolon
      obtain ⟨t, ht, hnew, hf'⟩ :=
        fieldsValue_proper ⟨hfield, hcs.ne_ancestorName hname⟩ hkept hdistinct hvalue
      obtain ⟨hall, fs, hentries, hfields⟩ :=
        ih' ((hb.suffix htype.onward.suffix).token hcomma)
          { f with entries := f.entries ++ [(name, t)] } f' hkept hnew hf'
      refine ⟨hall, (name, t) :: fs, ?_, .fields hfield hname hcolon (ih hb t ht) hcomma hfields⟩
      rw [hentries, List.append_assoc]
      rfl
  | @type n k cs a rest _ hbrackets ih =>
      intro hcs t ht
      rw [Notation.value_wrap] at ht
      cases hn : n.value with
      | ok u =>
          rw [hn] at ht
          cases ht
          exact .type (ih hcs u hn) hbrackets
      | error r =>
          rw [hn] at ht
          cases ht

/-! ## 4. Whole texts -/

/-- A step gives something with a property, or fails for another reason than a sealed name. -/
def Yields {α : Type} (x : Except Failure α) (P : α → Prop) : Prop :=
  match x with
  | .ok a => P a
  | .error e => ∀ name, e.reason ≠ .sealedField name

theorem Yields.cases {α : Type} {x : Except Failure α} {P : α → Prop} (h : Yields x P) :
    (∃ e, x = .error e ∧ ∀ name, e.reason ≠ .sealedField name) ∨ ∃ a, x = .ok a ∧ P a := by
  cases x with
  | ok a => exact Or.inr ⟨a, rfl, h⟩
  | error e => exact Or.inl ⟨e, rfl, h⟩

/-- What is read as a whole text is denoted by it. -/
theorem yields_read {cs : List Char} (hcs : Clean cs) :
    Yields (TypeSpec.read cs) fun t => Denotes cs t := by
  rcases (outcome_read cs).cases with ⟨e, hread, he⟩ | ⟨t, hread, n, hn, rest, hspells, hblank⟩
  · rw [hread]
    exact fun name hname => hcs.unnamed (he.sealed name hname)
  · rw [hread]
    exact ⟨rest, derives_of_spells hspells hcs t hn, hblank⟩

end Reading

end SchemaFlow
