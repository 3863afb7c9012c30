import Mathlib.Logic.Relation
import SchemaFlow.Proofs.TypeSpec.Spelling

/-!
# Failures that are explained

A failure is reported where the text stops making sense: whatever stands before the place can be
completed to something that is read. The completion closes what is open, so that it is put together on
the way out of the reader: each step knows what could have been read in its place, and what closes the
steps behind it.

* `Explained`: what a failure says of the text.
* `Outcome`: what a step gives has a property, and a failure is explained.
* `outcome_name`, `outcome_mark`, `outcome_dimensionList`: words, marks and sizes.
-/

namespace SchemaFlow

namespace Reading

open Grammar Relation

/-! ## 1. Failures that are explained -/

/-- Every number in a text is a size: its longest runs of digits spell positive numbers that are
    exact. -/
def Sized (source : List Char) : Prop :=
  ∀ ds, DigitRun ds source → ds ≠ [] →
    0 < Decimal.ofDigits ds ∧ Decimal.ofDigits ds < Nat.pow 2 53

/-- A failure to read `cs`, a part of `source`, where `L` could have been read. The place is in the
    text; a name is sealed only in a text that names the ancestor; and otherwise, when numbers are
    sizes, what stands before the place can be completed. -/
structure Explained (source : List Char) (L : List Char → List Char → Prop) (cs : List Char)
    (e : Failure) : Prop where
  place : e.rest <:+ cs
  sealed : ∀ name, e.reason = .sealedField name → ancestorName.toList <:+: source
  viable : (∀ name, e.reason ≠ .sealedField name) → Sized source →
    ∃ done more, cs = done ++ e.rest ∧ ∀ tail, L (done ++ (more ++ tail)) tail

/-- There is a text that can be read in front of any other. -/
def Closable (L : List Char → List Char → Prop) : Prop := ∃ word, ∀ tail, L (word ++ tail) tail

theorem closable_token (word : List Char) : Closable (Token word) :=
  ⟨word, fun tail => token_append word tail⟩

section Explained

variable {source cs a : List Char} {L L' R : List Char → List Char → Prop} {e : Failure}

theorem Closable.comp (h : Closable L) (h' : Closable L') : Closable (Comp L L') := by
  obtain ⟨word, hword⟩ := h
  obtain ⟨word', hword'⟩ := h'
  refine ⟨word ++ word', fun tail => ⟨word' ++ tail, ?_, hword' tail⟩⟩
  rw [List.append_assoc]
  exact hword _

theorem Closable.mono (h : Closable L) (hL : ∀ y t, L y t → L' y t) : Closable L' := by
  obtain ⟨word, hword⟩ := h
  exact ⟨word, fun tail => hL _ _ (hword tail)⟩

theorem Explained.mono (h : Explained source L cs e) (hL : Sized source → ∀ y t, L y t → L' y t) :
    Explained source L' cs e where
  place := h.place
  sealed := h.sealed
  viable hreason hsized := by
    obtain ⟨done, more, hcs, hread⟩ := h.viable hreason hsized
    exact ⟨done, more, hcs, fun tail => hL hsized _ _ (hread tail)⟩

/-- What stands before a failure is closed by what was to follow. -/
theorem Explained.closed (h : Explained source L cs e) (hL' : Closable L') :
    Explained source (Comp L L') cs e where
  place := h.place
  sealed := h.sealed
  viable hreason hsized := by
    obtain ⟨done, more, hcs, hread⟩ := h.viable hreason hsized
    obtain ⟨word, hword⟩ := hL'
    refine ⟨done, more ++ word, hcs, fun tail => ⟨word ++ tail, ?_, hword tail⟩⟩
    rw [List.append_assoc]
    exact hread _

/-- What was read before is part of what stands before a failure. -/
theorem Explained.after (h : Explained source L a e) (hR : Onward R cs a) :
    Explained source (Comp R L) cs e where
  place := h.place.trans hR.suffix
  sealed := h.sealed
  viable hreason hsized := by
    obtain ⟨done, more, rfl, hread⟩ := h.viable hreason hsized
    obtain ⟨before, rfl, hbefore⟩ := hR
    refine ⟨before ++ done, more, (List.append_assoc _ _ _).symm, fun tail => ?_⟩
    rw [List.append_assoc]
    exact ⟨_, hbefore _, hread tail⟩

/-- Something else was expected where a text could end. -/
theorem explained_of_onward (h : Onward L cs a) (what : Expectation) :
    Explained source L cs ⟨a, .expected what⟩ where
  place := h.suffix
  sealed _ hreason := by cases hreason
  viable _ _ := by
    obtain ⟨done, hcs, hread⟩ := h
    exact ⟨done, [], hcs, fun tail => hread tail⟩

/-- Something was expected where it could have begun. -/
theorem explained_of_closable (h : Closable L) (what : Expectation) :
    Explained source L cs ⟨cs, .expected what⟩ where
  place := List.suffix_refl cs
  sealed _ hreason := by cases hreason
  viable _ _ := by
    obtain ⟨word, hword⟩ := h
    exact ⟨[], word, rfl, fun tail => hword tail⟩

/-- A word was expected behind the blanks. -/
theorem explained_token (word : List Char) (what : Expectation) :
    Explained source (Token word) cs ⟨Text.skipBlanks cs, .expected what⟩ where
  place := List.dropWhile_suffix _
  sealed _ hreason := by cases hreason
  viable _ _ := by
    obtain ⟨blanks, hblanks, hcs⟩ := Text.exists_blanks cs
    exact ⟨blanks, word, hcs, fun tail => ⟨blanks, hblanks, rfl⟩⟩

end Explained

/-! ## 2. Outcomes of steps -/

/-- A step gives something with a property, or its failure is explained. -/
def Outcome {α : Type} (source : List Char) (L : List Char → List Char → Prop) (cs : List Char)
    (P : α → Prop) (x : Except Failure α) : Prop :=
  match x with
  | .ok a => P a
  | .error e => Explained source L cs e

section Outcome

variable {α β : Type} {source cs a : List Char} {L L' R : List Char → List Char → Prop}
  {P Q : α → Prop} {x : Except Failure α}

theorem Outcome.explained (h : Outcome source L cs P x)
    (hL : ∀ e, Explained source L cs e → Explained source L' a e) : Outcome source L' a P x := by
  cases x with
  | ok _ => exact h
  | error e => exact hL e h

theorem Outcome.mono (h : Outcome source L cs P x)
    (hL : Sized source → ∀ y t, L y t → L' y t) : Outcome source L' cs P x :=
  h.explained fun _ he => he.mono hL

theorem Outcome.closed (h : Outcome source L cs P x) (hL' : Closable L') :
    Outcome source (Comp L L') cs P x :=
  h.explained fun _ he => he.closed hL'

theorem Outcome.after (hR : Onward R cs a) (h : Outcome source L a P x) :
    Outcome source (Comp R L) cs P x :=
  h.explained fun _ he => he.after hR

theorem Outcome.cases (h : Outcome source L cs P x) :
    (∃ e, x = .error e ∧ Explained source L cs e) ∨ ∃ a, x = .ok a ∧ P a := by
  cases x with
  | ok a => exact Or.inr ⟨a, rfl, h⟩
  | error e => exact Or.inl ⟨e, rfl, h⟩

/-- **Steps are put together.** -/
theorem Outcome.bind {S : β → Prop} {f : α → Except Failure β} (h : Outcome source L cs P x)
    (hf : ∀ a, P a → Outcome source L cs S (f a)) : Outcome source L cs S (x >>= f) := by
  cases x with
  | ok a => exact hf a h
  | error e => exact h

end Outcome

section Words

variable {source : List Char}

variable (source) in
theorem outcome_name (cs word : List Char) :
    Outcome source (Token word) cs (fun p => IsName p.1.toList ∧ Token p.1.toList cs p.2)
      (name cs) := by
  cases hx : name cs with
  | ok p =>
      obtain ⟨hname, htoken, -⟩ := name_eq_ok_iff.1 hx
      exact ⟨hname, htoken⟩
  | error e =>
      unfold name at hx
      split at hx
      · rename_i hskip
        cases hx
        rw [← hskip]
        exact explained_token word .name
      · rename_i hskip
        split at hx
        · cases hx
        · cases hx
          rw [← hskip]
          exact explained_token word .name

theorem outcome_mark {c : Char} (hc : Text.isBlank c = false) (cs : List Char) :
    Outcome source (Token [c]) cs (fun rest => Token [c] cs rest) (mark c cs) := by
  unfold mark
  split
  · rename_i rest h
    exact (mark?_eq_some_iff hc).1 h
  · exact explained_token [c] (.mark c)

/-- The name of a kind. -/
def KindWord (cs rest : List Char) : Prop := ∃ k : ScalarKind, Token k.name.toList cs rest

theorem closable_kind : Closable KindWord :=
  (closable_token ScalarKind.float.name.toList).mono fun _ _ h => ⟨.float, h⟩

theorem outcome_scalarKind (cs : List Char) :
    Outcome source KindWord cs (fun p => Token p.1.name.toList cs p.2) (scalarKind cs) := by
  unfold scalarKind
  rcases (outcome_name source cs ScalarKind.float.name.toList).cases with
    ⟨e, hx, he⟩ | ⟨⟨word, rest⟩, hx, -, hword⟩
  · rw [hx]
    exact he.mono fun _ _ _ h => ⟨.float, h⟩
  · rw [hx]
    dsimp only
    split
    · rename_i k hk
      rw [← ScalarKind.name_of_ofName? hk] at hword
      exact hword
    · exact explained_of_closable closable_kind .scalarKind

end Words

/-! ## 3. Sizes -/

/-- A star, or a number that is a size. -/
def Proper (d : Option Nat) : Prop := ∀ n, d = some n → 0 < n ∧ n < Nat.pow 2 53

theorem proper_star : Proper none := fun _ e => by cases e

theorem toDimensions_proper : ∀ {sizes : List (Option Nat)} (i : Nat), (∀ d ∈ sizes, Proper d) →
    ∃ ds, toDimensions i sizes = .ok ds
  | [], _, _ => ⟨[], rfl⟩
  | d :: sizes, i, h => by
      obtain ⟨hd, hsizes⟩ := List.forall_mem_cons.1 h
      obtain ⟨ds, hds⟩ := toDimensions_proper (i + 1) hsizes
      have hdim : ∃ dim, toDimension d = .ok dim := by
        cases d with
        | none => exact ⟨.free, rfl⟩
        | some n =>
            obtain ⟨hpos, hlt⟩ := hd n rfl
            exact ⟨.fixed n, toDimension_size hpos hlt⟩
      obtain ⟨dim, hdim⟩ := hdim
      exact ⟨dim :: ds, by simp only [toDimensions, hdim, hds]⟩

/-- Sizes in square brackets, possibly none. -/
def SizeList (sizes : List (Option Nat)) : List Char → List Char → Prop :=
  Comp (Token ['[']) (Comp (fun cs rest => sizes = [] ∧ rest = cs ∨ Sizes sizes cs rest) (Token [']']))

theorem spells_array {k : ScalarKind} {sizes : List (Option Nat)} {cs a b c d rest : List Char}
    (hword : Token "array".toList cs a) (hopen : Token ['<'] a b) (hkind : Token k.name.toList b c)
    (hclose : Token ['>'] c d) (hsizes : SizeList sizes d rest) :
    Spells (.base (.array k sizes)) cs rest := by
  obtain ⟨e, hleft, f, hsizes | hsizes, hright⟩ := hsizes
  · obtain ⟨rfl, rfl⟩ := hsizes
    exact .point hword hopen hkind hclose hleft hright
  · exact .array hword hopen hkind hclose hleft hsizes hright

section Sizes

variable {source : List Char}

/-- Proper sizes of some number. -/
def SizesWord (cs rest : List Char) : Prop :=
  ∃ sizes, (∀ d ∈ sizes, Proper d) ∧ Sizes sizes cs rest

theorem closable_sizes : Closable SizesWord :=
  (closable_token ['*']).mono fun _ _ h =>
    ⟨[none], List.forall_mem_singleton.2 proper_star, .one (.star h)⟩

/-- A part of a text that no number runs into. -/
def Behind (source cs : List Char) : Prop :=
  ∃ before, source = before ++ cs ∧ ∀ c ∈ before.getLast?, c.isDigit = false

theorem behind_of_token {c : Char} {cs rest : List Char} (hcs : cs <:+ source)
    (h : Token [c] cs rest) (hc : c.isDigit = false) : Behind source rest := by
  obtain ⟨before, rfl⟩ := hcs
  obtain ⟨blanks, hblanks, rfl⟩ := h
  refine ⟨before ++ (blanks ++ [c]), by simp only [List.append_assoc], fun d hd => ?_⟩
  rw [← List.append_assoc, List.getLast?_concat] at hd
  cases hd
  exact hc

theorem not_isDigit_of_isBlank {c : Char} (h : Text.isBlank c = true) : c.isDigit = false := by
  cases hc : c.isDigit with
  | false => rfl
  | true => simp [isBlank_of_isNamePart (isNamePart_of_isDigit hc)] at h

/-- The digits that are read are a longest run. -/
theorem digitRun_of_behind {cs : List Char} (h : Behind source cs) :
    DigitRun ((Text.skipBlanks cs).takeWhile Char.isDigit) source := by
  obtain ⟨before, rfl, hbefore⟩ := h
  obtain ⟨blanks, hblanks, hcs⟩ := Text.exists_blanks cs
  refine ⟨fun c hc => List.mem_takeWhile_imp hc, before ++ blanks,
    (Text.skipBlanks cs).dropWhile Char.isDigit, ?_, fun c hc => ?_, fun c hc => ?_⟩
  · rw [List.takeWhile_append_dropWhile, List.append_assoc, ← hcs]
  · rw [List.getLast?_append] at hc
    cases hlast : blanks.getLast? with
    | none =>
        rw [hlast] at hc
        exact hbefore c hc
    | some d =>
        rw [hlast] at hc
        cases hc
        exact not_isDigit_of_isBlank (hblanks _ (List.mem_of_getLast? hlast))
  · have hstop := List.head?_dropWhile_not Char.isDigit (Text.skipBlanks cs)
    rw [Option.mem_def.1 hc] at hstop
    simpa using hstop

theorem outcome_dimension {cs : List Char} (hcs : Behind source cs) :
    Outcome source (Token ['*']) cs
      (fun p => Size p.1 cs p.2 ∧ (Sized source → Proper p.1)) (dimension cs) := by
  unfold dimension
  split
  · rename_i rest hstar
    have hstar := (mark?_eq_some_iff (by decide)).1 hstar
    exact ⟨.star hstar, fun _ => proper_star⟩
  · dsimp only
    split
    · exact explained_token ['*'] .dimension
    · rename_i hne
      have hrun := digitRun_of_behind hcs
      have hsize : Size _ cs _ := .digits hne hrun.digits (token_digits cs)
      refine ⟨hsize, fun hsized n e => ?_⟩
      cases e
      exact hsized _ hrun hne

theorem outcome_dimensions : ∀ (fuel : Nat) {cs : List Char}, Behind source cs →
    Outcome source SizesWord cs
      (fun p => Sizes p.1 cs p.2 ∧ (Sized source → ∀ d ∈ p.1, Proper d)) (dimensions fuel cs)
  | 0, _, _ => explained_of_closable closable_sizes .dimension
  | fuel + 1, cs, hcs => by
      unfold dimensions
      rcases (outcome_dimension hcs).cases with ⟨e, hx, he⟩ | ⟨⟨d, rest⟩, hx, hsize, hproper⟩
      · rw [hx]
        exact he.mono fun _ _ _ h =>
          ⟨[none], List.forall_mem_singleton.2 proper_star, .one (.star h)⟩
      · rw [hx]
        dsimp only at hsize hproper ⊢
        split
        · exact ⟨.one hsize, fun hsized => List.forall_mem_singleton.2 (hproper hsized)⟩
        · rename_i rest' hcomma
          have hcomma := (mark?_eq_some_iff (by decide)).1 hcomma
          have hsource : cs <:+ source := by
            obtain ⟨before, rfl, -⟩ := hcs
            exact List.suffix_append before cs
          have hbehind := behind_of_token (hsize.onward.suffix.trans hsource) hcomma (by decide)
          rcases (outcome_dimensions fuel hbehind).cases with
            ⟨e, hy, he⟩ | ⟨⟨sizes, after⟩, hy, hsizes, hmore⟩
          · rw [hy]
            refine ((he.after hcomma.onward).after hsize.onward).mono ?_
            rintro hsized y t ⟨z, hsize, u, hcomma, sizes, hmore, hsizes⟩
            exact ⟨d :: sizes, List.forall_mem_cons.2 ⟨hproper hsized, hmore⟩,
              .more hsize hcomma hsizes⟩
          · rw [hy]
            exact ⟨.more hsize hcomma hsizes,
              fun hsized => List.forall_mem_cons.2 ⟨hproper hsized, hmore hsized⟩⟩

/-- Proper sizes in square brackets. -/
def SizeListWord (cs rest : List Char) : Prop :=
  ∃ sizes, (∀ d ∈ sizes, Proper d) ∧ SizeList sizes cs rest

theorem closable_sizeList : Closable SizeListWord :=
  ((closable_token ['[']).comp (closable_token [']'])).mono fun _ _ ⟨a, hopen, hclose⟩ =>
    ⟨[], fun _ h => absurd h List.not_mem_nil, a, hopen, a, Or.inl ⟨rfl, rfl⟩, hclose⟩

theorem outcome_dimensionList {cs : List Char} (hcs : cs <:+ source) :
    Outcome source SizeListWord cs
      (fun p => ∃ sizes, toDimensions 0 sizes = .ok p.1 ∧ SizeList sizes cs p.2)
      (dimensionList cs) := by
  have hword : ∀ y t, Comp (Token ['[']) (Comp SizesWord (Token [']'])) y t → SizeListWord y t := by
    rintro y t ⟨a, hopen, b, ⟨sizes, hproper, hsizes⟩, hclose⟩
    exact ⟨sizes, hproper, a, hopen, b, Or.inr hsizes, hclose⟩
  unfold dimensionList
  rcases (outcome_mark (c := '[') (by decide) cs).cases with ⟨e, hx, he⟩ | ⟨a, hx, hopen⟩
  · rw [hx]
    exact (he.closed (closable_sizes.comp (closable_token [']']))).mono fun _ => hword
  · rw [hx]
    dsimp only
    cases hm : mark? ']' a with
    | some rest =>
        have hclose := (mark?_eq_some_iff (by decide)).1 hm
        simp only [mark_of_mark hclose (by decide), toDimensions]
        exact ⟨[], rfl, a, hopen, a, Or.inl ⟨rfl, rfl⟩, hclose⟩
    | none =>
        have hbehind := behind_of_token hcs hopen (by decide)
        rcases (outcome_dimensions (a.length + 1) hbehind).cases with
          ⟨e, hy, he⟩ | ⟨⟨sizes, b⟩, hy, hsizes, hproper⟩
        · simp only [hy]
          exact ((he.closed (closable_token [']'])).after hopen.onward).mono fun _ => hword
        · rcases (outcome_mark (c := ']') (by decide) b).cases with ⟨e, hz, he⟩ | ⟨rest, hz, hclose⟩
          · simp only [hy, hz]
            refine ((he.after hsizes.onward).after hopen.onward).mono ?_
            rintro hsized y t ⟨a, hopen, b, hsizes, hclose⟩
            exact hword y t ⟨a, hopen, b, ⟨sizes, hproper hsized, hsizes⟩, hclose⟩
          · simp only [hy, hz]
            cases hds : toDimensions 0 sizes with
            | ok ds => exact ⟨sizes, hds, a, hopen, b, Or.inr hsizes, hclose⟩
            | error p =>
                refine ⟨(hclose.suffix.trans hsizes.onward.suffix).trans hopen.suffix,
                  (fun _ e => by cases e), fun _ hsized => ?_⟩
                obtain ⟨ds, hok⟩ := toDimensions_proper 0 (hproper hsized)
                rw [hds] at hok
                cases hok

end Sizes

end Reading

end SchemaFlow
