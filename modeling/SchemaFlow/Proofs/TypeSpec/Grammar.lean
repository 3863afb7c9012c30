import SchemaFlow.Proofs.Entries.Distinct
import SchemaFlow.TypeSpec.Parser

/-!
# The grammar of type notations

    Type ::= Base ('[' ']')*
    Base ::= kind | 'sequence' '<' Type '>' | 'array' '<' kind '>' '[' (Dim (',' Dim)*)? ']'
           | 'mapping' '<' kind ',' Type '>' | 'opaque' '<' name '>'
           | 'record' '{' (name ':' Type (',' name ':' Type)*)? '}'
    Dim  ::= '*' | digits

Blanks may stand before any word or mark and at the end of a text. Sizes are positive, and the
fields of a record have distinct names. Every rule relates a text to what is left of it: the grammar
says nothing of how far a name or a number reaches, nor of where reading would stop.

* `Grammar.Denotes`: a whole text denotes a type.
* `Grammar.Derives.suffix`: what a rule leaves is an end of the text.
-/

namespace SchemaFlow

namespace Grammar

open Reading

/-! ## 1. Words and marks -/

/-- The text `cs` is a word, with blanks before it or none, and then `rest`. -/
def Token (word cs rest : List Char) : Prop :=
  ∃ blanks : List Char, (∀ c ∈ blanks, Text.isBlank c = true) ∧ cs = blanks ++ (word ++ rest)

/-- The characters of a name. -/
def IsName (cs : List Char) : Prop :=
  ∃ c ds, cs = c :: ds ∧ isNameStart c = true ∧ ∀ d ∈ ds, isNamePart d = true

theorem isName_cons_iff {c : Char} {ds : List Char} :
    IsName (c :: ds) ↔ (isNameStart c && ds.all isNamePart) = true := by
  rw [Bool.and_eq_true, List.all_eq_true]
  constructor
  · rintro ⟨_, _, h, hname⟩
    cases h
    exact hname
  · exact fun h => ⟨c, ds, rfl, h⟩

-- The test goes through the characters at hand: there are finitely many characters, and a bounded
-- quantifier over them may be decided by going through all of these.
instance : ∀ cs : List Char, Decidable (IsName cs)
  | [] => isFalse fun ⟨_, _, h, _⟩ => by cases h
  | _ :: _ => decidable_of_iff _ isName_cons_iff.symm

/-- The digits of a positive number. -/
structure IsSize (ds : List Char) : Prop where
  digits : ∀ c ∈ ds, c.isDigit = true
  positive : 0 < Decimal.ofDigits ds

/-! ## 2. The rules -/

/-- One dimension. -/
inductive Dim : Dimension → List Char → List Char → Prop
  | free {cs rest : List Char} : Token ['*'] cs rest → Dim .free cs rest
  | fixed {ds cs rest : List Char} : IsSize ds → Token ds cs rest →
      Dim (.fixed (Decimal.ofDigits ds)) cs rest

/-- Dimensions, at least one, with commas between them. -/
inductive Dims : List Dimension → List Char → List Char → Prop
  | one {d : Dimension} {cs rest : List Char} : Dim d cs rest → Dims [d] cs rest
  | more {d : Dimension} {ds : List Dimension} {cs a b rest : List Char} :
      Dim d cs a → Token [','] a b → Dims ds b rest → Dims (d :: ds) cs rest

/-- Pairs of square brackets, and how many there are. -/
inductive Brackets : Nat → List Char → List Char → Prop
  | none (cs : List Char) : Brackets 0 cs cs
  | more {n : Nat} {cs a b rest : List Char} :
      Token ['['] cs a → Token [']'] a b → Brackets n b rest → Brackets (n + 1) cs rest

/-- A type inside sequences. -/
def wrap : Nat → TypeSpec → TypeSpec
  | 0, t => t
  | n + 1, t => wrap n (.sequence t)

/-- What a part of a notation denotes: a type, a type without the brackets behind it, or the fields
    of a record. -/
inductive Phrase
  | type (t : TypeSpec)
  | base (t : TypeSpec)
  | fields (fs : List (String × TypeSpec))

/-- The beginning of a text denotes a phrase, and `rest` is left. -/
inductive Derives : Phrase → List Char → List Char → Prop
  | scalar {k : ScalarKind} {cs rest : List Char} :
      Token k.name.toList cs rest → Derives (.base (.scalar k)) cs rest
  | sequence {e : TypeSpec} {cs a b c rest : List Char} :
      Token "sequence".toList cs a → Token ['<'] a b → Derives (.type e) b c →
      Token ['>'] c rest → Derives (.base (.sequence e)) cs rest
  | point {k : ScalarKind} {cs a b c d e rest : List Char} :
      Token "array".toList cs a → Token ['<'] a b → Token k.name.toList b c → Token ['>'] c d →
      Token ['['] d e → Token [']'] e rest → Derives (.base (.array k [])) cs rest
  | array {k : ScalarKind} {ds : List Dimension} {cs a b c d e f rest : List Char} :
      Token "array".toList cs a → Token ['<'] a b → Token k.name.toList b c → Token ['>'] c d →
      Token ['['] d e → Dims ds e f → Token [']'] f rest → Derives (.base (.array k ds)) cs rest
  | mapping {k : ScalarKind} {v : TypeSpec} {cs a b c d e rest : List Char} :
      Token "mapping".toList cs a → Token ['<'] a b → Token k.name.toList b c → Token [','] c d →
      Derives (.type v) d e → Token ['>'] e rest → Derives (.base (.mapping k v)) cs rest
  | handle {label : String} {cs a b c rest : List Char} :
      Token "opaque".toList cs a → Token ['<'] a b → IsName label.toList →
      Token label.toList b c → Token ['>'] c rest → Derives (.base (.handle label)) cs rest
  | bare {cs a b rest : List Char} :
      Token "record".toList cs a → Token ['\x7b'] a b → Token ['\x7d'] b rest →
      Derives (.base (.record [] none)) cs rest
  | record {fs : List (String × TypeSpec)} {cs a b c rest : List Char} :
      Token "record".toList cs a → Token ['\x7b'] a b → Derives (.fields fs) b c →
      Entries.Distinct fs → Token ['\x7d'] c rest → Derives (.base (.record fs none)) cs rest
  | field {name : String} {t : TypeSpec} {cs a b rest : List Char} :
      IsName name.toList → Token name.toList cs a → Token [':'] a b → Derives (.type t) b rest →
      Derives (.fields [(name, t)]) cs rest
  | fields {name : String} {t : TypeSpec} {fs : List (String × TypeSpec)}
      {cs a b c d rest : List Char} :
      IsName name.toList → Token name.toList cs a → Token [':'] a b → Derives (.type t) b c →
      Token [','] c d → Derives (.fields fs) d rest → Derives (.fields ((name, t) :: fs)) cs rest
  | type {t : TypeSpec} {n : Nat} {cs a rest : List Char} :
      Derives (.base t) cs a → Brackets n a rest → Derives (.type (wrap n t)) cs rest

/-- **A text denotes a type** when the grammar derives the type and leaves blanks only. -/
def Denotes (cs : List Char) (t : TypeSpec) : Prop :=
  ∃ rest, Derives (.type t) cs rest ∧ ∀ c ∈ rest, Text.isBlank c = true

/-! ## 3. What is left of a text -/

theorem Token.suffix {word cs rest : List Char} (h : Token word cs rest) : rest <:+ cs := by
  obtain ⟨blanks, _, rfl⟩ := h
  exact (List.suffix_append word rest).trans (List.suffix_append blanks _)

/-- A mark takes a character. -/
theorem Token.length_lt {c : Char} {cs rest : List Char} (h : Token [c] cs rest) :
    rest.length < cs.length := by
  obtain ⟨blanks, _, rfl⟩ := h
  simp only [List.length_append, List.length_singleton]
  omega

/-- The word of a token stands in the text. -/
theorem Token.infix_left {word cs rest : List Char} (h : Token word cs rest) : word <:+: cs := by
  obtain ⟨blanks, _, rfl⟩ := h
  exact ⟨blanks, rest, List.append_assoc _ _ _⟩

theorem Dim.suffix {d : Dimension} {cs rest : List Char} (h : Dim d cs rest) : rest <:+ cs := by
  cases h with
  | free h => exact h.suffix
  | fixed _ h => exact h.suffix

theorem Dims.suffix {ds : List Dimension} {cs rest : List Char} (h : Dims ds cs rest) :
    rest <:+ cs := by
  induction h with
  | one h => exact h.suffix
  | more h hcomma _ ih => exact (ih.trans hcomma.suffix).trans h.suffix

theorem Brackets.suffix {n : Nat} {cs rest : List Char} (h : Brackets n cs rest) : rest <:+ cs := by
  induction h with
  | none cs => exact List.suffix_refl cs
  | more hopen hclose _ ih => exact (ih.trans hclose.suffix).trans hopen.suffix

/-- **What a rule leaves is an end of the text.** -/
theorem Derives.suffix {p : Phrase} {cs rest : List Char} (h : Derives p cs rest) : rest <:+ cs := by
  induction h with
  | scalar h => exact h.suffix
  | sequence hword hopen _ hclose ih =>
      exact hclose.suffix.trans (ih.trans (hopen.suffix.trans hword.suffix))
  | point hword hopen hkind hclose hleft hright =>
      exact hright.suffix.trans (hleft.suffix.trans (hclose.suffix.trans (hkind.suffix.trans
        (hopen.suffix.trans hword.suffix))))
  | array hword hopen hkind hclose hleft hdims hright =>
      exact hright.suffix.trans (hdims.suffix.trans (hleft.suffix.trans (hclose.suffix.trans
        (hkind.suffix.trans (hopen.suffix.trans hword.suffix)))))
  | mapping hword hopen hkind hcomma _ hclose ih =>
      exact hclose.suffix.trans (ih.trans (hcomma.suffix.trans (hkind.suffix.trans
        (hopen.suffix.trans hword.suffix))))
  | handle hword hopen _ hlabel hclose =>
      exact hclose.suffix.trans (hlabel.suffix.trans (hopen.suffix.trans hword.suffix))
  | bare hword hopen hclose => exact hclose.suffix.trans (hopen.suffix.trans hword.suffix)
  | record hword hopen _ _ hclose ih =>
      exact hclose.suffix.trans (ih.trans (hopen.suffix.trans hword.suffix))
  | field _ hname hcolon _ ih => exact ih.trans (hcolon.suffix.trans hname.suffix)
  | fields _ hname hcolon _ hcomma _ ih ih' =>
      exact ih'.trans (hcomma.suffix.trans (ih.trans (hcolon.suffix.trans hname.suffix)))
  | type _ hbrackets ih => exact hbrackets.suffix.trans ih

end Grammar

end SchemaFlow
