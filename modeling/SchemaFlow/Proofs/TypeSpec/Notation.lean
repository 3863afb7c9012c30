import Mathlib.Logic.Relation
import SchemaFlow.Proofs.Steps
import SchemaFlow.Proofs.TypeSpec.Grammar

/-!
# Notations and their values

A notation is the tree that a text spells, before anything is made of it: its sizes are the numbers
that the digits spell, and a record lists its fields as they stand, whatever their names. What a
notation denotes is its value, which it may lack: a size may be too large or zero, and a record may
name a field twice or one that its ancestor keeps.

* `Grammar.Spells`: the beginning of a text spells a notation. Unlike `Grammar.Derives` the rules put
  no condition on sizes and on the names of fields; these are the business of `Notation.value`.
* `Grammar.Spells.onward`: what a rule reads does not depend on what it leaves.
-/

namespace SchemaFlow

open Reading

/-! ## 1. Notations -/

/-- The tree that a text spells. A size is `none` for a star. -/
inductive Notation
  | scalar (kind : ScalarKind)
  | sequence (element : Notation)
  | array (element : ScalarKind) (sizes : List (Option Nat))
  | mapping (key : ScalarKind) (value : Notation)
  | handle (label : String)
  | record (fields : List (String × Notation))

namespace Notation

mutual

/-- The type that a notation denotes, or why it denotes none. -/
def value : Notation → Except Reason TypeSpec
  | .scalar k => .ok (.scalar k)
  | .sequence e => do
    let t ← value e
    .ok (.sequence t)
  | .array k sizes =>
    match toDimensions 0 sizes with
    | .ok ds => .ok (.array k ds)
    | .error (index, size) => .error (.notASize index size)
  | .mapping k v => do
    let t ← value v
    .ok (.mapping k t)
  | .handle label => .ok (.handle label)
  | .record fs => do
    let f ← fieldsValue {} fs
    .ok (.record f.entries none)

/-- The fields that a row of notations denotes, stored one after the other. -/
def fieldsValue : Filling TypeSpec → List (String × Notation) → Except Reason (Filling TypeSpec)
  | f, [] => .ok f
  | f, (name, n) :: rest =>
    if f.entries.has name then .error (.expected (.otherField name))
    else do
      let t ← value n
      match f.store t.partNames name t with
      | some f => fieldsValue f rest
      | none => .error (.sealedField name)

end

/-- A field with a type is stored, and the others on top of it. -/
theorem fieldsValue_cons {f f' : Filling TypeSpec} {name : String} {n : Notation} {t : TypeSpec}
    {fs : List (String × Notation)} (hnew : f.entries.has name = false) (hn : n.value = .ok t)
    (hstore : f.store t.partNames name t = some f') :
    fieldsValue f ((name, n) :: fs) = fieldsValue f' fs := by
  rw [fieldsValue, hnew, if_neg Bool.false_ne_true, hn]
  show (match f.store t.partNames name t with
    | some f => fieldsValue f fs
    | none => .error (.sealedField name)) = _
  rw [hstore]

/-- Fields that have a value are a new one, which is stored, and others that have. -/
theorem fieldsValue_cons_eq_ok {f f' : Filling TypeSpec} {name : String} {n : Notation}
    {fs : List (String × Notation)} (h : fieldsValue f ((name, n) :: fs) = .ok f') :
    f.entries.has name = false ∧ ∃ t g, n.value = .ok t ∧
      f.store t.partNames name t = some g ∧ fieldsValue g fs = .ok f' := by
  rw [fieldsValue] at h
  cases hnew : f.entries.has name with
  | true =>
      rw [hnew, if_pos rfl] at h
      cases h
  | false =>
      rw [hnew, if_neg Bool.false_ne_true] at h
      obtain ⟨t, ht, h⟩ := Step.bind_eq_ok.1 h
      cases hstore : f.store t.partNames name t with
      | none =>
          rw [hstore] at h
          cases h
      | some g =>
          rw [hstore] at h
          exact ⟨rfl, t, g, ht, hstore, h⟩

/-- A notation inside sequences. -/
def wrap : Nat → Notation → Notation
  | 0, n => n
  | k + 1, n => wrap k (.sequence n)

/-- Brackets behind a notation wrap its value. -/
theorem value_wrap : ∀ (k : Nat) (n : Notation),
    (wrap k n).value = n.value.map (Grammar.wrap k)
  | 0, n => by
      show n.value = n.value.map id
      rw [Except.map_id]
      rfl
  | k + 1, n => by
      have ih := value_wrap k (.sequence n)
      rw [wrap, ih, value]
      cases n.value <;> rfl

end Notation

/-! ## 2. Texts that spell a notation -/

namespace Grammar

/-- One size. -/
inductive Size : Option Nat → List Char → List Char → Prop
  | star {cs rest : List Char} : Token ['*'] cs rest → Size none cs rest
  | digits {ds cs rest : List Char} : ds ≠ [] → (∀ c ∈ ds, c.isDigit = true) → Token ds cs rest →
      Size (some (Decimal.ofDigits ds)) cs rest

/-- Sizes, at least one, with commas between them. -/
inductive Sizes : List (Option Nat) → List Char → List Char → Prop
  | one {d : Option Nat} {cs rest : List Char} : Size d cs rest → Sizes [d] cs rest
  | more {d : Option Nat} {ds : List (Option Nat)} {cs a b rest : List Char} :
      Size d cs a → Token [','] a b → Sizes ds b rest → Sizes (d :: ds) cs rest

/-- What a part of a text spells: a notation, a notation without the brackets behind it, or the
    fields of a record. -/
inductive Part
  | type (n : Notation)
  | base (n : Notation)
  | fields (fs : List (String × Notation))

/-- The beginning of a text spells a part, and `rest` is left. -/
inductive Spells : Part → List Char → List Char → Prop
  | scalar {k : ScalarKind} {cs rest : List Char} :
      Token k.name.toList cs rest → Spells (.base (.scalar k)) cs rest
  | sequence {e : Notation} {cs a b c rest : List Char} :
      Token "sequence".toList cs a → Token ['<'] a b → Spells (.type e) b c →
      Token ['>'] c rest → Spells (.base (.sequence e)) cs rest
  | point {k : ScalarKind} {cs a b c d e rest : List Char} :
      Token "array".toList cs a → Token ['<'] a b → Token k.name.toList b c → Token ['>'] c d →
      Token ['['] d e → Token [']'] e rest → Spells (.base (.array k [])) cs rest
  | array {k : ScalarKind} {sizes : List (Option Nat)} {cs a b c d e f rest : List Char} :
      Token "array".toList cs a → Token ['<'] a b → Token k.name.toList b c → Token ['>'] c d →
      Token ['['] d e → Sizes sizes e f → Token [']'] f rest →
      Spells (.base (.array k sizes)) cs rest
  | mapping {k : ScalarKind} {v : Notation} {cs a b c d e rest : List Char} :
      Token "mapping".toList cs a → Token ['<'] a b → Token k.name.toList b c → Token [','] c d →
      Spells (.type v) d e → Token ['>'] e rest → Spells (.base (.mapping k v)) cs rest
  | handle {label : String} {cs a b c rest : List Char} :
      Token "opaque".toList cs a → Token ['<'] a b → IsName label.toList →
      Token label.toList b c → Token ['>'] c rest → Spells (.base (.handle label)) cs rest
  | bare {cs a b rest : List Char} :
      Token "record".toList cs a → Token ['\x7b'] a b → Token ['\x7d'] b rest →
      Spells (.base (.record [])) cs rest
  | record {fs : List (String × Notation)} {cs a b c rest : List Char} :
      Token "record".toList cs a → Token ['\x7b'] a b → Spells (.fields fs) b c →
      Token ['\x7d'] c rest → Spells (.base (.record fs)) cs rest
  | field {name : String} {n : Notation} {cs a b rest : List Char} :
      IsName name.toList → Token name.toList cs a → Token [':'] a b → Spells (.type n) b rest →
      Spells (.fields [(name, n)]) cs rest
  | fields {name : String} {n : Notation} {fs : List (String × Notation)}
      {cs a b c d rest : List Char} :
      IsName name.toList → Token name.toList cs a → Token [':'] a b → Spells (.type n) b c →
      Token [','] c d → Spells (.fields fs) d rest → Spells (.fields ((name, n) :: fs)) cs rest
  | type {n : Notation} {k : Nat} {cs a rest : List Char} :
      Spells (.base n) cs a → Brackets k a rest → Spells (.type (n.wrap k)) cs rest

/-- **A text spells a notation** when it begins with one and only blanks are left. -/
def SpellsAll (n : Notation) (cs : List Char) : Prop :=
  ∃ rest, Spells (.type n) cs rest ∧ ∀ c ∈ rest, Text.isBlank c = true

/-- A base is a notation without brackets behind it. -/
theorem Spells.type_of_base {n : Notation} {cs rest : List Char} (h : Spells (.base n) cs rest) :
    Spells (.type n) cs rest :=
  .type h (.none rest)

/-! ## 3. What is read does not depend on what is left -/

/-- From `cs` to `rest` a text is read by a rule that would read the same in front of any other
    text. -/
def Onward (R : List Char → List Char → Prop) (cs rest : List Char) : Prop :=
  ∃ done, cs = done ++ rest ∧ ∀ after, R (done ++ after) after

theorem Onward.suffix {R : List Char → List Char → Prop} {cs rest : List Char}
    (h : Onward R cs rest) : rest <:+ cs := by
  obtain ⟨done, rfl, -⟩ := h
  exact List.suffix_append done rest

theorem Onward.mono {R S : List Char → List Char → Prop} {cs rest : List Char}
    (h : Onward R cs rest) (hRS : ∀ y t, R y t → S y t) : Onward S cs rest := by
  obtain ⟨done, hcs, hR⟩ := h
  exact ⟨done, hcs, fun after => hRS _ _ (hR after)⟩

/-- What is read by one rule and then by another is read by both. -/
theorem Onward.comp {R S : List Char → List Char → Prop} {cs a rest : List Char}
    (hR : Onward R cs a) (hS : Onward S a rest) : Onward (Relation.Comp R S) cs rest := by
  obtain ⟨first, rfl, hR⟩ := hR
  obtain ⟨second, rfl, hS⟩ := hS
  refine ⟨first ++ second, (List.append_assoc _ _ _).symm, fun after => ⟨_, ?_, hS after⟩⟩
  rw [List.append_assoc]
  exact hR _

theorem Token.onward {word cs rest : List Char} (h : Token word cs rest) :
    Onward (Token word) cs rest := by
  obtain ⟨blanks, hblanks, rfl⟩ := h
  refine ⟨blanks ++ word, (List.append_assoc _ _ _).symm, fun after => ?_⟩
  exact ⟨blanks, hblanks, List.append_assoc _ _ _⟩

theorem Size.onward {d : Option Nat} {cs rest : List Char} (h : Size d cs rest) :
    Onward (Size d) cs rest := by
  cases h with
  | star h => exact h.onward.mono fun _ _ h => .star h
  | digits hne hds h => exact h.onward.mono fun _ _ h => .digits hne hds h

theorem Sizes.onward {ds : List (Option Nat)} {cs rest : List Char} (h : Sizes ds cs rest) :
    Onward (Sizes ds) cs rest := by
  induction h with
  | one h => exact h.onward.mono fun _ _ h => .one h
  | more h hcomma _ ih =>
      refine (h.onward.comp (hcomma.onward.comp ih)).mono fun _ _ hread => ?_
      obtain ⟨_, h, _, hcomma, hds⟩ := hread
      exact .more h hcomma hds

theorem Brackets.onward {n : Nat} {cs rest : List Char} (h : Brackets n cs rest) :
    Onward (Brackets n) cs rest := by
  induction h with
  | none cs => exact ⟨[], rfl, fun after => .none after⟩
  | more hopen hclose _ ih =>
      refine (hopen.onward.comp (hclose.onward.comp ih)).mono fun _ _ hread => ?_
      obtain ⟨_, hopen, _, hclose, hmore⟩ := hread
      exact .more hopen hclose hmore

/-- **What a rule reads does not depend on what it leaves.** -/
theorem Spells.onward {p : Part} {cs rest : List Char} (h : Spells p cs rest) :
    Onward (Spells p) cs rest := by
  induction h with
  | scalar hword => exact hword.onward.mono fun _ _ hword => .scalar hword
  | sequence hword hopen _ hclose ih =>
      refine Onward.mono (hword.onward.comp <| hopen.onward.comp <| ih.comp hclose.onward)
        fun _ _ hread => ?_
      obtain ⟨_, hword, _, hopen, _, he, hclose⟩ := hread
      exact .sequence hword hopen he hclose
  | point hword hopen hkind hclose hleft hright =>
      refine Onward.mono (hword.onward.comp <| hopen.onward.comp <| hkind.onward.comp <|
        hclose.onward.comp <| hleft.onward.comp hright.onward) fun _ _ hread => ?_
      obtain ⟨_, hword, _, hopen, _, hkind, _, hclose, _, hleft, hright⟩ := hread
      exact .point hword hopen hkind hclose hleft hright
  | array hword hopen hkind hclose hleft hsizes hright =>
      refine Onward.mono (hword.onward.comp <| hopen.onward.comp <| hkind.onward.comp <|
        hclose.onward.comp <| hleft.onward.comp <| hsizes.onward.comp hright.onward)
        fun _ _ hread => ?_
      obtain ⟨_, hword, _, hopen, _, hkind, _, hclose, _, hleft, _, hsizes, hright⟩ := hread
      exact .array hword hopen hkind hclose hleft hsizes hright
  | mapping hword hopen hkind hcomma _ hclose ih =>
      refine Onward.mono (hword.onward.comp <| hopen.onward.comp <| hkind.onward.comp <|
        hcomma.onward.comp <| ih.comp hclose.onward) fun _ _ hread => ?_
      obtain ⟨_, hword, _, hopen, _, hkind, _, hcomma, _, hv, hclose⟩ := hread
      exact .mapping hword hopen hkind hcomma hv hclose
  | handle hword hopen hlabel hname hclose =>
      refine Onward.mono (hword.onward.comp <| hopen.onward.comp <|
        hname.onward.comp hclose.onward) fun _ _ hread => ?_
      obtain ⟨_, hword, _, hopen, _, hname, hclose⟩ := hread
      exact .handle hword hopen hlabel hname hclose
  | bare hword hopen hclose =>
      refine Onward.mono (hword.onward.comp <| hopen.onward.comp hclose.onward) fun _ _ hread => ?_
      obtain ⟨_, hword, _, hopen, hclose⟩ := hread
      exact .bare hword hopen hclose
  | record hword hopen _ hclose ih =>
      refine Onward.mono (hword.onward.comp <| hopen.onward.comp <| ih.comp hclose.onward)
        fun _ _ hread => ?_
      obtain ⟨_, hword, _, hopen, _, hfields, hclose⟩ := hread
      exact .record hword hopen hfields hclose
  | field hfield hname hcolon _ ih =>
      refine Onward.mono (hname.onward.comp <| hcolon.onward.comp ih) fun _ _ hread => ?_
      obtain ⟨_, hname, _, hcolon, htype⟩ := hread
      exact .field hfield hname hcolon htype
  | fields hfield hname hcolon _ hcomma _ ih ih' =>
      refine Onward.mono (hname.onward.comp <| hcolon.onward.comp <| ih.comp <|
        hcomma.onward.comp ih') fun _ _ hread => ?_
      obtain ⟨_, hname, _, hcolon, _, htype, _, hcomma, hmore⟩ := hread
      exact .fields hfield hname hcolon htype hcomma hmore
  | type _ hbrackets ih =>
      refine Onward.mono (ih.comp hbrackets.onward) fun _ _ hread => ?_
      obtain ⟨_, hbase, hbrackets⟩ := hread
      exact .type hbase hbrackets

/-! ## 4. Blanks before a part -/

theorem Token.blank {c : Char} {word cs rest : List Char} (h : Token word cs rest)
    (hc : Text.isBlank c = true) : Token word (c :: cs) rest := by
  obtain ⟨blanks, hb, rfl⟩ := h
  exact ⟨c :: blanks, List.forall_mem_cons.2 ⟨hc, hb⟩, rfl⟩

theorem Size.blank {c : Char} {d : Option Nat} {cs rest : List Char} (h : Size d cs rest)
    (hc : Text.isBlank c = true) : Size d (c :: cs) rest := by
  cases h with
  | star h => exact .star (h.blank hc)
  | digits hne hds h => exact .digits hne hds (h.blank hc)

theorem Sizes.blank {c : Char} {ds : List (Option Nat)} {cs rest : List Char}
    (h : Sizes ds cs rest) (hc : Text.isBlank c = true) : Sizes ds (c :: cs) rest := by
  cases h with
  | one h => exact .one (h.blank hc)
  | more h hcomma hds => exact .more (h.blank hc) hcomma hds

/-- A blank may stand before any part. -/
theorem Spells.blank {c : Char} {p : Part} {cs rest : List Char} (h : Spells p cs rest)
    (hc : Text.isBlank c = true) : Spells p (c :: cs) rest := by
  induction h with
  | scalar hword => exact .scalar (hword.blank hc)
  | sequence hword hopen he hclose => exact .sequence (hword.blank hc) hopen he hclose
  | point hword hopen hkind hclose hleft hright =>
      exact .point (hword.blank hc) hopen hkind hclose hleft hright
  | array hword hopen hkind hclose hleft hsizes hright =>
      exact .array (hword.blank hc) hopen hkind hclose hleft hsizes hright
  | mapping hword hopen hkind hcomma hv hclose =>
      exact .mapping (hword.blank hc) hopen hkind hcomma hv hclose
  | handle hword hopen hlabel hname hclose =>
      exact .handle (hword.blank hc) hopen hlabel hname hclose
  | bare hword hopen hclose => exact .bare (hword.blank hc) hopen hclose
  | record hword hopen hfields hclose => exact .record (hword.blank hc) hopen hfields hclose
  | field hfield hname hcolon ht => exact .field hfield (hname.blank hc) hcolon ht
  | fields hfield hname hcolon ht hcomma hfs =>
      exact .fields hfield (hname.blank hc) hcolon ht hcomma hfs
  | type _ hbrackets ih => exact .type ih hbrackets

end Grammar

end SchemaFlow
