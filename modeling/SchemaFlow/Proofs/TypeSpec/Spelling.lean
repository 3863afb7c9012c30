import SchemaFlow.Fault
import SchemaFlow.Proofs.TypeSpec.Notation
import SchemaFlow.Proofs.TypeSpec.Scanner

/-!
# A spelled text is read as its notation

Where a text spells a notation the reader gives the notation's value, and where the notation has none
the reader fails for the same reason. Reading follows the rules of the grammar one by one. Each part
is read up to what is left of the text, provided that nothing there could be taken for more of it: no
name part behind a base, no square bracket behind a type.

* `reads_of_spells`: a part that the grammar spells is read, up to the same place.
* `read_of_spellsAll`: so is a whole text.
-/

namespace SchemaFlow

namespace Reading

open Grammar

/-! ## 1. Where a type ends -/

/-- No type goes on at the beginning of the text. -/
structure Ends (cs : List Char) : Prop where
  stops : Stops cs
  bracketless : mark? '[' cs = none

theorem ends_of_token {c : Char} {cs rest : List Char} (h : Token [c] cs rest)
    (hpart : isNamePart c = false) (hblank : Text.isBlank c = false) (hc : c ≠ '[') : Ends cs :=
  ⟨h.stops hpart, mark?_of_token h hblank hc⟩

theorem ends_of_blank {cs : List Char} (h : ∀ c ∈ cs, Text.isBlank c = true) : Ends cs where
  stops c hc := not_isNamePart_of_isBlank (h c (List.mem_of_mem_head? hc))
  bracketless := by simp [mark?, Text.skipBlanks_eq_nil_iff.2 h]

theorem stops_of_brackets {n : Nat} {cs rest : List Char} (h : Brackets n cs rest)
    (hrest : Stops rest) : Stops cs := by
  cases h with
  | none => exact hrest
  | more hopen _ _ => exact hopen.stops (by decide)

theorem exists_fuel {n fuel : Nat} (h : n < fuel) : ∃ fuel', fuel = fuel' + 1 :=
  Nat.exists_eq_add_one_of_ne_zero (Nat.ne_of_gt (Nat.zero_lt_of_lt h))

/-- Brackets are read, and the blanks behind them skipped. -/
theorem wrapped_of_brackets {n : Nat} {cs rest : List Char} (h : Brackets n cs rest) :
    Ends rest → ∀ (fuel : Nat) (t : TypeSpec), cs.length < fuel →
      wrapped fuel t cs = (wrap n t, Text.skipBlanks rest) := by
  induction h with
  | none cs =>
      intro hrest fuel t hfuel
      obtain ⟨fuel, rfl⟩ := exists_fuel hfuel
      simp [wrapped, hrest.bracketless, wrap]
  | @more n cs a b rest hopen hclose _ ih =>
      intro hrest fuel t hfuel
      obtain ⟨fuel, rfl⟩ := exists_fuel hfuel
      have hlen := hopen.length_lt
      have hlen' := hclose.length_lt
      rw [wrapped, mark?_of_mark hopen (by decide)]
      simp only [mark?_of_mark hclose (by decide)]
      exact ih hrest fuel (.sequence t) (by omega)

theorem completed_of_brackets {n : Nat} {t : TypeSpec} {a rest : List Char}
    {x : Step TypeSpec} (hx : x = .ok (t, a)) (h : Brackets n a rest) (hrest : Ends rest) :
    completed x = .ok (wrap n t, Text.skipBlanks rest) := by
  rw [hx, completed, wrapped_of_brackets h hrest _ t (Nat.lt_succ_self _)]

/-! ## 2. Answers -/

/-- A step answers with a value: it gives the value and leaves `rest`, or it fails for the reason for
    which there is none. -/
def Replies {α : Type} (x : Except Failure (α × List Char)) (v : Except Reason α)
    (rest : List Char) : Prop :=
  match v with
  | .ok a => x = .ok (a, rest)
  | .error r => ∃ place, x = .error ⟨place, r⟩

section Replies

variable {α β : Type} {x : Except Failure (α × List Char)} {v : Except Reason α}
  {rest rest' : List Char}

/-- **Steps are put together.** -/
theorem Replies.bind {f : α × List Char → Except Failure (β × List Char)}
    {w : α → Except Reason β} (h : Replies x v rest)
    (hf : ∀ a, v = .ok a → Replies (f (a, rest)) (w a) rest') :
    Replies (x >>= f) (v >>= w) rest' := by
  cases v with
  | ok a =>
      have hx : x = .ok (a, rest) := h
      rw [hx]
      exact hf a rfl
  | error r =>
      obtain ⟨place, hx⟩ : ∃ place, x = .error ⟨place, r⟩ := h
      rw [hx]
      exact ⟨place, rfl⟩

/-- A step that gives a value. -/
theorem Replies.ok {a : α} (h : x = .ok (a, rest)) : Replies x (.ok a) rest := h

end Replies

/-! ## 3. Sizes -/

theorem toDimension_size {n : Nat} (hpos : 0 < n) (hn : n < Nat.pow 2 53) :
    toDimension (some n) = .ok (.fixed n) := by
  obtain ⟨m, rfl⟩ := Nat.exists_eq_add_one_of_ne_zero (Nat.ne_of_gt hpos)
  simp [toDimension, Decimal.nearest?_of_lt hn]

theorem toDimensions_cons_eq_ok {i : Nat} {raw : Option Nat} {raws : List (Option Nat)}
    {ds : List Dimension} (h : toDimensions i (raw :: raws) = .ok ds) :
    ∃ d ds', ds = d :: ds' ∧ toDimension raw = .ok d ∧ toDimensions (i + 1) raws = .ok ds' := by
  unfold toDimensions at h
  split at h
  · cases h
  · rename_i d hd
    split at h
    · cases h
    · rename_i ds' hds
      cases h
      exact ⟨d, ds', rfl, hd, hds⟩

theorem dimension_of_size {d : Option Nat} {cs rest : List Char} (h : Size d cs rest)
    (hrest : Stops rest) : dimension cs = .ok (d, rest) := by
  cases h with
  | star h => simp [dimension, mark?_of_mark h (by decide)]
  | @digits ds _ _ hne hds h =>
      obtain ⟨c, es, rfl⟩ := List.exists_cons_of_ne_nil hne
      have hc := isNamePart_of_isDigit (hds c List.mem_cons_self)
      have hvisible := isBlank_of_isNamePart hc
      have hstar : mark? '*' cs = none := mark?_of_token h hvisible fun e => by
        rw [e] at hc
        exact absurd hc (by decide)
      obtain ⟨htake, hdrop⟩ :=
        takeWhile_append_of_stops (fun _ => isNamePart_of_isDigit) hds hrest
      have hskip : Text.skipBlanks cs = c :: es ++ rest := (token_cons_iff hvisible).1 h
      simp only [dimension, hstar, hskip, htake, hdrop]

/-- A size begins with a star or a digit. -/
theorem mark?_of_size {d : Option Nat} {c : Char} {cs rest : List Char} (h : Size d cs rest)
    (hpart : isNamePart c = false) (hc : c ≠ '*') : mark? c cs = none := by
  cases h with
  | star h => exact mark?_of_token h (by decide) (Ne.symm hc)
  | digits hne hds h =>
      obtain ⟨d, es, rfl⟩ := List.exists_cons_of_ne_nil hne
      have hd := isNamePart_of_isDigit (hds d List.mem_cons_self)
      refine mark?_of_token h (isBlank_of_isNamePart hd) fun e => ?_
      rw [e, hpart] at hd
      cases hd

theorem mark?_of_sizes {sizes : List (Option Nat)} {c : Char} {cs rest : List Char}
    (h : Sizes sizes cs rest) (hpart : isNamePart c = false) (hc : c ≠ '*') : mark? c cs = none := by
  cases h with
  | one h => exact mark?_of_size h hpart hc
  | more h _ _ => exact mark?_of_size h hpart hc

theorem dimensions_of_sizes {sizes : List (Option Nat)} {cs rest after : List Char}
    (h : Sizes sizes cs rest) (hrest : Token [']'] rest after) : ∀ fuel, cs.length < fuel →
      dimensions fuel cs = .ok (sizes, rest) := by
  induction h with
  | one h =>
      intro fuel hfuel
      obtain ⟨fuel, rfl⟩ := exists_fuel hfuel
      have hcomma := mark?_of_token (c := ',') hrest (by decide) (by decide)
      simp [dimensions, dimension_of_size h (hrest.stops (by decide)), hcomma]
  | more h hcomma _ ih =>
      intro fuel hfuel
      obtain ⟨fuel, rfl⟩ := exists_fuel hfuel
      obtain ⟨done, rfl, -⟩ := h.onward
      have hcomma_lt := hcomma.length_lt
      rw [List.length_append] at hfuel
      simp [dimensions, dimension_of_size h (hcomma.stops (by decide)),
        mark?_of_mark hcomma (by decide), ih hrest fuel (by omega)]

theorem dimensionList_of_none {cs a rest : List Char} (hopen : Token ['['] cs a)
    (hclose : Token [']'] a rest) : dimensionList cs = .ok ([], rest) := by
  simp [dimensionList, mark_of_mark hopen (by decide),
    mark?_of_mark hclose (by decide), mark_of_mark hclose (by decide), toDimensions]

theorem dimensionList_of_sizes {sizes : List (Option Nat)} {cs a b rest : List Char}
    (hopen : Token ['['] cs a) (h : Sizes sizes a b) (hclose : Token [']'] b rest) :
    dimensionList cs =
      match toDimensions 0 sizes with
      | .ok ds => .ok (ds, rest)
      | .error (index, size) => .error ⟨rest, .notASize index size⟩ := by
  have hmore := mark?_of_sizes h (c := ']') (by decide) (by decide)
  have hsizes := dimensions_of_sizes h hclose _ (Nat.lt_succ_self _)
  rcases hread : toDimensions 0 sizes with ⟨index, size⟩ | ds <;>
    simp only [dimensionList, mark_of_mark hopen (by decide), hmore, hsizes,
      mark_of_mark hclose (by decide), hread]

/-! ## 4. Parts -/

theorem isName_sequence : IsName "sequence".toList := isName_cons_iff.2 rfl

theorem isName_array : IsName "array".toList := isName_cons_iff.2 rfl

theorem isName_mapping : IsName "mapping".toList := isName_cons_iff.2 rfl

theorem isName_opaque : IsName "opaque".toList := isName_cons_iff.2 rfl

theorem isName_record : IsName "record".toList := isName_cons_iff.2 rfl

theorem name_of_word {word : String} {cs a b : List Char} {c : Char}
    (hname : IsName word.toList) (h : Token word.toList cs a) (hmark : Token [c] a b)
    (hc : isNamePart c = false) : name cs = .ok (word, a) :=
  name_eq_ok_iff.2 ⟨hname, h, hmark.stops hc⟩

/-- Fields begin with a name, not with a mark. -/
theorem mark?_of_spelledFields {fs : List (String × Notation)} {c : Char} {cs rest : List Char}
    (h : Spells (.fields fs) cs rest) (hpart : isNamePart c = false) : mark? c cs = none := by
  have hword : ∃ word a, IsName word ∧ Token word cs a := by
    cases h with
    | field hfield hname _ _ => exact ⟨_, _, hfield, hname⟩
    | fields hfield hname _ _ _ _ => exact ⟨_, _, hfield, hname⟩
  obtain ⟨_, a, ⟨d, ds, rfl, hstart, -⟩, htoken⟩ := hword
  have hd := isNamePart_of_isNameStart hstart
  refine mark?_of_token htoken (isBlank_of_isNamePart hd) fun e => ?_
  rw [e, hpart] at hd
  cases hd

section Base

variable {cs a : List Char} {fuel : Nat}

theorem base_sequence (h : name cs = .ok ("sequence", a)) :
    base (fuel + 1) cs = do
      let rest ← mark '<' a
      let (element, rest) ← completed (base fuel rest)
      let rest ← mark '>' rest
      return (.sequence element, rest) := by
  rw [base, h]
  rfl

theorem base_array (h : name cs = .ok ("array", a)) :
    base (fuel + 1) cs = do
      let rest ← mark '<' a
      let (element, rest) ← scalarKind rest
      let rest ← mark '>' rest
      let (dims, rest) ← dimensionList rest
      return (.array element dims, rest) := by
  rw [base, h]
  rfl

theorem base_mapping (h : name cs = .ok ("mapping", a)) :
    base (fuel + 1) cs = do
      let rest ← mark '<' a
      let (key, rest) ← scalarKind rest
      let rest ← mark ',' rest
      let (value, rest) ← completed (base fuel rest)
      let rest ← mark '>' rest
      return (.mapping key value, rest) := by
  rw [base, h]
  rfl

theorem base_handle (h : name cs = .ok ("opaque", a)) :
    base (fuel + 1) cs = do
      let rest ← mark '<' a
      let (label, rest) ← name rest
      let rest ← mark '>' rest
      return (.handle label, rest) := by
  rw [base, h]
  rfl

theorem base_record (h : name cs = .ok ("record", a)) :
    base (fuel + 1) cs = do
      let rest ← mark '\x7b' a
      let (fields, rest) ←
        match mark? '\x7d' rest with
        | some _ => .ok (({} : Filling TypeSpec), rest)
        | none => fieldsFrom fuel {} rest
      let rest ← mark '\x7d' rest
      return (.record fields.entries none, rest) := by
  rw [base, h]
  rfl

/-- A word that is none of the five names a kind, or nothing. -/
theorem base_word {word : String} (h : name cs = .ok (word, a))
    (hword : word ∉ ["sequence", "array", "mapping", "opaque", "record"]) :
    base (fuel + 1) cs =
      match ScalarKind.ofName? word with
      | some k => .ok (.scalar k, a)
      | none => stop cs .base := by
  simp only [List.mem_cons, List.not_mem_nil, or_false, not_or] at hword
  obtain ⟨hsequence, harray, hmapping, hhandle, hrecord⟩ := hword
  simp only [base, h, Step.ok_bind, if_neg hsequence, if_neg harray, if_neg hmapping,
    if_neg hhandle, if_neg hrecord]
  rfl

end Base

/-- A field is new, and its type is stored under its name. -/
theorem fieldsFrom_field {fuel : Nat} {f : Filling TypeSpec} {field : String} {cs a : List Char}
    (hname : name cs = .ok (field, a)) (hnew : f.entries.has field = false) :
    fieldsFrom (fuel + 1) f cs = (do
      let rest ← mark ':' a
      let (t, rest) ← completed (base fuel rest)
      match f.store t.partNames field t with
      | none => .error ⟨rest, .sealedField field⟩
      | some fields =>
        match mark? ',' rest with
        | none => return (fields, rest)
        | some rest => fieldsFrom fuel fields rest) := by
  have hfresh : ¬ f.entries.has field = true := by
    rw [hnew]
    exact Bool.false_ne_true
  rw [fieldsFrom, hname, Step.ok_bind]
  exact if_neg hfresh

theorem fieldsFrom_taken {fuel : Nat} {f : Filling TypeSpec} {field : String} {cs a : List Char}
    (hname : name cs = .ok (field, a)) (htaken : f.entries.has field = true) :
    fieldsFrom (fuel + 1) f cs = stop a (.otherField field) := by
  simp only [fieldsFrom, hname, Step.ok_bind, htaken, if_true]

/-- A field is answered for when its type is, and the fields behind it. -/
theorem replies_field {fuel : Nat} {f : Filling TypeSpec} {field : String} {n : Notation}
    {fs : List (String × Notation)} {cs a b c rest : List Char} (hname : name cs = .ok (field, a))
    (hcolon : mark ':' a = .ok b) (htype : Replies (completed (base fuel b)) n.value c)
    (hmore : ∀ f, Replies
      (match mark? ',' c with
        | none => .ok (f, c)
        | some d => fieldsFrom fuel f d) (Notation.fieldsValue f fs) rest) :
    Replies (fieldsFrom (fuel + 1) f cs) (Notation.fieldsValue f ((field, n) :: fs)) rest := by
  rw [Notation.fieldsValue]
  cases hnew : f.entries.has field with
  | true => exact ⟨a, fieldsFrom_taken hname hnew⟩
  | false =>
      rw [fieldsFrom_field hname hnew, hcolon, Step.ok_bind, if_neg Bool.false_ne_true]
      refine htype.bind fun t _ => ?_
      dsimp only
      cases f.store t.partNames field t with
      | none => exact ⟨c, rfl⟩
      | some f => exact hmore f

/-- How a part is answered where a derivation leaves `rest`. -/
def Answers : Part → List Char → List Char → Prop
  | .base n, cs, rest => Stops rest → ∀ fuel, cs.length < fuel →
      Replies (base fuel cs) n.value rest
  | .type n, cs, rest => Ends rest → ∀ fuel, cs.length < fuel →
      Replies (completed (base fuel cs)) n.value (Text.skipBlanks rest)
  | .fields fs, cs, rest => (∃ after, Token ['\x7d'] rest after) → ∀ fuel, cs.length < fuel →
      ∀ f : Filling TypeSpec,
        Replies (fieldsFrom fuel f cs) (Notation.fieldsValue f fs) (Text.skipBlanks rest)

/-- **A part that the grammar spells is answered with its value, and the same text is left.** -/
theorem answers_of_spells {p : Part} {cs rest : List Char} (h : Spells p cs rest) :
    Answers p cs rest := by
  induction h with
  | @scalar k cs rest hword =>
      intro hrest fuel hfuel
      obtain ⟨fuel, rfl⟩ := exists_fuel hfuel
      have hname : name cs = .ok (k.name, rest) := name_eq_ok_iff.2 ⟨isName_kind k, hword, hrest⟩
      refine Replies.ok ?_
      rw [base_word hname (by cases k <;> decide), ScalarKind.ofName?_name]
  | @sequence e cs a b c rest hword hopen _ hclose ih =>
      intro _ fuel hfuel
      obtain ⟨fuel, rfl⟩ := exists_fuel hfuel
      have hword_le := hword.suffix.length_le
      have hopen_lt := hopen.length_lt
      have helement := ih (ends_of_token hclose (by decide) (by decide) (by decide)) fuel (by omega)
      rw [Notation.value, base_sequence (name_of_word isName_sequence hword hopen (by decide)),
        mark_of_mark hopen (by decide), Step.ok_bind]
      refine helement.bind fun t _ => Replies.ok ?_
      simp only [mark_skipBlanks, mark_of_mark hclose (by decide), Step.ok_bind, Step.pure_eq_ok]
  | @point k cs a b c d e rest hword hopen hkind hclose hleft hright =>
      intro _ fuel hfuel
      obtain ⟨fuel, rfl⟩ := exists_fuel hfuel
      refine Replies.ok ?_
      simp only [base_array (name_of_word isName_array hword hopen (by decide)),
        mark_of_mark hopen (by decide), scalarKind_eq_ok_iff.2 ⟨hkind, hclose.stops (by decide)⟩,
        mark_of_mark hclose (by decide), dimensionList_of_none hleft hright, Step.ok_bind,
        Step.pure_eq_ok]
  | @array k sizes cs a b c d e f rest hword hopen hkind hclose hleft hsizes hright =>
      intro _ fuel hfuel
      obtain ⟨fuel, rfl⟩ := exists_fuel hfuel
      simp only [Notation.value, base_array (name_of_word isName_array hword hopen (by decide)),
        mark_of_mark hopen (by decide), scalarKind_eq_ok_iff.2 ⟨hkind, hclose.stops (by decide)⟩,
        mark_of_mark hclose (by decide), dimensionList_of_sizes hleft hsizes hright, Step.ok_bind]
      cases toDimensions 0 sizes with
      | ok ds => exact Replies.ok rfl
      | error p => exact ⟨rest, rfl⟩
  | @mapping k v cs a b c d e rest hword hopen hkind hcomma _ hclose ih =>
      intro _ fuel hfuel
      obtain ⟨fuel, rfl⟩ := exists_fuel hfuel
      have hword_le := hword.suffix.length_le
      have hopen_lt := hopen.length_lt
      have hkind_le := hkind.suffix.length_le
      have hcomma_lt := hcomma.length_lt
      have hvalue := ih (ends_of_token hclose (by decide) (by decide) (by decide)) fuel (by omega)
      simp only [Notation.value, base_mapping (name_of_word isName_mapping hword hopen (by decide)),
        mark_of_mark hopen (by decide), scalarKind_eq_ok_iff.2 ⟨hkind, hcomma.stops (by decide)⟩,
        mark_of_mark hcomma (by decide), Step.ok_bind]
      refine hvalue.bind fun t _ => Replies.ok ?_
      simp only [mark_skipBlanks, mark_of_mark hclose (by decide), Step.ok_bind, Step.pure_eq_ok]
  | @handle label cs a b c rest hword hopen hlabel hname hclose =>
      intro _ fuel hfuel
      obtain ⟨fuel, rfl⟩ := exists_fuel hfuel
      refine Replies.ok ?_
      simp only [base_handle (name_of_word isName_opaque hword hopen (by decide)),
        mark_of_mark hopen (by decide), name_of_word hlabel hname hclose (by decide),
        mark_of_mark hclose (by decide), Step.ok_bind, Step.pure_eq_ok]
  | @bare cs a b rest hword hopen hclose =>
      intro _ fuel hfuel
      obtain ⟨fuel, rfl⟩ := exists_fuel hfuel
      refine Replies.ok ?_
      simp only [base_record (name_of_word isName_record hword hopen (by decide)),
        mark_of_mark hopen (by decide), mark?_of_mark hclose (by decide),
        mark_of_mark hclose (by decide), Step.ok_bind, Step.pure_eq_ok]
  | @record fs cs a b c rest hword hopen hfields hclose ih =>
      intro _ fuel hfuel
      obtain ⟨fuel, rfl⟩ := exists_fuel hfuel
      have hword_le := hword.suffix.length_le
      have hopen_lt := hopen.length_lt
      have hread := ih ⟨_, hclose⟩ fuel (by omega) {}
      have hmore : mark? '\x7d' b = none := mark?_of_spelledFields hfields (by decide)
      rw [Notation.value, base_record (name_of_word isName_record hword hopen (by decide)),
        mark_of_mark hopen (by decide), Step.ok_bind, hmore]
      refine hread.bind fun f _ => Replies.ok ?_
      simp only [mark_skipBlanks, mark_of_mark hclose (by decide), Step.ok_bind, Step.pure_eq_ok]
  | @field field n cs a b rest hfield hname hcolon _ ih =>
      intro hrest fuel hfuel f
      obtain ⟨fuel, rfl⟩ := exists_fuel hfuel
      obtain ⟨after, hafter⟩ := hrest
      have hname_le := hname.suffix.length_le
      have hcolon_lt := hcolon.length_lt
      have htype := ih (ends_of_token hafter (by decide) (by decide) (by decide)) fuel (by omega)
      have hcomma : mark? ',' rest = none := mark?_of_token hafter (by decide) (by decide)
      refine replies_field (name_of_word hfield hname hcolon (by decide))
        (mark_of_mark hcolon (by decide)) htype fun f => Replies.ok ?_
      rw [mark?_skipBlanks, hcomma]
  | @fields field n fs cs a b c d rest hfield hname hcolon htype hcomma _ ih ih' =>
      intro hrest fuel hfuel f
      obtain ⟨fuel, rfl⟩ := exists_fuel hfuel
      have hname_le := hname.suffix.length_le
      have hcolon_lt := hcolon.length_lt
      have htype_le := htype.onward.suffix.length_le
      have hcomma_lt := hcomma.length_lt
      have htype := ih (ends_of_token hcomma (by decide) (by decide) (by decide)) fuel (by omega)
      refine replies_field (name_of_word hfield hname hcolon (by decide))
        (mark_of_mark hcolon (by decide)) htype fun f => ?_
      rw [mark?_skipBlanks, mark?_of_mark hcomma (by decide)]
      exact ih' hrest fuel (by omega) f
  | @type n k cs a rest _ hbrackets ih =>
      intro hrest fuel hfuel
      have hbase := ih (stops_of_brackets hbrackets hrest.stops) fuel hfuel
      rw [Notation.value_wrap]
      cases hn : n.value with
      | ok t =>
          rw [hn] at hbase
          exact completed_of_brackets hbase hbrackets hrest
      | error r =>
          rw [hn] at hbase
          obtain ⟨place, hplace⟩ := hbase
          exact ⟨place, by rw [hplace]; rfl⟩

/-! ## 5. Whole texts -/

/-- **A text that spells a notation is read as its value.** -/
theorem read_of_spellsAll {n : Notation} {cs : List Char} (h : SpellsAll n cs) :
    match n.value with
    | .ok t => TypeSpec.read cs = .ok t
    | .error r => ∃ place, TypeSpec.read cs = .error ⟨place, r⟩ := by
  obtain ⟨rest, hspells, hblank⟩ := h
  have hread := answers_of_spells hspells (ends_of_blank hblank) _ (Nat.lt_succ_self _)
  have hend := Text.skipBlanks_eq_nil_iff.2 hblank
  cases hn : n.value with
  | ok t =>
      rw [hn] at hread
      have hread : completed (base (cs.length + 1) cs) = .ok (t, Text.skipBlanks rest) := hread
      simp [TypeSpec.read, hread, hend]
  | error r =>
      rw [hn] at hread
      obtain ⟨place, hplace⟩ := hread
      exact ⟨place, by simp [TypeSpec.read, hplace]⟩

end Reading

namespace TypeSpec

theorem parse_of_read {source : String} {t : TypeSpec} (h : TypeSpec.read source.toList = .ok t) :
    TypeSpec.parse source = .ok t := by
  rw [TypeSpec.parse, h]

theorem parse_of_failure {source : String} {failure : Reading.Failure}
    (h : TypeSpec.read source.toList = .error failure)
    (hreason : ∀ name, failure.reason ≠ .sealedField name) :
    TypeSpec.parse source = .error (.malformed none (.unreadable source failure)) := by
  rw [TypeSpec.parse, h]
  split
  · rename_i heq
    cases heq
  · rename_i heq
    cases heq
    exact absurd rfl (hreason _)
  · rename_i heq
    cases heq
    rfl

end TypeSpec

end SchemaFlow
