import Mathlib.Algebra.Order.BigOperators.Group.List
import Mathlib.Algebra.Order.Group.Nat
import SchemaFlow.Proofs.Entries.Distinct
import SchemaFlow.Proofs.TypeSpec.Failures

/-!
# Where reading stops

What is read at each level of nesting is spelled, and a failure there is explained: what stands before
its place could have gone on as a type or as fields with a value, unless a name is sealed.

* `IsType`, `IsFields`: what is read.
* `TypeWord`, `FieldsWord`: what could have been read.
* `nesting`: both for bases and fields, at every level of nesting.
* `TypeSpec.parse_failure`: a text is read, or its first part can be completed, or a name is sealed.
-/

namespace SchemaFlow

namespace Reading

open Grammar Relation

/-! ## 1. Types -/

/-- A notation has a value, or a name is sealed in a text that names the ancestor. -/
def Fine {α : Type} (source : List Char) (v : Except Reason α) : Prop :=
  match v with
  | .ok _ => True
  | .error r => (∃ name, r = .sealedField name) ∧ ancestorName.toList <:+: source

/-- Any number of blanks. -/
def Blanks (cs rest : List Char) : Prop :=
  ∃ blanks : List Char, (∀ c ∈ blanks, Text.isBlank c = true) ∧ cs = blanks ++ rest

theorem blanks_skipBlanks (cs : List Char) : Blanks cs (Text.skipBlanks cs) :=
  Text.exists_blanks cs

/-- A word may be told from further away. -/
theorem Blanks.token {word cs a rest : List Char} (h : Blanks cs a) (hword : Token word a rest) :
    Token word cs rest := by
  obtain ⟨blanks, hblanks, rfl⟩ := h
  obtain ⟨blanks', hblanks', rfl⟩ := hword
  refine ⟨blanks ++ blanks', fun c hc => ?_, (List.append_assoc _ _ _).symm⟩
  exact (List.mem_append.1 hc).elim (hblanks c) (hblanks' c)

theorem Blanks.trans {cs a rest : List Char} (h : Blanks cs a) (h' : Blanks a rest) :
    Blanks cs rest := by
  obtain ⟨blanks, hblanks, rfl⟩ := h
  obtain ⟨blanks', hblanks', rfl⟩ := h'
  refine ⟨blanks ++ blanks', fun c hc => ?_, (List.append_assoc _ _ _).symm⟩
  exact (List.mem_append.1 hc).elim (hblanks c) (hblanks' c)

theorem Blanks.onward {cs rest : List Char} (h : Blanks cs rest) : Onward Blanks cs rest := by
  obtain ⟨blanks, hblanks, rfl⟩ := h
  exact ⟨blanks, rfl, fun after => ⟨blanks, hblanks, rfl⟩⟩

section Types

variable {source : List Char}

/-- A base with a value. -/
def BaseWord (source cs rest : List Char) : Prop :=
  ∃ n : Notation, Fine source n.value ∧ Spells (.base n) cs rest

/-- A type with a value, and blanks behind it. -/
def TypeWord (source : List Char) : List Char → List Char → Prop :=
  Comp (fun cs rest => ∃ n : Notation, Fine source n.value ∧ Spells (.type n) cs rest) Blanks

/-- Fields with a value on top of those that are stored, and blanks behind them. -/
def FieldsWord (source : List Char) (f : Filling TypeSpec) : List Char → List Char → Prop :=
  Comp (fun cs rest => ∃ fs, Fine source (Notation.fieldsValue f fs) ∧ Spells (.fields fs) cs rest)
    Blanks

theorem Fine.bind {α β : Type} {v : Except Reason α} {w : α → Except Reason β}
    (h : Fine source v) (hw : ∀ a, v = .ok a → Fine source (w a)) : Fine source (v >>= w) := by
  cases v with
  | ok a => exact hw a rfl
  | error r => exact h

theorem typeWord_of_baseWord {cs rest : List Char} (h : BaseWord source cs rest) :
    TypeWord source cs rest := by
  obtain ⟨n, hn, hspells⟩ := h
  exact ⟨rest, ⟨n, hn, hspells.type_of_base⟩, [], fun _ h => absurd h List.not_mem_nil, rfl⟩

theorem closable_base : Closable (BaseWord source) :=
  (closable_token ScalarKind.float.name.toList).mono fun _ _ h =>
    ⟨.scalar .float, trivial, .scalar h⟩

theorem closable_type : Closable (TypeWord source) :=
  closable_base.mono fun _ _ => typeWord_of_baseWord

/-- What is read as a base. -/
def IsBase (cs : List Char) (p : TypeSpec × List Char) : Prop :=
  ∃ n : Notation, n.value = .ok p.1 ∧ Spells (.base n) cs p.2

/-- What is read as a type, blanks behind it included. -/
def IsType (cs : List Char) (p : TypeSpec × List Char) : Prop :=
  ∃ n : Notation, n.value = .ok p.1 ∧ ∃ a, Spells (.type n) cs a ∧ Blanks a p.2

/-- What is read as fields, blanks behind them included. -/
def IsFields (f : Filling TypeSpec) (cs : List Char) (p : Filling TypeSpec × List Char) : Prop :=
  ∃ fs, Notation.fieldsValue f fs = .ok p.1 ∧ ∃ a, Spells (.fields fs) cs a ∧ Blanks a p.2

theorem IsType.onward {cs : List Char} {p : TypeSpec × List Char} (h : IsType cs p) :
    Onward (TypeWord source) cs p.2 := by
  obtain ⟨n, hn, a, hspells, hblanks⟩ := h
  refine Onward.comp (hspells.onward.mono fun y t h => ⟨n, ?_, h⟩) hblanks.onward
  rw [hn]
  trivial

theorem IsFields.onward {f : Filling TypeSpec} {cs : List Char}
    {p : Filling TypeSpec × List Char} (h : IsFields f cs p) :
    Onward (FieldsWord source f) cs p.2 := by
  obtain ⟨fs, hfs, a, hspells, hblanks⟩ := h
  refine Onward.comp (hspells.onward.mono fun y t h => ⟨fs, ?_, h⟩) hblanks.onward
  rw [hfs]
  trivial

/-- Brackets that are read stand in the text. -/
theorem brackets_of_wrapped : ∀ (fuel : Nat) (t : TypeSpec) (cs : List Char), cs.length < fuel →
    ∃ n rest, Brackets n cs rest ∧ wrapped fuel t cs = (wrap n t, Text.skipBlanks rest)
  | 0, _, _, h => absurd h (Nat.not_lt_zero _)
  | fuel + 1, t, cs, h => by
      unfold wrapped
      cases hopen : mark? '[' cs with
      | none => exact ⟨0, cs, .none cs, rfl⟩
      | some a =>
          have hopen := (mark?_eq_some_iff (by decide)).1 hopen
          dsimp only
          cases hclose : mark? ']' a with
          | none => exact ⟨0, cs, .none cs, rfl⟩
          | some b =>
              have hclose := (mark?_eq_some_iff (by decide)).1 hclose
              have hopen_lt := hopen.length_lt
              have hclose_lt := hclose.length_lt
              obtain ⟨n, rest, hmore, hread⟩ := brackets_of_wrapped fuel (.sequence t) b (by omega)
              exact ⟨n + 1, rest, .more hopen hclose hmore, hread⟩

theorem outcome_completed {x : Step TypeSpec} {cs : List Char}
    (h : Outcome source (BaseWord source) cs (IsBase cs) x) :
    Outcome source (TypeWord source) cs (IsType cs) (completed x) := by
  rcases h.cases with ⟨e, rfl, he⟩ | ⟨⟨t, a⟩, rfl, n, hn, hspells⟩
  · exact he.mono fun _ _ _ => typeWord_of_baseWord
  · obtain ⟨k, rest, hbrackets, hread⟩ := brackets_of_wrapped _ t a (Nat.lt_succ_self _)
    rw [completed, hread]
    refine ⟨n.wrap k, ?_, rest, .type hspells hbrackets, blanks_skipBlanks rest⟩
    rw [Notation.value_wrap, hn]
    rfl

end Types

/-! ## 2. Fields -/

section Fields

variable {source : List Char}

/-- A name is kept only in a text that names the ancestor. -/
def Keeps (source : List Char) (f : Filling TypeSpec) : Prop :=
  f.kept ≠ [] → ancestorName.toList <:+: source

theorem kept_of_store_eq_none {α : Type} {f : Filling α} {kept : List String} {name : String}
    {v : α} (h : f.store kept name v = none) : f.kept ≠ [] := by
  intro hkept
  by_cases hname : name = ancestorName
  · rw [hname, Filling.store_ancestor] at h
    cases h
  · rw [Filling.store_of_nothing_kept kept v hname hkept] at h
    cases h

/-- A name is kept only once the ancestor is given. -/
theorem named_of_store {α : Type} {named : Prop} {f f' : Filling α} {kept : List String}
    {name : String} {v : α} (h : f.kept ≠ [] → named) (hname : name = ancestorName → named)
    (hstore : f.store kept name v = some f') : f'.kept ≠ [] → named := by
  by_cases he : name = ancestorName
  · exact fun _ => hname he
  · obtain ⟨-, -, hkept⟩ := Filling.store_entry he hstore
    rw [hkept]
    exact h

theorem Keeps.store {f f' : Filling TypeSpec} {kept : List String} {name : String} {t : TypeSpec}
    (h : Keeps source f) (hstore : f.store kept name t = some f')
    (hname : name = ancestorName → ancestorName.toList <:+: source) : Keeps source f' :=
  named_of_store h hname hstore

/-- A new field may be stored, unless its name is kept. -/
theorem Keeps.fine {f : Filling TypeSpec} {name : String} {n : Notation} (h : Keeps source f)
    (hnew : f.entries.has name = false) (hn : Fine source n.value) :
    Fine source (Notation.fieldsValue f [(name, n)]) := by
  rw [Notation.fieldsValue, hnew, if_neg Bool.false_ne_true]
  refine hn.bind fun t _ => ?_
  cases hstore : f.store t.partNames name t with
  | none => exact ⟨⟨name, rfl⟩, h (kept_of_store_eq_none hstore)⟩
  | some f' =>
      dsimp only
      rw [Notation.fieldsValue]
      trivial

theorem isName_append {word more : List Char} (h : IsName word)
    (hmore : ∀ c ∈ more, isNamePart c = true) : IsName (word ++ more) := by
  obtain ⟨c, ds, rfl, hstart, hds⟩ := h
  refine ⟨c, ds ++ more, rfl, hstart, fun d hd => ?_⟩
  exact (List.mem_append.1 hd).elim (hds d) (hmore d)

/-- There are as many letters as it takes. -/
theorem exists_letters (names : List String) : ∃ more : List Char,
    (∀ c ∈ more, isNamePart c = true) ∧ ∀ name ∈ names, name.length < more.length := by
  refine ⟨List.replicate ((names.map String.length).sum + 1) 'x', fun c hc => ?_,
    fun name hname => ?_⟩
  · rw [List.eq_of_mem_replicate hc]
    decide
  · have hle := List.le_sum_of_mem (List.mem_map_of_mem (f := String.length) hname)
    rw [List.length_replicate]
    omega

/-- A name that goes on with as many letters as it takes is new to a table. -/
theorem exists_new_name (f : Filling TypeSpec) {word : List Char} (h : IsName word) :
    ∃ (name : String) (more : List Char), name.toList = word ++ more ∧ IsName name.toList ∧
      f.entries.has name = false := by
  obtain ⟨more, hmore, hlonger⟩ := exists_letters f.entries.names
  refine ⟨String.ofList (word ++ more), more, String.toList_ofList, ?_, ?_⟩
  · rw [String.toList_ofList]
    exact isName_append h hmore
  · rw [Entries.has_eq_false_iff, Entries.find?_eq_none_iff]
    intro hmem
    have hlt := hlonger _ hmem
    rw [String.length_ofList, List.length_append] at hlt
    omega

/-- A new name, a colon and a type make a field. -/
theorem fieldsWord_of_field {f : Filling TypeSpec} {name : String} (hf : Keeps source f)
    (hnew : f.entries.has name = false) (hname : IsName name.toList) (cs rest : List Char)
    (h : Comp (Token name.toList) (Comp (Token [':']) (TypeWord source)) cs rest) :
    FieldsWord source f cs rest := by
  obtain ⟨a, hword, b, hcolon, c, ⟨n, hn, hspells⟩, hblanks⟩ := h
  exact ⟨c, ⟨[(name, n)], hf.fine hnew hn, .field hname hword hcolon hspells⟩, hblanks⟩

theorem closable_fields {f : Filling TypeSpec} (hf : Keeps source f) :
    Closable (FieldsWord source f) := by
  obtain ⟨name, _, -, hname, hnew⟩ := exists_new_name f (isName_kind .float)
  exact ((closable_token _).comp ((closable_token [':']).comp closable_type)).mono
    (fieldsWord_of_field hf hnew hname)

/-- A name is read where a new field was to begin. -/
theorem outcome_fieldName {f : Filling TypeSpec} (hf : Keeps source f) (cs : List Char) :
    Outcome source (FieldsWord source f) cs
      (fun p => IsName p.1.toList ∧ Token p.1.toList cs p.2) (name cs) := by
  obtain ⟨name, _, -, hname, hnew⟩ := exists_new_name f (isName_kind .float)
  exact ((outcome_name _ cs _).closed ((closable_token [':']).comp closable_type)).mono
    fun _ => fieldsWord_of_field hf hnew hname

/-- A name that is taken can go on as one that is not. -/
theorem explained_otherField {f : Filling TypeSpec} {field : String} {cs a : List Char}
    (hf : Keeps source f) (hfield : IsName field.toList) (hname : Token field.toList cs a) :
    Explained source (FieldsWord source f) cs ⟨a, .expected (.otherField field)⟩ where
  place := hname.suffix
  sealed _ hreason := by cases hreason
  viable _ _ := by
    obtain ⟨name, more, hlonger, hname', hnew⟩ := exists_new_name f hfield
    obtain ⟨word, hword⟩ : Closable (Comp (Token [':']) (TypeWord source)) :=
      (closable_token [':']).comp closable_type
    obtain ⟨blanks, hblanks, rfl⟩ := hname
    refine ⟨blanks ++ field.toList, more ++ word, (List.append_assoc _ _ _).symm, fun tail => ?_⟩
    refine fieldsWord_of_field hf hnew hname' _ _ ⟨word ++ tail, ⟨blanks, hblanks, ?_⟩, hword tail⟩
    rw [hlonger]
    simp only [List.append_assoc]

end Fields

/-! ## 3. Levels of nesting -/

/-- What is read at one level of nesting, in a part of a text. -/
structure Nesting (source : List Char) (fuel : Nat) : Prop where
  base : ∀ {cs : List Char}, cs <:+ source →
    Outcome source (BaseWord source) cs (IsBase cs) (base fuel cs)
  fields : ∀ {cs : List Char} {f : Filling TypeSpec}, cs <:+ source → Keeps source f →
    Outcome source (FieldsWord source f) cs (IsFields f cs) (fieldsFrom fuel f cs)

section Nesting

variable {source : List Char} {fuel : Nat}

theorem Nesting.type (h : Nesting source fuel) {cs : List Char} (hcs : cs <:+ source) :
    Outcome source (TypeWord source) cs (IsType cs) (completed (Reading.base fuel cs)) :=
  outcome_completed (h.base hcs)

/-- Behind a field that is stored there are others, or none. -/
theorem outcome_moreFields (h : Nesting source fuel) {cs a b u c : List Char} {field : String}
    {n : Notation} {f f' : Filling TypeSpec} (hcs : cs <:+ source) (hf' : Keeps source f')
    (hfield : IsName field.toList) (hname : Token field.toList cs a) (hcolon : Token [':'] a b)
    (hspells : Spells (.type n) b u) (hblanks : Blanks u c)
    (hvalue : ∀ fs, Notation.fieldsValue f ((field, n) :: fs) = Notation.fieldsValue f' fs) :
    Outcome source (FieldsWord source f) cs (IsFields f cs)
      (match mark? ',' c with
        | none => return (f', c)
        | some d => fieldsFrom fuel f' d) := by
  cases hm : mark? ',' c with
  | none =>
      refine ⟨[(field, n)], ?_, u, .field hfield hname hcolon hspells, hblanks⟩
      rw [hvalue, Notation.fieldsValue]
  | some d =>
      have hcomma := hblanks.token ((mark?_eq_some_iff (by decide)).1 hm)
      have hd : d <:+ source := (((hcomma.suffix.trans hspells.onward.suffix).trans
        hcolon.suffix).trans hname.suffix).trans hcs
      rcases (h.fields hd hf').cases with ⟨e, hz, he⟩ | ⟨p, hz, fs, hfs, v, hmore, hblanks'⟩
      · dsimp only
        rw [hz]
        refine ((((he.after hcomma.onward).after hspells.onward).after
          hcolon.onward).after hname.onward).mono fun _ y z hread => ?_
        obtain ⟨_, hname, _, hcolon, _, hspells, _, hcomma, w, ⟨fs, hfs, hmore⟩, hw⟩ := hread
        exact ⟨w, ⟨(field, n) :: fs, by rwa [hvalue],
          .fields hfield hname hcolon hspells hcomma hmore⟩, hw⟩
      · dsimp only
        rw [hz]
        exact ⟨(field, n) :: fs, by rw [hvalue, hfs], v,
          .fields hfield hname hcolon hspells hcomma hmore, hblanks'⟩

theorem outcome_fieldsFrom_succ (h : Nesting source fuel) {cs : List Char} {f : Filling TypeSpec}
    (hcs : cs <:+ source) (hf : Keeps source f) :
    Outcome source (FieldsWord source f) cs (IsFields f cs) (fieldsFrom (fuel + 1) f cs) := by
  rcases (outcome_fieldName hf cs).cases with ⟨e, hx, he⟩ | ⟨⟨field, a⟩, hx, hfield, hname⟩
  · rw [fieldsFrom, hx]
    exact he
  · dsimp only at hfield hname
    cases hnew : f.entries.has field with
    | true =>
        rw [fieldsFrom_taken hx hnew]
        exact explained_otherField hf hfield hname
    | false =>
        have hword := fun _ : Sized source => fieldsWord_of_field hf hnew hfield
        rw [fieldsFrom_field hx hnew]
        refine Outcome.bind (P := fun b => Token [':'] a b)
          (((outcome_mark (by decide) a).closed closable_type).after hname.onward |>.mono hword) ?_
        intro b hcolon
        have hb : b <:+ source := (hcolon.suffix.trans hname.suffix).trans hcs
        refine Outcome.bind (P := IsType b)
          (((h.type hb).after hcolon.onward).after hname.onward |>.mono hword) ?_
        rintro ⟨t, c⟩ ⟨n, hn, u, hspells, hblanks⟩
        dsimp only at hn hblanks ⊢
        cases hstore : f.store t.partNames field t with
        | none =>
            have hc : c <:+ cs := ((hblanks.onward.suffix.trans hspells.onward.suffix).trans
              hcolon.suffix).trans hname.suffix
            exact ⟨hc, fun _ _ => hf (kept_of_store_eq_none hstore), fun hreason =>
              absurd rfl (hreason field)⟩
        | some f' =>
            have hf' : Keeps source f' := hf.store hstore fun e =>
              (e ▸ hname.infix_left).trans hcs.isInfix
            exact outcome_moreFields h hcs hf' hfield hname hcolon hspells hblanks
              fun fs => Notation.fieldsValue_cons hnew hn hstore

theorem outcome_sequence (h : Nesting source fuel) {cs a : List Char} (hcs : cs <:+ source)
    (hx : name cs = .ok ("sequence", a)) :
    Outcome source (BaseWord source) cs (IsBase cs) (base (fuel + 1) cs) := by
  obtain ⟨-, hword, -⟩ := name_eq_ok_iff.1 hx
  have hbase : ∀ y t, Comp (Token "sequence".toList) (Comp (Token ['<'])
      (Comp (TypeWord source) (Token ['>']))) y t → BaseWord source y t := by
    rintro y t ⟨_, hword, _, hopen, _, ⟨_, ⟨n, hn, hspells⟩, hblanks⟩, hclose⟩
    refine ⟨.sequence n, ?_, .sequence hword hopen hspells (hblanks.token hclose)⟩
    rw [Notation.value]
    exact hn.bind fun _ _ => trivial
  rw [base_sequence hx]
  refine Outcome.mono (Outcome.after hword.onward ?_) fun _ => hbase
  refine Outcome.bind (P := Token ['<'] a) ((outcome_mark (by decide) a).closed
    (closable_type.comp (closable_token _))) fun b hopen => Outcome.after hopen.onward ?_
  have hb : b <:+ source := (hopen.suffix.trans hword.suffix).trans hcs
  refine Outcome.bind (P := IsType b) ((h.type hb).closed (closable_token _))
    fun p he => Outcome.after he.onward ?_
  obtain ⟨n, hn, u, hspells, hblanks⟩ := he
  refine Outcome.bind (P := Token ['>'] p.2) (outcome_mark (by decide) p.2) fun rest hclose => ?_
  refine ⟨.sequence n, ?_, .sequence hword hopen hspells (hblanks.token hclose)⟩
  rw [Notation.value, hn]
  rfl

theorem outcome_array {cs a : List Char} (hcs : cs <:+ source)
    (hx : name cs = .ok ("array", a)) :
    Outcome source (BaseWord source) cs (IsBase cs) (base (fuel + 1) cs) := by
  obtain ⟨-, hword, -⟩ := name_eq_ok_iff.1 hx
  have hbase : ∀ y t, Comp (Token "array".toList) (Comp (Token ['<'])
      (Comp KindWord (Comp (Token ['>']) SizeListWord))) y t → BaseWord source y t := by
    rintro y t ⟨_, hword, _, hopen, _, ⟨k, hkind⟩, _, hclose, sizes, hproper, hsizes⟩
    refine ⟨.array k sizes, ?_, spells_array hword hopen hkind hclose hsizes⟩
    obtain ⟨ds, hds⟩ := toDimensions_proper 0 hproper
    rw [Notation.value, hds]
    trivial
  rw [base_array hx]
  refine Outcome.mono (Outcome.after hword.onward ?_) fun _ => hbase
  refine Outcome.bind (P := Token ['<'] a) ((outcome_mark (by decide) a).closed
    (closable_kind.comp ((closable_token _).comp closable_sizeList)))
    fun b hopen => Outcome.after hopen.onward ?_
  refine Outcome.bind (P := fun p => Token p.1.name.toList b p.2) ((outcome_scalarKind b).closed
    ((closable_token _).comp closable_sizeList))
    fun p hkind => Outcome.after (hkind.onward.mono fun _ _ h => ⟨p.1, h⟩) ?_
  refine Outcome.bind (P := Token ['>'] p.2) ((outcome_mark (by decide) p.2).closed
    closable_sizeList) fun d hclose => Outcome.after hclose.onward ?_
  have hd : d <:+ source := (((hclose.suffix.trans hkind.suffix).trans hopen.suffix).trans
    hword.suffix).trans hcs
  refine Outcome.bind (outcome_dimensionList hd) fun q hq => ?_
  obtain ⟨sizes, hds, hsizes⟩ := hq
  refine ⟨.array p.1 sizes, ?_, spells_array hword hopen hkind hclose hsizes⟩
  rw [Notation.value, hds]

theorem outcome_mapping (h : Nesting source fuel) {cs a : List Char} (hcs : cs <:+ source)
    (hx : name cs = .ok ("mapping", a)) :
    Outcome source (BaseWord source) cs (IsBase cs) (base (fuel + 1) cs) := by
  obtain ⟨-, hword, -⟩ := name_eq_ok_iff.1 hx
  have hbase : ∀ y t, Comp (Token "mapping".toList) (Comp (Token ['<']) (Comp KindWord
      (Comp (Token [',']) (Comp (TypeWord source) (Token ['>']))))) y t → BaseWord source y t := by
    rintro y t ⟨_, hword, _, hopen, _, ⟨k, hkind⟩, _, hcomma, _, ⟨_, ⟨n, hn, hspells⟩, hblanks⟩,
      hclose⟩
    refine ⟨.mapping k n, ?_, .mapping hword hopen hkind hcomma hspells (hblanks.token hclose)⟩
    rw [Notation.value]
    exact hn.bind fun _ _ => trivial
  rw [base_mapping hx]
  refine Outcome.mono (Outcome.after hword.onward ?_) fun _ => hbase
  have hvalue : Closable (Comp (Token [',']) (Comp (TypeWord source) (Token ['>']))) :=
    (closable_token _).comp (closable_type.comp (closable_token _))
  refine Outcome.bind (P := Token ['<'] a) ((outcome_mark (by decide) a).closed
    (closable_kind.comp hvalue)) fun b hopen => Outcome.after hopen.onward ?_
  refine Outcome.bind (P := fun p => Token p.1.name.toList b p.2) ((outcome_scalarKind b).closed
    hvalue) fun p hkind => Outcome.after (hkind.onward.mono fun _ _ h => ⟨p.1, h⟩) ?_
  refine Outcome.bind (P := Token [','] p.2) ((outcome_mark (by decide) p.2).closed
    (closable_type.comp (closable_token _))) fun d hcomma => Outcome.after hcomma.onward ?_
  have hd : d <:+ source := (((hcomma.suffix.trans hkind.suffix).trans hopen.suffix).trans
    hword.suffix).trans hcs
  refine Outcome.bind (P := IsType d) ((h.type hd).closed (closable_token _))
    fun q hv => Outcome.after hv.onward ?_
  obtain ⟨n, hn, u, hspells, hblanks⟩ := hv
  refine Outcome.bind (P := Token ['>'] q.2) (outcome_mark (by decide) q.2) fun rest hclose => ?_
  refine ⟨.mapping p.1 n, ?_,
    .mapping hword hopen hkind hcomma hspells (hblanks.token hclose)⟩
  rw [Notation.value, hn]
  rfl

theorem outcome_handle {cs a : List Char} (hx : name cs = .ok ("opaque", a)) :
    Outcome source (BaseWord source) cs (IsBase cs) (base (fuel + 1) cs) := by
  obtain ⟨-, hword, -⟩ := name_eq_ok_iff.1 hx
  have hbase : ∀ {label : String}, IsName label.toList → ∀ y t, Comp (Token "opaque".toList)
      (Comp (Token ['<']) (Comp (Token label.toList) (Token ['>']))) y t → BaseWord source y t := by
    rintro label hlabel y t ⟨_, hword, _, hopen, _, hname, hclose⟩
    exact ⟨.handle label, trivial, .handle hword hopen hlabel hname hclose⟩
  rw [base_handle hx]
  -- the label is the one that is read, or any other if there is none
  refine Outcome.bind (P := Token ['<'] a) (((outcome_mark (by decide) a).closed
    ((closable_token _).comp (closable_token _))).after hword.onward |>.mono
      fun _ => hbase (isName_kind .float)) fun b hopen => ?_
  refine Outcome.bind (P := fun p => IsName p.1.toList ∧ Token p.1.toList b p.2)
    ((((outcome_name _ b _).closed (closable_token _)).after hopen.onward).after hword.onward |>.mono
      fun _ => hbase (isName_kind .float)) fun p hp => ?_
  obtain ⟨hlabel, hname⟩ := hp
  refine Outcome.bind (P := Token ['>'] p.2)
    ((((outcome_mark (by decide) p.2).after hname.onward).after hopen.onward).after hword.onward
      |>.mono fun _ => hbase hlabel) fun rest hclose => ?_
  exact ⟨.handle p.1, rfl, .handle hword hopen hlabel hname hclose⟩

theorem outcome_record (h : Nesting source fuel) {cs a : List Char} (hcs : cs <:+ source)
    (hx : name cs = .ok ("record", a)) :
    Outcome source (BaseWord source) cs (IsBase cs) (base (fuel + 1) cs) := by
  obtain ⟨-, hword, -⟩ := name_eq_ok_iff.1 hx
  have hnone : Keeps source {} := fun hkept => absurd rfl hkept
  have hbase : ∀ y t, Comp (Token "record".toList) (Comp (Token ['\x7b'])
      (Comp (FieldsWord source {}) (Token ['\x7d']))) y t → BaseWord source y t := by
    rintro y t ⟨_, hword, _, hopen, _, ⟨_, ⟨fs, hfs, hspells⟩, hblanks⟩, hclose⟩
    refine ⟨.record fs, ?_, .record hword hopen hspells (hblanks.token hclose)⟩
    rw [Notation.value]
    exact hfs.bind fun _ _ => trivial
  rw [base_record hx]
  refine Outcome.mono (Outcome.after hword.onward ?_) fun _ => hbase
  refine Outcome.bind (P := Token ['\x7b'] a) ((outcome_mark (by decide) a).closed
    ((closable_fields hnone).comp (closable_token _))) fun b hopen => Outcome.after hopen.onward ?_
  have hb : b <:+ source := (hopen.suffix.trans hword.suffix).trans hcs
  cases hm : mark? '\x7d' b with
  | some rest =>
      have hclose := (mark?_eq_some_iff (by decide)).1 hm
      dsimp only
      rw [Step.ok_bind, mark_of_mark hclose (by decide)]
      exact ⟨.record [], rfl, .bare hword hopen hclose⟩
  | none =>
      refine Outcome.bind (P := IsFields {} b) ((h.fields hb hnone).closed (closable_token _))
        fun p hp => Outcome.after hp.onward ?_
      obtain ⟨fs, hfs, u, hspells, hblanks⟩ := hp
      refine Outcome.bind (P := Token ['\x7d'] p.2) (outcome_mark (by decide) p.2)
        fun rest hclose => ?_
      refine ⟨.record fs, ?_, .record hword hopen hspells (hblanks.token hclose)⟩
      rw [Notation.value, hfs]
      rfl

theorem outcome_base_succ (h : Nesting source fuel) {cs : List Char} (hcs : cs <:+ source) :
    Outcome source (BaseWord source) cs (IsBase cs) (base (fuel + 1) cs) := by
  rcases (outcome_name source cs ScalarKind.float.name.toList).cases with
    ⟨e, hx, he⟩ | ⟨⟨word, a⟩, hx, -, hword⟩
  · rw [base, hx]
    exact he.mono fun _ _ _ hword => ⟨.scalar .float, trivial, .scalar hword⟩
  · dsimp only at hword
    by_cases hkeyword : word ∈ ["sequence", "array", "mapping", "opaque", "record"]
    · simp only [List.mem_cons, List.not_mem_nil, or_false] at hkeyword
      rcases hkeyword with rfl | rfl | rfl | rfl | rfl
      · exact outcome_sequence h hcs hx
      · exact outcome_array hcs hx
      · exact outcome_mapping h hcs hx
      · exact outcome_handle hx
      · exact outcome_record h hcs hx
    · rw [base_word hx hkeyword]
      cases hk : ScalarKind.ofName? word with
      | none => exact explained_of_closable closable_base .base
      | some k =>
          rw [← ScalarKind.name_of_ofName? hk] at hword
          exact ⟨.scalar k, rfl, .scalar hword⟩

/-- **What is read is spelled, and failures are explained**, at every level of nesting. -/
theorem nesting : ∀ fuel : Nat, Nesting source fuel
  | 0 => ⟨fun _ => explained_of_closable closable_base .base,
      fun _ hf => explained_of_closable (closable_fields hf) .name⟩
  | fuel + 1 => ⟨outcome_base_succ (nesting fuel), outcome_fieldsFrom_succ (nesting fuel)⟩

end Nesting

/-! ## 4. Whole texts -/

/-- **What is read as a whole text is spelled by it, and a failure is explained.** -/
theorem outcome_read (cs : List Char) :
    Outcome cs (TypeWord cs) cs (fun t => ∃ n : Notation, n.value = .ok t ∧ SpellsAll n cs)
      (TypeSpec.read cs) := by
  unfold TypeSpec.read
  rcases ((nesting (cs.length + 1)).type (List.suffix_refl cs)).cases with
    ⟨e, hx, he⟩ | ⟨⟨t, rest⟩, hx, ht⟩
  · rw [hx]
    exact he
  · rw [hx]
    have hread : Onward (TypeWord cs) cs rest := ht.onward
    dsimp only at ht hread ⊢
    split
    · rename_i hend
      obtain ⟨n, hn, a, hspells, blanks, hblanks, rfl⟩ := ht
      refine ⟨n, hn, _, hspells, fun c hc => ?_⟩
      exact (List.mem_append.1 hc).elim (hblanks c) (Text.skipBlanks_eq_nil_iff.1 hend c)
    · rename_i c after hend
      rw [← hend]
      refine explained_of_onward ((hread.comp (blanks_skipBlanks rest).onward).mono ?_) .endOfInput
      rintro y z ⟨u, ⟨v, hspells, hblanks⟩, hmore⟩
      exact ⟨v, hspells, hblanks.trans hmore⟩

end Reading

namespace TypeSpec

open Grammar Reading

/-- What is read is the value of a notation that the text spells. -/
theorem spelled_of_parse {source : String} {t : TypeSpec} (h : TypeSpec.parse source = .ok t) :
    ∃ n : Notation, n.value = .ok t ∧ SpellsAll n source.toList := by
  rcases (outcome_read source.toList).cases with ⟨e, hread, -⟩ | ⟨u, hread, hu⟩
  · rw [TypeSpec.parse, hread] at h
    split at h <;> cases h
    rename_i heq
    cases heq
  · rw [parse_of_read hread] at h
    cases h
    exact hu

/-- A text that is spelled is read, unless a name is sealed in a text that names the ancestor. -/
theorem parse_of_typeWord {source cs : List Char} (h : TypeWord source cs []) :
    (∃ t, TypeSpec.parse (String.ofList cs) = .ok t) ∨
      (∃ name, TypeSpec.parse (String.ofList cs) = .error (.sealed name)) ∧
        ancestorName.toList <:+: source := by
  obtain ⟨a, ⟨n, hn, hspells⟩, blanks, hblanks, rfl⟩ := h
  have hall : SpellsAll n cs := ⟨_, hspells, by rwa [List.append_nil]⟩
  have hanswer := read_of_spellsAll hall
  rw [← String.toList_ofList (l := cs)] at hanswer
  cases hv : n.value with
  | ok t =>
      rw [hv] at hanswer
      exact Or.inl ⟨t, parse_of_read hanswer⟩
  | error r =>
      rw [hv] at hanswer hn
      obtain ⟨⟨name, rfl⟩, hancestor⟩ := hn
      obtain ⟨place, hplace⟩ := hanswer
      exact Or.inr ⟨⟨name, by rw [TypeSpec.parse, hplace]⟩, hancestor⟩

/-- **Where reading stops.** A text is read as a type; or it is refused at a place in it, and what
stands before the place can be completed to a text that is read, unless a number in the text is no
size; or a name is sealed, and then the text names the ancestor. A completion may stop at a sealed
name as well, for a text that names the ancestor. -/
theorem parse_failure (source : String) :
    (∃ t, TypeSpec.parse source = .ok t) ∨
      (∃ failure read, TypeSpec.parse source = .error (.malformed none (.unreadable source failure)) ∧
        source.toList = read ++ failure.rest ∧
        Text.offsetOf source.toList failure.rest = Text.units read ∧
        Text.units read ≤ Text.units source.toList ∧
        (Sized source.toList → ∃ more : List Char,
          (∃ t, TypeSpec.parse (String.ofList (read ++ more)) = .ok t) ∨
            (∃ name, TypeSpec.parse (String.ofList (read ++ more)) = .error (.sealed name)) ∧
              ancestorName.toList <:+: source.toList)) ∨
      (∃ name, TypeSpec.parse source = .error (.sealed name)) ∧
        ancestorName.toList <:+: source.toList := by
  rcases (outcome_read source.toList).cases with ⟨failure, hread, he⟩ | ⟨t, hread, -⟩
  · by_cases hsealed : ∃ name, failure.reason = .sealedField name
    · obtain ⟨name, hname⟩ := hsealed
      refine Or.inr (Or.inr ⟨⟨name, ?_⟩, he.sealed name hname⟩)
      obtain ⟨rest, reason⟩ := failure
      obtain rfl : reason = .sealedField name := hname
      rw [TypeSpec.parse, hread]
    · have hreason : ∀ name, failure.reason ≠ .sealedField name := fun name e => hsealed ⟨name, e⟩
      obtain ⟨read, hcs⟩ := he.place
      refine Or.inr (Or.inl ⟨failure, read, parse_of_failure hread hreason, hcs.symm, ?_, ?_, ?_⟩)
      · rw [← hcs, Text.offsetOf_append]
      · rw [← hcs, Text.units_append]
        omega
      · intro hsized
        obtain ⟨done, more, hdone, hmore⟩ := he.viable hreason hsized
        obtain rfl : read = done := List.append_cancel_right (hcs.trans hdone)
        have hclosed := hmore []
        rw [List.append_nil] at hclosed
        exact ⟨more, parse_of_typeWord hclosed⟩
  · exact Or.inl ⟨t, parse_of_read hread⟩

/-- What is open at the end of a text can be closed. -/
theorem parse_failure_open :
    ∃ more t,
      TypeSpec.parse (String.ofList ("mapping<string, record\x7ba:".toList ++ more)) = .ok t := by
  have hparse : TypeSpec.parse "mapping<string, record\x7ba:" =
      .error (.malformed none (.unreadable "mapping<string, record\x7ba:" ⟨[], .expected .name⟩)) := by
    rfl
  have hsized : Sized "mapping<string, record\x7ba:".toList := by
    have hdigits : ∀ c ∈ "mapping<string, record\x7ba:".toList, c.isDigit = false := by
      simp
    intro ds hds hne
    obtain ⟨c, hc⟩ := List.exists_mem_of_ne_nil ds hne
    have hnot := hdigits c (hds.isInfix.subset hc)
    rw [hds.digits c hc] at hnot
    cases hnot
  rcases parse_failure "mapping<string, record\x7ba:" with ⟨t, ht⟩ |
    ⟨failure, read, hfailure, hread, -, -, hmore⟩ | ⟨⟨name, hname⟩, -⟩
  · rw [hparse] at ht
    cases ht
  · rw [hparse] at hfailure
    cases hfailure
    rw [List.append_nil] at hread
    obtain ⟨more, ⟨t, ht⟩ | ⟨-, hancestor⟩⟩ := hmore hsized
    · exact ⟨more, t, hread ▸ ht⟩
    · exact absurd hancestor (by decide +kernel)
  · rw [hparse] at hname
    cases hname

/-- A field under the ancestor's name seals the names of the type's parts: the text is neither read
nor refused as unreadable. -/
theorem not_parse_failure :
    ¬ ∀ source : String, (∃ t, TypeSpec.parse source = .ok t) ∨
      ∃ failure, TypeSpec.parse source = .error (.malformed none (.unreadable source failure)) := by
  intro h
  have hsealed : TypeSpec.parse "record\x7b__proto__: float, kind: float\x7d" =
      .error (.sealed "kind") := by rfl
  rcases h "record\x7b__proto__: float, kind: float\x7d" with ⟨t, ht⟩ | ⟨failure, hfailure⟩
  · rw [hsealed] at ht
    cases ht
  · rw [hsealed] at hfailure
    cases hfailure

end TypeSpec

end SchemaFlow
