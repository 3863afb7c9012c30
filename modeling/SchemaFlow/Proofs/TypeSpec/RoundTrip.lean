import SchemaFlow.Fault
import SchemaFlow.Proofs.TypeSpec.Completeness
import SchemaFlow.Proofs.TypeSpec.Notation
import SchemaFlow.Proofs.TypeSpec.WellFormed
import SchemaFlow.TypeSpec.Printer

/-!
# Writing a type and reading it back

What is written of a type is derived by the grammar, whatever follows: a rule asks for its words and
marks only, and it is the reader that has to find out where they end.

* `TypeSpec.derives_written`: the text of a spelled type denotes it, in front of any other text.
* `TypeSpec.parse_text`: the text of a spelled type is read as the type.
-/

namespace SchemaFlow

namespace Grammar

/-! ## 1. Blanks before a phrase -/

variable {c : Char} {cs rest : List Char}

theorem Dim.blank {d : Dimension} (h : Dim d cs rest) (hc : Text.isBlank c = true) :
    Dim d (c :: cs) rest := by
  cases h with
  | free h => exact .free (h.blank hc)
  | fixed hsize h => exact .fixed hsize (h.blank hc)

theorem Dims.blank {ds : List Dimension} (h : Dims ds cs rest) (hc : Text.isBlank c = true) :
    Dims ds (c :: cs) rest := by
  cases h with
  | one h => exact .one (h.blank hc)
  | more h hcomma hds => exact .more (h.blank hc) hcomma hds

theorem Derives.blank_base {t : TypeSpec} (h : Derives (.base t) cs rest)
    (hc : Text.isBlank c = true) : Derives (.base t) (c :: cs) rest := by
  cases h with
  | scalar hword => exact .scalar (hword.blank hc)
  | sequence hword hopen he hclose => exact .sequence (hword.blank hc) hopen he hclose
  | point hword hopen hkind hclose hleft hright =>
      exact .point (hword.blank hc) hopen hkind hclose hleft hright
  | array hword hopen hkind hclose hleft hdims hright =>
      exact .array (hword.blank hc) hopen hkind hclose hleft hdims hright
  | mapping hword hopen hkind hcomma hv hclose =>
      exact .mapping (hword.blank hc) hopen hkind hcomma hv hclose
  | handle hword hopen hlabel hname hclose =>
      exact .handle (hword.blank hc) hopen hlabel hname hclose
  | bare hword hopen hclose => exact .bare (hword.blank hc) hopen hclose
  | record hword hopen hfields hdistinct hclose =>
      exact .record (hword.blank hc) hopen hfields hdistinct hclose

theorem Derives.blank_fields {fs : List (String × TypeSpec)} (h : Derives (.fields fs) cs rest)
    (hc : Text.isBlank c = true) : Derives (.fields fs) (c :: cs) rest := by
  cases h with
  | field hfield hname hcolon ht => exact .field hfield (hname.blank hc) hcolon ht
  | fields hfield hname hcolon ht hcomma hfs =>
      exact .fields hfield (hname.blank hc) hcolon ht hcomma hfs

/-- A base is a type without brackets behind it. -/
theorem Derives.type_of_base {t : TypeSpec} (h : Derives (.base t) cs rest) :
    Derives (.type t) cs rest :=
  .type h (.none rest)

end Grammar

namespace TypeSpec

open Grammar

/-! ## 2. Dimensions -/

theorem toList_sizeText {n : Nat} (h : n < Nat.pow 2 53) :
    (Decimal.sizeText n).toList = Nat.toDigits 10 n := by
  rw [Decimal.sizeText_of_lt h, Nat.toString_eq_repr, Nat.repr_eq_ofList_toDigits,
    String.toList_ofList]

theorem ofDigits_toDigits (n : Nat) : Decimal.ofDigits (Nat.toDigits 10 n) = n :=
  Nat.ofDigitChars_toDigits (by decide) (by decide)

theorem dim_written {d : Dimension} (hpos : ∀ n, d = .fixed n → 0 < n)
    (hsmall : ∀ n, d = .fixed n → n < Nat.pow 2 53) (rest : List Char) :
    Dim d (dimensionWritten d ++ rest) rest := by
  cases d with
  | free => exact .free (token_append _ _)
  | fixed n =>
      have hsize : IsSize (Nat.toDigits 10 n) :=
        ⟨fun c hc => Nat.isDigit_of_mem_toDigits (by decide) (by decide) hc,
          by rw [ofDigits_toDigits]; exact hpos n rfl⟩
      have hdim := Dim.fixed hsize (token_append _ rest)
      rw [ofDigits_toDigits] at hdim
      rw [dimensionWritten, toList_sizeText (hsmall n rfl)]
      exact hdim

theorem dims_written : ∀ (d : Dimension) (ds : List Dimension),
    (∀ n, .fixed n ∈ d :: ds → 0 < n) → (∀ n, .fixed n ∈ d :: ds → n < Nat.pow 2 53) →
    ∀ rest : List Char,
      Dims (d :: ds) (commaJoined ((d :: ds).map dimensionWritten) ++ rest) rest
  | d, [], hpos, hsmall, rest =>
      .one (dim_written (fun n e => hpos n (e ▸ List.mem_cons_self))
        (fun n e => hsmall n (e ▸ List.mem_cons_self)) rest)
  | d, d' :: ds, hpos, hsmall, rest => by
      have hmore := dims_written d' ds (fun n hn => hpos n (List.mem_cons_of_mem _ hn))
        (fun n hn => hsmall n (List.mem_cons_of_mem _ hn)) rest
      have hfirst := dim_written (fun n e => hpos n (e ▸ List.mem_cons_self))
        (fun n e => hsmall n (e ▸ List.mem_cons_self))
        (',' :: ' ' :: (commaJoined ((d' :: ds).map dimensionWritten) ++ rest))
      have hdims := Dims.more hfirst (token_append [','] _) (hmore.blank (by decide))
      simpa [commaJoined] using hdims

/-! ## 3. Types -/

theorem derives_fieldsWritten : ∀ (e : String × TypeSpec) (fs : List (String × TypeSpec)),
    (∀ e' ∈ e :: fs, IsFieldName e'.1) →
    (∀ e' ∈ e :: fs, ∀ rest, Derives (.base e'.2) (e'.2.written ++ rest) rest) →
    ∀ rest : List Char,
      Derives (.fields (e :: fs)) (commaJoined (fieldsWritten (e :: fs)) ++ rest) rest
  | (name, t), [], hnames, htypes, rest => by
      have hname := (hnames _ List.mem_cons_self).isName
      have ht := (htypes _ List.mem_cons_self rest).blank_base (c := ' ') (by decide)
      have hfield := Derives.field hname (token_append _ _) (token_append [':'] _) ht.type_of_base
      simpa [commaJoined, entryWritten] using hfield
  | (name, t), (name', t') :: fs, hnames, htypes, rest => by
      have hname := (hnames _ List.mem_cons_self).isName
      have hmore := derives_fieldsWritten (name', t') fs
        (fun e he => hnames e (List.mem_cons_of_mem _ he))
        (fun e he => htypes e (List.mem_cons_of_mem _ he)) rest
      have ht := (htypes _ List.mem_cons_self
        (',' :: ' ' :: (commaJoined (fieldsWritten ((name', t') :: fs)) ++ rest))).blank_base
        (c := ' ') (by decide)
      have hfields := Derives.fields hname (token_append _ _) (token_append [':'] _)
        ht.type_of_base (token_append [','] _) (hmore.blank_fields (c := ' ') (by decide))
      simpa [commaJoined, entryWritten] using hfields

/-- **The text of a spelled type denotes it, in front of any other text.** -/
theorem derives_written (t : TypeSpec) : t.WellFormed → t.Spelled → ∀ rest : List Char,
    Derives (.base t) (t.written ++ rest) rest := by
  induction t using TypeSpec.induction with
  | scalar k =>
      intro _ _ rest
      simpa using Derives.scalar (token_append k.name.toList rest)
  | sequence e ih =>
      intro hw hs rest
      have hew : e.WellFormed := by cases hw; assumption
      have hes : e.Spelled := by cases hs; assumption
      simpa using Derives.sequence (token_append "sequence".toList _)
        (token_append ['<'] _) (ih hew hes _).type_of_base (token_append ['>'] rest)
  | array k ds =>
      intro hw hs rest
      have hpos : ∀ n, .fixed n ∈ ds → 0 < n := by cases hw; assumption
      have hsmall : ∀ n, .fixed n ∈ ds → n < Nat.pow 2 53 := by cases hs; assumption
      cases ds with
      | nil =>
          simpa [commaJoined] using Derives.point (k := k) (token_append "array".toList _)
            (token_append ['<'] _) (token_append _ _) (token_append ['>'] _) (token_append ['['] _)
            (token_append [']'] rest)
      | cons d ds =>
          simpa using Derives.array (k := k) (token_append "array".toList _)
            (token_append ['<'] _) (token_append _ _) (token_append ['>'] _) (token_append ['['] _)
            (dims_written d ds hpos hsmall _) (token_append [']'] rest)
  | mapping k v ih =>
      intro hw hs rest
      have hvw : v.WellFormed := by cases hw; assumption
      have hvs : v.Spelled := by cases hs; assumption
      simpa using Derives.mapping (k := k) (token_append "mapping".toList _)
        (token_append ['<'] _) (token_append _ _) (token_append [','] _)
        ((ih hvw hvs _).blank_base (c := ' ') (by decide)).type_of_base (token_append ['>'] rest)
  | handle label =>
      intro _ hs rest
      have hlabel : IsName label.toList := by cases hs; assumption
      simpa using Derives.handle (token_append "opaque".toList _) (token_append ['<'] _)
        hlabel (token_append _ _) (token_append ['>'] rest)
  | record fs ancestor ih =>
      intro hw hs rest
      cases hs with
      | record hnames hspelled =>
          have hfields := hw.fields
          cases fs with
          | nil =>
              simpa [braced, commaJoined] using
                Derives.bare (token_append "record".toList _) (token_append ['\x7b'] _)
                  (token_append ['\x7d'] rest)
          | cons e fs =>
              have hderives := derives_fieldsWritten e fs hnames
                (fun e he => ih e he (hfields.types e he) (hspelled e he)) ('\x7d' :: rest)
              simpa [braced] using
                Derives.record (token_append "record".toList _) (token_append ['\x7b'] _) hderives
                  hfields.distinct (token_append ['\x7d'] rest)

/-- **The text of a spelled type is read as the type**, with its fields in the same order. -/
theorem parse_text {t : TypeSpec} (ht : t.WellFormed) (hs : t.Spelled) :
    TypeSpec.parse t.text = .ok t := by
  have hderives := (derives_written t ht hs []).type_of_base
  rw [List.append_nil] at hderives
  have hread := Reading.read_of_denotes ⟨[], hderives, fun _ h => absurd h List.not_mem_nil⟩ hs
  rw [TypeSpec.parse, TypeSpec.text, String.toList_ofList, hread]

/-- A record with a field of every sort. -/
def nestedRecord : TypeSpec :=
  .record [("id", .scalar .integer), ("opt-in.x", .sequence (.sequence (.scalar .float))),
    ("grid", .array .float [.free, .fixed 3]), ("rank0", .array .boolean []),
    ("models", .mapping .string (.handle "Net$v.1")),
    ("_meta", .record [("empty", .record [] none)] none)] none

theorem spelled_nestedRecord : nestedRecord.Spelled := by
  have hmeta : Spelled (.record [("empty", .record [] none)] none) := by
    refine .record (by decide +kernel) ?_
    simp only [List.forall_mem_singleton]
    exact .record (by simp) (by simp)
  refine .record (by decide +kernel) ?_
  simp only [List.forall_mem_cons]
  exact ⟨.scalar _, .sequence (.sequence (.scalar _)), .array _ (by simp), .array _ (by simp),
    .mapping _ (.handle (by decide +kernel)), hmeta,
    fun _ h => absurd h List.not_mem_nil⟩

theorem parse_text_nestedRecord :
    nestedRecord.WellFormed ∧ nestedRecord.Spelled ∧
      TypeSpec.parse nestedRecord.text = .ok nestedRecord := by
  have hw : nestedRecord.WellFormed := by decide
  have hs : nestedRecord.Spelled := spelled_nestedRecord
  exact ⟨hw, hs, parse_text hw hs⟩

end TypeSpec

end SchemaFlow
