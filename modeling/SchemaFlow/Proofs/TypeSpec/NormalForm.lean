import SchemaFlow.Proofs.Decimal.Shortest
import SchemaFlow.Proofs.TypeSpec.RoundTrip
import SchemaFlow.Proofs.TypeSpec.Viable

/-!
# The normal form of a notation

Whatever notation a type has been read from, its own text is one notation of it: the names that were
read can be written down again, and so can the sizes, rounded as they are held, as long as they are
written with digits only. A size from `10^21` on is written with an exponent, which the notation has
not.

* `TypeSpec.Readable`: what reading gives.
* `TypeSpec.spells_written`: the text of such a type spells a notation.
* `TypeSpec.parse_normal`: the text of a type that has been read is read as the type, exactly when
  its sizes are below `10^21`.
-/

namespace SchemaFlow

namespace TypeSpec

/-! ## 1. What reading gives -/

/-- What reading gives: labels and field names are names, none is that of the ancestor, the fields
    of a record are distinct, and sizes are positive numbers that are held. -/
inductive Readable : TypeSpec → Prop
  | scalar (k : ScalarKind) : Readable (.scalar k)
  | sequence {e : TypeSpec} : Readable e → Readable (.sequence e)
  | array (k : ScalarKind) {ds : List Dimension} :
      (∀ n, .fixed n ∈ ds → 0 < n ∧ Decimal.Held n) → Readable (.array k ds)
  | mapping (k : ScalarKind) {v : TypeSpec} : Readable v → Readable (.mapping k v)
  | handle {label : String} : Grammar.IsName label.toList → Readable (.handle label)
  | record {fs : List (String × TypeSpec)} :
      Entries.Distinct fs → (∀ e ∈ fs, IsFieldName e.1) → (∀ e ∈ fs, Readable e.2) →
      Readable (.record fs none)

/-- The sizes of a type are written with digits only. -/
inductive Positional : TypeSpec → Prop
  | scalar (k : ScalarKind) : Positional (.scalar k)
  | sequence {e : TypeSpec} : Positional e → Positional (.sequence e)
  | array (k : ScalarKind) {ds : List Dimension} :
      (∀ n, .fixed n ∈ ds → n < 10 ^ 21) → Positional (.array k ds)
  | mapping (k : ScalarKind) {v : TypeSpec} : Positional v → Positional (.mapping k v)
  | handle (label : String) : Positional (.handle label)
  | record {fs : List (String × TypeSpec)} (ancestor : Option TypeSpec) :
      (∀ e ∈ fs, Positional e.2) → Positional (.record fs ancestor)

end TypeSpec

namespace Grammar

open Reading

/-- The fields of a table that reading gives. -/
structure ReadableFields (fs : List (String × TypeSpec)) : Prop where
  distinct : Entries.Distinct fs
  names : ∀ e ∈ fs, IsFieldName e.1
  types : ∀ e ∈ fs, e.2.Readable

theorem ReadableFields.append {fs : Entries TypeSpec} {name : String} {t : TypeSpec}
    (h : ReadableFields fs) (hname : IsFieldName name) (hnew : fs.has name = false)
    (ht : t.Readable) : ReadableFields (fs ++ [(name, t)]) where
  distinct := by
    rw [← Entries.insert_of_isName hname.isName hnew]
    exact h.distinct.insert name t
  names e he := (List.mem_append.1 he).elim (h.names e) fun he => by
    rw [List.mem_singleton.1 he]
    exact hname
  types e he := (List.mem_append.1 he).elim (h.types e) fun he => by
    rw [List.mem_singleton.1 he]
    exact ht

theorem held_of_toDimension {d : Option Nat} {n : Nat} (h : toDimension d = .ok (.fixed n)) :
    0 < n ∧ Decimal.Held n := by
  unfold toDimension at h
  split at h
  · cases h
  · split at h
    · cases h
    · cases h
    · rename_i hne hnearest
      cases h
      exact ⟨Nat.pos_of_ne_zero hne, Decimal.held_of_nearest? hnearest⟩

theorem held_of_toDimensions : ∀ {sizes : List (Option Nat)} {i : Nat} {ds : List Dimension},
    toDimensions i sizes = .ok ds → ∀ n, .fixed n ∈ ds → 0 < n ∧ Decimal.Held n
  | [], _, _, h, n, hn => by
      cases h
      cases hn
  | _ :: _, _, _, h, n, hn => by
      obtain ⟨d, ds, rfl, hd, hds⟩ := toDimensions_cons_eq_ok h
      rcases List.mem_cons.1 hn with rfl | hn
      · exact held_of_toDimension hd
      · exact held_of_toDimensions hds n hn

/-- What a part of a text has for its value can be written down. -/
def Gives : Part → Prop
  | .type n => ∀ t, n.value = .ok t → t.Readable
  | .base n => ∀ t, n.value = .ok t → t.Readable
  | .fields fs => ∀ f f', ReadableFields f.entries → Notation.fieldsValue f fs = .ok f' →
      ReadableFields f'.entries

theorem readable_wrap {t : TypeSpec} (h : t.Readable) : ∀ k : Nat, (wrap k t).Readable := by
  intro k
  induction k generalizing t with
  | zero => exact h
  | succ k ih => exact ih (.sequence h)

/-- A field is stored under its name, or becomes the ancestor. -/
theorem readable_store {f f' : Filling TypeSpec} {name : String} {t : TypeSpec}
    (h : ReadableFields f.entries) (hname : IsName name.toList) (hnew : f.entries.has name = false)
    (ht : t.Readable) (hstore : f.store t.partNames name t = some f') :
    ReadableFields f'.entries := by
  by_cases he : name = ancestorName
  · rw [he, Filling.store_ancestor] at hstore
    cases hstore
    exact h
  · obtain ⟨hentries, -, -⟩ := Filling.store_entry he hstore
    rw [hentries, Entries.insert_of_isName hname hnew]
    exact h.append ⟨hname, he⟩ hnew ht

/-- **What a text has for its value can be written down.** -/
theorem gives_of_spells {p : Part} {cs rest : List Char} (h : Spells p cs rest) : Gives p := by
  induction h with
  | scalar _ =>
      intro t ht
      cases ht
      exact .scalar _
  | sequence _ _ _ _ ih =>
      intro t ht
      rw [Notation.value] at ht
      obtain ⟨e, he, ht⟩ := Step.bind_eq_ok.1 ht
      cases ht
      exact .sequence (ih e he)
  | point _ _ _ _ _ _ =>
      intro t ht
      cases ht
      exact .array _ fun _ h => absurd h List.not_mem_nil
  | @array k sizes _ _ _ _ _ _ _ _ _ _ _ _ _ _ _ =>
      intro t ht
      rw [Notation.value] at ht
      cases hds : toDimensions 0 sizes with
      | ok ds =>
          rw [hds] at ht
          cases ht
          exact .array _ (held_of_toDimensions hds)
      | error e =>
          rw [hds] at ht
          cases ht
  | mapping _ _ _ _ _ _ ih =>
      intro t ht
      rw [Notation.value] at ht
      obtain ⟨v, hv, ht⟩ := Step.bind_eq_ok.1 ht
      cases ht
      exact .mapping _ (ih v hv)
  | handle _ _ hlabel _ _ =>
      intro t ht
      cases ht
      exact .handle hlabel
  | bare _ _ _ =>
      intro t ht
      cases ht
      exact .record Entries.distinct_nil (fun _ h => absurd h List.not_mem_nil)
        fun _ h => absurd h List.not_mem_nil
  | record _ _ _ _ ih =>
      intro t ht
      rw [Notation.value] at ht
      obtain ⟨f, hf, ht⟩ := Step.bind_eq_ok.1 ht
      cases ht
      have hfields := ih {} f ⟨Entries.distinct_nil, fun _ h => absurd h List.not_mem_nil,
        fun _ h => absurd h List.not_mem_nil⟩ hf
      exact .record hfields.distinct hfields.names hfields.types
  | field hfield _ _ _ ih =>
      intro f f' hf hvalue
      obtain ⟨hnew, t, g, ht, hstore, hg⟩ := Notation.fieldsValue_cons_eq_ok hvalue
      rw [Notation.fieldsValue] at hg
      cases hg
      exact readable_store hf hfield hnew (ih t ht) hstore
  | fields hfield _ _ _ _ _ ih ih' =>
      intro f f' hf hvalue
      obtain ⟨hnew, t, g, ht, hstore, hg⟩ := Notation.fieldsValue_cons_eq_ok hvalue
      exact ih' g f' (readable_store hf hfield hnew (ih t ht) hstore) hg
  | type _ _ ih =>
      intro t ht
      rw [Notation.value_wrap] at ht
      cases hn : Notation.value _ with
      | error r =>
          rw [hn] at ht
          cases ht
      | ok u =>
          rw [hn] at ht
          cases ht
          exact readable_wrap (ih u hn) _

end Grammar

namespace TypeSpec

open Grammar Reading

/-- **What is read can be written down.** -/
theorem readable_of_parse {source : String} {t : TypeSpec} (h : TypeSpec.parse source = .ok t) :
    t.Readable := by
  obtain ⟨n, hn, rest, hspells, -⟩ := spelled_of_parse h
  exact gives_of_spells hspells t hn

/-! ## 2. The notation of a type -/

/-- The digits of a dimension, as they are written. -/
def sizeSpelling : Dimension → Option Nat
  | .free => none
  | .fixed n => some (Decimal.ofDigits (Decimal.sizeText n).toList)

mutual

/-- The notation that the text of a type spells. -/
def spelling : TypeSpec → Notation
  | .scalar k => .scalar k
  | .sequence e => .sequence (spelling e)
  | .array k ds => .array k (ds.map sizeSpelling)
  | .mapping k v => .mapping k (spelling v)
  | .handle label => .handle label
  | .record fs _ => .record (fieldsSpelling fs)

/-- The notations of the fields of a record. -/
def fieldsSpelling : List (String × TypeSpec) → List (String × Notation)
  | [] => []
  | (name, t) :: rest => (name, spelling t) :: fieldsSpelling rest

end

theorem toDimension_sizeSpelling {d : Dimension}
    (hheld : ∀ n, d = .fixed n → 0 < n ∧ Decimal.Held n) (hlt : ∀ n, d = .fixed n → n < 10 ^ 21) :
    toDimension (sizeSpelling d) = .ok d := by
  cases d with
  | free => rfl
  | fixed n =>
      obtain ⟨hpos, hn⟩ := hheld n rfl
      obtain ⟨-, -, hnearest⟩ := Decimal.sizeText_digits hn (hlt n rfl)
      obtain ⟨m, rfl⟩ := Nat.exists_eq_add_one_of_ne_zero (Nat.ne_of_gt hpos)
      simp only [sizeSpelling, toDimension, hnearest]

theorem toDimensions_sizeSpelling : ∀ {ds : List Dimension} (i : Nat),
    (∀ n, .fixed n ∈ ds → 0 < n ∧ Decimal.Held n) → (∀ n, .fixed n ∈ ds → n < 10 ^ 21) →
    toDimensions i (ds.map sizeSpelling) = .ok ds
  | [], _, _, _ => rfl
  | d :: ds, i, hheld, hlt => by
      have hd := toDimension_sizeSpelling (fun n e => hheld n (e ▸ List.mem_cons_self))
        (fun n e => hlt n (e ▸ List.mem_cons_self))
      have hds := toDimensions_sizeSpelling (i + 1) (fun n hn => hheld n (List.mem_cons_of_mem _ hn))
        (fun n hn => hlt n (List.mem_cons_of_mem _ hn))
      simp only [List.map_cons, toDimensions, hd, hds]

theorem fieldsValue_fieldsSpelling : ∀ {fs : List (String × TypeSpec)} {f : Filling TypeSpec},
    f.kept = [] → Entries.Distinct (f.entries ++ fs) → (∀ e ∈ fs, IsFieldName e.1) →
    (∀ e ∈ fs, e.2.spelling.value = .ok e.2) →
    Notation.fieldsValue f (fieldsSpelling fs) = .ok { f with entries := f.entries ++ fs }
  | [], f, _, _, _, _ => by rw [fieldsSpelling, Notation.fieldsValue, List.append_nil]
  | (name, t) :: fs, f, hkept, hdistinct, hnames, htypes => by
      have hnew := hdistinct.has_of_append_cons
      have hmore := fieldsValue_fieldsSpelling (f := { f with entries := f.entries ++ [(name, t)] })
        hkept (by simpa using hdistinct) (fun e he => hnames e (List.mem_cons_of_mem _ he))
        (fun e he => htypes e (List.mem_cons_of_mem _ he))
      rw [fieldsSpelling, fieldsValue_new (hnames _ List.mem_cons_self)
        (htypes _ List.mem_cons_self) hkept hnew, hmore]
      simp

/-- The notation denotes the type, unless a size is written with an exponent. -/
theorem value_spelling (t : TypeSpec) : t.Readable → t.Positional → t.spelling.value = .ok t := by
  induction t using TypeSpec.induction with
  | scalar k => exact fun _ _ => rfl
  | sequence e ih =>
      intro hr hp
      cases hr with
      | sequence hr =>
          cases hp with
          | sequence hp =>
              rw [spelling, Notation.value, ih hr hp]
              rfl
  | array k ds =>
      intro hr hp
      cases hr with
      | array _ hheld =>
          cases hp with
          | array _ hlt => rw [spelling, Notation.value, toDimensions_sizeSpelling 0 hheld hlt]
  | mapping k v ih =>
      intro hr hp
      cases hr with
      | mapping _ hr =>
          cases hp with
          | mapping _ hp =>
              rw [spelling, Notation.value, ih hr hp]
              rfl
  | handle label => exact fun _ _ => rfl
  | record fs ancestor ih =>
      intro hr hp
      cases hr with
      | record hdistinct hnames hr =>
          cases hp with
          | record _ hp =>
              have hfields := fieldsValue_fieldsSpelling (f := {}) rfl hdistinct hnames
                fun e he => ih e he (hr e he) (hp e he)
              rw [spelling, Notation.value, hfields]
              rfl

/-! ## 3. The text of a type -/

theorem size_written {d : Dimension} (hheld : ∀ n, d = .fixed n → 0 < n ∧ Decimal.Held n)
    (hlt : ∀ n, d = .fixed n → n < 10 ^ 21) (rest : List Char) :
    Size (sizeSpelling d) (dimensionWritten d ++ rest) rest := by
  cases d with
  | free => exact .star (token_append _ _)
  | fixed n =>
      obtain ⟨hne, hdigits, -⟩ := Decimal.sizeText_digits (hheld n rfl).2 (hlt n rfl)
      exact .digits hne hdigits (token_append _ _)

theorem sizes_written : ∀ (d : Dimension) (ds : List Dimension),
    (∀ n, .fixed n ∈ d :: ds → 0 < n ∧ Decimal.Held n) → (∀ n, .fixed n ∈ d :: ds → n < 10 ^ 21) →
    ∀ rest : List Char, Sizes ((d :: ds).map sizeSpelling)
      (commaJoined ((d :: ds).map dimensionWritten) ++ rest) rest
  | d, [], hheld, hlt, rest =>
      .one (size_written (fun n e => hheld n (e ▸ List.mem_cons_self))
        (fun n e => hlt n (e ▸ List.mem_cons_self)) rest)
  | d, d' :: ds, hheld, hlt, rest => by
      have hmore := sizes_written d' ds (fun n hn => hheld n (List.mem_cons_of_mem _ hn))
        (fun n hn => hlt n (List.mem_cons_of_mem _ hn)) rest
      have hfirst := size_written (fun n e => hheld n (e ▸ List.mem_cons_self))
        (fun n e => hlt n (e ▸ List.mem_cons_self))
        (',' :: ' ' :: (commaJoined ((d' :: ds).map dimensionWritten) ++ rest))
      have hsizes := Sizes.more hfirst (token_append [','] _) (hmore.blank (c := ' ') (by decide))
      simpa [commaJoined] using hsizes

theorem spells_fieldsWritten : ∀ (e : String × TypeSpec) (fs : List (String × TypeSpec)),
    (∀ e' ∈ e :: fs, IsFieldName e'.1) →
    (∀ e' ∈ e :: fs, ∀ rest, Spells (.base e'.2.spelling) (e'.2.written ++ rest) rest) →
    ∀ rest : List Char, Spells (.fields (fieldsSpelling (e :: fs)))
      (commaJoined (fieldsWritten (e :: fs)) ++ rest) rest
  | (name, t), [], hnames, htypes, rest => by
      have hname := (hnames _ List.mem_cons_self).isName
      have ht := (htypes _ List.mem_cons_self rest).type_of_base.blank (c := ' ') (by decide)
      have hfield := Spells.field hname (token_append _ _) (token_append [':'] _) ht
      simpa [fieldsSpelling, commaJoined, entryWritten] using hfield
  | (name, t), (name', t') :: fs, hnames, htypes, rest => by
      have hname := (hnames _ List.mem_cons_self).isName
      have hmore := spells_fieldsWritten (name', t') fs
        (fun e he => hnames e (List.mem_cons_of_mem _ he))
        (fun e he => htypes e (List.mem_cons_of_mem _ he)) rest
      have ht := (htypes _ List.mem_cons_self
        (',' :: ' ' :: (commaJoined (fieldsWritten ((name', t') :: fs)) ++ rest))).type_of_base.blank
        (c := ' ') (by decide)
      have hfields := Spells.fields hname (token_append _ _) (token_append [':'] _) ht
        (token_append [','] _) (hmore.blank (c := ' ') (by decide))
      simpa [fieldsSpelling, commaJoined, entryWritten] using hfields

/-- **The text of a type spells its notation, in front of any other text.** -/
theorem spells_written (t : TypeSpec) : t.Readable → t.Positional → ∀ rest : List Char,
    Spells (.base t.spelling) (t.written ++ rest) rest := by
  induction t using TypeSpec.induction with
  | scalar k =>
      intro _ _ rest
      simpa [spelling] using Spells.scalar (token_append k.name.toList rest)
  | sequence e ih =>
      intro hr hp rest
      cases hr with
      | sequence hr =>
          cases hp with
          | sequence hp =>
              simpa [spelling] using Spells.sequence (token_append "sequence".toList _)
                (token_append ['<'] _) (ih hr hp _).type_of_base (token_append ['>'] rest)
  | array k ds =>
      intro hr hp rest
      cases hr with
      | array _ hheld =>
          cases hp with
          | array _ hlt =>
              cases ds with
              | nil =>
                  simpa [spelling, commaJoined] using Spells.point (k := k)
                    (token_append "array".toList _) (token_append ['<'] _) (token_append _ _)
                    (token_append ['>'] _) (token_append ['['] _) (token_append [']'] rest)
              | cons d ds =>
                  simpa [spelling] using Spells.array (k := k) (token_append "array".toList _)
                    (token_append ['<'] _) (token_append _ _) (token_append ['>'] _)
                    (token_append ['['] _) (sizes_written d ds hheld hlt _)
                    (token_append [']'] rest)
  | mapping k v ih =>
      intro hr hp rest
      cases hr with
      | mapping _ hr =>
          cases hp with
          | mapping _ hp =>
              simpa [spelling] using Spells.mapping (k := k) (token_append "mapping".toList _)
                (token_append ['<'] _) (token_append _ _) (token_append [','] _)
                ((ih hr hp _).type_of_base.blank (c := ' ') (by decide)) (token_append ['>'] rest)
  | handle label =>
      intro hr _ rest
      cases hr with
      | handle hlabel =>
          simpa [spelling] using Spells.handle (token_append "opaque".toList _)
            (token_append ['<'] _) hlabel (token_append _ _) (token_append ['>'] rest)
  | record fs ancestor ih =>
      intro hr hp rest
      cases hr with
      | record _ hnames hr =>
          cases hp with
          | record _ hp =>
              cases fs with
              | nil =>
                  simpa [spelling, fieldsSpelling, braced, commaJoined] using
                    Spells.bare (token_append "record".toList _) (token_append ['\x7b'] _)
                      (token_append ['\x7d'] rest)
              | cons e fs =>
                  have hfields := spells_fieldsWritten e fs hnames
                    (fun e he => ih e he (hr e he) (hp e he)) ('\x7d' :: rest)
                  simpa [spelling, braced] using Spells.record (token_append "record".toList _)
                    (token_append ['\x7b'] _) hfields (token_append ['\x7d'] rest)

end TypeSpec

/-! ## 4. A plus sign is in no notation -/

namespace Grammar

open Reading

theorem plus_mem_of_token {word cs rest : List Char} (h : Token word cs rest) (hword : '+' ∉ word)
    (hcs : '+' ∈ cs) : '+' ∈ rest := by
  obtain ⟨blanks, hblanks, rfl⟩ := h
  rcases List.mem_append.1 hcs with hmem | hmem
  · exact absurd (hblanks _ hmem) (by decide)
  · exact (List.mem_append.1 hmem).resolve_left hword

theorem plus_notMem_of_isName {word : List Char} (h : IsName word) : '+' ∉ word := by
  obtain ⟨c, ds, rfl, hstart, hds⟩ := h
  intro hmem
  rcases List.mem_cons.1 hmem with rfl | hmem
  · exact absurd hstart (by decide)
  · exact absurd (hds _ hmem) (by decide)

theorem plus_mem_of_size {d : Option Nat} {cs rest : List Char} (h : Size d cs rest)
    (hcs : '+' ∈ cs) : '+' ∈ rest := by
  cases h with
  | star h => exact plus_mem_of_token h (by decide) hcs
  | digits _ hds h => exact plus_mem_of_token h (fun hmem => absurd (hds _ hmem) (by decide)) hcs

theorem plus_mem_of_sizes {ds : List (Option Nat)} {cs rest : List Char} (h : Sizes ds cs rest) :
    '+' ∈ cs → '+' ∈ rest := by
  induction h with
  | one h => exact plus_mem_of_size h
  | more h hcomma _ ih =>
      exact fun hcs => ih (plus_mem_of_token hcomma (by decide) (plus_mem_of_size h hcs))

theorem plus_mem_of_brackets {k : Nat} {cs rest : List Char} (h : Brackets k cs rest) :
    '+' ∈ cs → '+' ∈ rest := by
  induction h with
  | none cs => exact id
  | more hopen hclose _ ih =>
      exact fun hcs =>
        ih (plus_mem_of_token hclose (by decide) (plus_mem_of_token hopen (by decide) hcs))

/-- **A plus sign is in no notation**: where there is one in a text it is behind what is spelled. -/
theorem plus_mem_of_spells {p : Part} {cs rest : List Char} (h : Spells p cs rest) :
    '+' ∈ cs → '+' ∈ rest := by
  have hkind : ∀ k : ScalarKind, '+' ∉ k.name.toList := fun k =>
    plus_notMem_of_isName (isName_kind k)
  induction h with
  | scalar hword => exact plus_mem_of_token hword (hkind _)
  | sequence hword hopen _ hclose ih =>
      intro hcs
      have ha := plus_mem_of_token hword (by decide) hcs
      have hb := plus_mem_of_token hopen (by decide) ha
      exact plus_mem_of_token hclose (by decide) (ih hb)
  | point hword hopen hk hclose hleft hright =>
      intro hcs
      have ha := plus_mem_of_token hword (by decide) hcs
      have hb := plus_mem_of_token hopen (by decide) ha
      have hc := plus_mem_of_token hk (hkind _) hb
      have hd := plus_mem_of_token hclose (by decide) hc
      have he := plus_mem_of_token hleft (by decide) hd
      exact plus_mem_of_token hright (by decide) he
  | array hword hopen hk hclose hleft hsizes hright =>
      intro hcs
      have ha := plus_mem_of_token hword (by decide) hcs
      have hb := plus_mem_of_token hopen (by decide) ha
      have hc := plus_mem_of_token hk (hkind _) hb
      have hd := plus_mem_of_token hclose (by decide) hc
      have he := plus_mem_of_token hleft (by decide) hd
      exact plus_mem_of_token hright (by decide) (plus_mem_of_sizes hsizes he)
  | mapping hword hopen hk hcomma _ hclose ih =>
      intro hcs
      have ha := plus_mem_of_token hword (by decide) hcs
      have hb := plus_mem_of_token hopen (by decide) ha
      have hc := plus_mem_of_token hk (hkind _) hb
      have hd := plus_mem_of_token hcomma (by decide) hc
      exact plus_mem_of_token hclose (by decide) (ih hd)
  | handle hword hopen hlabel hname hclose =>
      intro hcs
      have ha := plus_mem_of_token hword (by decide) hcs
      have hb := plus_mem_of_token hopen (by decide) ha
      have hc := plus_mem_of_token hname (plus_notMem_of_isName hlabel) hb
      exact plus_mem_of_token hclose (by decide) hc
  | bare hword hopen hclose =>
      intro hcs
      have ha := plus_mem_of_token hword (by decide) hcs
      exact plus_mem_of_token hclose (by decide) (plus_mem_of_token hopen (by decide) ha)
  | record hword hopen _ hclose ih =>
      intro hcs
      have ha := plus_mem_of_token hword (by decide) hcs
      exact plus_mem_of_token hclose (by decide) (ih (plus_mem_of_token hopen (by decide) ha))
  | field hfield hname hcolon _ ih =>
      intro hcs
      have ha := plus_mem_of_token hname (plus_notMem_of_isName hfield) hcs
      exact ih (plus_mem_of_token hcolon (by decide) ha)
  | fields hfield hname hcolon _ hcomma _ ih ih' =>
      intro hcs
      have ha := plus_mem_of_token hname (plus_notMem_of_isName hfield) hcs
      have hc := ih (plus_mem_of_token hcolon (by decide) ha)
      exact ih' (plus_mem_of_token hcomma (by decide) hc)
  | type _ hbrackets ih => exact fun hcs => plus_mem_of_brackets hbrackets (ih hcs)

end Grammar

namespace TypeSpec

open Grammar Reading

theorem mem_commaJoined {c : Char} {cs : List Char} (hc : c ∈ cs) : ∀ {parts : List (List Char)},
    cs ∈ parts → c ∈ commaJoined parts
  | [part], h => by
      obtain rfl := List.mem_singleton.1 h
      exact hc
  | part :: part' :: parts, h => by
      rw [commaJoined]
      rcases List.mem_cons.1 h with rfl | h
      · exact List.mem_append_left _ hc
      · have hmore := mem_commaJoined hc h
        exact List.mem_append_right _ (List.mem_cons_of_mem _ (List.mem_cons_of_mem _ hmore))

theorem entryWritten_mem_fieldsWritten : ∀ {fs : List (String × TypeSpec)} {e : String × TypeSpec},
    e ∈ fs → entryWritten e.1 e.2.written ∈ fieldsWritten fs
  | (name, t) :: fs, e, he => by
      rw [fieldsWritten_cons]
      rcases List.mem_cons.1 he with rfl | he
      · exact List.mem_cons_self
      · exact List.mem_cons_of_mem _ (entryWritten_mem_fieldsWritten he)

/-- A text without a plus sign has no size with an exponent. -/
theorem positional_of_plus_notMem (t : TypeSpec) : t.Readable → '+' ∉ t.written → t.Positional := by
  induction t using TypeSpec.induction with
  | scalar k => exact fun _ _ => .scalar k
  | sequence e ih =>
      intro hr hplus
      cases hr with
      | sequence hr => exact .sequence (ih hr fun hmem => hplus (by simp [hmem]))
  | array k ds =>
      intro hr hplus
      cases hr with
      | array _ hheld =>
          refine .array k fun n hn => ?_
          by_contra hlarge
          have hsize := Decimal.plus_mem_sizeText (hheld n hn).2 (Nat.le_of_not_lt hlarge)
          have hlist : '+' ∈ commaJoined (ds.map dimensionWritten) :=
            mem_commaJoined hsize (List.mem_map_of_mem (f := dimensionWritten) hn)
          exact hplus (by simp [hlist])
  | mapping k v ih =>
      intro hr hplus
      cases hr with
      | mapping _ hr => exact .mapping k (ih hr fun hmem => hplus (by simp [hmem]))
  | handle label => exact fun _ _ => .handle label
  | record fs ancestor ih =>
      intro hr hplus
      cases hr with
      | record _ _ hr =>
          refine .record none fun e he => ih e he (hr e he) fun hmem => ?_
          have hentry : '+' ∈ entryWritten e.1 e.2.written := by simp [entryWritten, hmem]
          have hlist := mem_commaJoined hentry (entryWritten_mem_fieldsWritten he)
          exact hplus (by simp [braced, hlist])

/-- **The text of a type that has been read is read as the type**, when its sizes are below `10^21`;
and when one is not, it is not read at all. -/
theorem parse_normal {source : String} {t : TypeSpec} (h : TypeSpec.parse source = .ok t) :
    (t.Positional → TypeSpec.parse t.text = .ok t) ∧
      ((∃ t', TypeSpec.parse t.text = .ok t') → t.Positional) := by
  have hr := readable_of_parse h
  constructor
  · intro hp
    have hspells := (spells_written t hr hp []).type_of_base
    rw [List.append_nil] at hspells
    have hread := read_of_spellsAll ⟨[], hspells, fun _ h => absurd h List.not_mem_nil⟩
    rw [value_spelling t hr hp] at hread
    refine parse_of_read ?_
    rw [text, String.toList_ofList]
    exact hread
  · rintro ⟨t', ht'⟩
    refine positional_of_plus_notMem t hr fun hplus => ?_
    obtain ⟨n, -, rest, hspells, hblank⟩ := spelled_of_parse ht'
    rw [text, String.toList_ofList] at hspells
    exact absurd (hblank _ (plus_mem_of_spells hspells hplus)) (by decide)

/-- A text with blanks, brackets and sizes that are not written as they are held. -/
def looseText : String :=
  " record\x7b a.1 :array<float>[ 9007199254740993, 007,*] [ ],$b : mapping<string ,opaque<Net>>\x7d"

theorem parse_normal_loose :
    ∃ t, TypeSpec.parse looseText = .ok t ∧ t.Positional ∧ TypeSpec.parse t.text = .ok t := by
  have hparse : TypeSpec.parse looseText = .ok (.record
      [("a.1", .sequence (.array .float [.fixed 9007199254740992, .fixed 7, .free])),
        ("$b", .mapping .string (.handle "Net"))] none) := by rfl
  have hp : Positional (.record
      [("a.1", .sequence (.array .float [.fixed 9007199254740992, .fixed 7, .free])),
        ("$b", .mapping .string (.handle "Net"))] none) := by
    refine .record none ?_
    simp only [List.forall_mem_cons]
    exact ⟨.sequence (.array _ (by simp)), .mapping _ (.handle _),
      fun _ h => absurd h List.not_mem_nil⟩
  exact ⟨_, hparse, hp, (parse_normal hparse).1 hp⟩

/-- A size of `10^21` is written as `1e+21`. -/
theorem not_parse_normal :
    ¬ ∀ (source : String) (t : TypeSpec), TypeSpec.parse source = .ok t →
      TypeSpec.parse t.text = .ok t := by
  intro h
  have hparse : TypeSpec.parse "array<float>[1000000000000000000000]" =
      .ok (.array .float [.fixed (10 ^ 21)]) := by rfl
  have htext := h _ _ hparse
  have hrefused : (TypeSpec.parse (text (.array .float [.fixed (10 ^ 21)]))).isOk = false := by
    decide +kernel
  rw [htext] at hrefused
  cases hrefused

end TypeSpec

end SchemaFlow
