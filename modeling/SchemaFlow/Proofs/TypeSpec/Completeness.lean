import SchemaFlow.Proofs.Entries.Distinct
import SchemaFlow.Proofs.TypeSpec.Spelling

/-!
# What the grammar derives is read

A text that denotes a type spells a notation of it: the notation has the sizes of the type, as long as
they are exact, and a record lists the fields of the type. So the text is read as the type.

* `TypeSpec.Spelled`: labels and field names are names, and sizes are small enough to be exact.
* `spells_of_derives`: what denotes a phrase spells a notation of it.
* `read_of_denotes`: a text that denotes a spelled type is read as it.
-/

namespace SchemaFlow

/-! ## 1. Types that can be written down -/

/-- A name that the notation has for a field: a name, and not that of the ancestor. -/
structure IsFieldName (name : String) : Prop where
  isName : Grammar.IsName name.toList
  proper : name ≠ ancestorName

instance (name : String) : Decidable (IsFieldName name) :=
  decidable_of_iff (Grammar.IsName name.toList ∧ name ≠ ancestorName)
    ⟨fun h => ⟨h.1, h.2⟩, fun h => ⟨h.isName, h.proper⟩⟩

namespace TypeSpec

/-- A type that can be written down and read again: its labels and field names are names, none is
    that of the ancestor, and its sizes are exact. -/
inductive Spelled : TypeSpec → Prop
  | scalar (k : ScalarKind) : Spelled (.scalar k)
  | sequence {e : TypeSpec} : Spelled e → Spelled (.sequence e)
  | array (k : ScalarKind) {ds : List Dimension} :
      (∀ n, .fixed n ∈ ds → n < Nat.pow 2 53) → Spelled (.array k ds)
  | mapping (k : ScalarKind) {v : TypeSpec} : Spelled v → Spelled (.mapping k v)
  | handle {label : String} : Grammar.IsName label.toList → Spelled (.handle label)
  | record {fs : List (String × TypeSpec)} :
      (∀ e ∈ fs, IsFieldName e.1) → (∀ e ∈ fs, Spelled e.2) → Spelled (.record fs none)

end TypeSpec

namespace Grammar

/-- A phrase made of types that can be written down. -/
def Phrase.Spelled : Phrase → Prop
  | .type t => t.Spelled
  | .base t => t.Spelled
  | .fields fs => (∀ e ∈ fs, IsFieldName e.1) ∧ ∀ e ∈ fs, e.2.Spelled

theorem spelled_wrap_iff {t : TypeSpec} : ∀ n : Nat, (wrap n t).Spelled ↔ t.Spelled
  | 0 => Iff.rfl
  | n + 1 => (spelled_wrap_iff n).trans
      ⟨fun h => by cases h with | sequence h => exact h, TypeSpec.Spelled.sequence⟩

end Grammar

/-! ## 2. New fields go to the end -/

namespace Entries

theorem index?_eq_none_of_isName {name : String} (h : Grammar.IsName name.toList) :
    index? name = none := by
  obtain ⟨c, ds, hname, hstart, -⟩ := h
  have hc : c.isDigit = false := by
    cases hd : c.isDigit with
    | false => rfl
    | true =>
        rw [Char.isDigit_iff_toNat] at hd
        simp only [Reading.isNameStart, Reading.isAlpha_iff_toNat, Bool.or_eq_true,
          beq_iff_eq] at hstart
        rcases hstart with (h | rfl) | rfl
        · simp only [Char.reduceToNat] at hd
          omega
        all_goals simp at hd
  simp [index?, canonicalDecimal?, hname, hc]

theorem insertNew_of_isName {α : Type} {name : String} (h : Grammar.IsName name.toList) (v : α) :
    ∀ es : Entries α, insertNew name v es = es ++ [(name, v)]
  | [] => rfl
  | e :: es => by
      simp [insertNew, precedes, index?_eq_none_of_isName h, insertNew_of_isName h v es]

/-- A name that is new and no index goes to the end of the table. -/
theorem insert_of_isName {α : Type} {es : Entries α} {name : String}
    (h : Grammar.IsName name.toList) (hn : es.has name = false) (v : α) :
    es.insert name v = es ++ [(name, v)] := by
  rw [Entries.insert, hn]
  exact insertNew_of_isName h v es

theorem Distinct.has_of_append_cons {α : Type} {es fs : Entries α} {e : String × α}
    (h : Distinct (es ++ e :: fs)) : es.has e.1 = false := by
  rw [has_eq_false_iff, find?_eq_none_iff]
  intro hmem
  rw [Distinct, names, List.map_append] at h
  exact (List.nodup_append.1 h).2.2 _ hmem _ List.mem_cons_self rfl

end Entries

namespace Reading

open Grammar

/-! ## 3. Notations of phrases -/

theorem size_of_dim {d : Dimension} {cs rest : List Char} (h : Dim d cs rest)
    (hsmall : ∀ n, d = .fixed n → n < Nat.pow 2 53) :
    ∃ size, Size size cs rest ∧ toDimension size = .ok d := by
  cases h with
  | free h => exact ⟨none, .star h, rfl⟩
  | fixed hsize h =>
      obtain ⟨c, ds, rfl⟩ := hsize.exists_cons
      exact ⟨_, .digits (List.cons_ne_nil c ds) hsize.digits h,
        toDimension_size hsize.positive (hsmall _ rfl)⟩

theorem sizes_of_dims {ds : List Dimension} {cs rest : List Char} (h : Dims ds cs rest) :
    (∀ n, .fixed n ∈ ds → n < Nat.pow 2 53) →
      ∃ sizes, Sizes sizes cs rest ∧ ∀ i, toDimensions i sizes = .ok ds := by
  induction h with
  | one h =>
      intro hsmall
      obtain ⟨size, hsize, hd⟩ := size_of_dim h fun n e => hsmall n (e ▸ List.mem_singleton_self _)
      exact ⟨[size], .one hsize, fun i => by simp only [toDimensions, hd]⟩
  | more h hcomma _ ih =>
      intro hsmall
      obtain ⟨size, hsize, hd⟩ := size_of_dim h fun n e => hsmall n (e ▸ List.mem_cons_self)
      obtain ⟨sizes, hsizes, hds⟩ := ih fun n hn => hsmall n (List.mem_cons_of_mem _ hn)
      exact ⟨size :: sizes, .more hsize hcomma hsizes, fun i => by simp only [toDimensions, hd, hds]⟩

/-- A new field goes to the end of a table that keeps no names. -/
theorem fieldsValue_new {f : Filling TypeSpec} {name : String} {n : Notation} {t : TypeSpec}
    (hname : IsFieldName name) (hn : n.value = .ok t) (hkept : f.kept = [])
    (hnew : f.entries.has name = false) (ns : List (String × Notation)) :
    Notation.fieldsValue f ((name, n) :: ns) =
      Notation.fieldsValue { f with entries := f.entries ++ [(name, t)] } ns := by
  have hstore := Filling.store_of_nothing_kept t.partNames t hname.proper hkept
  rw [Entries.insert_of_isName hname.isName hnew] at hstore
  exact Notation.fieldsValue_cons hnew hn hstore

/-- A text spells a notation of a phrase. -/
def SpellsPhrase : Phrase → List Char → List Char → Prop
  | .type t, cs, rest => ∃ n : Notation, n.value = .ok t ∧ Spells (.type n) cs rest
  | .base t, cs, rest => ∃ n : Notation, n.value = .ok t ∧ Spells (.base n) cs rest
  | .fields fs, cs, rest => ∃ ns, Spells (.fields ns) cs rest ∧
      ∀ f : Filling TypeSpec, f.kept = [] → Entries.Distinct (f.entries ++ fs) →
        Notation.fieldsValue f ns = .ok { f with entries := f.entries ++ fs }

/-- **What denotes a phrase spells a notation of it.** -/
theorem spells_of_derives {p : Phrase} {cs rest : List Char} (h : Derives p cs rest) :
    p.Spelled → SpellsPhrase p cs rest := by
  induction h with
  | scalar hword => exact fun _ => ⟨.scalar _, rfl, .scalar hword⟩
  | sequence hword hopen _ hclose ih =>
      intro hs
      cases hs with
      | sequence hs =>
          obtain ⟨n, hn, hspells⟩ := ih hs
          refine ⟨.sequence n, ?_, .sequence hword hopen hspells hclose⟩
          rw [Notation.value, hn]
          rfl
  | point hword hopen hkind hclose hleft hright =>
      exact fun _ => ⟨.array _ [], rfl, .point hword hopen hkind hclose hleft hright⟩
  | array hword hopen hkind hclose hleft hdims hright =>
      intro hs
      cases hs with
      | array _ hsmall =>
          obtain ⟨sizes, hsizes, hds⟩ := sizes_of_dims hdims hsmall
          refine ⟨.array _ sizes, ?_, .array hword hopen hkind hclose hleft hsizes hright⟩
          rw [Notation.value, hds]
  | mapping hword hopen hkind hcomma _ hclose ih =>
      intro hs
      cases hs with
      | mapping _ hs =>
          obtain ⟨n, hn, hspells⟩ := ih hs
          refine ⟨.mapping _ n, ?_, .mapping hword hopen hkind hcomma hspells hclose⟩
          rw [Notation.value, hn]
          rfl
  | handle hword hopen hlabel hname hclose =>
      exact fun _ => ⟨.handle _, rfl, .handle hword hopen hlabel hname hclose⟩
  | bare hword hopen hclose => exact fun _ => ⟨.record [], rfl, .bare hword hopen hclose⟩
  | record hword hopen _ hdistinct hclose ih =>
      intro hs
      cases hs with
      | record hnames htypes =>
          obtain ⟨ns, hspells, hvalue⟩ := ih ⟨hnames, htypes⟩
          refine ⟨.record ns, ?_, .record hword hopen hspells hclose⟩
          rw [Notation.value, hvalue {} rfl hdistinct]
          rfl
  | field hfield hname hcolon _ ih =>
      intro hs
      obtain ⟨n, hn, hspells⟩ := ih (hs.2 _ (List.mem_singleton_self _))
      refine ⟨[(_, n)], .field hfield hname hcolon hspells, fun f hkept hdistinct => ?_⟩
      rw [fieldsValue_new (hs.1 _ (List.mem_singleton_self _)) hn hkept
        hdistinct.has_of_append_cons, Notation.fieldsValue]
  | @fields name t fs _ _ _ _ _ _ hfield hname hcolon _ hcomma _ ih ih' =>
      intro hs
      obtain ⟨hnames, htypes⟩ := hs
      obtain ⟨n, hn, hspells⟩ := ih (htypes _ List.mem_cons_self)
      obtain ⟨ns, hmore, hvalue⟩ := ih' ⟨fun e he => hnames e (List.mem_cons_of_mem _ he),
        fun e he => htypes e (List.mem_cons_of_mem _ he)⟩
      refine ⟨(name, n) :: ns, .fields hfield hname hcolon hspells hcomma hmore,
        fun f hkept hdistinct => ?_⟩
      have hrest := hvalue { f with entries := f.entries ++ [(name, t)] } hkept
        (by simpa using hdistinct)
      rw [fieldsValue_new (hnames _ List.mem_cons_self) hn hkept hdistinct.has_of_append_cons, hrest]
      simp
  | type _ hbrackets ih =>
      intro hs
      obtain ⟨n, hn, hspells⟩ := ih ((spelled_wrap_iff _).1 hs)
      refine ⟨n.wrap _, ?_, .type hspells hbrackets⟩
      rw [Notation.value_wrap, hn]
      rfl

/-- **A text that denotes a spelled type is read as it.** -/
theorem read_of_denotes {cs : List Char} {t : TypeSpec} (h : Denotes cs t) (ht : t.Spelled) :
    TypeSpec.read cs = .ok t := by
  obtain ⟨rest, hderives, hblank⟩ := h
  obtain ⟨n, hn, hspells⟩ := spells_of_derives hderives ht
  have hread := read_of_spellsAll ⟨rest, hspells, hblank⟩
  rw [hn] at hread
  exact hread

end Reading

end SchemaFlow
