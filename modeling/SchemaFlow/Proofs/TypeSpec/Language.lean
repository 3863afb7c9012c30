import Mathlib.Data.List.DropRight
import Mathlib.Tactic.Ring
import SchemaFlow.Proofs.TypeSpec.Soundness

/-!
# The language of type notations

The reader and the grammar agree on clean texts: soundness says that what is read is derived, and
completeness, which asks for types that can be written down, applies because a clean text denotes no
other. What a clean text is can be told from its longest runs of digits.

* `Reading.spelled_of_derives`: a clean text denotes spelled types only.
* `Reading.read_eq_ok_iff`: a clean text is read as a type when it denotes the type.
* `Grammar.clean_of_digitRun`: the longest runs of digits decide whether all numbers are exact.
* `TypeSpec.parse_language`: which texts are read, and as what, and that all others are refused.
-/

namespace SchemaFlow

namespace Reading

open Grammar

/-! ## 1. Clean texts denote spelled types -/

theorem small_of_dims {ds : List Dimension} {cs rest : List Char} (h : Dims ds cs rest) :
    Clean cs → ∀ n, .fixed n ∈ ds → n < Nat.pow 2 53 := by
  have hdim : ∀ {d cs rest}, Dim d cs rest → Clean cs → ∀ n, d = .fixed n → n < Nat.pow 2 53 := by
    intro d cs rest h hcs n hn
    cases h with
    | free _ => cases hn
    | fixed hsize htoken =>
        cases hn
        exact hcs.exact _ htoken.infix_left hsize.digits
  induction h with
  | one h =>
      intro hcs n hn
      exact hdim h hcs n (List.mem_singleton.1 hn).symm
  | more h hcomma _ ih =>
      intro hcs n hn
      rcases List.mem_cons.1 hn with hn | hn
      · exact hdim h hcs n hn.symm
      · exact ih ((hcs.suffix h.suffix).token hcomma) n hn

/-- **A clean text denotes spelled types only.** -/
theorem spelled_of_derives {p : Phrase} {cs rest : List Char} (h : Derives p cs rest) :
    Clean cs → p.Spelled := by
  induction h with
  | scalar _ => exact fun _ => .scalar _
  | sequence hword hopen _ _ ih => exact fun hcs => .sequence (ih ((hcs.token hword).token hopen))
  | point _ _ _ _ _ _ => exact fun _ => .array _ fun _ h => absurd h List.not_mem_nil
  | array hword hopen hkind hclose hleft hdims _ =>
      exact fun hcs => .array _ (small_of_dims hdims
        (((((hcs.token hword).token hopen).token hkind).token hclose).token hleft))
  | mapping hword hopen hkind hcomma _ _ ih =>
      exact fun hcs => .mapping _
        (ih ((((hcs.token hword).token hopen).token hkind).token hcomma))
  | handle _ _ hlabel _ _ => exact fun _ => .handle hlabel
  | bare _ _ _ =>
      exact fun _ => .record (fun _ h => absurd h List.not_mem_nil)
        fun _ h => absurd h List.not_mem_nil
  | record hword hopen _ _ _ ih =>
      intro hcs
      obtain ⟨hnames, htypes⟩ := ih ((hcs.token hword).token hopen)
      exact .record hnames htypes
  | field hfield hname hcolon _ ih =>
      intro hcs
      have ht := ih ((hcs.token hname).token hcolon)
      exact ⟨List.forall_mem_singleton.2 ⟨hfield, hcs.ne_ancestorName hname⟩,
        List.forall_mem_singleton.2 ht⟩
  | fields hfield hname hcolon htype hcomma _ ih ih' =>
      intro hcs
      have hb := (hcs.token hname).token hcolon
      obtain ⟨hnames, htypes⟩ := ih' ((hb.suffix htype.suffix).token hcomma)
      exact ⟨List.forall_mem_cons.2 ⟨⟨hfield, hcs.ne_ancestorName hname⟩, hnames⟩,
        List.forall_mem_cons.2 ⟨ih hb, htypes⟩⟩
  | type _ _ ih => exact fun hcs => (spelled_wrap_iff _).2 (ih hcs)

/-- **A clean text is read as a type when it denotes the type.** -/
theorem read_eq_ok_iff {cs : List Char} (hcs : Clean cs) {t : TypeSpec} :
    TypeSpec.read cs = .ok t ↔ Denotes cs t := by
  constructor
  · intro h
    have hread := yields_read hcs
    rw [h] at hread
    exact hread
  · rintro ⟨rest, hderives, hblank⟩
    exact read_of_denotes ⟨rest, hderives, hblank⟩ (spelled_of_derives hderives hcs)

end Reading

/-! ## 2. Runs of digits -/

namespace Decimal

theorem le_foldl_digits : ∀ (ds : List Char) (n : Nat),
    n ≤ ds.foldl (fun n c => 10 * n + (c.toNat - 48)) n
  | [], _ => Nat.le_refl _
  | c :: ds, n => Nat.le_trans (by omega) (le_foldl_digits ds (10 * n + (c.toNat - 48)))

theorem foldl_digits_mono : ∀ (ds : List Char) {m n : Nat}, m ≤ n →
    ds.foldl (fun n c => 10 * n + (c.toNat - 48)) m ≤
      ds.foldl (fun n c => 10 * n + (c.toNat - 48)) n
  | [], _, _, h => h
  | c :: ds, m, n, h =>
      foldl_digits_mono ds (show 10 * m + (c.toNat - 48) ≤ 10 * n + (c.toNat - 48) by omega)

/-- A part of a number is at most the number. -/
theorem ofDigits_le_of_infix (before ds after : List Char) :
    ofDigits ds ≤ ofDigits (before ++ (ds ++ after)) := by
  rw [ofDigits, ofDigits, List.foldl_append, List.foldl_append]
  exact (foldl_digits_mono ds (Nat.zero_le _)).trans (le_foldl_digits after _)

/-- Digits spell less than the power of ten of their number. -/
theorem foldl_digits_lt : ∀ {ds : List Char} (n : Nat), (∀ c ∈ ds, c.isDigit = true) →
    ds.foldl (fun n c => 10 * n + (c.toNat - 48)) n < (n + 1) * 10 ^ ds.length
  | [], n, _ => by simp
  | c :: ds, n, h => by
      obtain ⟨hc, hds⟩ := List.forall_mem_cons.1 h
      simp only [Char.isDigit, Bool.and_eq_true, decide_eq_true_eq, UInt32.le_iff_toNat_le] at hc
      have hdigit : c.toNat - 48 ≤ 9 := by
        have hval : c.toNat = c.val.toNat := rfl
        simp only [Char.reduceVal, UInt32.reduceToNat] at hc
        omega
      calc (c :: ds).foldl (fun n c => 10 * n + (c.toNat - 48)) n
          = ds.foldl (fun n c => 10 * n + (c.toNat - 48)) (10 * n + (c.toNat - 48)) := rfl
        _ < (10 * n + (c.toNat - 48) + 1) * 10 ^ ds.length := foldl_digits_lt _ hds
        _ ≤ (10 * (n + 1)) * 10 ^ ds.length := Nat.mul_le_mul_right _ (by omega)
        _ = (n + 1) * 10 ^ (c :: ds).length := by
            rw [List.length_cons, Nat.pow_succ]
            ring

/-- The numbers of a text have no more digits than the text. -/
theorem ofDigits_lt_of_infix {ds cs : List Char} (h : ds <:+: cs)
    (hds : ∀ c ∈ ds, c.isDigit = true) :
    ofDigits ds < 10 ^ (cs.filter Char.isDigit).length := by
  have hsub : ds.Sublist (cs.filter Char.isDigit) := by
    rw [← List.filter_eq_self.2 hds]
    exact h.sublist.filter _
  have hlt : ofDigits ds < (0 + 1) * 10 ^ ds.length := foldl_digits_lt 0 hds
  rw [Nat.zero_add, Nat.one_mul] at hlt
  exact Nat.lt_of_lt_of_le hlt (Nat.pow_le_pow_right (by decide) hsub.length_le)

end Decimal

namespace Grammar

/-- Digits in a text are part of a run. -/
theorem exists_digitRun {ds cs : List Char} (h : ds <:+: cs) (hds : ∀ c ∈ ds, c.isDigit = true) :
    ∃ before after, DigitRun (before ++ (ds ++ after)) cs := by
  obtain ⟨s, t, rfl⟩ := h
  refine ⟨s.rtakeWhile Char.isDigit, t.takeWhile Char.isDigit, ?_,
    s.rdropWhile Char.isDigit, t.dropWhile Char.isDigit, ?_, ?_, ?_⟩
  · intro c hc
    rcases List.mem_append.1 hc with hc | hc
    · exact List.mem_rtakeWhile_imp hc
    · rcases List.mem_append.1 hc with hc | hc
      · exact hds c hc
      · exact List.mem_takeWhile_imp hc
  · calc s ++ ds ++ t
        = s.rdropWhile Char.isDigit ++ s.rtakeWhile Char.isDigit ++ ds ++
            (t.takeWhile Char.isDigit ++ t.dropWhile Char.isDigit) := by
          rw [List.rdropWhile_append_rtakeWhile, List.takeWhile_append_dropWhile]
      _ = _ := by simp only [List.append_assoc]
  · intro c hc
    obtain ⟨hne, rfl⟩ := List.mem_getLast?_eq_getLast hc
    simpa using List.rdropWhile_last_not Char.isDigit s hne
  · intro c hc
    have h := List.head?_dropWhile_not Char.isDigit t
    rw [Option.mem_def.1 hc] at h
    simpa using h

/-- **The longest runs of digits decide whether all numbers are exact.** -/
theorem clean_of_digitRun {cs : List Char} (hname : ¬ ancestorName.toList <:+: cs)
    (hdigits : ∀ ds, DigitRun ds cs → Decimal.ofDigits ds < Nat.pow 2 53) : Reading.Clean cs where
  unnamed := hname
  exact ds hds hd := by
    obtain ⟨before, after, hrun⟩ := exists_digitRun hds hd
    exact Nat.lt_of_le_of_lt (Decimal.ofDigits_le_of_infix before ds after) (hdigits _ hrun)

end Grammar

/-! ## 3. The texts that are read -/

namespace TypeSpec

open Grammar

/-- **The texts that are read, and as what.** Where the name of the ancestor does not stand in a text
and its numbers are exact, the text is read as a type when it denotes the type; one that denotes
none is refused as unreadable. -/
theorem parse_language {source : String} (hname : ¬ ancestorName.toList <:+: source.toList)
    (hdigits : ∀ ds, DigitRun ds source.toList → Decimal.ofDigits ds < Nat.pow 2 53) :
    (∀ t, TypeSpec.parse source = .ok t ↔ Denotes source.toList t) ∧
      ((∀ t, ¬ Denotes source.toList t) →
        ∃ failure, TypeSpec.parse source = .error (.malformed none (.unreadable source failure))) := by
  have hclean := clean_of_digitRun hname hdigits
  rcases (Reading.yields_read hclean).cases with ⟨failure, hread, hreason⟩ | ⟨t, hread, ht⟩
  · have hparse := parse_of_failure hread hreason
    refine ⟨fun t => ?_, fun _ => ⟨failure, hparse⟩⟩
    rw [hparse, ← Reading.read_eq_ok_iff hclean, hread]
    constructor <;> intro h <;> cases h
  · have hparse := parse_of_read hread
    refine ⟨fun t' => ?_, fun hnone => absurd ht (hnone t)⟩
    rw [hparse, ← Reading.read_eq_ok_iff hclean, hread]
    constructor <;> intro h <;> cases h <;> rfl

/-- A text with blanks between its words, and brackets behind an array. -/
def spacedText : String :=
  " record\x7b opt-in.x : array < float >[ 12 , * ] [ ], m:mapping<string,opaque<Net$>>\n\x7d "

/-- What the spaced text denotes. -/
def spacedType : TypeSpec :=
  .record [("opt-in.x", .sequence (.array .float [.fixed 12, .free])),
    ("m", .mapping .string (.handle "Net$"))] none

theorem parse_language_spaced :
    ¬ ancestorName.toList <:+: spacedText.toList ∧
      (∀ ds, DigitRun ds spacedText.toList → Decimal.ofDigits ds < Nat.pow 2 53) ∧
      Denotes spacedText.toList spacedType := by
  have hname : ¬ ancestorName.toList <:+: spacedText.toList := by decide +kernel
  have hcount : (spacedText.toList.filter Char.isDigit).length = 2 := by decide +kernel
  have hdigits : ∀ ds, DigitRun ds spacedText.toList → Decimal.ofDigits ds < Nat.pow 2 53 := by
    intro ds hrun
    have hlt := Decimal.ofDigits_lt_of_infix hrun.isInfix hrun.digits
    rw [hcount] at hlt
    exact Nat.lt_trans hlt (by decide)
  have hparse : TypeSpec.parse spacedText = .ok spacedType := by rfl
  exact ⟨hname, hdigits, ((parse_language hname hdigits).1 spacedType).1 hparse⟩

end TypeSpec

end SchemaFlow
