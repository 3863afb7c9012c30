import Mathlib.Data.List.TakeWhile
import SchemaFlow.Proofs.TypeSpec.Grammar

/-!
# Words and marks in a text

The readers of single words and marks against `Grammar.Token`. A mark and a name begin with a
visible character, so there is one way only to skip the blanks before them.

* `Grammar.token_cons_iff`: a token is what stands behind the blanks.
* `mark?_eq_some_iff`, `mark_eq_ok_iff`: a mark is read exactly where the text has it.
* `name_eq_ok_iff`: a name is read exactly where the text has it and it goes on no further.
* `Grammar.Token.stops`: a name ends in front of a mark.
* `Grammar.DigitRun`: a longest run of digits.
-/

namespace SchemaFlow

namespace Reading

/-! ## 1. Kinds of characters -/

theorem isAlpha_iff_toNat {c : Char} : c.isAlpha = true ↔
    65 ≤ c.toNat ∧ c.toNat ≤ 90 ∨ 97 ≤ c.toNat ∧ c.toNat ≤ 122 := by
  have hranges : c.isAlpha =
      (decide (65 ≤ c.val ∧ c.val ≤ 90) || (decide (97 ≤ c.val) && decide (c.val ≤ 122))) := rfl
  rw [hranges]
  simp [UInt32.le_iff_toNat_le]

theorem isBlank_of_isNamePart {c : Char} (h : isNamePart c = true) : Text.isBlank c = false := by
  simp only [isNamePart, Char.isAlphanum, isAlpha_iff_toNat, Char.isDigit_iff_toNat,
    Bool.or_eq_true, beq_iff_eq] at h
  simp only [Text.isBlank, Bool.or_eq_false_iff, Bool.and_eq_false_iff, decide_eq_false_iff_not,
    beq_eq_false_iff_ne]
  rcases h with (((h | rfl) | rfl) | rfl) | rfl
  · simp only [Char.reduceToNat] at h
    omega
  all_goals decide

theorem isNamePart_of_isNameStart {c : Char} (h : isNameStart c = true) : isNamePart c = true := by
  simp only [isNameStart, Bool.or_eq_true] at h
  rcases h with (h | h) | h <;> simp [isNamePart, Char.isAlphanum, h]

theorem isNamePart_of_isDigit {c : Char} (h : c.isDigit = true) : isNamePart c = true := by
  simp [isNamePart, Char.isAlphanum, h]

theorem not_isNamePart_of_isBlank {c : Char} (h : Text.isBlank c = true) : isNamePart c = false := by
  cases hc : isNamePart c with
  | false => rfl
  | true => simp [isBlank_of_isNamePart hc] at h

/-- No name goes on at the beginning of the text. -/
def Stops (cs : List Char) : Prop := ∀ c ∈ cs.head?, isNamePart c = false

theorem takeWhile_append_of_stops {p : Char → Bool} {ds rest : List Char}
    (hp : ∀ c, p c = true → isNamePart c = true) (hds : ∀ d ∈ ds, p d = true) (h : Stops rest) :
    (ds ++ rest).takeWhile p = ds ∧ (ds ++ rest).dropWhile p = rest := by
  rw [List.takeWhile_append_of_pos hds, List.dropWhile_append_of_pos hds]
  cases rest with
  | nil => simp
  | cons c rest =>
      have hc : p c = false := by
        cases hpc : p c with
        | false => rfl
        | true => simpa [h c rfl] using hp c hpc
      simp [hc]

theorem stops_dropWhile (cs : List Char) : Stops (cs.dropWhile isNamePart) := fun c hc => by
  have h := List.head?_dropWhile_not isNamePart cs
  rw [Option.mem_def.1 hc] at h
  simpa using h

end Reading

namespace Text

/-- A text is its leading blanks and the rest. -/
theorem exists_blanks (cs : List Char) :
    ∃ blanks : List Char, (∀ c ∈ blanks, isBlank c = true) ∧ cs = blanks ++ skipBlanks cs :=
  ⟨cs.takeWhile isBlank, fun _ h => List.mem_takeWhile_imp h, (List.takeWhile_append_dropWhile).symm⟩

theorem skipBlanks_append_of_blank {blanks : List Char} (h : ∀ c ∈ blanks, isBlank c = true)
    (cs : List Char) : skipBlanks (blanks ++ cs) = skipBlanks cs :=
  List.dropWhile_append_of_pos h

theorem skipBlanks_eq_nil_iff {cs : List Char} :
    skipBlanks cs = [] ↔ ∀ c ∈ cs, isBlank c = true :=
  List.dropWhile_eq_nil_iff

end Text

/-! ## 2. Tokens -/

namespace Grammar

open Reading

variable {c : Char} {word cs rest : List Char}

/-- **A token is what stands behind the blanks.** -/
theorem token_cons_iff (hc : Text.isBlank c = false) :
    Token (c :: word) cs rest ↔ Text.skipBlanks cs = c :: (word ++ rest) := by
  constructor
  · rintro ⟨blanks, hb, rfl⟩
    rw [Text.skipBlanks_append_of_blank hb]
    exact Text.skipBlanks_cons_of_visible hc
  · intro h
    obtain ⟨blanks, hb, hcs⟩ := Text.exists_blanks cs
    exact ⟨blanks, hb, by rw [hcs, h]; rfl⟩

/-- A word in front of a text is a token of it. -/
theorem token_append (word rest : List Char) : Token word (word ++ rest) rest :=
  ⟨[], fun _ h => absurd h List.not_mem_nil, rfl⟩

/-- **A name ends in front of a mark.** -/
theorem Token.stops (h : Token [c] cs rest) (hc : isNamePart c = false) : Stops cs := by
  obtain ⟨blanks, hb, rfl⟩ := h
  intro d hd
  cases blanks with
  | nil =>
      obtain rfl : c = d := by simpa using hd
      exact hc
  | cons b blanks =>
      obtain rfl : b = d := by simpa using hd
      exact not_isNamePart_of_isBlank (hb b List.mem_cons_self)

theorem IsSize.exists_cons {ds : List Char} (h : IsSize ds) : ∃ d es, ds = d :: es := by
  cases ds with
  | nil => exact absurd h.positive (by simp [Decimal.ofDigits])
  | cons d es => exact ⟨d, es, rfl⟩

end Grammar

/-! ## 3. Marks -/

namespace Reading

open Grammar

variable {c : Char} {cs rest : List Char}

theorem mark?_eq_some_iff (hc : Text.isBlank c = false) :
    mark? c cs = some rest ↔ Token [c] cs rest := by
  rw [token_cons_iff hc, mark?]
  cases Text.skipBlanks cs with
  | nil => simp
  | cons d ds =>
      by_cases hd : d = c
      · simp [hd]
      · simp [hd]

/-- **A mark is read exactly where the text has it.** -/
theorem mark_eq_ok_iff (hc : Text.isBlank c = false) :
    mark c cs = .ok rest ↔ Token [c] cs rest := by
  rw [← mark?_eq_some_iff hc, mark]
  cases mark? c cs with
  | none => simp [stop]
  | some r => simp

theorem mark?_of_mark (h : Token [c] cs rest) (hc : Text.isBlank c = false) :
    mark? c cs = some rest :=
  (mark?_eq_some_iff hc).2 h

theorem mark_of_mark (h : Token [c] cs rest) (hc : Text.isBlank c = false) :
    mark c cs = .ok rest :=
  (mark_eq_ok_iff hc).2 h

/-- No mark stands where a word begins with another character. -/
theorem mark?_of_token {d : Char} {word : List Char} (h : Token (d :: word) cs rest)
    (hd : Text.isBlank d = false) (hne : d ≠ c) : mark? c cs = none := by
  simp [mark?, (token_cons_iff hd).1 h, hne]

theorem mark?_skipBlanks (c : Char) (cs : List Char) : mark? c (Text.skipBlanks cs) = mark? c cs := by
  simp only [mark?, Text.skipBlanks_idem]

theorem mark_skipBlanks (c : Char) (cs : List Char) : mark c (Text.skipBlanks cs) = mark c cs := by
  simp only [mark, mark?_skipBlanks, Text.skipBlanks_idem]

/-! ## 4. Names -/

/-- **A name is read exactly where the text has it and it goes on no further.** -/
theorem name_eq_ok_iff {word : String} :
    name cs = .ok (word, rest) ↔ IsName word.toList ∧ Token word.toList cs rest ∧ Stops rest := by
  constructor
  · intro h
    unfold name at h
    split at h
    · cases h
    · rename_i c ds hskip
      split at h
      · rename_i hstart
        obtain ⟨rfl, rfl⟩ := Prod.mk.inj (Except.ok.inj h)
        rw [String.toList_ofList]
        refine ⟨⟨c, _, rfl, hstart, fun d hd => List.mem_takeWhile_imp hd⟩, ?_, stops_dropWhile ds⟩
        rw [token_cons_iff (isBlank_of_isNamePart (isNamePart_of_isNameStart hstart)), hskip,
          List.takeWhile_append_dropWhile]
      · cases h
  · rintro ⟨⟨c, ds, hword, hstart, hds⟩, htoken, hstops⟩
    rw [hword, token_cons_iff (isBlank_of_isNamePart (isNamePart_of_isNameStart hstart))] at htoken
    obtain ⟨htake, hdrop⟩ := takeWhile_append_of_stops (fun _ h => h) hds hstops
    have hback : String.ofList (c :: ds) = word := by rw [← hword, String.ofList_toList]
    simp only [name, htoken, hstart, if_true, htake, hdrop, hback]

theorem isName_kind (k : ScalarKind) : IsName k.name.toList := by
  cases k <;> exact isName_cons_iff.2 rfl

theorem scalarKind_eq_ok_iff {k : ScalarKind} :
    scalarKind cs = .ok (k, rest) ↔ Token k.name.toList cs rest ∧ Stops rest := by
  have hname : scalarKind cs = .ok (k, rest) ↔ name cs = .ok (k.name, rest) := by
    unfold scalarKind
    cases name cs with
    | error e => simp
    | ok p =>
        obtain ⟨word, r⟩ := p
        cases hk : ScalarKind.ofName? word with
        | none =>
            have : word ≠ k.name := fun e => by simp [e, ScalarKind.ofName?_name] at hk
            simp [stop, hk, this]
        | some l =>
            have hword : word = k.name ↔ l = k := by
              rw [← ScalarKind.name_of_ofName? hk]
              exact ⟨ScalarKind.eq_of_name_eq, fun h => congrArg _ h⟩
            simp [hk, hword]
  rw [hname, name_eq_ok_iff]
  exact ⟨fun h => h.2, fun h => ⟨isName_kind k, h⟩⟩

/-! ## 5. Digits -/

/-- The digits that are read, and what is behind them. -/
theorem token_digits (cs : List Char) :
    Token ((Text.skipBlanks cs).takeWhile Char.isDigit) cs
      ((Text.skipBlanks cs).dropWhile Char.isDigit) := by
  obtain ⟨blanks, hb, hcs⟩ := Text.exists_blanks cs
  refine ⟨blanks, hb, ?_⟩
  rw [List.takeWhile_append_dropWhile]
  exact hcs

end Reading

namespace Grammar

/-- A run of digits in a text that goes no further on either side. -/
structure DigitRun (ds cs : List Char) : Prop where
  digits : ∀ c ∈ ds, c.isDigit = true
  longest : ∃ before after, cs = before ++ (ds ++ after) ∧
    (∀ c ∈ before.getLast?, c.isDigit = false) ∧ ∀ c ∈ after.head?, c.isDigit = false

theorem DigitRun.isInfix {ds cs : List Char} (h : DigitRun ds cs) : ds <:+: cs := by
  obtain ⟨before, after, rfl, -, -⟩ := h.longest
  exact ⟨before, after, List.append_assoc _ _ _⟩

end Grammar

end SchemaFlow
