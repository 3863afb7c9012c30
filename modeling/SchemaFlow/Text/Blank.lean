/-!
# Blank characters

The white space that may stand between the words of a type notation, and that may not be all
there is to a label.

* `isBlank_of_isWhitespace`: every ASCII white-space character is blank.
* `skipBlanks_idem`: skipping twice is skipping once.
-/

namespace SchemaFlow.Text

/-- The blank characters: the ASCII controls from tab to carriage return, every space separator,
    the two separators of lines and paragraphs, and the byte order mark. -/
def isBlank (c : Char) : Bool :=
  let n := c.toNat
  (0x09 ≤ n && n ≤ 0x0D) || n == 0x20 || n == 0xA0 || n == 0x1680 ||
    (0x2000 ≤ n && n ≤ 0x200A) || n == 0x2028 || n == 0x2029 || n == 0x202F || n == 0x205F ||
    n == 0x3000 || n == 0xFEFF

/-- What is left of a text once its leading blanks are gone. -/
def skipBlanks (cs : List Char) : List Char := cs.dropWhile isBlank

/-- A text in which no character is visible. -/
def isBlankText (s : String) : Bool := s.toList.all isBlank

/-! ## Laws -/

theorem isBlank_of_isWhitespace (c : Char) (h : c.isWhitespace) : isBlank c := by
  simp only [Char.isWhitespace, Bool.or_eq_true, decide_eq_true_eq] at h
  rcases h with ((h | h) | h) | h <;> subst h <;> decide

@[simp] theorem skipBlanks_nil : skipBlanks [] = [] := rfl

theorem skipBlanks_cons_of_visible {c : Char} {cs : List Char} (h : isBlank c = false) :
    skipBlanks (c :: cs) = c :: cs := by
  simp [skipBlanks, h]

theorem skipBlanks_cons_of_blank {c : Char} {cs : List Char} (h : isBlank c = true) :
    skipBlanks (c :: cs) = skipBlanks cs := by
  simp [skipBlanks, h]

/-- **Skipping twice is skipping once.** -/
theorem skipBlanks_idem : ∀ cs : List Char, skipBlanks (skipBlanks cs) = skipBlanks cs
  | [] => rfl
  | c :: cs => by
      cases h : isBlank c with
      | true => rw [skipBlanks_cons_of_blank h, skipBlanks_idem cs]
      | false => rw [skipBlanks_cons_of_visible h, skipBlanks_cons_of_visible h]

theorem length_skipBlanks_le : ∀ cs : List Char, (skipBlanks cs).length ≤ cs.length
  | [] => Nat.le_refl _
  | c :: cs => by
      cases h : isBlank c with
      | true =>
        rw [skipBlanks_cons_of_blank h]
        exact Nat.le_succ_of_le (length_skipBlanks_le cs)
      | false => exact Nat.le_of_eq (congrArg List.length (skipBlanks_cons_of_visible h))

end SchemaFlow.Text
