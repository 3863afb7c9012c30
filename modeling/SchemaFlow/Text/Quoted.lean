/-!
# Quoted text

A text between double quotes. The quote, the backslash and the controls below the space are
escaped, five of the controls by a letter and the others by four hexadecimal digits; every other
character stands for itself. `quoted_plain` covers the texts in which nothing is escaped.
-/

namespace SchemaFlow.Text

/-- The hexadecimal digits of a control character, always four. -/
def controlEscape (c : Char) : List Char :=
  '\\' :: 'u' :: '0' :: '0' :: [Nat.digitChar (c.toNat / 16), Nat.digitChar (c.toNat % 16)]

/-- One character as it is written between quotes. -/
def quotedChar (c : Char) : List Char :=
  if c = '"' then ['\\', '"']
  else if c = '\\' then ['\\', '\\']
  else if c.toNat = 0x08 then ['\\', 'b']
  else if c.toNat = 0x09 then ['\\', 't']
  else if c.toNat = 0x0A then ['\\', 'n']
  else if c.toNat = 0x0C then ['\\', 'f']
  else if c.toNat = 0x0D then ['\\', 'r']
  else if c.toNat < 0x20 then controlEscape c
  else [c]

/-- The characters of a text as they are written between quotes. -/
def quotedChars (cs : List Char) : List Char := cs.flatMap quotedChar

/-- A text in double quotes. -/
def quoted (s : String) : String := "\"" ++ String.ofList (quotedChars s.toList) ++ "\""

/-- A character that is not escaped. -/
def isPlain (c : Char) : Bool := c ≠ '"' && c ≠ '\\' && 0x20 ≤ c.toNat

theorem quotedChar_of_isPlain {c : Char} (h : isPlain c = true) : quotedChar c = [c] := by
  simp only [isPlain, Bool.and_eq_true, decide_eq_true_eq] at h
  obtain ⟨⟨hq, hb⟩, hc⟩ := h
  unfold quotedChar
  rw [if_neg hq, if_neg hb]
  repeat rw [if_neg (by omega)]

/-- **Where nothing is escaped, quoting only adds the quotes.** -/
theorem quoted_plain : ∀ cs : List Char, (∀ c ∈ cs, isPlain c = true) → quotedChars cs = cs
  | [], _ => rfl
  | c :: cs, h => by
      have hc := quotedChar_of_isPlain (h c (by simp))
      have ih := quoted_plain cs fun d hd => h d (by simp [hd])
      simp only [quotedChars] at ih ⊢
      rw [List.flatMap_cons, hc, ih]
      rfl

end SchemaFlow.Text
