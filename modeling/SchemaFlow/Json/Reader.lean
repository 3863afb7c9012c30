import SchemaFlow.Decimal.Nearest
import SchemaFlow.Entries
import SchemaFlow.Json

/-!
# Reading JSON

The strict grammar: four kinds of white space, no comments, no trailing commas, numbers without
leading zeros. A name that stands twice in an object keeps its first place and its last value.
-/

namespace SchemaFlow

namespace Json

/-- White space between the parts of a JSON text. -/
def isSpace (c : Char) : Bool := c == ' ' || c == '\t' || c == '\n' || c == '\r'

/-- The text from the next part on. -/
def skipSpace (cs : List Char) : List Char := cs.dropWhile isSpace

/-! ## 1. Texts -/

/-- The value of a hexadecimal digit. -/
def hexValue? (c : Char) : Option Nat :=
  if c.isDigit then some (c.toNat - '0'.toNat)
  else if 'a' ≤ c ∧ c ≤ 'f' then some (c.toNat - 'a'.toNat + 10)
  else if 'A' ≤ c ∧ c ≤ 'F' then some (c.toNat - 'A'.toNat + 10)
  else none

/-- Four hexadecimal digits. -/
def hexUnit? : List Char → Option (Nat × List Char)
  | a :: b :: c :: d :: rest => do
    let a ← hexValue? a
    let b ← hexValue? b
    let c ← hexValue? c
    let d ← hexValue? d
    some (((a * 16 + b) * 16 + c) * 16 + d, rest)
  | _ => none

/-- The character of a unit that stands alone; half a pair stands for no character. -/
def unitChar (u : Nat) : Char :=
  if 0xD800 ≤ u ∧ u ≤ 0xDFFF then Char.ofNat 0xFFFD else Char.ofNat u

/-- The character of an escape that is one letter. -/
def letterEscape? (c : Char) : Option Char :=
  if c = '"' ∨ c = '\\' ∨ c = '/' then some c
  else if c = 'b' then some (Char.ofNat 0x08)
  else if c = 'f' then some (Char.ofNat 0x0C)
  else if c = 'n' then some '\n'
  else if c = 'r' then some '\r'
  else if c = 't' then some '\t'
  else none

/-- The characters up to the closing quote, read so far in reverse. A unit of the first half of a
    pair takes the second half with it. The first argument bounds the characters to read. -/
def textFrom : Nat → List Char → List Char → Option (String × List Char)
  | 0, _, _ => none
  | _ + 1, _, [] => none
  | _ + 1, acc, '"' :: rest => some (String.ofList acc.reverse, rest)
  | fuel + 1, acc, '\\' :: 'u' :: rest =>
    match hexUnit? rest with
    | none => none
    | some (u, rest) =>
      let low : Option (Nat × List Char) :=
        match rest with
        | '\\' :: 'u' :: rest => (hexUnit? rest).filter fun (w, _) => 0xDC00 ≤ w && w ≤ 0xDFFF
        | _ => none
      match (if 0xD800 ≤ u ∧ u ≤ 0xDBFF then low else none) with
      | some (w, rest) =>
        textFrom fuel (Char.ofNat (0x10000 + (u - 0xD800) * 0x400 + (w - 0xDC00)) :: acc) rest
      | none => textFrom fuel (unitChar u :: acc) rest
  | fuel + 1, acc, '\\' :: c :: rest =>
    match letterEscape? c with
    | some d => textFrom fuel (d :: acc) rest
    | none => none
  | fuel + 1, acc, c :: rest =>
    if c.toNat < 0x20 ∨ c = '\\' then none else textFrom fuel (c :: acc) rest

/-- A text, after its opening quote. -/
def quotedText? (cs : List Char) : Option (String × List Char) := textFrom (cs.length + 1) [] cs

/-! ## 2. Numbers -/

/-- Digits, at least one. -/
def digits? (cs : List Char) : Option (List Char × List Char) :=
  match cs.takeWhile Char.isDigit with
  | [] => none
  | ds => some (ds, cs.dropWhile Char.isDigit)

/-- The part of a number after its point, if there is one. -/
def fraction? : List Char → Option (List Char × List Char)
  | '.' :: rest => digits? rest
  | rest => some ([], rest)

/-- The sign of an exponent. -/
def exponentSign : List Char → Bool × List Char
  | '-' :: rest => (true, rest)
  | '+' :: rest => (false, rest)
  | rest => (false, rest)

/-- The exponent of a number, if there is one. -/
def exponent? : List Char → Option (Int × List Char)
  | c :: rest =>
    if c = 'e' ∨ c = 'E' then do
      let (negative, rest) := exponentSign rest
      let (ds, rest) ← digits? rest
      let n : Int := Decimal.ofDigits ds
      some (if negative then -n else n, rest)
    else some (0, c :: rest)
  | [] => some (0, [])

/-- A number without its sign. -/
def magnitude? (cs : List Char) : Option (Float × List Char) := do
  let (ds, rest) ← digits? cs
  if 1 < ds.length ∧ ds.head? = some '0' then none
  else
    let (fs, rest) ← fraction? rest
    let (e, rest) ← exponent? rest
    some (Decimal.toFloat (Decimal.ofDigits (ds ++ fs)) (e - fs.length), rest)

/-- A number. -/
def number? : List Char → Option (Float × List Char)
  | '-' :: rest => (magnitude? rest).map fun (x, rest) => (-x, rest)
  | rest => magnitude? rest

/-! ## 3. Values -/

/-- The rest of a text behind a word. -/
def word? (w cs : List Char) : Option (List Char) :=
  if w.isPrefixOf cs then some (cs.drop w.length) else none

mutual

/-- A value. The first argument bounds the parts to read; every part takes a character. -/
def value? : Nat → List Char → Option (Json × List Char)
  | 0, _ => none
  | fuel + 1, cs =>
    match skipSpace cs with
    | [] => none
    | '"' :: rest => (quotedText? rest).map fun (s, rest) => (.text s, rest)
    | '[' :: rest =>
      match skipSpace rest with
      | ']' :: rest => some (.list [], rest)
      | rest => (items? fuel rest).map fun (tail, rest) => (.list tail, rest)
    | '\x7b' :: rest =>
      match skipSpace rest with
      | '\x7d' :: rest => some (.object [], rest)
      | rest => (members? fuel [] rest).map fun (es, rest) => (.object es, rest)
    | c :: rest =>
      if c = 't' then (word? "rue".toList rest).map fun rest => (.bool true, rest)
      else if c = 'f' then (word? "alse".toList rest).map fun rest => (.bool false, rest)
      else if c = 'n' then (word? "ull".toList rest).map fun rest => (.null, rest)
      else (number? (c :: rest)).map fun (x, rest) => (.number x, rest)

/-- Items up to the closing bracket. -/
def items? : Nat → List Char → Option (List Json × List Char)
  | 0, _ => none
  | fuel + 1, cs => do
    let (j, rest) ← value? fuel cs
    match skipSpace rest with
    | ',' :: rest => do
      let (tail, rest) ← items? fuel rest
      some (j :: tail, rest)
    | ']' :: rest => some ([j], rest)
    | _ => none

/-- Members up to the closing brace, on top of those read so far. -/
def members? : Nat → Entries Json → List Char → Option (Entries Json × List Char)
  | 0, _, _ => none
  | fuel + 1, es, cs =>
    match skipSpace cs with
    | '"' :: rest => do
      let (k, rest) ← quotedText? rest
      match skipSpace rest with
      | ':' :: rest => do
        let (j, rest) ← value? fuel rest
        let es := es.insert k j
        match skipSpace rest with
        | ',' :: rest => members? fuel es rest
        | '\x7d' :: rest => some (es, rest)
        | _ => none
      | _ => none
    | _ => none

end

/-- Reads a whole text as JSON. -/
def parse? (s : String) : Option Json := do
  let cs := s.toList
  let (j, rest) ← value? (cs.length + 1) cs
  if (skipSpace rest).isEmpty then some j else none

end Json

end SchemaFlow
