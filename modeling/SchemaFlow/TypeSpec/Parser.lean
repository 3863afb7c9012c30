import SchemaFlow.Decimal.Nearest
import SchemaFlow.Decimal.Text
import SchemaFlow.Filling
import SchemaFlow.Text.Blank
import SchemaFlow.Text.Units
import SchemaFlow.TypeSpec.Basic

/-!
# Reading types

The notation of types, with blanks before any word or mark:

* a type is a base followed by any number of `[]`, each of which wraps it in a sequence;
* a base is a scalar kind, `sequence<T>`, `array<k>[d, …]`, `mapping<k, T>`, `opaque<name>`, or
  `record` with fields `name: T` in braces;
* a dimension is a star or a run of digits, a name starts with a letter, `_` or `$` and goes on
  with letters, digits, `_`, `$`, `.` and `-`.

Reading stops at the first failure. A failure carries the text that was left there, so its place
is `Text.offsetOf`. A run of digits denotes the nearest double; where that is not finite, or is
zero, the array is refused once its closing bracket is read.
-/

namespace SchemaFlow

namespace Reading

/-! ## 1. Failures -/

/-- What the notation asked for where reading stopped. -/
inductive Expectation
  | mark (c : Char)
  | name
  | base
  | scalarKind
  | dimension
  | otherField (taken : String)
  | endOfInput
deriving Repr, DecidableEq

/-- The wording of an expectation. -/
def Expectation.text : Expectation → String
  | .mark c => "'" ++ c.toString ++ "'"
  | .name => "a name"
  | .base => "a scalar kind or one of sequence, array, mapping, opaque, record"
  | .scalarKind => "a scalar kind"
  | .dimension => "a dimension size or *"
  | .otherField taken => "a field name other than '" ++ taken ++ "' (duplicate)"
  | .endOfInput => "end of input"

/-- Why reading stopped: an expectation was not met, an array has a dimension that is no size, or
    a field's name is sealed by the record's ancestor. -/
inductive Reason
  | expected (what : Expectation)
  | notASize (index : Nat) (size : String)
  | sealedField (name : String)
deriving Repr, DecidableEq

/-- A failure: the text left to read, and the reason. -/
structure Failure where
  rest : List Char
  reason : Reason
deriving Repr, DecidableEq

/-- A reader's result: what was read, and the text left. -/
abbrev Step (α : Type) := Except Failure (α × List Char)

/-- Stops for want of something. -/
def stop {α : Type} (rest : List Char) (what : Expectation) : Except Failure α :=
  .error ⟨rest, .expected what⟩

/-! ## 2. Words and marks -/

/-- The first character of a name. -/
def isNameStart (c : Char) : Bool := c.isAlpha || c == '_' || c == '$'

/-- Any other character of a name. -/
def isNamePart (c : Char) : Bool := c.isAlphanum || c == '_' || c == '$' || c == '.' || c == '-'

/-- Reads a name, the longest there is. -/
def name (cs : List Char) : Step String :=
  match Text.skipBlanks cs with
  | [] => stop [] .name
  | c :: rest =>
    if isNameStart c then
      .ok (String.ofList (c :: rest.takeWhile isNamePart), rest.dropWhile isNamePart)
    else stop (c :: rest) .name

/-- The text after a mark, if the mark stands there. -/
def mark? (c : Char) (cs : List Char) : Option (List Char) :=
  match Text.skipBlanks cs with
  | [] => none
  | d :: rest => if d = c then some rest else none

/-- Demands a mark. -/
def mark (c : Char) (cs : List Char) : Except Failure (List Char) :=
  match mark? c cs with
  | some rest => .ok rest
  | none => stop (Text.skipBlanks cs) (.mark c)

/-- Reads a scalar kind. A word that is none is reported where it was looked for. -/
def scalarKind (cs : List Char) : Step ScalarKind :=
  match name cs with
  | .error e => .error e
  | .ok (word, rest) =>
    match ScalarKind.ofName? word with
    | some k => .ok (k, rest)
    | none => stop cs .scalarKind

/-! ## 3. Arrays -/

/-- Reads one dimension: `none` for a star, else the number that the digits spell. -/
def dimension (cs : List Char) : Step (Option Nat) :=
  match mark? '*' cs with
  | some rest => .ok (none, rest)
  | none =>
    let here := Text.skipBlanks cs
    match here.takeWhile Char.isDigit with
    | [] => stop here .dimension
    | ds => .ok (some (Decimal.ofDigits ds), here.dropWhile Char.isDigit)

/-- Reads dimensions, at least one, with commas between them. -/
def dimensions : Nat → List Char → Step (List (Option Nat))
  | 0, cs => stop cs .dimension
  | fuel + 1, cs =>
    match dimension cs with
    | .error e => .error e
    | .ok (d, rest) =>
      match mark? ',' rest with
      | none => .ok ([d], rest)
      | some rest =>
        match dimensions fuel rest with
        | .error e => .error e
        | .ok (ds, rest) => .ok (d :: ds, rest)

/-- Turns what was read into a dimension; the text of the size when it is not one. -/
def toDimension : Option Nat → Except String Dimension
  | none => .ok .free
  | some n =>
    match Decimal.nearest? n with
    | none => .error "Infinity"
    | some 0 => .error "0"
    | some m => .ok (.fixed m)

/-- Turns all that was read into dimensions, up to the first that is no size. -/
def toDimensions (index : Nat) : List (Option Nat) → Except (Nat × String) (List Dimension)
  | [] => .ok []
  | d :: ds =>
    match toDimension d with
    | .error size => .error (index, size)
    | .ok d =>
      match toDimensions (index + 1) ds with
      | .error e => .error e
      | .ok ds => .ok (d :: ds)

/-- The dimensions of an array, in square brackets and possibly none. -/
def dimensionList (cs : List Char) : Step (List Dimension) :=
  match mark '[' cs with
  | .error e => .error e
  | .ok rest =>
    let read : Step (List (Option Nat)) :=
      match mark? ']' rest with
      | some _ => .ok ([], rest)
      | none => dimensions (rest.length + 1) rest
    match read with
    | .error e => .error e
    | .ok (ds, rest) =>
      match mark ']' rest with
      | .error e => .error e
      | .ok rest =>
        match toDimensions 0 ds with
        | .ok ds => .ok (ds, rest)
        | .error (index, size) => .error ⟨rest, .notASize index size⟩

/-! ## 4. Types -/

/-- Wraps a type in a sequence for every `[]` that follows it; each takes two characters, so the
    length of the text bounds their number. -/
def wrapped : Nat → TypeSpec → List Char → TypeSpec × List Char
  | 0, t, cs => (t, cs)
  | fuel + 1, t, cs =>
    match mark? '[' cs with
    | none => (t, Text.skipBlanks cs)
    | some inner =>
      match mark? ']' inner with
      | none => (t, Text.skipBlanks cs)
      | some rest => wrapped fuel (.sequence t) rest

/-- Completes a base to a type. -/
def completed : Step TypeSpec → Step TypeSpec
  | .error e => .error e
  | .ok (t, cs) => .ok (wrapped (cs.length + 1) t cs)

mutual

/-- Reads a base. The first argument bounds the nesting; every level takes at least one character,
    so a number above the length of the text is enough. -/
def base : Nat → List Char → Except Failure (TypeSpec × List Char)
  | 0, cs => stop cs .base
  | fuel + 1, cs => do
    let (word, rest) ← name cs
    if word = "sequence" then
      let rest ← mark '<' rest
      let (element, rest) ← completed (base fuel rest)
      let rest ← mark '>' rest
      return (.sequence element, rest)
    else if word = "array" then
      let rest ← mark '<' rest
      let (element, rest) ← scalarKind rest
      let rest ← mark '>' rest
      let (dims, rest) ← dimensionList rest
      return (.array element dims, rest)
    else if word = "mapping" then
      let rest ← mark '<' rest
      let (key, rest) ← scalarKind rest
      let rest ← mark ',' rest
      let (value, rest) ← completed (base fuel rest)
      let rest ← mark '>' rest
      return (.mapping key value, rest)
    else if word = "opaque" then
      let rest ← mark '<' rest
      let (label, rest) ← name rest
      let rest ← mark '>' rest
      return (.handle label, rest)
    else if word = "record" then
      let rest ← mark '\x7b' rest
      let (fields, rest) ←
        match mark? '\x7d' rest with
        | some _ => .ok (({} : Filling TypeSpec), rest)
        | none => fieldsFrom fuel {} rest
      let rest ← mark '\x7d' rest
      return (.record fields.entries none, rest)
    else
      match ScalarKind.ofName? word with
      | some k => return (.scalar k, rest)
      | none => stop cs .base

/-- Reads fields, at least one, with commas between them, on top of those already stored. -/
def fieldsFrom : Nat → Filling TypeSpec → List Char →
    Except Failure (Filling TypeSpec × List Char)
  | 0, _, cs => stop cs .name
  | fuel + 1, fields, cs => do
    let (field, rest) ← name cs
    if fields.entries.has field then stop rest (.otherField field)
    else
      let rest ← mark ':' rest
      let (t, rest) ← completed (base fuel rest)
      match fields.store t.partNames field t with
      | none => .error ⟨rest, .sealedField field⟩
      | some fields =>
        match mark? ',' rest with
        | none => return (fields, rest)
        | some rest => fieldsFrom fuel fields rest

end

end Reading

namespace TypeSpec

open Reading

/-- Reads a whole text as a type. -/
def read (cs : List Char) : Except Failure TypeSpec :=
  match completed (base (cs.length + 1) cs) with
  | .error e => .error e
  | .ok (t, rest) =>
    match Text.skipBlanks rest with
    | [] => .ok t
    | c :: rest => stop (c :: rest) .endOfInput

end TypeSpec

end SchemaFlow
