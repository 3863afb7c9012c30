import SchemaFlow.Entries
import SchemaFlow.Text.Blank

/-!
# The environment of a program

The variables that a program is started with, extended by a settings file of `NAME=value` lines.
`find?_extended`: a variable that is set keeps its value.
-/

namespace SchemaFlow

/-- The variables of a program. -/
abbrev Environment := Entries String

namespace Environment

/-- Takes blanks off both ends. -/
def trimmed (cs : List Char) : List Char :=
  (Text.skipBlanks (Text.skipBlanks cs).reverse).reverse

/-- A character of a variable's name in a settings file. -/
def isNameChar (c : Char) : Bool := c.isAlphanum || c == '_' || c == '.' || c == '-'

/-- Takes off the quotes around a value. -/
def unquoted (cs : List Char) : List Char :=
  match cs with
  | q :: rest =>
    if (q = '"' ∨ q = '\'') ∧ rest.getLast? = some q then rest.dropLast else q :: rest
  | [] => []

/-- The variable that a line sets; a value ends before a number sign. -/
def lineSetting? (line : List Char) : Option (String × String) :=
  let line := Text.skipBlanks line
  let line :=
    if "export ".toList.isPrefixOf line then Text.skipBlanks (line.drop 7) else line
  let name := line.takeWhile isNameChar
  match Text.skipBlanks (line.drop name.length) with
  | '=' :: value =>
    if name.isEmpty then none
    else some (String.ofList name,
      String.ofList (unquoted (trimmed (value.takeWhile (· ≠ '#')))))
  | _ => none

/-- The lines of a text. -/
def linesOf (cs : List Char) : List (List Char) := cs.splitBy fun a _ => a != '\n'

/-- The variables that a settings file sets; of several values the last. -/
def settings (text : String) : Environment :=
  (linesOf text.toList).foldl (fun es line =>
    match lineSetting? line with
    | some (name, value) => es.put name value
    | none => es) []

/-- Adds variables that are not set. -/
def extended (env : Environment) (more : Environment) : Environment :=
  env ++ more.filter fun e => !env.has e.1

/-- **A variable that is set keeps its value.** -/
theorem find?_extended {env more : Environment} {name value : String}
    (h : env.find? name = some value) : (env.extended more).find? name = some value := by
  rw [extended, Entries.find?_append, h]
  rfl

end Environment

end SchemaFlow
