import SchemaFlow.Decimal.Text
import SchemaFlow.Entries
import SchemaFlow.Text.Quoted

/-!
# JSON

JSON values and their two written forms: on one line (`Json.compact`), and with one entry a line,
indented by two spaces a level (`Json.indented`). Numbers are written as everywhere, and as `null`
where they are not finite.
-/

namespace SchemaFlow

/-- A JSON value. -/
inductive Json
  | null
  | bool (b : Bool)
  | number (x : Float)
  | text (s : String)
  | list (items : List Json)
  | object (entries : List (String × Json))
deriving Inhabited

namespace Json

/-- A number as JSON writes it. -/
def numberText (x : Float) : String :=
  if x.isNaN || x.isInf then "null" else Decimal.numberText x

mutual

/-- The text of a value on one line. -/
def compact : Json → String
  | null => "null"
  | bool b => if b then "true" else "false"
  | number x => numberText x
  | text s => Text.quoted s
  | list items => "[" ++ ",".intercalate (compactItems items) ++ "]"
  | object entries => "\x7b" ++ ",".intercalate (compactEntries entries) ++ "\x7d"

/-- The texts of items. -/
def compactItems : List Json → List String
  | [] => []
  | j :: rest => compact j :: compactItems rest

/-- The texts of entries. -/
def compactEntries : List (String × Json) → List String
  | [] => []
  | (k, j) :: rest => (Text.quoted k ++ ":" ++ compact j) :: compactEntries rest

end

/-- The start of a line at a level. -/
def margin (level : Nat) : String := "\n" ++ String.ofList (List.replicate (2 * level) ' ')

/-- Lines between two brackets; none when there is nothing between them. -/
def block (opening closing : String) (level : Nat) (lines : List String) : String :=
  if lines.isEmpty then opening ++ closing
  else
    opening ++ margin (level + 1) ++ (("," ++ margin (level + 1)).intercalate lines) ++
      margin level ++ closing

mutual

/-- The text of a value over several lines. -/
def indented (level : Nat) : Json → String
  | null => "null"
  | bool b => if b then "true" else "false"
  | number x => numberText x
  | text s => Text.quoted s
  | list items => block "[" "]" level (indentedItems (level + 1) items)
  | object entries => block "\x7b" "\x7d" level (indentedEntries (level + 1) entries)

/-- The texts of items. -/
def indentedItems (level : Nat) : List Json → List String
  | [] => []
  | j :: rest => indented level j :: indentedItems level rest

/-- The texts of entries. -/
def indentedEntries (level : Nat) : List (String × Json) → List String
  | [] => []
  | (k, j) :: rest => (Text.quoted k ++ ": " ++ indented level j) :: indentedEntries level rest

end

end Json

end SchemaFlow
