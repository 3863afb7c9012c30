import SchemaFlow.Entries

/-!
# Directories

A snapshot of the files below a directory, and how a path is followed through it: from part to
part, each of which must be a directory that exists. A path may leave the directory. Of what is
outside only the directories of the system are known, and its empty device.
-/

namespace SchemaFlow

/-- Why a file cannot be read. -/
inductive ReadError
  | missing (path : String)
  | notADirectory (path : String)
  | nameTooLong (path : String)
  | isADirectory
  | other (message : String)
deriving Repr, DecidableEq

/-- The wording of a failure to read. -/
def ReadError.message : ReadError → String
  | missing path => s!"ENOENT: no such file or directory, open '{path}'"
  | notADirectory path => s!"ENOTDIR: not a directory, open '{path}'"
  | nameTooLong path => s!"ENAMETOOLONG: name too long, open '{path}'"
  | isADirectory => "EISDIR: illegal operation on a directory, read"
  | other message => message

/-- The parts of a path between its slashes. -/
def pathParts (path : String) : List String := (path.splitToList (· = '/'))

/-- The last part of a path that is not empty. -/
def baseName (path : String) : String :=
  (((pathParts path).filter (· ≠ "")).getLast?).getD ""

/-- The files below a directory, each under the parts of its path. -/
structure Directory where
  files : List (List String × String)

namespace Directory

/-- The place that a relative path spells: empty parts and single dots stay where they are, two dots
    go up. -/
def placeOf (path : String) : List String :=
  (pathParts path).foldl (fun here part =>
    if part = "" ∨ part = "." then here
    else if part = ".." then here.dropLast
    else here ++ [part]) []

/-- Files given by relative paths. -/
def ofPaths (files : List (String × String)) : Directory :=
  ⟨files.map fun (path, text) => (placeOf path, text)⟩

/-- The content of a file; what was written last counts. -/
def file? (d : Directory) (parts : List String) : Option String :=
  (d.files.reverse.find? fun f => f.1 == parts).map Prod.snd

/-- Whether there is a directory. -/
def hasDirectory (d : Directory) (parts : List String) : Bool :=
  parts.isEmpty || d.files.any fun f => parts.isPrefixOf f.1 && parts.length < f.1.length

/-- The bytes that the name of a file may have. -/
def longestName : Nat := 255

/-- The bytes that a path may have. -/
def longestPath : Nat := 4095

/-! ## Following a path -/

/-- Where a path has led. -/
inductive Place
  /-- below the directory -/
  | below (parts : List String)
  /-- below the root of the system -/
  | system (parts : List String)
  /-- above the directory, it is not known how far -/
  | above
deriving Repr, DecidableEq

/-- The place above a place; the root is above itself. -/
def Place.up : Place → Place
  | below [] | above => above
  | below parts => below parts.dropLast
  | system parts => system parts.dropLast

/-- The directories of every system. -/
def systemDirectories : List (List String) :=
  [["bin"], ["dev"], ["etc"], ["home"], ["lib"], ["opt"], ["proc"], ["run"], ["sbin"], ["sys"],
    ["tmp"], ["usr"], ["usr", "bin"], ["usr", "lib"], ["usr", "local"], ["usr", "share"], ["var"],
    ["var", "lib"], ["var", "log"], ["var", "tmp"]]

/-- The device that reads as empty. -/
def emptyDevice : List String := ["dev", "null"]

/-- What a place holds: a text or a directory, or nothing. -/
def holds (d : Directory) : Place → Option (Option String)
  | .below parts =>
    match d.file? parts with
    | some text => some (some text)
    | none => if d.hasDirectory parts then some none else none
  | .system parts =>
    if parts = emptyDevice then some (some "")
    else if systemDirectories.contains parts then some none
    else none
  | .above => none

/-- The place under a name. -/
def Place.under (name : String) : Place → Place
  | below parts => below (parts ++ [name])
  | system parts => system (parts ++ [name])
  | above => above

/-- Follows the parts of a path from a place. -/
def follow (d : Directory) (path : String) (here : Place) : List String → Except ReadError String
  | [] => .error .isADirectory
  | part :: rest =>
    if part = "" ∨ part = "." then follow d path here rest
    else if part = ".." then follow d path here.up rest
    else if longestName < part.utf8ByteSize then .error (.nameTooLong path)
    else
      match d.holds (here.under part) with
      | some (some text) => if rest.isEmpty then .ok text else .error (.notADirectory path)
      | some none => follow d path (here.under part) rest
      | none => .error (.missing path)

/-- The content of the file at a path. -/
def read (d : Directory) (path : String) : Except ReadError String :=
  if path = "" then .error (.missing path)
  else if longestPath < path.utf8ByteSize then .error (.nameTooLong path)
  else d.follow path (if path.startsWith "/" then .system [] else .below []) (pathParts path)

end Directory

end SchemaFlow
