import ZigCst.Language

/-!
# Reading from a folder

A folder holds texts by name; a name with slashes puts its text into folders
further in.  Reading follows a path from the folder step by step: a single dot
and an empty component stay, two dots go up, a name goes down.  Above the folder
nothing is known but that there are folders.

A path fails where a name leads nowhere, where it goes on behind a text, and
where it ends at a folder.
-/

namespace ZigCst

/-- Why a file cannot be read. -/
inductive ReadError where
  | missing
  | notFolder
  | folder
  | nameTooLong
  | other (reason : Text)
deriving DecidableEq, Repr

/-- The wording of the reason. -/
def ReadError.reason : ReadError → Text
  | .missing => "No such file or directory (os error 2)".toList
  | .notFolder => "Not a directory (os error 20)".toList
  | .folder => "Is a directory (os error 21)".toList
  | .nameTooLong => "File name too long (os error 36)".toList
  | .other reason => reason

/-- Texts by name. -/
structure Folder where
  files : List (Text × Text)
deriving DecidableEq, Repr

namespace Folder

/-- Where a path has led so far. -/
inductive Stop where
  /-- Above the folder. -/
  | above
  /-- In the folder, or in the one further in that the names lead to. -/
  | inside (names : List Text)
  /-- At a text. -/
  | text (content : Text)
deriving DecidableEq, Repr

/-- How long a name may be, in bytes. -/
def maxName : Nat := 255

/-- The steps that a name consists of. -/
def steps (name : Text) : List Text :=
  (Path.components name).filter fun c => c ≠ [] ∧ c ≠ ['.']

/-- Goes down from the folder that `names` lead to.  Of two texts of one name the
later counts. -/
def down (d : Folder) (names : List Text) (name : Text) : Except ReadError Stop :=
  let names := names ++ [name]
  if maxName < name.size then throw .nameTooLong
  else
    match d.files.reverse.find? fun f => steps f.1 = names with
    | some f => return .text f.2
    | none =>
        if d.files.any fun f => decide (names <+: steps f.1) then return .inside names
        else throw .missing

/-- Follows one component of a path. -/
def follow (d : Folder) (stop : Stop) (component : Text) : Except ReadError Stop :=
  match stop with
  | .text _ => throw .notFolder
  | .above =>
      if component = [] ∨ component = ['.'] ∨ component = ['.', '.'] then return .above
      else throw .missing
  | .inside names =>
      if component = [] ∨ component = ['.'] then return .inside names
      else if component = ['.', '.'] then
        return if names = [] then .above else .inside names.dropLast
      else d.down names component

/-- The text that a path leads to.  A path that starts with a slash starts above. -/
def read (d : Folder) (path : Text) : Except ReadError Text := do
  if path = [] then throw .missing
  let start := if path.head? = some '/' then Stop.above else .inside []
  match ← (Path.components path).foldlM d.follow start with
  | .text content => return content
  | _ => throw .folder

end Folder
end ZigCst
