import ZigCst.Text.Basic

/-!
# The language of a file

The extension of a path decides the language of its file.  It is what follows
the last dot of the last component; a dot that starts the component separates
nothing, and a path that ends in `..` names no file.
-/

namespace ZigCst

/-- The two languages. -/
inductive Language where
  | zig
  | zon
deriving DecidableEq, Repr

namespace Path

/-- The components of a path. -/
def components : Text → List Text
  | [] => [[]]
  | c :: t =>
      if c = '/' then [] :: components t
      else
        match components t with
        | [] => [[c]]
        | name :: names => (c :: name) :: names

/-- The last component that is neither empty nor a single dot. -/
def fileName? (path : Text) : Option Text :=
  match (components path).reverse.find? fun name => name ≠ [] ∧ name ≠ ['.'] with
  | some ['.', '.'] => none
  | found => found

/-- What follows the last dot of the file name. -/
def extension? (path : Text) : Option Text := do
  let name ← fileName? path
  let backwards := name.reverse
  match backwards.dropWhile (· ≠ '.') with
  | _ :: _ :: _ => return (backwards.takeWhile (· ≠ '.')).reverse
  | _ => none

end Path

namespace Language

/-- The language of a path: Zon for the extension `zon`, Zig for all others. -/
def ofPath (path : Text) : Language :=
  if Path.extension? path = some ['z', 'o', 'n'] then .zon else .zig

end Language
end ZigCst
