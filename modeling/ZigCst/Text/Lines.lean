import ZigCst.Text.Basic

/-!
# Lines and columns

Only a line feed ends a line.  Lines and columns are counted from zero, columns
in bytes.
-/

namespace ZigCst

/-- A line and a byte column in it. -/
structure LineCol where
  line : Nat
  col : Nat
deriving DecidableEq, Repr

namespace Text

/-- The characters after the last line feed. -/
def lastLine (t : Text) : Text :=
  (t.reverse.takeWhile (· ≠ '\n')).reverse

/-- The line and column of a byte position; `none` past the end or inside a
character. -/
def lineCol? (offset : Nat) (t : Text) : Option LineCol :=
  (t.splitAt? offset).map fun (before, _) => ⟨before.count '\n', (lastLine before).size⟩

end Text
end ZigCst
