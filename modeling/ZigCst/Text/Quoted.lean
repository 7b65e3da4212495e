import ZigCst.Text.Printable

/-!
# Quoted texts

`quote` prints a text between double quotes on one line: quotes and backslashes
are escaped, tabs and line ends have names, and what cannot be shown is written
by its number.
-/

namespace ZigCst
namespace Text

/-- One character inside quotes. -/
def quoteChar (c : Char) : Text :=
  match c with
  | '"' => ['\\', '"']
  | '\\' => ['\\', '\\']
  | '\t' => ['\\', 't']
  | '\r' => ['\\', 'r']
  | '\n' => ['\\', 'n']
  | '\x00' => ['\\', '0']
  | c =>
      if isPrintable c then [c]
      else ['\\', 'u', '\x7b'] ++ Nat.toDigits 16 c.toNat ++ ['\x7d']

/-- A text between double quotes. -/
def quote (t : Text) : Text := ['"'] ++ t.flatMap quoteChar ++ ['"']

end Text
end ZigCst
