import ZigCst.Text.Basic

/-!
# White space

`isBlank` is the Unicode property White_Space: twenty-five characters.  The
lexers know only four of them; trimming a comment knows them all.
-/

namespace ZigCst
namespace Text

/-- The property White_Space. -/
def isBlank (c : Char) : Bool :=
  let n := c.toNat
  (0x09 ≤ n && n ≤ 0x0D) || n == 0x20 || n == 0x85 || n == 0xA0 || n == 0x1680 ||
    (0x2000 ≤ n && n ≤ 0x200A) || n == 0x2028 || n == 0x2029 || n == 0x202F ||
    n == 0x205F || n == 0x3000

/-- Drops white space from the end. -/
def trimEnd (t : Text) : Text := t.dropEndWhile isBlank

end Text
end ZigCst
