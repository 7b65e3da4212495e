import ZigCst.Text.Basic

/-!
# UTF-8 with repair

`encode` writes a text as bytes.  `decodeLossy` reads any bytes as a text: where
they do not form UTF-8, each longest beginning of a character that cannot be
continued becomes one replacement character, and so does each byte that starts
no character at all.

The second byte of a sequence is the only one whose bounds depend on the first;
they keep out overlong forms, surrogates and values above the last code point.
-/

namespace ZigCst
namespace Utf8

/-- The bytes of a text. -/
def encode (t : Text) : List UInt8 :=
  t.flatMap String.utf8EncodeChar

/-- Stands for bytes that are no character. -/
def replacement : Char := '\ufffd'

/-- What the first byte of a longer sequence announces. -/
structure Lead where
  /-- Its share of the code point. -/
  value : Nat
  /-- Bounds of the second byte. -/
  low : UInt8
  high : UInt8
  /-- Bytes after the second. -/
  more : Nat

/-- The sequence that a byte from `0x80` on starts, if any. -/
def lead? (b : UInt8) : Option Lead :=
  if b < 0xC2 then none
  else if b < 0xE0 then some ⟨b.toNat - 0xC0, 0x80, 0xBF, 0⟩
  else if b < 0xF0 then
    some ⟨b.toNat - 0xE0,
      if b = 0xE0 then 0xA0 else 0x80,
      if b = 0xED then 0x9F else 0xBF, 1⟩
  else if b < 0xF5 then
    some ⟨b.toNat - 0xF0,
      if b = 0xF0 then 0x90 else 0x80,
      if b = 0xF4 then 0x8F else 0xBF, 2⟩
  else none

/-- The outcome of reading a sequence: its code point unless it broke off, and
the bytes after what was read. -/
abbrev Sequel := Option Nat × List UInt8

/-- Reads `n` more bytes onto `value`, stopping before a byte that continues
nothing. -/
def continuation : Nat → Nat → List UInt8 → Sequel
  | 0, value, bs => (some value, bs)
  | _ + 1, _, [] => (none, [])
  | n + 1, value, b :: bs =>
      if 0x80 ≤ b && b ≤ 0xBF then
        continuation n (value * 64 + (b.toNat - 0x80)) bs
      else (none, b :: bs)

/-- Reads what follows a first byte. -/
def Lead.sequel (l : Lead) : List UInt8 → Sequel
  | [] => (none, [])
  | b :: bs =>
      if l.low ≤ b && b ≤ l.high then
        continuation l.more (l.value * 64 + (b.toNat - 0x80)) bs
      else (none, b :: bs)

theorem length_continuation_le (n value : Nat) (bs : List UInt8) :
    (continuation n value bs).2.length ≤ bs.length := by
  induction n generalizing value bs with
  | zero => simp [continuation]
  | succ n ih =>
      cases bs with
      | nil => simp [continuation]
      | cons b bs =>
          rw [continuation]
          split
          · exact Nat.le_succ_of_le (ih _ _)
          · exact Nat.le_refl _

theorem Lead.length_sequel_le (l : Lead) (bs : List UInt8) :
    (l.sequel bs).2.length ≤ bs.length := by
  cases bs with
  | nil => simp [Lead.sequel]
  | cons b bs =>
      rw [Lead.sequel]
      split
      · exact Nat.le_succ_of_le (length_continuation_le _ _ _)
      · exact Nat.le_refl _

/-- Reads bytes as a text, repairing what is not UTF-8. -/
def decodeLossy : List UInt8 → Text
  | [] => []
  | b :: bs =>
      if b < 0x80 then Char.ofNat b.toNat :: decodeLossy bs
      else
        match lead? b with
        | none => replacement :: decodeLossy bs
        | some l =>
            let s := l.sequel bs
            (match s.1 with
              | some value => Char.ofNat value
              | none => replacement) :: decodeLossy s.2
termination_by bs => bs.length
decreasing_by
  · simp
  · simp
  · exact Nat.lt_succ_of_le (l.length_sequel_le bs)

end Utf8
end ZigCst
