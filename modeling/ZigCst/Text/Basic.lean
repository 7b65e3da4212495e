/-!
# Texts, byte sizes and ranges

A text is the list of its characters.  All positions are counted in bytes of
the UTF-8 form, so a position may fall inside a character or past the end;
cutting a text there is refused.

**Definitions.**
* `Text.size`: the number of bytes of a text.
* `Text.splitAt?`: the two parts of a text at a byte position.
* `Text.slice?`: the part of a text between two byte positions.
* `Range`: a half-open interval of byte positions.

**Results.**
* `Text.size_append`: sizes add up.
* `Text.splitAt?_eq_some_iff`: a text is cut exactly where a part of that size
  ends.
-/

namespace ZigCst

/-- A text, character by character. -/
abbrev Text := List Char

namespace Text

/-- Number of bytes of the UTF-8 form. -/
def size : Text → Nat
  | [] => 0
  | c :: t => c.utf8Size + size t

@[simp]
theorem size_nil : size [] = 0 := rfl

@[simp]
theorem size_cons (c : Char) (t : Text) : size (c :: t) = c.utf8Size + size t := rfl

@[simp]
theorem size_append (s t : Text) : size (s ++ t) = size s + size t := by
  induction s with
  | nil => simp
  | cons c s ih => rw [List.cons_append, size_cons, size_cons, ih, Nat.add_assoc]

theorem size_eq_zero_iff {t : Text} : size t = 0 ↔ t = [] := by
  cases t with
  | nil => simp
  | cons c t =>
      have hc := c.utf8Size_pos
      simp only [size_cons, reduceCtorEq, iff_false]
      omega

/-- The parts before and after byte position `n`; `none` when `n` lies past the
end or inside a character. -/
def splitAt? : Nat → Text → Option (Text × Text)
  | 0, t => some ([], t)
  | _ + 1, [] => none
  | n + 1, c :: t =>
      if c.utf8Size ≤ n + 1 then
        (splitAt? (n + 1 - c.utf8Size) t).map fun (s, r) => (c :: s, r)
      else none

@[simp]
theorem splitAt?_zero (t : Text) : splitAt? 0 t = some ([], t) := by
  cases t <;> rfl

theorem splitAt?_size_append (s r : Text) : splitAt? (size s) (s ++ r) = some (s, r) := by
  induction s with
  | nil => exact splitAt?_zero r
  | cons c s ih =>
      have hc := c.utf8Size_pos
      obtain ⟨n, hn⟩ : ∃ n, size (c :: s) = n + 1 :=
        ⟨size (c :: s) - 1, by rw [size_cons]; omega⟩
      have hsize : n + 1 - c.utf8Size = size s := by rw [size_cons] at hn; omega
      have hle : c.utf8Size ≤ n + 1 := by rw [size_cons] at hn; omega
      rw [hn, List.cons_append, splitAt?, if_pos hle, hsize, ih]
      rfl

theorem splitAt?_eq_some {n : Nat} {t s r : Text} (h : splitAt? n t = some (s, r)) :
    t = s ++ r ∧ size s = n := by
  induction t generalizing n s r with
  | nil =>
      cases n with
      | zero =>
          obtain ⟨rfl, rfl⟩ : [] = s ∧ [] = r := by simpa [splitAt?] using h
          exact ⟨rfl, rfl⟩
      | succ n => simp [splitAt?] at h
  | cons c t ih =>
      cases n with
      | zero =>
          obtain ⟨rfl, rfl⟩ : [] = s ∧ c :: t = r := by simpa [splitAt?] using h
          exact ⟨rfl, rfl⟩
      | succ n =>
          rw [splitAt?] at h
          split at h
          case isTrue hle =>
              obtain ⟨⟨s', r'⟩, hs, he⟩ := Option.map_eq_some_iff.mp h
              obtain ⟨rfl, rfl⟩ : c :: s' = s ∧ r' = r := by simpa using he
              obtain ⟨rfl, hsize⟩ := ih hs
              refine ⟨rfl, ?_⟩
              rw [size_cons]
              omega
          case isFalse => simp at h

/-- A text is cut at `n` exactly when one of its beginnings has `n` bytes. -/
theorem splitAt?_eq_some_iff {n : Nat} {t s r : Text} :
    splitAt? n t = some (s, r) ↔ t = s ++ r ∧ size s = n := by
  constructor
  · exact splitAt?_eq_some
  · rintro ⟨rfl, rfl⟩
    exact splitAt?_size_append s r

/-- The text between byte positions `start` and `stop`. -/
def slice? (start stop : Nat) (t : Text) : Option Text := do
  let (_, r) ← splitAt? start t
  if start ≤ stop then
    let (s, _) ← splitAt? (stop - start) r
    return s
  else none

theorem slice?_append (s t r : Text) :
    slice? s.size (s.size + t.size) (s ++ (t ++ r)) = some t := by
  rw [slice?, splitAt?_size_append]
  simp [splitAt?_size_append]

/-- A part of a text is what stands between a beginning and an end of it. -/
theorem slice?_eq_some_iff {start stop : Nat} {t s : Text} :
    slice? start stop t = some s ↔
      ∃ front back, t = front ++ (s ++ back) ∧ start = size front ∧ stop = start + size s := by
  constructor
  · intro h
    rw [slice?] at h
    obtain ⟨⟨front, r⟩, hfront, h⟩ := Option.bind_eq_some_iff.mp h
    dsimp only at h
    split at h
    case isTrue hle =>
        obtain ⟨⟨s', back⟩, hs, h⟩ := Option.bind_eq_some_iff.mp h
        obtain rfl : s' = s := by simpa using h
        obtain ⟨rfl, hstart⟩ := splitAt?_eq_some hfront
        obtain ⟨rfl, hstop⟩ := splitAt?_eq_some hs
        exact ⟨front, back, rfl, hstart.symm, by omega⟩
    case isFalse => cases h
  · rintro ⟨front, back, rfl, rfl, rfl⟩
    exact slice?_append front s back

/-- Parts of a text side by side make one part. -/
theorem slice?_trans {start middle stop : Nat} {t s r : Text}
    (hs : slice? start middle t = some s) (hr : slice? middle stop t = some r) :
    slice? start stop t = some (s ++ r) := by
  obtain ⟨front, back, rfl, rfl, rfl⟩ := slice?_eq_some_iff.mp hs
  obtain ⟨front', back', ht, hstart, rfl⟩ := slice?_eq_some_iff.mp hr
  have hfront : some (front ++ s, back) = some (front', r ++ back') := by
    rw [← splitAt?_size_append (front ++ s) back, List.append_assoc, ht, size_append, hstart,
      splitAt?_size_append]
  obtain ⟨rfl, rfl⟩ : front ++ s = front' ∧ back = r ++ back' := by simpa using hfront
  exact slice?_eq_some_iff.mpr ⟨front, back', by simp, rfl, by rw [size_append, Nat.add_assoc]⟩

/-- Behind a part of a text there is an empty part. -/
theorem slice?_stop {start stop : Nat} {t s : Text} (h : slice? start stop t = some s) :
    slice? stop stop t = some [] := by
  obtain ⟨front, back, rfl, rfl, rfl⟩ := slice?_eq_some_iff.mp h
  exact slice?_eq_some_iff.mpr ⟨front ++ s, back, by simp, (size_append front s).symm, rfl⟩

/-- The longest beginning of at most `n` bytes. -/
def upTo : Nat → Text → Text
  | _, [] => []
  | n, c :: t => if c.utf8Size ≤ n then c :: upTo (n - c.utf8Size) t else []

/-- What follows the longest beginning of at most `n` bytes. -/
def beyond (n : Nat) (t : Text) : Text := t.drop (upTo n t).length

/-- Whether a text comes before another or equals it, by code points from the
first character on. -/
def precedes : Text → Text → Bool
  | [], _ => true
  | _ :: _, [] => false
  | c :: t, d :: u => if c = d then precedes t u else decide (c.toNat < d.toNat)

/-- Drops the longest ending whose characters all satisfy `p`. -/
def dropEndWhile (p : Char → Bool) (t : Text) : Text :=
  (t.reverse.dropWhile p).reverse

/-- Drops the mark from the front as often as it stands there. -/
def dropMarks (mark : Text) (t : Text) : Text :=
  if _h : mark ≠ [] ∧ mark <+: t then
    dropMarks mark (t.drop mark.length)
  else t
termination_by t.length
decreasing_by
  have hmark : 0 < mark.length := List.length_pos_iff.mpr _h.1
  have hle := _h.2.length_le
  rw [List.length_drop]
  omega

/-- The lines of a text: the pieces between line feeds. -/
def lines : Text → List Text
  | [] => [[]]
  | c :: t =>
      if c = '\n' then [] :: lines t
      else
        match lines t with
        | [] => [[c]]
        | l :: ls => (c :: l) :: ls

/-- Joins pieces by line feeds. -/
def unlines : List Text → Text
  | [] => []
  | [l] => l
  | l :: ls => l ++ '\n' :: unlines ls

end Text

/-- A half-open interval of byte positions. -/
structure Range where
  start : Nat
  stop : Nat
deriving DecidableEq, Repr

namespace Range

/-- The empty range at a position. -/
def empty (at_ : Nat) : Range := ⟨at_, at_⟩

/-- The range of a text that starts at a position. -/
def ofText (start : Nat) (t : Text) : Range := ⟨start, start + t.size⟩

def length (r : Range) : Nat := r.stop - r.start

/-- Whether the second range lies inside the first. -/
def covers (r s : Range) : Bool := r.start ≤ s.start && s.stop ≤ r.stop

/-- Whether a position lies in the range or at its end. -/
def reaches (r : Range) (offset : Nat) : Bool := r.start ≤ offset && offset ≤ r.stop

/-- The range moved to the right. -/
def shift (n : Nat) (r : Range) : Range := ⟨r.start + n, r.stop + n⟩

/-- The range as `start..stop`. -/
def toText (r : Range) : Text :=
  (toString r.start).toList ++ ['.', '.'] ++ (toString r.stop).toList

end Range

end ZigCst
