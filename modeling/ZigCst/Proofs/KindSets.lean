import ZigCst.KindSet
import ZigCst.Zig.Kind
import ZigCst.Zon.Kind
import Mathlib.Data.List.Basic

/-!
# Sets of kinds are known from their members

A set of kinds is kept in four words.  A kind has one bit in them, in the word that the
quotient of its number by the size of a word tells, at the place that the remainder tells.
Numbers of kinds are small enough for the words, and no two kinds have the same number.
So sets that are made of lists and unions have no bit but those of their members, and two
of them with the same members have the same words.

**Definitions.**
* `Vocabulary.Numbered`: kinds are numbered by their place among all kinds.
* `KindSet.Made`: sets that are made of lists and unions.
* `KindSet.Extensional`: what sets have to do with their members.

**Results.**
* `KindSet.words_single`: the words of the set of one kind.
* `KindSet.contains_eq_testWord`: membership is one bit of one word.
* `KindSet.Made.exists_member`: every bit is that of a member.
* `KindSet.extensional`: sets of either language are known from their members.
-/

namespace ZigCst

/-- Whether the number of every kind is its place among all kinds, for which the words of
a set have enough bits. -/
structure Vocabulary.Numbered (K : Type) [Vocabulary K] : Prop where
  getElem?_all : ∀ k : K, (Vocabulary.all : List K)[Vocabulary.index k]? = some k
  length_all : (Vocabulary.all : List K).length ≤ 256

namespace Vocabulary.Numbered

variable {K : Type} [Vocabulary K] (h : Numbered K)
include h

theorem index_lt (k : K) : index k < 256 :=
  Nat.lt_of_lt_of_le (List.getElem?_eq_some_iff.mp (h.getElem?_all k)).1 h.length_all

theorem index_injective {k l : K} (heq : index k = index l) : k = l := by
  have hplaces := h.getElem?_all k
  rw [heq, h.getElem?_all l] at hplaces
  exact (Option.some.inj hplaces).symm

end Vocabulary.Numbered

theorem Zig.Kind.numbered : Vocabulary.Numbered Zig.Kind where
  getElem?_all k := by cases k <;> rfl
  length_all := by decide +kernel

theorem Zon.Kind.numbered : Vocabulary.Numbered Zon.Kind where
  getElem?_all k := by cases k <;> rfl
  length_all := by decide

namespace KindSet

/-! ## Words -/

section Words

variable {K : Type}

theorem getElem?_words
    (s : KindSet K)
    {j : Nat}
    (hj : j < 4) :
    s.words[j]? = some (s.bits.extractLsb' (64 * j) 64) := by
  obtain rfl | rfl | rfl | rfl : j = 0 ∨ j = 1 ∨ j = 2 ∨ j = 3 := by omega
  all_goals rfl

/-- A bit of a set is found in a word by division. -/
theorem getLsbD_eq_word
    (s : KindSet K)
    (i : Nat) :
    s.bits.getLsbD i = (s.words[i / 64]?).any fun w => w.getLsbD (i % 64) := by
  by_cases hi : i < 256
  · have hword : i / 64 < 4 := by omega
    rw [getElem?_words s hword, Option.any_some, BitVec.getLsbD_extractLsb',
      decide_eq_true (Nat.mod_lt i (by decide)), Bool.true_and, Nat.div_add_mod]
  · have hnone : s.words[i / 64]? = none :=
      List.getElem?_eq_none (show 4 ≤ i / 64 by omega)
    rw [hnone, Option.any_none, BitVec.getLsbD_of_ge _ _ (by omega)]

/-- The words of a set say all of it. -/
theorem words_eq_iff {a b : KindSet K} : a.words = b.words ↔ a = b := by
  constructor
  · intro h
    obtain ⟨a⟩ := a
    obtain ⟨b⟩ := b
    refine congrArg KindSet.mk (BitVec.eq_of_getLsbD_eq fun i _ => ?_)
    have ha := getLsbD_eq_word (K := K) ⟨a⟩ i
    have hb := getLsbD_eq_word (K := K) ⟨b⟩ i
    rw [← h, ← ha] at hb
    exact hb.symm
  · rintro rfl
    rfl

/-- A union is made word by word. -/
theorem words_union
    [Vocabulary K]
    (a b : KindSet K) :
    (a.union b).words = List.zipWith (· ||| ·) a.words b.words := by
  have hor : ∀ j, (a.bits ||| b.bits).extractLsb' (64 * j) 64 =
      a.bits.extractLsb' (64 * j) 64 ||| b.bits.extractLsb' (64 * j) 64 := fun j => by
    ext i hi
    simp
  simp only [words, union, List.zipWith_cons_cons, List.zipWith_nil_left]
  rw [← hor 0, ← hor 1, ← hor 2, ← hor 3]

end Words

/-! ## Members -/

section Members

variable {K : Type} [Vocabulary K]

/-- Membership is one bit of one word. -/
theorem contains_eq_testWord
    (s : KindSet K)
    (k : K) :
    s.contains k =
      (s.words[Vocabulary.index k / 64]?).any fun w =>
        w &&& 1#64 <<< (Vocabulary.index k % 64) != 0#64 := by
  have htest : ∀ (w : BitVec 64) (n : Nat), n < 64 →
      (w &&& 1#64 <<< n != 0#64) = w.getLsbD n := fun w n hn => by
    rw [← BitVec.twoPow_eq, BitVec.and_twoPow]
    have hone : BitVec.twoPow 64 n ≠ 0#64 := fun hzero => by
      simpa [hn] using congrArg (BitVec.getLsbD · n) hzero
    cases w.getLsbD n <;> simp [hone]
  rw [contains, getLsbD_eq_word]
  simp only [htest _ _ (Nat.mod_lt _ (by decide))]

theorem contains_union
    (a b : KindSet K)
    (k : K) :
    (a.union b).contains k = (a.contains k || b.contains k) :=
  BitVec.getLsbD_or

theorem getLsbD_single
    (l : K)
    (i : Nat) :
    (single l).bits.getLsbD i =
      (decide (Vocabulary.index l < 256) && decide (Vocabulary.index l = i)) := by
  rw [single, ← BitVec.twoPow_eq, BitVec.getLsbD_twoPow]

/-- What is made of one kind after another. -/
theorem getLsbD_foldl
    (ks : List K)
    (s : KindSet K)
    (i : Nat) :
    (ks.foldl (fun s k => s.union (single k)) s).bits.getLsbD i = true ↔
      s.bits.getLsbD i = true ∨ ∃ k ∈ ks, (single k).bits.getLsbD i = true := by
  induction ks generalizing s with
  | nil => simp
  | cons k ks ih =>
      have hor : (s.union (single k)).bits.getLsbD i =
          (s.bits.getLsbD i || (single k).bits.getLsbD i) := BitVec.getLsbD_or
      rw [List.foldl_cons, ih, hor]
      simp [or_assoc]

theorem getLsbD_ofList
    (ks : List K)
    (i : Nat) :
    (ofList ks).bits.getLsbD i = true ↔ ∃ k ∈ ks, (single k).bits.getLsbD i = true := by
  rw [ofList, getLsbD_foldl]
  simp [empty]

/-- Sets that are made of lists and unions. -/
inductive Made : KindSet K → Prop where
  | ofList (ks : List K) : Made (.ofList ks)
  | union {a b : KindSet K} (ha : Made a) (hb : Made b) : Made (a.union b)

theorem getLsbD_word_single
    (l : K)
    {i j : Nat}
    (hi : i < 64)
    (hj : j < 4) :
    ((single l).bits.extractLsb' (64 * j) 64).getLsbD i =
      decide (Vocabulary.index l = 64 * j + i) := by
  have hlt : Vocabulary.index l = 64 * j + i → Vocabulary.index l < 256 := by omega
  rw [BitVec.getLsbD_extractLsb', getLsbD_single, decide_eq_true hi, Bool.true_and,
    ← Bool.decide_and, decide_eq_decide]
  exact ⟨And.right, fun h => ⟨hlt h, h⟩⟩

/-- The set of one kind has no word but the one that division finds, and there one bit. -/
theorem words_single (l : K) :
    (single l).words = (List.replicate 4 0#64).set (Vocabulary.index l / 64)
      (1#64 <<< (Vocabulary.index l % 64)) := by
  refine List.ext_getElem? fun j => ?_
  by_cases hj : j < 4
  · rw [getElem?_words _ hj, List.getElem?_set, List.length_replicate]
    by_cases hquotient : Vocabulary.index l / 64 = j
    · rw [if_pos hquotient, if_pos (hquotient ▸ hj)]
      refine congrArg some (BitVec.eq_of_getLsbD_eq fun i hi => ?_)
      rw [getLsbD_word_single l hi hj, ← BitVec.twoPow_eq, BitVec.getLsbD_twoPow,
        decide_eq_true (Nat.mod_lt _ (by decide)), Bool.true_and, decide_eq_decide]
      omega
    · rw [if_neg hquotient, List.getElem?_replicate_of_lt hj]
      refine congrArg some (BitVec.eq_of_getLsbD_eq fun i hi => ?_)
      rw [getLsbD_word_single l hi hj, BitVec.getLsbD_zero, decide_eq_false_iff_not]
      omega
  · rw [List.getElem?_eq_none (show (single l).words.length ≤ j by exact Nat.not_lt.mp hj),
      List.getElem?_eq_none (by simpa using hj)]

/-- Every bit of a set is that of a member. -/
theorem Made.exists_member
    {s : KindSet K}
    (hs : s.Made)
    {i : Nat}
    (hi : s.bits.getLsbD i = true) :
    ∃ k, Vocabulary.index k = i ∧ s.contains k = true := by
  induction hs with
  | ofList ks =>
      obtain ⟨k, -, hk⟩ := (getLsbD_ofList ks i).mp hi
      rw [getLsbD_single, Bool.and_eq_true, decide_eq_true_eq, decide_eq_true_eq] at hk
      obtain ⟨-, rfl⟩ := hk
      exact ⟨k, rfl, hi⟩
  | @union a b _ _ iha ihb =>
      have hor : a.bits.getLsbD i = true ∨ b.bits.getLsbD i = true := by
        simpa [KindSet.union] using hi
      rcases hor with h | h
      · obtain ⟨k, hindex, hk⟩ := iha h
        exact ⟨k, hindex, by rw [contains_union, hk, Bool.true_or]⟩
      · obtain ⟨k, hindex, hk⟩ := ihb h
        exact ⟨k, hindex, by rw [contains_union, hk, Bool.or_true]⟩

/-- Sets with the same members are the same. -/
theorem Made.eq_of_contains
    {a b : KindSet K}
    (ha : a.Made)
    (hb : b.Made)
    (h : ∀ k, a.contains k = b.contains k) :
    a = b := by
  obtain ⟨a⟩ := a
  obtain ⟨b⟩ := b
  refine congrArg KindSet.mk (BitVec.eq_of_getLsbD_eq fun i _ => Bool.eq_iff_iff.mpr ?_)
  constructor
  · intro hi
    obtain ⟨k, rfl, hk⟩ := ha.exists_member hi
    exact (h k).symm.trans hk
  · intro hi
    obtain ⟨k, rfl, hk⟩ := hb.exists_member hi
    exact (h k).trans hk

/-- Kinds that are numbered do not share a bit. -/
theorem contains_ofList
    (h : Vocabulary.Numbered K)
    (ks : List K)
    (k : K) :
    (ofList ks).contains k = true ↔ k ∈ ks := by
  rw [contains, getLsbD_ofList]
  constructor
  · rintro ⟨l, hl, hbit⟩
    rw [getLsbD_single, Bool.and_eq_true, decide_eq_true_eq, decide_eq_true_eq] at hbit
    exact h.index_injective hbit.2 ▸ hl
  · intro hk
    exact ⟨k, hk, by simp [getLsbD_single, h.index_lt k]⟩

/-- A set is known from its members: they are those that it was made of, and a set of the
same members has the same words, so that neither order nor repetition matters. -/
structure Extensional (K : Type) [Vocabulary K] : Prop where
  contains_ofList : ∀ (ks : List K) (k : K), (ofList ks).contains k = true ↔ k ∈ ks
  contains_union : ∀ a b : KindSet K, a.Made → b.Made → ∀ k,
    (a.union b).contains k = true ↔ a.contains k = true ∨ b.contains k = true
  /-- Membership is the bit of one word that division finds. -/
  contains_eq : ∀ a : KindSet K, a.Made → ∀ k,
    a.contains k = (a.words[Vocabulary.index k / 64]?).any fun w =>
      w &&& 1#64 <<< (Vocabulary.index k % 64) != 0#64
  words_empty : (empty : KindSet K).words = List.replicate 4 0#64
  words_single : ∀ k : K, (single k).words = (List.replicate 4 0#64).set
    (Vocabulary.index k / 64) (1#64 <<< (Vocabulary.index k % 64))
  words_union : ∀ a b : KindSet K, (a.union b).words = List.zipWith (· ||| ·) a.words b.words
  eq_iff : ∀ a b : KindSet K, a.Made → b.Made →
    (a = b ↔ a.words = b.words) ∧ (a.words = b.words ↔ ∀ k, a.contains k = b.contains k)
  ofList_eq_iff : ∀ ks ls : List K, ofList ks = ofList ls ↔ ∀ k, k ∈ ks ↔ k ∈ ls
  union_assoc : ∀ a b c : KindSet K, a.Made → b.Made → c.Made →
    (a.union b).union c = a.union (b.union c)
  union_comm : ∀ a b : KindSet K, a.Made → b.Made → a.union b = b.union a
  union_self : ∀ a : KindSet K, a.Made → a.union a = a

theorem extensional_of_numbered (h : Vocabulary.Numbered K) : Extensional K where
  contains_ofList := KindSet.contains_ofList h
  contains_union a b _ _ k := by rw [KindSet.contains_union, Bool.or_eq_true]
  contains_eq a _ k := a.contains_eq_testWord k
  words_empty := by simp [words, empty]
  words_single := KindSet.words_single
  words_union := KindSet.words_union
  eq_iff a b ha hb := by
    refine ⟨words_eq_iff.symm, words_eq_iff.trans ⟨?_, ha.eq_of_contains hb⟩⟩
    rintro rfl k
    rfl
  ofList_eq_iff ks ls := by
    constructor
    · intro heq k
      rw [← KindSet.contains_ofList h, ← KindSet.contains_ofList h, heq]
    · intro hmem
      refine (Made.ofList ks).eq_of_contains (.ofList ls) fun k => Bool.eq_iff_iff.mpr ?_
      rw [KindSet.contains_ofList h, KindSet.contains_ofList h]
      exact hmem k
  union_assoc a b c ha hb hc := by
    refine ((ha.union hb).union hc).eq_of_contains (ha.union (hb.union hc)) fun k => ?_
    simp only [KindSet.contains_union, Bool.or_assoc]
  union_comm a b ha hb := by
    refine (ha.union hb).eq_of_contains (hb.union ha) fun k => ?_
    rw [KindSet.contains_union, KindSet.contains_union, Bool.or_comm]
  union_self a ha := by
    refine (ha.union ha).eq_of_contains ha fun k => ?_
    rw [KindSet.contains_union, Bool.or_self]

end Members

/-- **Sets are known from their members.**  A set of kinds of either language that is made
of a list has the kinds of the list and no others; a union has the kinds of both sets; and
two sets have the same words exactly if they have the same kinds.  So neither order nor
repetition in a list matters, and unions are associative, commutative and idempotent. -/
theorem extensional : Extensional Zig.Kind ∧ Extensional Zon.Kind :=
  ⟨extensional_of_numbered Zig.Kind.numbered, extensional_of_numbered Zon.Kind.numbered⟩

end KindSet
end ZigCst
