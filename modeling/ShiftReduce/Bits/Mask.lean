/-!
# Bit masks

A set of numbers below a fixed bound, kept as 32-bit words: number `p` belongs to the mask when
bit `p % 32` of word `p / 32` is set. The last word may have bits beyond the bound; they are
padding, and no operation that reads the mask as a set looks at them.

## Listing

The members are listed by a cursor that holds on to the word it is reading and steps over a word
that is empty, so a sparse mask costs little more than its words. The cursor can be set to any words
and any number of bits. It fails if it comes to a word that is not there, and it does not where
there are words for all of the bits (`Cursor.Enough.isSome_toList?`).

## Representation

A `Mask n` carries just the words that `n` bits take, so listing it always has a result and
`Mask.ones` has no failure to report.
-/

namespace ShiftReduce.Bits

/-- The number of bits in a word. -/
abbrev wordBits : Nat := 32

/-- The number of words that hold `n` bits. -/
def wordCount (n : Nat) : Nat :=
  (n + (wordBits - 1)) / wordBits

/-- Bit `p` of a sequence of words; bits past the last word are clear. -/
def testBit (words : List UInt32) (p : Nat) : Bool :=
  ((words[p / wordBits]?).getD 0).toNat.testBit (p % wordBits)

/-! ## Listing the members -/

/-- A place in a walk through the first `nbits` bits of `words`, of which there may be too few. -/
structure Cursor where
  /-- The words walked through. -/
  words : List UInt32
  /-- The number of bits that count. -/
  nbits : Nat
  /-- The word last read. -/
  current : UInt32 := 0
  /-- The next bit to look at. -/
  position : Nat := 0
deriving DecidableEq, Repr

namespace Cursor

/-- The word that the next bit lies in. It is read when its first bit is due, and must be there. -/
def word? (c : Cursor) : Option UInt32 :=
  if c.position % wordBits = 0 then c.words[c.position / wordBits]? else some c.current

/-- The next set bit and the place behind it, if there is one; nothing at all if a word was missing
on the way. A word that is empty is passed over as a whole if all of its bits count. -/
def next? (c : Cursor) : Option (Option (Nat × Cursor)) :=
  if c.position < c.nbits then
    match c.word? with
    | none => none
    | some current =>
      if c.position % wordBits = 0 ∧ current = 0 ∧ c.position + wordBits ≤ c.nbits then
        next? { c with current, position := c.position + wordBits }
      else if current.toNat.testBit (c.position % wordBits) then
        some (some (c.position, { c with current, position := c.position + 1 }))
      else
        next? { c with current, position := c.position + 1 }
  else some none
termination_by c.nbits - c.position
decreasing_by all_goals simp only [wordBits] at *; omega

theorem next?_forward {c d : Cursor} {p : Nat} (h : c.next? = some (some (p, d))) :
    c.position < d.position ∧ d.position ≤ d.nbits ∧ d.nbits = c.nbits ∧ d.words = c.words := by
  fun_induction next? c with
  | case1 => simp at h
  | case2 c _ current _ _ ih =>
    obtain ⟨hlt, hle, hnbits, hwords⟩ := ih h
    exact ⟨Nat.lt_trans (Nat.lt_add_of_pos_right (by decide)) hlt, hle, hnbits, hwords⟩
  | case3 c hc =>
    obtain ⟨-, rfl⟩ := Prod.mk.inj (Option.some.inj (Option.some.inj h))
    exact ⟨Nat.lt_succ_self _, hc, rfl, rfl⟩
  | case4 c _ current _ _ _ ih =>
    obtain ⟨hlt, hle, hnbits, hwords⟩ := ih h
    exact ⟨Nat.lt_trans (Nat.lt_succ_self _) hlt, hle, hnbits, hwords⟩
  | case5 => simp at h

/-- The set bits from the cursor on, in ascending order, unless a word is missing. -/
def toList? (c : Cursor) : Option (List Nat) :=
  match _h : c.next? with
  | none => none
  | some none => some []
  | some (some (p, d)) => d.toList?.map (p :: ·)
termination_by c.nbits - c.position
decreasing_by
  have := next?_forward _h
  omega

/-- There are words for all bits that count. -/
def Enough (c : Cursor) : Prop :=
  wordCount c.nbits ≤ c.words.length

theorem Enough.exists_word? {c : Cursor} (h : c.Enough) (hlt : c.position < c.nbits) :
    ∃ w, c.word? = some w := by
  rw [word?]
  split
  · refine ⟨_, List.getElem?_eq_getElem ?_⟩
    simp only [Enough, wordCount, wordBits] at *
    omega
  · exact ⟨_, rfl⟩

theorem Enough.isSome_next? {c : Cursor} (h : c.Enough) : c.next?.isSome := by
  fun_induction next? c with
  | case1 c hlt hword =>
    obtain ⟨w, hw⟩ := h.exists_word? hlt
    simp [hw] at hword
  | case2 c _ current _ _ ih => exact ih h
  | case3 => rfl
  | case4 c _ current _ _ _ ih => exact ih h
  | case5 => rfl

/-- No read fails where there are words enough. -/
theorem Enough.isSome_toList? {c : Cursor} (h : c.Enough) : c.toList?.isSome := by
  fun_induction toList? c with
  | case1 c hnone =>
    have := h.isSome_next?
    simp [hnone] at this
  | case2 => rfl
  | case3 c p d hsome ih =>
    obtain ⟨-, -, hnbits, hwords⟩ := next?_forward hsome
    have hd : d.Enough := by
      rw [Enough, hnbits, hwords]
      exact h
    rw [Option.isSome_map]
    exact ih hd

end Cursor

/-- The positions below `nbits` whose bit is set, or nothing if there are too few words. -/
def ones? (words : List UInt32) (nbits : Nat) : Option (List Nat) :=
  if wordCount nbits ≤ words.length then { words, nbits : Cursor }.toList? else none

theorem isSome_ones? {words : List UInt32} {nbits : Nat} (h : wordCount nbits ≤ words.length) :
    (ones? words nbits).isSome := by
  rw [ones?, if_pos h]
  exact Cursor.Enough.isSome_toList? h

/-! ## Masks -/

/-- Sets of numbers below `n`, one bit each. -/
structure Mask (n : Nat) where
  /-- The words, lowest numbers first. -/
  words : List UInt32
  /-- There are just as many words as `n` bits take. -/
  length_words : words.length = wordCount n
deriving DecidableEq

namespace Mask

variable {n : Nat}

def fillWord (b : Bool) : UInt32 :=
  if b then 0xFFFFFFFF else 0

/-- The mask whose bits, padding included, all equal `b`. -/
def fill (n : Nat) (b : Bool) : Mask n where
  words := List.replicate (wordCount n) (fillWord b)
  length_words := List.length_replicate

/-- Makes all bits, padding included, equal to `b`. -/
def setAll (m : Mask n) (b : Bool) : Mask n where
  words := m.words.map fun _ ↦ fillWord b
  length_words := by rw [List.length_map, m.length_words]

def test (m : Mask n) (p : Nat) : Bool :=
  testBit m.words p

def insert (m : Mask n) (p : Nat) : Mask n where
  words := m.words.modify (p / wordBits) (· ||| (1 <<< UInt32.ofNat (p % wordBits)))
  length_words := by rw [List.length_modify, m.length_words]

/-- Joins words position by position; where the second list has ended, the first remains. -/
def orWords : List UInt32 → List UInt32 → List UInt32
  | v :: vs, w :: ws => (v ||| w) :: orWords vs ws
  | vs, [] => vs
  | [], _ => []

private theorem length_orWords (vs ws : List UInt32) : (orWords vs ws).length = vs.length := by
  fun_induction orWords vs ws with
  | case1 v vs w ws ih => simp [ih]
  | case2 => rfl
  | case3 => rfl

/-- Joins the words of another mask into this one. -/
def unionWords (m : Mask n) (ws : List UInt32) : Mask n where
  words := orWords m.words ws
  length_words := by rw [length_orWords, m.length_words]

def ones (m : Mask n) : List Nat :=
  (ones? m.words n).get (isSome_ones? (Nat.le_of_eq m.length_words.symm))

end Mask

end ShiftReduce.Bits
