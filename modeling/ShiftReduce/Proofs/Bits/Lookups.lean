import ShiftReduce.Proofs.Bits.Membership

/-!
# Look-ups in masks

A walk through words reads one word after another, and comes to nothing as soon as it reads a word
that is missing. Whether it will is decided by a count that is taken before the first step: are
there words for all of the bits?

## Both answers

Where there are words enough the walk has a result, which is what lets a mask be listed at all.
Where there are too few, the walk runs past the last of them (`Cursor.Short.toList?_eq_none`). So
the count refuses exactly the walks that would fail on the way (`toList?_eq_ones?`), and it could be
left out without changing any result.

## The invariant

A walk is `Cursor.Short` if the bits that count go on behind the words and it has not come further
than the words do. Reading a word shows that the place lies before their end, so that no step leads
past it; only a word that is missing can end the walk.

What a walk that does not fail lists are the set bits below the bound, whatever stands in the bits
behind (`ones?_lists`).
-/

namespace ShiftReduce.Bits

namespace Cursor

/-- The bits that count go on behind the words, and the walk has not come further than the words
do. -/
structure Short (c : Cursor) : Prop where
  position_le : c.position ≤ wordBits * c.words.length
  lt_nbits : wordBits * c.words.length < c.nbits

variable {c : Cursor}

/-- Where a word was there to be read, the walk has not come to the end of the words. -/
theorem Short.position_lt (hc : c.Short) {current : UInt32} (hword : c.word? = some current) :
    c.position < wordBits * c.words.length := by
  refine lt_of_le_of_ne hc.position_le fun heq ↦ ?_
  have hmod : c.position % wordBits = 0 := by rw [heq, Nat.mul_mod_right]
  have hdiv : c.position / wordBits = c.words.length := by
    rw [heq, Nat.mul_div_cancel_left _ (by decide)]
  rw [word?, if_pos hmod, hdiv, List.getElem?_eq_none le_rfl] at hword
  simp at hword

/-- A walk that is short of words stops at a bit and is still short of words, or a word is missing.
It does not come to the end. -/
theorem Short.next?_cases (hc : c.Short) :
    c.next? = none ∨ ∃ p d, c.next? = some (some (p, d)) ∧ d.Short := by
  fun_induction next? c with
  | case1 => exact Or.inl rfl
  | case2 c _ current hword hskip ih =>
    have hlt := hc.position_lt hword
    refine ih ⟨?_, hc.lt_nbits⟩
    -- The walk stands at the start of a word, so the whole of it comes before the end.
    have hstart := hskip.1
    simp only [wordBits] at *
    omega
  | case3 c _ current hword _ _ =>
    exact Or.inr ⟨_, _, rfl, hc.position_lt hword, hc.lt_nbits⟩
  | case4 c _ current hword _ _ ih => exact ih ⟨hc.position_lt hword, hc.lt_nbits⟩
  | case5 c hge => exact absurd (lt_of_le_of_lt hc.position_le hc.lt_nbits) hge

/-- A walk that is short of words comes to a word that is missing. -/
theorem Short.toList?_eq_none (hc : c.Short) : c.toList? = none := by
  fun_induction toList? c with
  | case1 => rfl
  | case2 c h =>
    rcases hc.next?_cases with hnone | ⟨p, d, hsome, -⟩
    · simp [h] at hnone
    · simp [h] at hsome
  | case3 c p d h ih =>
    rcases hc.next?_cases with hnone | ⟨q, e, hsome, hd⟩
    · simp [h] at hnone
    · rw [h] at hsome
      obtain ⟨-, rfl⟩ := Prod.mk.inj (Option.some.inj (Option.some.inj hsome))
      rw [ih hd, Option.map_none]

end Cursor

/-! ## Listing -/

/-- The count taken at the start refuses exactly the walks that would read a missing word. -/
theorem toList?_eq_ones? (words : List UInt32) (nbits : Nat) :
    ({ words, nbits : Cursor }).toList? = ones? words nbits := by
  rw [ones?]
  split
  · rfl
  · rename_i hshort
    refine Cursor.Short.toList?_eq_none ⟨Nat.zero_le _, ?_⟩
    simp only [wordCount, wordBits] at *
    omega

/-- **The members are listed exactly.** Where there are words for all bits that count, no walk reads
past them, and what is listed are the set bits below the bound in ascending order, whatever stands
behind the bound. -/
theorem ones?_lists {words : List UInt32} {nbits : Nat} (h : wordCount nbits ≤ words.length) :
    ∃ ps, ones? words nbits = some ps ∧ ({ words, nbits : Cursor }).toList? = some ps ∧
      ps.Pairwise (· < ·) ∧
      ∀ p, p ∈ ps ↔ p < nbits ∧ ∃ w, words[p / 32]? = some w ∧ w.toNat.testBit (p % 32) = true := by
  have hcurrent := Cursor.current_start words nbits
  obtain ⟨ps, hones⟩ := Option.isSome_iff_exists.mp (isSome_ones? h)
  have hwalk := (toList?_eq_ones? words nbits).trans hones
  refine ⟨ps, hones, hwalk, Cursor.pairwise_of_toList? hcurrent hwalk, fun p ↦ ?_⟩
  rw [Cursor.mem_of_toList? hcurrent hwalk]
  simp only [Nat.zero_le, true_and]
  refine and_congr_right fun hp ↦ ?_
  have hword : p / 32 < words.length := by
    simp only [wordCount, wordBits] at h
    omega
  rw [List.getElem?_eq_getElem hword, Cursor.testBit_of_word (List.getElem?_eq_getElem hword)]
  simp

/-- Three words for seventy bits, with the bits behind the bound set, and one word more. -/
def paddedWords : List UInt32 :=
  [0x80000001, 0, 0xFFFFFFFF, 7]

theorem ones?_lists_paddedWords :
    wordCount 70 ≤ paddedWords.length ∧
      ({ words := paddedWords, nbits := 70 : Cursor }).toList?
        = some [0, 31, 64, 65, 66, 67, 68, 69] := by
  have hlength : wordCount 70 ≤ paddedWords.length := by decide
  obtain ⟨ps, hones, hwalk, -, -⟩ := ones?_lists hlength
  have hvalue : ones? paddedWords 70 = some [0, 31, 64, 65, 66, 67, 68, 69] := by
    decide +kernel
  exact ⟨hlength, hwalk.trans (hones.symm.trans hvalue)⟩

end ShiftReduce.Bits
