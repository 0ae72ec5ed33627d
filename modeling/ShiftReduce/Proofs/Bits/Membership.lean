import Mathlib.Data.List.Basic
import Mathlib.Data.Nat.Bitwise
import ShiftReduce.Bits.Mask

/-!
# What a bit mask holds

A mask is a set of numbers below its bound, and every operation on it is characterised here by
`Mask.test`: filling and clearing, adding a number, and joining in the words of another mask. The
statements are about the numbers below the bound. What the operations do to the padding behind it is
left to the module on padding.

## The walk

Listing the members is exact: each number below the bound whose bit is set is listed, and nothing
else (`Mask.mem_ones`). It is proved of any walk that fails at no word, whatever the words are and
however many there are of them (`Cursor.mem_of_toList?`, `Cursor.pairwise_of_toList?`).

## The invariant

The cursor keeps the word it is reading. `Cursor.Current` is the fact about that word which lets a
walk be resumed in the middle of it: unless the next bit starts a word, the word kept is the one the
next bit lies in. It holds at the start, where nothing is kept, and each step of the walk restores
it.
-/

namespace ShiftReduce.Bits

/-! ## Single words -/

private theorem toNat_bitWord {i : Nat} (h : i < wordBits) :
    ((1 : UInt32) <<< UInt32.ofNat i).toNat = 2 ^ i := by
  have hi : i < 2 ^ 32 := lt_trans h (by decide)
  rw [UInt32.toNat_shiftLeft, UInt32.toNat_ofNat_of_lt' hi, Nat.mod_eq_of_lt h, UInt32.toNat_one,
    Nat.one_shiftLeft, Nat.mod_eq_of_lt (Nat.pow_lt_pow_right (by decide) h)]

private theorem testBit_bitWord {i j : Nat} (h : i < wordBits) :
    ((1 : UInt32) <<< UInt32.ofNat i).toNat.testBit j = decide (i = j) := by
  rw [toNat_bitWord h, Nat.testBit_two_pow]

theorem testBit_toNat_or (v w : UInt32) (i : Nat) :
    (v ||| w).toNat.testBit i = (v.toNat.testBit i || w.toNat.testBit i) := by
  rw [UInt32.toNat_or, Nat.testBit_or]

/-! ## Walking through the words -/

namespace Cursor

/-- The word kept is the one in which the next bit lies, unless that bit starts a word. -/
def Current (c : Cursor) : Prop :=
  c.position % wordBits ≠ 0 → c.words[c.position / wordBits]? = some c.current

/-- The word that a step looks at is the one in which the next bit lies. -/
theorem Current.getElem?_eq {c : Cursor} {w : UInt32} (hc : c.Current) (hw : c.word? = some w) :
    c.words[c.position / wordBits]? = some w := by
  rw [word?] at hw
  split at hw
  · exact hw
  · rename_i hs
    exact (hc hs).trans hw

theorem testBit_of_word {words : List UInt32} {p : Nat} {w : UInt32}
    (hw : words[p / wordBits]? = some w) :
    testBit words p = w.toNat.testBit (p % wordBits) := by
  rw [testBit, hw, Option.getD_some]

/-- What it means that the bits between two places are clear. -/
def Clear (words : List UInt32) (start stop : Nat) : Prop :=
  ∀ p, start ≤ p → p < stop → testBit words p = false

theorem Clear.cons {words : List UInt32} {start stop : Nat}
    (h : testBit words start = false) (hrest : Clear words (start + 1) stop) :
    Clear words start stop := by
  intro p hp hstop
  rcases Nat.eq_or_lt_of_le hp with rfl | hlt
  · exact h
  · exact hrest p hlt hstop

private theorem clear_of_word_eq_zero {words : List UInt32} {p : Nat} (hs : p % wordBits = 0)
    (hw : words[p / wordBits]? = some 0) :
    Clear words p (p + wordBits) := by
  intro q hpq hq
  have hword : q / wordBits = p / wordBits := by
    simp only [wordBits] at *
    omega
  rw [testBit_of_word (hword ▸ hw), UInt32.toNat_zero, Nat.zero_testBit]

/-- The word read stays the current one when the cursor moves on within it. -/
theorem Current.succ {c : Cursor} {w : UInt32} (hw : c.words[c.position / wordBits]? = some w) :
    Current { c with current := w, position := c.position + 1 } := by
  intro hs
  have hword : (c.position + 1) / wordBits = c.position / wordBits := by
    simp only [wordBits] at *
    omega
  rw [hword, hw]

/-- A word passed over: it is empty, and the cursor stands at the start of the next, where nothing
has been read. -/
theorem Current.skip {c : Cursor} {w : UInt32} (hc : c.Current) (hw : c.word? = some w)
    (hskip : c.position % wordBits = 0 ∧ w = 0 ∧ c.position + wordBits ≤ c.nbits) :
    Clear c.words c.position (c.position + wordBits) ∧
      Current { c with current := w, position := c.position + wordBits } := by
  obtain ⟨hstart, rfl, -⟩ := hskip
  refine ⟨clear_of_word_eq_zero hstart (hc.getElem?_eq hw), fun hne ↦ absurd ?_ hne⟩
  show (c.position + wordBits) % wordBits = 0
  rw [Nat.add_mod_right, hstart]

/-- The cursor stops at the next set bit, having passed over clear bits only. -/
theorem next?_eq_some {c d : Cursor} {p : Nat} (hc : c.Current)
    (h : c.next? = some (some (p, d))) :
    c.position ≤ p ∧ p < c.nbits ∧ testBit c.words p = true ∧ Clear c.words c.position p ∧
      d.position = p + 1 ∧ d.words = c.words ∧ d.nbits = c.nbits ∧ d.Current := by
  fun_induction next? c with
  | case1 => simp at h
  | case2 c hlt current hword hskip ih =>
    obtain ⟨hclear, hd⟩ := hc.skip hword hskip
    obtain ⟨hle, hbound, hset, hrest, hpos, hwords, hnbits, hd⟩ := ih hd h
    refine ⟨le_trans (Nat.le_add_right _ _) hle, hbound, hset, ?_, hpos, hwords, hnbits, hd⟩
    intro q hq hqp
    by_cases hin : q < c.position + wordBits
    · exact hclear q hq hin
    · exact hrest q (Nat.le_of_not_lt hin) hqp
  | case3 c hlt current hword hskip hbit =>
    have hcur := hc.getElem?_eq hword
    obtain ⟨rfl, rfl⟩ := Prod.mk.inj (Option.some.inj (Option.some.inj h))
    refine ⟨le_refl _, hlt, ?_, ?_, rfl, rfl, rfl, ?_⟩
    · rw [testBit_of_word hcur, hbit]
    · intro q hq hqp
      exact absurd hqp (Nat.not_lt.mpr hq)
    · exact Current.succ hcur
  | case4 c hlt current hword hskip hbit ih =>
    have hcur := hc.getElem?_eq hword
    have hfalse : testBit c.words c.position = false := by
      rw [testBit_of_word hcur]
      exact Bool.eq_false_iff.mpr hbit
    obtain ⟨hle, hbound, hset, hrest, hpos, hwords, hnbits, hd⟩ := ih (Current.succ hcur) h
    exact ⟨Nat.le_of_succ_le hle, hbound, hset, Clear.cons hfalse hrest, hpos, hwords, hnbits, hd⟩
  | case5 => simp at h

private theorem next?_eq_some_none {c : Cursor} (hc : c.Current) (h : c.next? = some none) :
    Clear c.words c.position c.nbits := by
  fun_induction next? c with
  | case1 => simp at h
  | case2 c hlt current hword hskip ih =>
    obtain ⟨hclear, hd⟩ := hc.skip hword hskip
    have hrest := ih hd h
    intro q hq hqp
    by_cases hin : q < c.position + wordBits
    · exact hclear q hq hin
    · exact hrest q (Nat.le_of_not_lt hin) hqp
  | case3 => simp at h
  | case4 c hlt current hword hskip hbit ih =>
    have hcur := hc.getElem?_eq hword
    have hfalse : testBit c.words c.position = false := by
      rw [testBit_of_word hcur]
      exact Bool.eq_false_iff.mpr hbit
    exact Clear.cons hfalse (ih (Current.succ hcur) h)
  | case5 c hge =>
    intro q hq hqp
    exact absurd (lt_of_le_of_lt hq hqp) hge

/-- A walk that fails at no word lists exactly the set bits from its place on. -/
theorem mem_of_toList? {c : Cursor} {ps : List Nat} (hc : c.Current) (h : c.toList? = some ps)
    {p : Nat} : p ∈ ps ↔ c.position ≤ p ∧ p < c.nbits ∧ testBit c.words p = true := by
  fun_induction toList? c generalizing ps with
  | case1 => simp at h
  | case2 c hnone =>
    obtain rfl := Option.some.inj h
    have hclear := next?_eq_some_none hc hnone
    refine ⟨fun hp ↦ absurd hp List.not_mem_nil, ?_⟩
    rintro ⟨hle, hlt, hset⟩
    rw [hclear p hle hlt] at hset
    exact absurd hset (by decide)
  | case3 c q d hsome ih =>
    obtain ⟨qs, hqs, rfl⟩ := Option.map_eq_some_iff.mp h
    obtain ⟨hle, hbound, hset, hclear, hpos, hwords, hnbits, hd⟩ := next?_eq_some hc hsome
    rw [List.mem_cons, ih hd hqs, hpos, hwords, hnbits]
    constructor
    · rintro (rfl | ⟨hqp, hrest⟩)
      · exact ⟨hle, hbound, hset⟩
      · exact ⟨by omega, hrest⟩
    · rintro ⟨hp, hlt, hps⟩
      -- Below the bit found all is clear, so a set bit is that one or comes after it.
      rcases Nat.lt_trichotomy p q with hpq | rfl | hpq
      · rw [hclear p hp hpq] at hps
        simp at hps
      · exact Or.inl rfl
      · exact Or.inr ⟨hpq, hlt, hps⟩

theorem pairwise_of_toList? {c : Cursor} {ps : List Nat} (hc : c.Current)
    (h : c.toList? = some ps) : ps.Pairwise (· < ·) := by
  fun_induction toList? c generalizing ps with
  | case1 => simp at h
  | case2 =>
    obtain rfl := Option.some.inj h
    exact List.Pairwise.nil
  | case3 c q d hsome ih =>
    obtain ⟨qs, hqs, rfl⟩ := Option.map_eq_some_iff.mp h
    obtain ⟨-, -, -, -, hpos, -, -, hd⟩ := next?_eq_some hc hsome
    refine List.pairwise_cons.mpr ⟨fun p hp ↦ ?_, ih hd hqs⟩
    have hle := ((mem_of_toList? hd hqs).mp hp).1
    omega

theorem current_start (words : List UInt32) (nbits : Nat) :
    Current { words, nbits : Cursor } :=
  fun hne ↦ absurd (Nat.zero_mod _) hne

end Cursor

/-! ## Masks -/

namespace Mask

variable {n : Nat}

theorem word_lt {p : Nat} (m : Mask n) (h : p < n) : p / wordBits < m.words.length := by
  rw [m.length_words]
  simp only [wordCount, wordBits]
  omega

theorem testBit_fillWord {b : Bool} {i : Nat} (h : i < wordBits) :
    (fillWord b).toNat.testBit i = b := by
  cases b
  · rw [fillWord, if_neg (by decide), UInt32.toNat_zero, Nat.zero_testBit]
  · rw [fillWord, if_pos rfl, show (0xFFFFFFFF : UInt32).toNat = 2 ^ 32 - 1 from rfl,
      Nat.testBit_two_pow_sub_one]
    exact decide_eq_true h

@[simp] theorem test_fill {p : Nat} (b : Bool) (h : p < n) : (fill n b).test p = b := by
  have hword : (fill n b).words[p / wordBits]? = some (fillWord b) := by
    have hlt := (fill n b).word_lt h
    rw [(fill n b).length_words] at hlt
    exact List.getElem?_replicate_of_lt hlt
  rw [test, Cursor.testBit_of_word hword, testBit_fillWord (Nat.mod_lt _ (by decide))]

@[simp] theorem test_setAll {p : Nat} (m : Mask n) (b : Bool) (h : p < n) :
    (m.setAll b).test p = b := by
  have hword : (m.setAll b).words[p / wordBits]? = some (fillWord b) := by
    rw [setAll, List.getElem?_map, List.getElem?_eq_getElem (m.word_lt h), Option.map_some]
  rw [test, Cursor.testBit_of_word hword, testBit_fillWord (Nat.mod_lt _ (by decide))]

theorem test_insert_of_word {p q : Nat} (m : Mask n) (hp : p / wordBits < m.words.length) :
    (m.insert q).test p = (decide (q = p) || m.test p) := by
  have hmod : q % wordBits < wordBits := Nat.mod_lt _ (by decide)
  simp only [test, testBit, insert, List.getElem?_modify]
  rw [List.getElem?_eq_getElem hp, Option.map_eq_map]
  -- Only the word that holds the bit is touched.
  by_cases hword : q / wordBits = p / wordBits
  · have hiff : q % wordBits = p % wordBits ↔ q = p := by
      simp only [wordBits] at *
      omega
    simp only [if_pos hword, Option.map_some, Option.getD_some]
    rw [testBit_toNat_or, testBit_bitWord hmod, Bool.or_comm]
    simp only [hiff]
  · have hne : q ≠ p := fun h ↦ hword (congrArg (· / wordBits) h)
    simp only [if_neg hword, Option.map_some, Option.getD_some, decide_eq_false hne,
      Bool.false_or]

@[simp] theorem test_insert {p q : Nat} (m : Mask n) (hp : p < n) :
    (m.insert q).test p = (decide (q = p) || m.test p) :=
  m.test_insert_of_word (m.word_lt hp)

private theorem getD_orWords {vs ws : List UInt32} {i : Nat} (h : i < vs.length) :
    ((orWords vs ws)[i]?).getD 0 = (vs[i]?).getD 0 ||| (ws[i]?).getD 0 := by
  fun_induction orWords vs ws generalizing i with
  | case1 v vs w ws ih =>
    cases i with
    | zero => simp
    | succ i => simpa using ih (Nat.lt_of_succ_lt_succ h)
  | case2 => simp
  | case3 => simp at h

theorem testBit_orWords {vs ws : List UInt32} {p : Nat} (h : p / wordBits < vs.length) :
    testBit (orWords vs ws) p = (testBit vs p || testBit ws p) := by
  rw [testBit, getD_orWords h, testBit_toNat_or]
  rfl

@[simp] theorem test_unionWords {p : Nat} (m : Mask n) (ws : List UInt32) (h : p < n) :
    (m.unionWords ws).test p = (m.test p || testBit ws p) :=
  testBit_orWords (m.word_lt h)

theorem mem_ones {m : Mask n} {p : Nat} : p ∈ m.ones ↔ p < n ∧ m.test p = true := by
  have hones : ones? m.words n = some m.ones := (Option.some_get _).symm
  rw [ones?, if_pos (Nat.le_of_eq m.length_words.symm)] at hones
  rw [Cursor.mem_of_toList? (Cursor.current_start _ _) hones]
  simp only [Nat.zero_le, true_and, test]

end Mask

end ShiftReduce.Bits
