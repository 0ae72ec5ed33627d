import ShiftReduce.Proofs.Bits.Reachability

/-!
# Padding

The last word of a row has bits behind the last column. What a matrix relates does not depend on
them, but matrices are compared word by word, so a relation has only one matrix as long as these
bits are clear (`Matrix.Clean.eq_of_test`).

## The invariant

No bit behind the bound is set: `Mask.Clean`, and `Matrix.Clean` for all rows. The bits are clear in
the empty matrix, relating a pair leaves them alone, and so does taking in a row whose own padding
is clear. There is one lemma for each operation that writes, and the loops of the closure need no
more than that these hold.

## Words and members

The closure of a matrix made by relating pairs is therefore known down to the words
(`Matrix.closure?_exact`). Closing it once more changes nothing: what is related is the same by
reachability alone, and equal relations have equal words.
-/

namespace ShiftReduce.Bits

private theorem eq_of_testBit_toNat {v w : UInt32}
    (h : ∀ i < wordBits, v.toNat.testBit i = w.toNat.testBit i) : v = w := by
  refine UInt32.toNat_inj.mp (Nat.eq_of_testBit_eq fun i ↦ ?_)
  by_cases hi : i < wordBits
  · exact h i hi
  · have hpow : 2 ^ 32 ≤ 2 ^ i := Nat.pow_le_pow_right (by decide) (not_lt.mp hi)
    rw [Nat.testBit_lt_two_pow (v.toNat_lt.trans_le hpow),
      Nat.testBit_lt_two_pow (w.toNat_lt.trans_le hpow)]

private theorem words_eq_of_testBit {vs ws : List UInt32} (hlength : vs.length = ws.length)
    (h : ∀ p, testBit vs p = testBit ws p) : vs = ws := by
  refine List.ext_getElem hlength fun k hv hw ↦ eq_of_testBit_toNat fun i hi ↦ ?_
  have hdiv : (wordBits * k + i) / wordBits = k := by
    simp only [wordBits] at *
    omega
  have hmod : (wordBits * k + i) % wordBits = i := by
    simp only [wordBits] at *
    omega
  have hbit := h (wordBits * k + i)
  rwa [testBit, testBit, hdiv, hmod, List.getElem?_eq_getElem hv, List.getElem?_eq_getElem hw]
    at hbit

private theorem testBit_eq_false_of_length_le {ws : List UInt32} {p : Nat}
    (h : ws.length ≤ p / wordBits) : testBit ws p = false := by
  rw [testBit, List.getElem?_eq_none h, Option.getD_none, UInt32.toNat_zero, Nat.zero_testBit]

namespace Mask

variable {n : Nat} {m m' : Mask n}

/-- No bit behind the bound is set. -/
def Clean (m : Mask n) : Prop :=
  ∀ p, n ≤ p → m.test p = false

theorem clean_of_words (h : ∀ p, n ≤ p → p / wordBits < m.words.length → m.test p = false) :
    m.Clean := by
  intro p hp
  by_cases hword : p / wordBits < m.words.length
  · exact h p hp hword
  · exact testBit_eq_false_of_length_le (not_lt.mp hword)

private theorem clean_fill (n : Nat) : (fill n false).Clean := by
  refine clean_of_words fun p _ hp ↦ ?_
  have hword : (fill n false).words[p / wordBits]? = some (fillWord false) :=
    List.getElem?_replicate_of_lt ((fill n false).length_words ▸ hp)
  rw [test, Cursor.testBit_of_word hword, testBit_fillWord (Nat.mod_lt _ (by decide))]

theorem Clean.insert (h : m.Clean) {q : Nat} (hq : q < n) : (m.insert q).Clean := by
  refine clean_of_words fun p hp hword ↦ ?_
  rw [length_words, ← m.length_words] at hword
  rw [test_insert_of_word m hword, h p hp, decide_eq_false (by omega), Bool.or_self]

theorem Clean.unionWords (h : m.Clean) (h' : m'.Clean) : (m.unionWords m'.words).Clean := by
  refine clean_of_words fun p hp hword ↦ ?_
  rw [length_words, ← m.length_words] at hword
  have hor : (m.unionWords m'.words).test p = (m.test p || m'.test p) := testBit_orWords hword
  rw [hor, h p hp, h' p hp, Bool.or_self]

/-- Masks without padding are equal if they have the same members. -/
theorem Clean.eq_of_test (h : m.Clean) (h' : m'.Clean)
    (hsame : ∀ p < n, m.test p = m'.test p) : m = m' := by
  have hwords : m.words = m'.words := by
    refine words_eq_of_testBit (m.length_words.trans m'.length_words.symm) fun p ↦ ?_
    by_cases hp : p < n
    · exact hsame p hp
    · exact (h p (not_lt.mp hp)).trans (h' p (not_lt.mp hp)).symm
  cases m
  cases m'
  congr

end Mask

namespace Matrix

variable {m n : Nat} {a b : Matrix m n}

/-- No bit behind the last column is set. -/
def Clean (a : Matrix m n) : Prop :=
  ∀ r row, a.row? r = some row → row.Clean

private theorem clean_empty (m n : Nat) : (empty m n).Clean := by
  intro r row hrow
  obtain ⟨hr, rfl⟩ := Vector.getElem?_eq_some_iff.mp hrow
  simp only [empty, Vector.getElem_replicate]
  exact Mask.clean_fill n

theorem Clean.set (h : a.Clean) {r : Nat} (hr : r < m) {row : Mask n} (hrow : row.Clean) :
    (⟨a.rows.set r row⟩ : Matrix m n).Clean := by
  intro i row' hi
  obtain ⟨hlt, rfl⟩ := Vector.getElem?_eq_some_iff.mp hi
  rw [Vector.getElem_set]
  split
  · exact hrow
  · exact h i _ (Vector.getElem?_eq_getElem hlt)

theorem Clean.insert? (h : a.Clean) {r c : Nat} (hb : a.insert? r c = some b) : b.Clean := by
  rw [Matrix.insert?, Option.dite_none_right_eq_some] at hb
  obtain ⟨⟨hr, hc⟩, hb⟩ := hb
  exact Option.some.inj hb ▸ h.set hr ((h r _ (Vector.getElem?_eq_getElem hr)).insert hc)

theorem Clean.absorb? (h : a.Clean) {i k : Nat} (hb : a.absorb? i k = some b) : b.Clean := by
  rw [Matrix.absorb?, Option.dite_none_right_eq_some] at hb
  obtain ⟨⟨hi, hk⟩, hb⟩ := hb
  exact Option.some.inj hb ▸ h.set hi ((h i _ (Vector.getElem?_eq_getElem hi)).unionWords
    (h k _ (Vector.getElem?_eq_getElem hk)))

theorem Clean.closureStep? (h : a.Clean) {k i : Nat} (hb : closureStep? k a i = some b) :
    b.Clean := by
  rw [Matrix.closureStep?, Option.bind_eq_bind, Option.bind_eq_some_iff] at hb
  obtain ⟨learns, -, hb⟩ := hb
  split at hb
  · exact h.absorb? hb
  · exact Option.some.inj hb ▸ h

theorem Clean.closure? (h : a.Clean) (hb : a.closure? = some b) : b.Clean := by
  rw [Matrix.closure?, Option.ite_none_right_eq_some] at hb
  obtain ⟨-, hb⟩ := hb
  rw [Option.bind_eq_bind, Option.bind_eq_some_iff] at hb
  obtain ⟨closed, hclosed, hdiagonal⟩ := hb
  have hrounds : closed.Clean :=
    foldlM_some (P := fun _ ↦ Clean) hclosed h fun _ k c d hc hd ↦
      foldlM_some (P := fun _ ↦ Clean) hd hc fun _ i _ _ he hf ↦ he.closureStep? hf
  exact foldlM_some (P := fun _ ↦ Clean) hdiagonal hrounds fun _ i _ _ hc hd ↦ hc.insert? hd

/-- Matrices without padding are equal if they relate the same. -/
theorem Clean.eq_of_test (h : a.Clean) (h' : b.Clean)
    (hsame : ∀ r c, a.test r c = b.test r c) : a = b := by
  have hrows : a.rows = b.rows := by
    refine Vector.ext fun r hr ↦ ?_
    refine (h r _ (Vector.getElem?_eq_getElem hr)).eq_of_test
      (h' r _ (Vector.getElem?_eq_getElem hr)) fun c hc ↦ ?_
    rw [← test_eq_getElem a hr hc, ← test_eq_getElem b hr hc, hsame]
  cases a
  cases b
  congr

/-! ## Matrices made of pairs -/

/-- The matrix that relates the given pairs, if they all lie within it. -/
def ofPairs? (m n : Nat) (pairs : List (Nat × Nat)) : Option (Matrix m n) :=
  pairs.foldlM (fun a (r, c) ↦ a.insert? r c) (empty m n)

private theorem exists_ofPairs? {pairs : List (Nat × Nat)} (h : ∀ p ∈ pairs, p.1 < m ∧ p.2 < n) :
    ∃ a, ofPairs? m n pairs = some a ∧ a.Clean ∧
      ∀ i j, a.test i j = true ↔ (i, j) ∈ pairs := by
  obtain ⟨a, ha⟩ := (empty m n).exists_foldlM_insert? h
  refine ⟨a, ha, ?_, fun i j ↦ ?_⟩
  · exact foldlM_some (P := fun _ ↦ Clean) ha (clean_empty m n) fun _ p _ _ hc hd ↦ hc.insert? hd
  · rw [test_foldlM_insert? ha, test_empty]
    simp

/-! ## Closing twice -/

private theorem test_closure?_closure? {a b c : Matrix n n} (hb : a.closure? = some b)
    (hc : b.closure? = some c) (i j : Nat) : c.test i j = b.test i j := by
  by_cases hi : i < n
  · rw [Bool.eq_iff_iff, test_closure? hc hi]
    constructor
    · intro h
      have hsteps : ∀ i j, b.test i j = true →
          Relation.ReflTransGen (fun i j ↦ a.test i j = true) i j :=
        fun i j hij ↦ (test_closure? hb (lt_of_test hij).1 j).mp hij
      exact (test_closure? hb hi j).mpr (Relation.reflTransGen_closed hsteps i j h)
    · intro h
      exact Relation.ReflTransGen.head h Relation.ReflTransGen.refl
  · rw [Bool.eq_false_iff.mpr fun h ↦ hi (lt_of_test h).1,
      Bool.eq_false_iff.mpr fun h ↦ hi (lt_of_test h).1]

theorem Clean.closure?_closure? {a b : Matrix n n} (h : a.Clean) (hb : a.closure? = some b) :
    b.closure? = some b := by
  obtain ⟨c, hc⟩ := b.exists_closure?
  have hclean := h.closure? hb
  rw [hc, (hclean.closure? hc).eq_of_test hclean (test_closure?_closure? hb hc)]

/-- **Closing is exact down to the words.** For a square matrix made of pairs within it, what is
related afterwards is what could be reached before in any number of steps, no bit behind the last
column is set in any row, and closing once more gives the same matrix. No look-up on the way leaves
the matrix. -/
theorem closure?_exact {n : Nat} {pairs : List (Nat × Nat)}
    (hpairs : ∀ p ∈ pairs, p.1 < n ∧ p.2 < n) :
    ∃ a b : Matrix n n, ofPairs? n n pairs = some a ∧
      (∀ i j, a.get? i j = some true ↔ (i, j) ∈ pairs) ∧
      a.closure? = some b ∧
      (∀ i < n, ∀ j < n, ∃ related, b.get? i j = some related ∧
        (related = true ↔ Relation.ReflTransGen (fun i j ↦ a.get? i j = some true) i j)) ∧
      (∀ r row, b.row? r = some row → ∀ p, n ≤ p → testBit row.words p = false) ∧
      b.closure? = some b := by
  obtain ⟨a, ha, hclean, htest⟩ := exists_ofPairs? hpairs
  obtain ⟨b, hb⟩ := a.exists_closure?
  refine ⟨a, b, ha, fun i j ↦ get?_eq_true.trans (htest i j), hb,
    fun i hi j hj ↦ ⟨_, b.get?_eq hi hj, ?_⟩, hclean.closure? hb, hclean.closure?_closure? hb⟩
  simp only [get?_eq_true]
  exact test_closure? hb hi j

def boundaryPairs : List (Nat × Nat) :=
  [(0, 33), (33, 32)]

theorem closure?_exact_boundaryPairs :
    (∀ p ∈ boundaryPairs, p.1 < 34 ∧ p.2 < 34) ∧
      ∃ a b : Matrix 34 34, ofPairs? 34 34 boundaryPairs = some a ∧ a.closure? = some b ∧
        a.get? 0 32 ≠ some true ∧ b.get? 0 32 = some true ∧ b.closure? = some b := by
  have hpairs : ∀ p ∈ boundaryPairs, p.1 < 34 ∧ p.2 < 34 := by decide
  obtain ⟨a, b, ha, hsteps, hb, hreach, -, htwice⟩ := closure?_exact hpairs
  have hfirst : a.get? 0 33 = some true := (hsteps 0 33).mpr (by decide)
  have hsecond : a.get? 33 32 = some true := (hsteps 33 32).mpr (by decide)
  have hpath : Relation.ReflTransGen (fun i j ↦ a.get? i j = some true) 0 32 :=
    Relation.ReflTransGen.head hfirst (Relation.ReflTransGen.single hsecond)
  obtain ⟨related, hrelated, hiff⟩ := hreach 0 (by decide) 32 (by decide)
  rw [hiff.mpr hpath] at hrelated
  have hnot : a.get? 0 32 ≠ some true := mt (hsteps 0 32).mp (by decide)
  exact ⟨hpairs, a, b, ha, hb, hnot, hrelated, htwice⟩

end Matrix

end ShiftReduce.Bits
