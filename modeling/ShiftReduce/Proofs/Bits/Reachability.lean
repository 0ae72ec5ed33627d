import Mathlib.Logic.Relation
import ShiftReduce.Bits.Matrix
import ShiftReduce.Proofs.Bits.Membership
import ShiftReduce.Proofs.Folds

/-!
# What a bit matrix relates

Every operation on a matrix is characterised by `Matrix.test`, and the closure of a square matrix is
the reflexive and transitive closure of the relation that the matrix holds (`Matrix.test_closure?`).

## Look-ups

The operations look up rows and cells, and fail outside the matrix. For each of them there are two
statements: within the matrix it has a result (`Matrix.exists_insert?`, `Matrix.exists_absorb?`,
`Matrix.exists_closure?`), and whatever result it has relates what it should. The second needs no
bounds, since a result shows that they were kept.

## The invariant

The rounds of the closure are described by `Via k`, the pairs joined by a path whose inner elements
all lie below `k`: the round at middle element `k` leads from `Via k` to `Via (k + 1)`. Within a
round the rows change one after another, but row `k` itself never does, so every row that takes it
in takes in the same row.
-/

namespace ShiftReduce.Bits

namespace Matrix

variable {m n : Nat}

theorem test_eq_getElem (a : Matrix m n) {r c : Nat} (hr : r < m) (hc : c < n) :
    a.test r c = (a.rows[r]).test c := by
  simp [test, row?, hr, hc]

theorem lt_of_test {a : Matrix m n} {r c : Nat} (h : a.test r c = true) : r < m ∧ c < n := by
  rw [test, Bool.and_eq_true, decide_eq_true_iff, Option.any_eq_true] at h
  obtain ⟨hc, row, hrow, -⟩ := h
  rw [row?, Vector.getElem?_eq_some_iff] at hrow
  exact ⟨hrow.1, hc⟩

@[simp] theorem test_empty (r c : Nat) : (empty m n).test r c = false := by
  by_cases h : r < m ∧ c < n
  · rw [test_eq_getElem _ h.1 h.2]
    simp only [empty, Vector.getElem_replicate]
    exact Mask.test_fill false h.2
  · exact Bool.eq_false_iff.mpr fun ht ↦ h (lt_of_test ht)

theorem exists_row? (a : Matrix m n) {r : Nat} (hr : r < m) : ∃ row, a.row? r = some row :=
  ⟨a.rows[r], Vector.getElem?_eq_getElem hr⟩

theorem get?_eq (a : Matrix m n) {r c : Nat} (hr : r < m) (hc : c < n) :
    a.get? r c = some (a.test r c) := by
  obtain ⟨row, hrow⟩ := a.exists_row? hr
  rw [get?, if_pos hc, test, hrow]
  simp [hc]

theorem get?_eq_true {a : Matrix m n} {r c : Nat} :
    a.get? r c = some true ↔ a.test r c = true := by
  rw [get?, test]
  by_cases hc : c < n
  · rw [if_pos hc, decide_eq_true hc, Bool.true_and, Option.map_eq_some_iff, Option.any_eq_true]
  · simp [hc]

theorem exists_insert? (a : Matrix m n) {r c : Nat} (hr : r < m) (hc : c < n) :
    ∃ b, a.insert? r c = some b :=
  ⟨_, dif_pos ⟨hr, hc⟩⟩

theorem test_insert? {a b : Matrix m n} {r c : Nat} (h : a.insert? r c = some b) (i j : Nat) :
    b.test i j = true ↔ (i = r ∧ j = c) ∨ a.test i j = true := by
  rw [insert?, Option.dite_none_right_eq_some] at h
  obtain ⟨⟨hr, hc⟩, hb⟩ := h
  obtain rfl := Option.some.inj hb
  by_cases h : i < m ∧ j < n
  · rw [test_eq_getElem _ h.1 h.2, test_eq_getElem _ h.1 h.2]
    simp only [Vector.getElem_set]
    by_cases hri : r = i
    · subst hri
      rw [if_pos rfl, Mask.test_insert _ h.2, Bool.or_eq_true, decide_eq_true_iff]
      exact or_congr_left ⟨fun he ↦ ⟨rfl, he.symm⟩, fun he ↦ he.2.symm⟩
    · rw [if_neg hri]
      exact ⟨Or.inr, fun he ↦ he.resolve_left fun he ↦ hri he.1.symm⟩
  · constructor
    · exact fun ht ↦ absurd (lt_of_test ht) h
    · rintro (⟨rfl, rfl⟩ | ht)
      · exact absurd ⟨hr, hc⟩ h
      · exact absurd (lt_of_test ht) h

theorem exists_absorb? (a : Matrix m n) {i k : Nat} (hi : i < m) (hk : k < m) :
    ∃ b, a.absorb? i k = some b :=
  ⟨_, dif_pos ⟨hi, hk⟩⟩

private theorem test_absorb? {a b : Matrix m n} {i k : Nat} (h : a.absorb? i k = some b)
    (r c : Nat) :
    b.test r c = true ↔ a.test r c = true ∨ (r = i ∧ a.test k c = true) := by
  rw [absorb?, Option.dite_none_right_eq_some] at h
  obtain ⟨⟨hi, hk⟩, hb⟩ := h
  obtain rfl := Option.some.inj hb
  by_cases h : r < m ∧ c < n
  · rw [test_eq_getElem _ h.1 h.2, test_eq_getElem _ h.1 h.2, test_eq_getElem _ hk h.2]
    simp only [Vector.getElem_set]
    by_cases hir : i = r
    · subst hir
      rw [if_pos rfl, Mask.test_unionWords _ _ h.2, Bool.or_eq_true]
      exact or_congr_right ⟨fun ht ↦ ⟨rfl, ht⟩, fun ht ↦ ht.2⟩
    · rw [if_neg hir]
      exact ⟨Or.inl, fun ht ↦ ht.resolve_right fun ht ↦ hir ht.1.symm⟩
  · constructor
    · exact fun ht ↦ absurd (lt_of_test ht) h
    · rintro (ht | ⟨rfl, ht⟩)
      · exact absurd (lt_of_test ht) h
      · exact absurd ⟨hi, (lt_of_test ht).2⟩ h

theorem mem_ones {a : Matrix m n} {r c : Nat} : (r, c) ∈ a.ones ↔ a.test r c = true := by
  simp only [ones, List.mem_flatMap, List.mem_map, Prod.mk.injEq, Prod.exists]
  constructor
  · rintro ⟨row, i, hrow, p, hp, rfl, rfl⟩
    have hget : a.rows.toList[i]? = some row := List.mk_mem_zipIdx_iff_getElem?.mp hrow
    rw [Vector.getElem?_toList, Vector.getElem?_eq_some_iff] at hget
    obtain ⟨hi, rfl⟩ := hget
    obtain ⟨hc, ht⟩ := Mask.mem_ones.mp hp
    rw [test_eq_getElem _ hi hc, ht]
  · intro ht
    obtain ⟨hr, hc⟩ := lt_of_test ht
    refine ⟨a.rows[r], r, ?_, c, ?_, rfl, rfl⟩
    · rw [List.mk_mem_zipIdx_iff_getElem?, Vector.getElem?_toList, Vector.getElem?_eq_getElem hr]
    · rw [Mask.mem_ones, ← test_eq_getElem _ hr hc]
      exact ⟨hc, ht⟩

/-! ## One round of the closure -/

variable {k : Nat}

theorem absorbs?_eq_true {a : Matrix m n} {i : Nat} :
    a.absorbs? k i = some true ↔ i ≠ k ∧ a.test i k = true := by
  rw [absorbs?]
  by_cases hik : i = k
  · simp [hik]
  · simp [hik, get?_eq_true]

private theorem test_closureStep? {a b : Matrix n n} {i : Nat} (h : closureStep? k a i = some b)
    (r c : Nat) : b.test r c = true
      ↔ a.test r c = true ∨ (r = i ∧ i ≠ k ∧ a.test i k = true ∧ a.test k c = true) := by
  rw [closureStep?, Option.bind_eq_bind, Option.bind_eq_some_iff] at h
  obtain ⟨learns, hlearns, h⟩ := h
  cases learns with
  | true =>
    obtain ⟨hik, hrow⟩ := absorbs?_eq_true.mp hlearns
    rw [test_absorb? h]
    exact or_congr_right ⟨fun ht ↦ ⟨ht.1, hik, hrow, ht.2⟩, fun ht ↦ ⟨ht.1, ht.2.2.2⟩⟩
  | false =>
    obtain rfl := Option.some.inj h
    refine ⟨Or.inl, fun ht ↦ ht.resolve_right fun ht ↦ ?_⟩
    have := hlearns.symm.trans (absorbs?_eq_true.mpr ⟨ht.2.1, ht.2.2.1⟩)
    exact absurd (Option.some.inj this) (by decide)

/-- The rows treated have taken in row `k`, which is still as it was. -/
theorem test_foldlM_closureStep? {a b : Matrix n n} {is : List Nat}
    (h : is.foldlM (closureStep? k) a = some b) (r c : Nat) :
    b.test r c = true
      ↔ a.test r c = true ∨ (r ∈ is ∧ r ≠ k ∧ a.test r k = true ∧ a.test k c = true) := by
  induction is generalizing a with
  | nil =>
    obtain rfl := Option.some.inj h
    simp
  | cons i is ih =>
    rw [List.foldlM_cons, Option.bind_eq_bind, Option.bind_eq_some_iff] at h
    obtain ⟨a', hstep, hrest⟩ := h
    rw [ih hrest]
    simp only [test_closureStep? hstep, List.mem_cons]
    constructor
    · rintro ((ht | ⟨rfl, hik, hrow, ht⟩) | ⟨hr, hrk, hrow, ht⟩)
      · exact Or.inl ht
      · exact Or.inr ⟨Or.inl rfl, hik, hrow, ht⟩
      · refine Or.inr ⟨Or.inr hr, hrk, ?_, ?_⟩
        -- Row `k` takes in nothing, so what it has now it has had before.
        · exact hrow.elim id fun h ↦ h.1 ▸ h.2.2.1
        · exact ht.elim id fun h ↦ absurd h.1 h.2.1.symm
    · rintro (ht | ⟨rfl | hr, hrk, hrow, ht⟩)
      · exact Or.inl (Or.inl ht)
      · exact Or.inl (Or.inr ⟨rfl, hrk, hrow, ht⟩)
      · exact Or.inr ⟨hr, hrk, Or.inl hrow, Or.inl ht⟩

private theorem test_closureRound? {a b : Matrix n n} (h : a.closureRound? k = some b) (r c : Nat) :
    b.test r c = true ↔ a.test r c = true ∨ (a.test r k = true ∧ a.test k c = true) := by
  rw [closureRound?] at h
  rw [test_foldlM_closureStep? h]
  constructor
  · rintro (ht | ⟨-, -, ht⟩)
    · exact Or.inl ht
    · exact Or.inr ht
  · rintro (ht | ⟨hrow, ht⟩)
    · exact Or.inl ht
    · -- The round passes over row `k`, which would take in itself.
      by_cases hrk : r = k
      · exact Or.inl (hrk ▸ ht)
      · exact Or.inr ⟨List.mem_range.mpr (lt_of_test hrow).1, hrk, hrow, ht⟩

/-! ## All rounds -/

/-- Joined by a path whose inner elements lie below `k`. -/
inductive Via (R : Nat → Nat → Prop) (k : Nat) : Nat → Nat → Prop
  | edge {i j : Nat} : R i j → Via R k i j
  | through {i l j : Nat} : Via R k i l → l < k → Via R k l j → Via R k i j

section Via

variable {R : Nat → Nat → Prop} {i j : Nat}

private theorem via_zero : Via R 0 i j ↔ R i j := by
  constructor
  · rintro (h | ⟨-, hl, -⟩)
    · exact h
    · exact absurd hl (Nat.not_lt_zero _)
  · exact Via.edge

theorem Via.mono (h : Via R k i j) : Via R (k + 1) i j := by
  induction h with
  | edge h => exact Via.edge h
  | through _ hl _ ih₁ ih₂ => exact Via.through ih₁ (Nat.lt_succ_of_lt hl) ih₂

/-- A path either avoids the new inner element or can be cut at its first and last visit. -/
theorem via_succ : Via R (k + 1) i j ↔ Via R k i j ∨ (Via R k i k ∧ Via R k k j) := by
  constructor
  · intro h
    induction h with
    | edge h => exact Or.inl (Via.edge h)
    | through _ hl _ ih₁ ih₂ =>
      rcases Nat.lt_succ_iff_lt_or_eq.mp hl with hl | rfl
      -- Either half may visit `k` or not; the parts before the first and after the last visit stay.
      · rcases ih₁ with h₁ | ⟨h₁, h₁'⟩ <;> rcases ih₂ with h₂ | ⟨h₂, h₂'⟩
        · exact Or.inl (Via.through h₁ hl h₂)
        · exact Or.inr ⟨Via.through h₁ hl h₂, h₂'⟩
        · exact Or.inr ⟨h₁, Via.through h₁' hl h₂⟩
        · exact Or.inr ⟨h₁, h₂'⟩
      · exact Or.inr ⟨ih₁.elim id And.left, ih₂.elim id And.right⟩
  · rintro (h | ⟨h₁, h₂⟩)
    · exact h.mono
    · exact Via.through h₁.mono (Nat.lt_succ_self k) h₂.mono

theorem Via.transGen (h : Via R k i j) : Relation.TransGen R i j := by
  induction h with
  | edge h => exact Relation.TransGen.single h
  | through _ _ _ ih₁ ih₂ => exact ih₁.trans ih₂

private theorem via_of_transGen (hR : ∀ i j, R i j → i < k) (h : Relation.TransGen R i j) :
    Via R k i j := by
  induction h with
  | single h => exact Via.edge h
  | tail _ hstep ih => exact Via.through ih (hR _ _ hstep) (Via.edge hstep)

end Via

private theorem test_foldlM_closureRound? {a b : Matrix n n} {k : Nat}
    (h : (List.range k).foldlM closureRound? a = some b) (r c : Nat) :
    b.test r c = true ↔ Via (fun i j ↦ a.test i j = true) k r c := by
  induction k generalizing b r c with
  | zero =>
    obtain rfl := Option.some.inj h
    rw [via_zero]
  | succ k ih =>
    rw [List.range_succ, List.foldlM_append, Option.bind_eq_bind, Option.bind_eq_some_iff] at h
    obtain ⟨b', hrounds, hround⟩ := h
    have hround : b'.closureRound? k = some b := by simpa using hround
    rw [test_closureRound? hround, ih hrounds, ih hrounds, ih hrounds, via_succ]

private theorem test_transitiveClosure? {a b : Matrix n n} (h : a.transitiveClosure? = some b)
    (r c : Nat) :
    b.test r c = true ↔ Relation.TransGen (fun i j ↦ a.test i j = true) r c := by
  rw [transitiveClosure?] at h
  rw [test_foldlM_closureRound? h]
  exact ⟨Via.transGen, via_of_transGen fun i j h ↦ (lt_of_test h).1⟩

theorem test_foldlM_insert? {a b : Matrix m n} {ps : List (Nat × Nat)}
    (h : ps.foldlM (fun a p ↦ a.insert? p.1 p.2) a = some b) (r c : Nat) :
    b.test r c = true ↔ (r, c) ∈ ps ∨ a.test r c = true := by
  induction ps generalizing a with
  | nil =>
    obtain rfl := Option.some.inj h
    simp
  | cons p ps ih =>
    rw [List.foldlM_cons, Option.bind_eq_bind, Option.bind_eq_some_iff] at h
    obtain ⟨a', hfirst, hrest⟩ := h
    rw [ih hrest, test_insert? hfirst, List.mem_cons, ← or_assoc, or_comm (a := (r, c) ∈ ps),
      Prod.ext_iff]

private theorem test_insertDiagonal? {a b : Matrix n n} (h : a.insertDiagonal? = some b)
    (r c : Nat) :
    b.test r c = true ↔ (r < n ∧ r = c) ∨ a.test r c = true := by
  have hpairs : ((List.range n).map fun i ↦ (i, i)).foldlM (fun a p ↦ a.insert? p.1 p.2) a
      = some b := by
    rw [List.foldlM_map]
    exact h
  rw [test_foldlM_insert? hpairs, List.mem_map]
  refine or_congr_left ⟨?_, ?_⟩
  · rintro ⟨i, hi, heq⟩
    obtain ⟨rfl, rfl⟩ := Prod.mk.inj heq
    exact ⟨List.mem_range.mp hi, rfl⟩
  · rintro ⟨hr, rfl⟩
    exact ⟨r, List.mem_range.mpr hr, rfl⟩

/-- **The closure is the reflexive and transitive closure**, within the matrix. -/
theorem test_closure? {a b : Matrix n n} (h : a.closure? = some b) {r : Nat} (hr : r < n)
    (c : Nat) :
    b.test r c = true ↔ Relation.ReflTransGen (fun i j ↦ a.test i j = true) r c := by
  rw [closure?, if_pos rfl, Option.bind_eq_bind, Option.bind_eq_some_iff] at h
  obtain ⟨closed, hclosed, hdiagonal⟩ := h
  rw [test_insertDiagonal? hdiagonal, test_transitiveClosure? hclosed,
    Relation.reflTransGen_iff_eq_or_transGen]
  exact or_congr_left ⟨fun h ↦ h.2.symm, fun h ↦ ⟨hr, h.symm⟩⟩

/-! ## No look-up fails -/

theorem exists_foldlM_insert? (a : Matrix m n) {ps : List (Nat × Nat)}
    (hps : ∀ p ∈ ps, p.1 < m ∧ p.2 < n) :
    ∃ b, ps.foldlM (fun a p ↦ a.insert? p.1 p.2) a = some b :=
  exists_foldlM_eq_some_of_mem fun p hp c ↦ c.exists_insert? (hps p hp).1 (hps p hp).2

private theorem exists_closureStep? (a : Matrix n n) {i : Nat} (hk : k < n) (hi : i < n) :
    ∃ b, closureStep? k a i = some b := by
  have hlearns : ∃ learns, a.absorbs? k i = some learns := by
    rw [absorbs?]
    split
    · exact ⟨false, rfl⟩
    · exact ⟨_, a.get?_eq hi hk⟩
  obtain ⟨learns, hlearns⟩ := hlearns
  rw [closureStep?, hlearns]
  cases learns with
  | true => exact a.exists_absorb? hi hk
  | false => exact ⟨a, rfl⟩

/-- Closing a square matrix never leaves it. -/
theorem exists_closure? (a : Matrix n n) : ∃ b, a.closure? = some b := by
  obtain ⟨closed, hclosed⟩ : ∃ closed, a.transitiveClosure? = some closed :=
    exists_foldlM_eq_some_of_mem fun k hk c ↦ exists_foldlM_eq_some_of_mem fun i hi c ↦
      c.exists_closureStep? (List.mem_range.mp hk) (List.mem_range.mp hi)
  obtain ⟨b, hb⟩ : ∃ b, closed.insertDiagonal? = some b :=
    exists_foldlM_eq_some_of_mem fun i hi c ↦
      c.exists_insert? (List.mem_range.mp hi) (List.mem_range.mp hi)
  refine ⟨b, ?_⟩
  rw [closure?, if_pos rfl, hclosed]
  exact hb

end Matrix

end ShiftReduce.Bits
