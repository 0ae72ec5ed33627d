import Mathlib.Algebra.Order.Ring.Int
import ShiftReduce.Action

/-!
# What a code carries

An action with a small number fits its code: the kind is in the low three bits and the number above
them, and doubling the code for an index entry loses nothing either (`Action.Small`).

## The two parts

Every word is a kind and a number, whatever it was made from, and what a code stands for is read off
these two parts (`Action.decode?_eq_some_iff`). Wrapping loses bits of the number only, never of the
kind (`Action.encode_emod`).

## The result

So reading undoes writing for just the numbers below 2^28, and writing undoes reading but for the
codes of errors, of which there are many (`Action.codes_inverse`). Both are about all actions and
all codes; the codes that stand for nothing are characterised as well.
-/

namespace ShiftReduce

theorem wrap32_of_bounds {n : Int} (hlow : -2 ^ 31 ≤ n) (hhigh : n < 2 ^ 31) : wrap32 n = n := by
  rw [wrap32]
  refine Int.bmod_eq_of_le_mul_two ?_ ?_ <;> omega

private theorem wrap32_bounds (n : Int) : -2 ^ 31 ≤ wrap32 n ∧ wrap32 n < 2 ^ 31 := by
  have hlow : -(0x100000000 / 2) ≤ wrap32 n := Int.le_bmod (by decide)
  have hhigh : wrap32 n < (0x100000000 + 1) / 2 := Int.bmod_lt (by decide)
  omega

theorem wrap32_emod (n : Int) : wrap32 n % 8 = n % 8 := by
  rw [wrap32, Int.bmod_def]
  split <;> omega

theorem wrap64_natCast {n : Nat} (h : n < wordBound) : wrap64 n = n := by
  rw [wrap64, Int.emod_eq_of_lt (Int.natCast_nonneg n) (by exact_mod_cast h), Int.toNat_natCast]

namespace Action

def number? : Action → Option Nat
  | error => none
  | shift n | reduce n | goto n | accept n => some n

/-- Whether the number, if there is one, leaves room for the kind and for the bit that marks an
index entry. -/
def Small (a : Action) : Prop :=
  ∀ n, a.number? = some n → n < 2 ^ 27

variable {a : Action} {code : Int} {n : Nat}

theorem number?_eq_none_iff : a.number? = none ↔ a = error := by
  cases a <;> simp [number?]

theorem payload_of_number? (ha : a.Small) (h : a.number? = some n) : a.payload = n := by
  have hlt := ha n h
  have hwrap : wrap32 (n : Int) = n := by
    rw [wrap32_of_bounds] <;> omega
  cases a with
  | error => simp [number?] at h
  | shift m | reduce m | goto m | accept m =>
    obtain rfl := Option.some.inj h
    exact hwrap

theorem payload_bounds (ha : a.Small) : -1 ≤ a.payload ∧ a.payload < 2 ^ 27 := by
  cases h : a.number? with
  | none =>
    obtain rfl := number?_eq_none_iff.mp h
    decide
  | some n =>
    rw [payload_of_number? ha h]
    have hlt := ha n h
    omega

theorem tag_bounds (a : Action) : 0 ≤ a.tag ∧ a.tag < 8 := by
  cases a <;> simp [tag]

theorem encode_eq (ha : a.Small) : a.encode = a.payload * 8 + a.tag := by
  obtain ⟨hlow, hhigh⟩ := payload_bounds ha
  rw [encode, wrap32_of_bounds] <;> omega

theorem encode_bounds (ha : a.Small) : -8 ≤ a.encode ∧ a.encode < 2 ^ 30 := by
  obtain ⟨hlow, hhigh⟩ := payload_bounds ha
  obtain ⟨htag, htag'⟩ := tag_bounds a
  rw [encode_eq ha]
  omega

theorem encode_emod (a : Action) : a.encode % 8 = a.tag := by
  obtain ⟨htag, htag'⟩ := tag_bounds a
  have hshifted := wrap32_emod (a.payload * 8)
  rw [encode]
  omega

private theorem encode_lt (a : Action) : a.encode < 2 ^ 31 := by
  obtain ⟨-, htag⟩ := tag_bounds a
  obtain ⟨-, hshifted⟩ := wrap32_bounds (a.payload * 8)
  -- The shifted number ends in three zeros, which leaves room for the kind below the bound.
  have hzeros := wrap32_emod (a.payload * 8)
  rw [encode]
  omega

theorem encode_of_number? (h : a.number? = some n) (hn : n < 2 ^ 28) :
    a.encode = n * 8 + a.tag := by
  have hword : wrap32 (n : Int) = n := wrap32_of_bounds (by omega) (by omega)
  have hshifted : wrap32 ((n : Int) * 8) = n * 8 := wrap32_of_bounds (by omega) (by omega)
  cases a with
  | error => simp [number?] at h
  | shift m | reduce m | goto m | accept m =>
    obtain rfl := Option.some.inj h
    rw [encode, payload, hword, hshifted]

/-- A code is read by its two parts: the kind in the low three bits, and above them the number, if
actions of this kind carry one. -/
theorem decode?_eq_some_iff :
    decode? code = some a ↔ code % 8 = a.tag ∧ ∀ n, a.number? = some n → code / 8 = n := by
  rw [decode?]
  cases a with
  | error =>
    simp only [tag, number?, reduceCtorEq, false_imp_iff, implies_true, and_true]
    split_ifs <;> simp_all
  | shift m | reduce m | goto m | accept m =>
    simp only [tag, number?, Option.some.injEq, forall_eq']
    split_ifs <;> simp <;> omega

theorem decode?_eq_none_iff :
    decode? code = none ↔ 5 ≤ code % 8 ∨ 1 ≤ code % 8 ∧ code % 8 ≤ 4 ∧ code < 0 := by
  rw [decode?]
  split_ifs <;> simp <;> omega

/-- A code gives back its action as long as the number needs no more than 28 bits. -/
theorem decode?_encode (h : ∀ n, a.number? = some n → n < 2 ^ 28) : decode? a.encode = some a := by
  refine decode?_eq_some_iff.mpr ⟨encode_emod a, fun n hn ↦ ?_⟩
  have htag := tag_bounds a
  rw [encode_of_number? hn (h n hn)]
  omega

theorem Small.decode?_encode (ha : a.Small) : decode? a.encode = some a :=
  Action.decode?_encode fun n hn ↦ (ha n hn).trans (by decide)

/-- Actions with small numbers are told apart by their codes. -/
theorem Small.encode_inj {b : Action} (ha : a.Small) (hb : b.Small) (h : a.encode = b.encode) :
    a = b := by
  have hread := ha.decode?_encode
  rw [h, hb.decode?_encode] at hread
  exact (Option.some.inj hread).symm

theorem wrap64_encode (ha : a.Small) (h : a.number? = some n) :
    wrap64 (a.encode / 8) = n := by
  obtain ⟨htag, htag'⟩ := tag_bounds a
  have hlt := ha n h
  have hdiv : a.encode / 8 = n := by
    rw [encode_eq ha, payload_of_number? ha h]
    omega
  rw [hdiv, wrap64_natCast]
  rw [wordBound]
  omega

/-! ## There and back

A word above the kind has 29 bits, one of them the sign. So a number of 29 bits or more comes back
as another one, or not at all. -/

theorem number_lt_of_decode? (hcode : code < 2 ^ 31) (h : decode? code = some a)
    (hn : a.number? = some n) : n < 2 ^ 28 := by
  have hnumber := (decode?_eq_some_iff.mp h).2 n hn
  omega

theorem decode?_encode_iff :
    decode? a.encode = some a ↔ a = error ∨ ∃ n, a.number? = some n ∧ n < 2 ^ 28 := by
  constructor
  · intro h
    cases hn : a.number? with
    | none => exact Or.inl (number?_eq_none_iff.mp hn)
    | some n => exact Or.inr ⟨n, rfl, number_lt_of_decode? (encode_lt a) h hn⟩
  · rintro (rfl | ⟨n, hn, hlt⟩)
    · exact decode?_encode (by simp [number?])
    · refine decode?_encode fun m hm ↦ ?_
      obtain rfl := Option.some.inj (hn.symm.trans hm)
      exact hlt

/-- Only codes of errors are read as an action that is written otherwise. -/
theorem encode_of_decode? (hcode : code < 2 ^ 31) (h : decode? code = some a)
    (hkind : code % 8 ≠ 0) : a.encode = code := by
  obtain ⟨htag, hnumber⟩ := decode?_eq_some_iff.mp h
  cases hn : a.number? with
  | none =>
    obtain rfl := number?_eq_none_iff.mp hn
    exact absurd htag hkind
  | some n =>
    rw [encode_of_number? hn (number_lt_of_decode? hcode h hn), ← htag, ← hnumber n hn]
    omega

private theorem eq_error_of_decode? (h : decode? code = some a) (hkind : code % 8 = 0) :
    a = error := by
  have htag := (decode?_eq_some_iff.mp h).1
  cases a <;> simp_all [tag]

/-- How far codes and actions determine each other. An action comes back from its code if it is an
error or its number is below 2^28. A code stands for nothing if its kind is not in use, or if it is
negative and its kind calls for a number. And what it stands for has this very code, apart from
errors, whose codes carry anything. -/
theorem codes_inverse (hcode : code < 2 ^ 31) :
    (∀ a : Action,
      decode? a.encode = some a ↔ a = error ∨ ∃ n, a.number? = some n ∧ n < 2 ^ 28) ∧
    (decode? code = none ↔ 5 ≤ code % 8 ∨ 1 ≤ code % 8 ∧ code % 8 ≤ 4 ∧ code < 0) ∧
    ∀ a, decode? code = some a →
      (code % 8 ≠ 0 → a.encode = code) ∧ (code % 8 = 0 → a = error) :=
  ⟨fun _ ↦ decode?_encode_iff, decode?_eq_none_iff,
    fun _ h ↦ ⟨encode_of_decode? hcode h, eq_error_of_decode? h⟩⟩

theorem codes_inverse_greatest :
    (0x7ffffffc : Int) < 2 ^ 31 ∧ decode? 0x7ffffffc = some (accept 0xfffffff) ∧
      (accept 0xfffffff).encode = 0x7ffffffc ∧
      decode? (accept 0x10000000).encode ≠ some (accept 0x10000000) := by
  have hcode : (0x7ffffffc : Int) < 2 ^ 31 := by decide
  have hread : decode? 0x7ffffffc = some (accept 0xfffffff) := by decide
  obtain ⟨hback, -, hwritten⟩ := codes_inverse hcode
  refine ⟨hcode, hread, (hwritten _ hread).1 (by decide), ?_⟩
  rw [ne_eq, hback]
  simp [number?]

end Action

end ShiftReduce
