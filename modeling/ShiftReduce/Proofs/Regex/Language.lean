import Mathlib.Computability.Language
import ShiftReduce.Regex.Expr

/-!
# What expressions match

`Expr.language` gives the texts that an expression matches in full, part by part. Literals and
classes of bytes are over the bytes of characters, so a literal that is no text matches nothing, and
a byte that is only a part of a character does not match. Assertions look at what stands around a
text, and are given no text at all; no machine is made for them.

## Repetitions

A repetition stands for copies in a number between its bounds. Its least number can be greater than
its greatest only in expressions that no pattern writes; `Expr.Ordered` says that this is so nowhere
within an expression. This is the one condition under which machines and languages are compared.
-/

namespace ShiftReduce.Regex

/-- The texts of one character in one of the ranges. -/
def oneOf (ranges : List CharRange) : Language Char :=
  {w | ∃ c, w = [c] ∧ ∃ r ∈ ranges, r.contains c = true}

namespace Expr

mutual

/-- The texts that an expression matches in full. Assertions look at what stands around a text,
which no set of texts can say; no machine is made for them. -/
def language : Expr → Language Char
  | .empty => 1
  | .literal bs => {w | w.flatMap String.utf8EncodeChar = bs}
  | .chars ranges => oneOf ranges
  | .bytes ranges =>
    {w | ∃ c b, w = [c] ∧ String.utf8EncodeChar c = [b] ∧ ∃ r ∈ ranges, r.first ≤ b ∧ b ≤ r.last}
  | .look _ => 0
  | .repetition min max _ sub => {w | ∃ n, min ≤ n ∧ (∀ m ∈ max, n ≤ m) ∧ w ∈ sub.language ^ n}
  | .capture _ _ sub => sub.language
  | .concat subs => languageOfAll subs
  | .alternation subs => languageOfAny subs

/-- The texts that match expressions one after another. -/
def languageOfAll : List Expr → Language Char
  | [] => 1
  | h :: rest => h.language * languageOfAll rest

/-- The texts that match one of several expressions. -/
def languageOfAny : List Expr → Language Char
  | [] => 0
  | h :: rest => h.language + languageOfAny rest

end

mutual

/-- No repetition asks for more copies than it allows. -/
def Ordered : Expr → Prop
  | .repetition min max _ sub => (∀ m ∈ max, min ≤ m) ∧ sub.Ordered
  | .capture _ _ sub => sub.Ordered
  | .concat subs => AllOrdered subs
  | .alternation subs => AllOrdered subs
  | _ => True

/-- No repetition within any of the expressions asks for more copies than it allows. -/
def AllOrdered : List Expr → Prop
  | [] => True
  | h :: rest => h.Ordered ∧ AllOrdered rest

end

/-! ## Bytes and characters -/

theorem language_literal {bs : List UInt8} {text : String}
    (h : String.fromUTF8? ⟨bs.toArray⟩ = some text) : (literal bs).language = {text.toList} := by
  rw [String.fromUTF8?] at h
  split at h
  · rename_i hvalid
    have htext : text.toByteArray = ⟨bs.toArray⟩ := by
      rw [← Option.some.inj h]
      rfl
    ext w
    rw [language]
    show w.flatMap String.utf8EncodeChar = bs ↔ w = text.toList
    have hbytes : w.flatMap String.utf8EncodeChar = bs ↔ w.utf8Encode = ⟨bs.toArray⟩ := by
      rw [List.utf8Encode]
      constructor
      · rintro rfl
        exact ByteArray.ext List.data_toByteArray
      · intro heq
        have hdata := congrArg ByteArray.data heq
        rw [List.data_toByteArray] at hdata
        exact List.toArray_inj hdata
    rw [hbytes, ← htext, ← String.toByteArray_ofList, String.toByteArray_inj]
    constructor
    · rintro rfl
      rw [String.toList_ofList]
    · rintro rfl
      rw [String.ofList_toList]
  · simp at h

theorem utf8EncodeChar_eq_singleton_iff {c : Char} {b : UInt8} :
    String.utf8EncodeChar c = [b] ↔ c.toNat = b.toNat ∧ c.toNat ≤ 0x7F := by
  have hsize : c.toNat ≤ 0x7F ↔ c.utf8Size = 1 := Char.utf8Size_eq_one_iff.symm
  constructor
  · intro h
    have hone : c.utf8Size = 1 := by
      rw [← String.length_utf8EncodeChar, h, List.length_singleton]
    rw [String.utf8EncodeChar_eq_singleton hone] at h
    have hle := hsize.mpr hone
    refine ⟨?_, hle⟩
    rw [← List.singleton_inj.mp h, UInt32.toNat_toUInt8, Char.toNat_val, Nat.mod_eq_of_lt]
    omega
  · rintro ⟨heq, hle⟩
    rw [String.utf8EncodeChar_eq_singleton (hsize.mp hle), List.singleton_inj, ← UInt8.toNat_inj,
      UInt32.toNat_toUInt8, Char.toNat_val, Nat.mod_eq_of_lt, heq]
    omega

end Expr

theorem toNat_ofNat {n : Nat} (h : n.isValidChar) : (Char.ofNat n).toNat = n := by
  rw [Char.ofNat, dif_pos h]
  rfl

theorem contains_iff {r : CharRange} {c : Char} :
    r.contains c = true ↔ r.first.toNat ≤ c.toNat ∧ c.toNat ≤ r.last.toNat := by
  rw [CharRange.contains, Bool.and_eq_true, decide_eq_true_iff, decide_eq_true_iff]
  rfl

end ShiftReduce.Regex
