import ShiftReduce.Proofs.Regex.Thompson
import ShiftReduce.Regex.Compiler

/-!
# Which expressions have machines

A machine cannot look around, and it reads characters, so there is none for bytes that are no text
and none for a class with bytes past ASCII. An expression is refused if it has such a part
(`Expr.Unsupported`), unless the part lies in a repetition that allows no copy, whose body is never
looked at: `Expr.Uses` is about the parts that are.

## Independence of the draft

Whether a part can be added does not depend on the draft it is added to, so the copies of a
repetition fare alike (`exists_build_iff`). The induction goes along expressions and lists of
expressions together, as the construction does.

## The result

Every other expression has a machine, and by `Nfa.language_ofExpr` it is the right one.
`compileExpr_exact` says both halves at once.
-/

namespace ShiftReduce.Regex

namespace Expr

/-! ## Parts -/

/-- The second expression is a part of the first, itself included, and does not lie in the body of a
repetition that allows no copy. -/
inductive Uses : Expr → Expr → Prop
  | self (h : Expr) : Uses h h
  | repetition {min : Nat} {max : Option Nat} {greedy : Bool} {sub part : Expr} :
      max ≠ some 0 → Uses sub part → Uses (.repetition min max greedy sub) part
  | capture {index : Nat} {name : Option String} {sub part : Expr} :
      Uses sub part → Uses (.capture index name sub) part
  | concat {subs : List Expr} {sub part : Expr} :
      sub ∈ subs → Uses sub part → Uses (.concat subs) part
  | alternation {subs : List Expr} {sub part : Expr} :
      sub ∈ subs → Uses sub part → Uses (.alternation subs) part

/-- What no machine can be made for. -/
inductive Unsupported : Expr → Prop
  /-- A machine cannot look around. -/
  | look (l : Look) : Unsupported (.look l)
  /-- The bytes of the literal are those of no text. -/
  | literal {bs : List UInt8} :
      (∀ w : List Char, w.flatMap String.utf8EncodeChar ≠ bs) → Unsupported (.literal bs)
  /-- A range of the class ends past ASCII. -/
  | bytes {ranges : List ByteRange} {r : ByteRange} :
      r ∈ ranges → 0x7F < r.last → Unsupported (.bytes ranges)

/-- No part in use is one that no machine can be made for. -/
def Supported (h : Expr) : Prop :=
  ∀ part, h.Uses part → ¬part.Unsupported

section Supported

variable {min : Nat} {max : Option Nat} {greedy : Bool} {sub : Expr} {subs : List Expr}

theorem supported_empty : Supported .empty := by
  rintro _ ⟨⟩ ⟨⟩

private theorem supported_chars {ranges : List CharRange} : Supported (.chars ranges) := by
  rintro _ ⟨⟩ ⟨⟩

private theorem not_supported_look {l : Look} : ¬Supported (.look l) :=
  fun h ↦ h _ (Uses.self _) (Unsupported.look l)

theorem supported_literal {bs : List UInt8} :
    Supported (.literal bs) ↔ ∃ w : List Char, w.flatMap String.utf8EncodeChar = bs := by
  constructor
  · intro h
    by_contra hnone
    push Not at hnone
    exact h _ (Uses.self _) (Unsupported.literal hnone)
  · rintro ⟨w, hw⟩ _ ⟨⟩ hpart
    cases hpart with
    | literal hnone => exact hnone w hw

private theorem supported_bytes {ranges : List ByteRange} :
    Supported (.bytes ranges) ↔ ∀ r ∈ ranges, r.last ≤ 0x7F := by
  constructor
  · intro h r hr
    by_contra hlast
    exact h _ (Uses.self _) (Unsupported.bytes hr (UInt8.not_le.mp hlast))
  · rintro h _ ⟨⟩ hpart
    cases hpart with
    | bytes hr hlast => exact absurd (h _ hr) (UInt8.not_le.mpr hlast)

theorem supported_repetition :
    Supported (.repetition min max greedy sub) ↔ max = some 0 ∨ sub.Supported := by
  constructor
  · intro h
    by_cases hmax : max = some 0
    · exact Or.inl hmax
    · exact Or.inr fun part hpart ↦ h part (Uses.repetition hmax hpart)
  · intro h part hpart hunsupported
    cases hpart with
    | self => cases hunsupported
    | repetition hmax hpart => exact h.resolve_left hmax part hpart hunsupported

theorem supported_capture {index : Nat} {name : Option String} :
    Supported (.capture index name sub) ↔ sub.Supported := by
  constructor
  · exact fun h part hpart ↦ h part (Uses.capture hpart)
  · intro h part hpart hunsupported
    cases hpart with
    | self => cases hunsupported
    | capture hpart => exact h part hpart hunsupported

theorem supported_concat : Supported (.concat subs) ↔ ∀ sub ∈ subs, sub.Supported := by
  constructor
  · exact fun h sub hsub part hpart ↦ h part (Uses.concat hsub hpart)
  · intro h part hpart hunsupported
    cases hpart with
    | self => cases hunsupported
    | concat hsub hpart => exact h _ hsub part hpart hunsupported

theorem supported_alternation : Supported (.alternation subs) ↔ ∀ sub ∈ subs, sub.Supported := by
  constructor
  · exact fun h sub hsub part hpart ↦ h part (Uses.alternation hsub hpart)
  · intro h part hpart hunsupported
    cases hpart with
    | self => cases hunsupported
    | alternation hsub hpart => exact h _ hsub part hpart hunsupported

end Supported

theorem exists_fromUTF8?_iff {bs : List UInt8} :
    (∃ text, String.fromUTF8? ⟨bs.toArray⟩ = some text) ↔
      ∃ w : List Char, w.flatMap String.utf8EncodeChar = bs := by
  constructor
  · rintro ⟨text, htext⟩
    have hmem : text.toList ∈ (literal bs).language := by
      rw [language_literal htext]
      rfl
    rw [language] at hmem
    exact ⟨text.toList, hmem⟩
  · rintro ⟨w, rfl⟩
    have hvalid : ByteArray.IsValidUTF8 ⟨(w.flatMap String.utf8EncodeChar).toArray⟩ :=
      .intro w (ByteArray.ext List.data_toByteArray.symm)
    exact ⟨_, dif_pos hvalid⟩

end Expr

/-! ## What can be built -/

namespace Nfa

variable {builder : Builder} {P : Prop}

section Copies

variable (hb : ∀ d, (∃ p, builder d = .ok p) ↔ P)

include hb

private theorem exists_copies_iff {n : Nat} (current : Nat) (d : Draft) :
    (∃ r, copies builder n current d = .ok r) ↔ n = 0 ∨ P := by
  induction n generalizing current d with
  | zero => simp [copies]
  | succ n ih =>
    rw [copies, ← hb d]
    split
    · rename_i e he
      simp [he]
    · rename_i p hp
      have hP : P := (hb d).mp ⟨p, hp⟩
      simp [ih, hP, hp]

private theorem exists_optionalCopies_iff {n : Nat} (exit current : Nat) (d : Draft) :
    (∃ r, optionalCopies builder exit n current d = .ok r) ↔ n = 0 ∨ P := by
  induction n generalizing current d with
  | zero => simp [optionalCopies]
  | succ n ih =>
    rw [optionalCopies, ← hb d]
    split
    · rename_i e he
      simp [he]
    · rename_i p hp
      have hP : P := (hb d).mp ⟨p, hp⟩
      simp [ih, hP, hp]

private theorem exists_repetitionTail_iff {extra : Option Nat} (current : Nat) (d : Draft) :
    (∃ r, repetitionTail builder extra current d = .ok r) ↔ extra = some 0 ∨ P := by
  cases extra with
  | none =>
    rw [repetitionTail, loop, ← hb d]
    split
    · rename_i e he
      simp [he]
    · rename_i p hp
      simp [hp]
  | some n =>
    rw [Option.some_inj, ← exists_optionalCopies_iff hb d.addState.1 current d.addState.2]
    simp only [repetitionTail]
    split
    · rename_i e he
      simp [he]
    · rename_i r hr
      simp [hr]

end Copies

/-- The body of a repetition is never needed only where no copy is allowed. -/
theorem needless_iff {min : Nat} {max : Option Nat} (hle : ∀ m ∈ max, min ≤ m) :
    (min = 0 ∨ P) ∧ (max.map (· - min) = some 0 ∨ P) ↔ max = some 0 ∨ P := by
  cases max with
  | none => simpa using Or.inr
  | some m =>
    have hm := hle m rfl
    rw [Option.map_some, Option.some_inj, Option.some_inj, ← and_or_right]
    exact or_congr_left (by omega)

mutual

/-- An expression can be added exactly if all its parts in use are supported. -/
theorem exists_build_iff (h : Expr) (hh : h.Ordered) (d : Draft) :
    (∃ p, build h d = .ok p) ↔ h.Supported := by
  cases h with
  | empty => exact iff_of_true ⟨_, rfl⟩ Expr.supported_empty
  | literal bytes =>
    rw [Expr.supported_literal, ← Expr.exists_fromUTF8?_iff]
    simp only [build]
    split
    · rename_i hnone
      simp [hnone]
    · rename_i text htext
      simp [htext]
  | chars ranges => exact iff_of_true ⟨_, rfl⟩ Expr.supported_chars
  | bytes ranges =>
    simp only [build, Expr.supported_bytes]
    split
    · rename_i hall
      simpa using hall
    · rename_i hall
      simpa using hall
  | look l =>
    refine iff_of_false ?_ Expr.not_supported_look
    simp [build]
  | repetition min max greedy sub =>
    rw [Expr.Ordered] at hh
    have hsub := exists_build_iff sub hh.2
    rw [Expr.supported_repetition, ← needless_iff hh.1,
      ← exists_copies_iff hsub d.addState.1 d.addState.2]
    simp only [build]
    split
    · rename_i e he
      simp [he]
    · rename_i current d' hr
      rw [← exists_repetitionTail_iff hsub current d']
      split
      · rename_i e he
        simp [he]
      · rename_i r hr'
        simp [hr, hr']
  | capture index name sub =>
    rw [Expr.Ordered] at hh
    rw [Expr.supported_capture]
    exact exists_build_iff sub hh d
  | concat subs =>
    rw [Expr.Ordered] at hh
    rw [Expr.supported_concat, ← exists_buildSequence_iff subs hh d.addState.1 d.addState.2]
    simp only [build]
    split
    · rename_i e he
      simp [he]
    · rename_i r hr
      simp [hr]
  | alternation subs =>
    rw [Expr.Ordered] at hh
    rw [Expr.supported_alternation, ← exists_buildBranches_iff subs hh d.addState.1
      d.addState.2.addState.1 d.addState.2.addState.2]
    simp only [build]
    split
    · rename_i e he
      simp [he]
    · rename_i r hr
      simp [hr]

theorem exists_buildSequence_iff (hs : List Expr) (hh : Expr.AllOrdered hs) (current : Nat)
    (d : Draft) : (∃ r, buildSequence hs current d = .ok r) ↔ ∀ h ∈ hs, h.Supported := by
  cases hs with
  | nil => simp [buildSequence]
  | cons h rest =>
    rw [Expr.AllOrdered] at hh
    rw [List.forall_mem_cons, ← exists_build_iff h hh.1 d, buildSequence]
    split
    · rename_i e he
      simp [he]
    · rename_i p hp
      rw [exists_buildSequence_iff rest hh.2]
      simp [hp]

theorem exists_buildBranches_iff (hs : List Expr) (hh : Expr.AllOrdered hs) (start stop : Nat)
    (d : Draft) : (∃ r, buildBranches hs start stop d = .ok r) ↔ ∀ h ∈ hs, h.Supported := by
  cases hs with
  | nil => simp [buildBranches]
  | cons h rest =>
    rw [Expr.AllOrdered] at hh
    rw [List.forall_mem_cons, ← exists_build_iff h hh.1 d, buildBranches]
    split
    · rename_i e he
      simp [he]
    · rename_i p hp
      rw [exists_buildBranches_iff rest hh.2]
      simp [hp]

end

end Nfa

/-! ## Machines of expressions -/

variable {h : Expr} {tag : Nat}

theorem compileExpr_eq_ok_iff {m : Nfa} :
    compileExpr h tag = .ok m ↔ Nfa.ofExpr h tag = .ok m := by
  rw [compileExpr]
  split
  · rename_i m' hm
    simp [hm]
  · rename_i e he
    simp [he]

theorem exists_compileExpr_iff (hh : h.Ordered) :
    (∃ m, compileExpr h tag = .ok m) ↔ h.Supported := by
  rw [← Nfa.exists_build_iff h hh {}]
  simp only [compileExpr_eq_ok_iff, Nfa.ofExpr_eq_ok_iff]
  exact ⟨fun ⟨_, p, hp, _⟩ ↦ ⟨p, hp⟩, fun ⟨p, hp⟩ ↦ ⟨_, p, hp, rfl⟩⟩

/-- **The machine of an expression.** An expression is refused exactly if it has a part that no
machine can be made for, outside the bodies of repetitions that allow no copy. Any other expression
has a machine for the terminal asked for, which reads from its start to its accepting state just the
texts that the expression matches. -/
theorem compileExpr_exact (hh : h.Ordered) (tag : Nat) :
    ((∃ e, compileExpr h tag = .error e) ↔ ∃ part, h.Uses part ∧ part.Unsupported) ∧
      ((∀ part, h.Uses part → ¬part.Unsupported) → ∃ m, compileExpr h tag = .ok m ∧ m.tag = tag ∧
        ∀ w, w ∈ m.language ↔ w ∈ h.language) := by
  have hok : (∃ m, compileExpr h tag = .ok m) ↔ h.Supported := exists_compileExpr_iff hh
  constructor
  · have herror : (∃ e, compileExpr h tag = .error e) ↔ ¬∃ m, compileExpr h tag = .ok m := by
      cases compileExpr h tag <;> simp
    rw [herror, hok, Expr.Supported]
    push Not
    rfl
  · intro hsupported
    obtain ⟨m, hm⟩ := hok.mpr hsupported
    have hmachine := compileExpr_eq_ok_iff.mp hm
    exact ⟨m, hm, Nfa.tag_ofExpr hmachine, fun w ↦ by rw [Nfa.language_ofExpr hh hmachine]⟩

/-- An assertion that is not repeated even once, and behind it repeated copies of what may be
empty. -/
def emptyCopies : Expr :=
  .concat [.repetition 0 (some 0) true (.look .start),
    .repetition 1 none true (.capture 1 none
      (.repetition 0 (some 2) true (.alternation [.empty, .literal [0xC3, 0xA4]])))]

theorem supported_emptyCopies : emptyCopies.Supported := by
  have hletter : ['ä'].flatMap String.utf8EncodeChar = [0xC3, 0xA4] := by decide
  simp only [emptyCopies, Expr.supported_concat, Expr.supported_repetition, Expr.supported_capture,
    Expr.supported_alternation, Expr.supported_literal, List.forall_mem_cons]
  exact ⟨Or.inl trivial, Or.inr (Or.inr ⟨Expr.supported_empty, ⟨_, hletter⟩, by simp⟩), by simp⟩

theorem compileExpr_exact_emptyCopies :
    emptyCopies.Ordered ∧ (∀ part, emptyCopies.Uses part → ¬part.Unsupported) ∧
      (∃ m, compileExpr emptyCopies 3 = .ok m ∧ m.tag = 3 ∧
        ∀ w, w ∈ m.language ↔ w ∈ emptyCopies.language) ∧
      ∃ e, compileExpr (.repetition 0 (some 1) true (.look .start)) 3 = .error e := by
  have hordered : emptyCopies.Ordered := by
    simp [emptyCopies, Expr.Ordered, Expr.AllOrdered]
  have hrefused : (Expr.repetition 0 (some 1) true (.look .start)).Ordered := by
    simp [Expr.Ordered]
  exact ⟨hordered, supported_emptyCopies,
    (compileExpr_exact hordered 3).2 supported_emptyCopies,
    (compileExpr_exact hrefused 3).1.mpr
      ⟨_, Expr.Uses.repetition (by simp) (Expr.Uses.self _), Expr.Unsupported.look _⟩⟩

end ShiftReduce.Regex
