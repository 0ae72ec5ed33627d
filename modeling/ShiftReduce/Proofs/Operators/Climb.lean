import ShiftReduce.Conflict.Basic

/-!
# Expressions that obey precedence

Operators stand on levels, and all operators of a level group the same way. `Expression.Obeys` says
what that means for an expression, operator by operator: an operand that is itself an operation
binds tighter than the operator it is an operand of, or stands on its level and on the side to which
the level groups.

A chain of numbers and operators can be put together from left to right with a stack of operators
that still wait for their right operand (`climb`). A waiting operator is compared with the one that
comes next, in the way in which a parser settles a conflict. `climb_eq_some_iff` says that this
gives the obeying expression over the chain, so there is at most one, and that it gives nothing if
there is none.

## Why the stack finds it

An obeying expression put together on top of other waiting operators leaves those of its right-most
path waiting (`Expression.spine`). The next operator closes all of them or none, because comparison
is transitive along the path (`Levels.OnLeft.trans`), so each operand is complete when its operator
takes it.
-/

namespace ShiftReduce.Operators

/-- Operators arranged in levels, the loosest at 0, each of which groups in one way. -/
structure Levels (O : Type) where
  level : O → Nat
  grouping : Nat → Associativity

section Levels

variable {O : Type} (l : Levels O)

/-- Whether `j` can be an operation on the left of `k`. -/
def Levels.OnLeft (k j : O) : Prop :=
  l.level j > l.level k ∨ l.level j = l.level k ∧ l.grouping (l.level k) = .left

/-- Whether `j` can be an operation on the right of `k`. -/
def Levels.OnRight (k j : O) : Prop :=
  l.level j > l.level k ∨ l.level j = l.level k ∧ l.grouping (l.level k) = .right

/-- Compares an operator that waits for its right operand with the one that follows the operand. -/
def Levels.settle (waiting next : O) : Resolution :=
  if l.level waiting > l.level next then .reduce
  else if l.level waiting < l.level next then .shift
  else
    match l.grouping (l.level waiting) with
    | .left => .reduce
    | .right => .shift
    | .nonassoc => .error

variable {l} {i j k : O}

/-- The waiting operation is complete if it can stand on the left of the next. -/
theorem Levels.settle_eq_reduce : l.settle j k = .reduce ↔ l.OnLeft k j := by
  rw [settle, OnLeft]
  split
  · rename_i hgt
    exact iff_of_true rfl (Or.inl hgt)
  · rename_i hle
    split
    · rename_i hlt
      refine iff_of_false (by simp) ?_
      rintro (hgt | ⟨heq, -⟩) <;> omega
    · rename_i hge
      have heq : l.level j = l.level k := by omega
      rw [heq]
      cases l.grouping (l.level k) <;> simp

/-- The waiting operator goes on waiting if the next can stand on its right. -/
theorem Levels.settle_eq_shift : l.settle j k = .shift ↔ l.OnRight j k := by
  rw [settle, OnRight]
  split
  · rename_i hgt
    refine iff_of_false (by simp) ?_
    rintro (hlt | ⟨heq, -⟩) <;> omega
  · rename_i hle
    split
    · rename_i hlt
      exact iff_of_true rfl (Or.inl hlt)
    · rename_i hge
      have heq : l.level j = l.level k := by omega
      rw [heq]
      cases l.grouping (l.level k) <;> simp

/-- All operators stand on a level, so nothing is left to be decided by default. -/
theorem Levels.settle_ne_shiftByDefault : l.settle j k ≠ .shiftByDefault := by
  rw [settle]
  split
  · simp
  · split
    · simp
    · cases l.grouping (l.level j) <;> simp

/-- What is complete before `k` is complete with all that waits on its right. -/
theorem Levels.OnLeft.trans (hj : l.OnLeft k j) (hi : l.OnRight j i) : l.OnLeft k i := by
  rw [OnLeft, OnRight] at *
  rcases hj with hj | ⟨hj, hleft⟩ <;> rcases hi with hi | ⟨hi, hright⟩
  · exact Or.inl (by omega)
  · exact Or.inl (by omega)
  · exact Or.inl (by omega)
  · rw [hj, hleft] at hright
    simp at hright

/-- What waits for `k` waits for all that is complete before it. -/
theorem Levels.OnRight.trans (hk : l.OnRight i k) (hj : l.OnLeft k j) : l.OnRight i j := by
  rw [OnLeft, OnRight] at *
  rcases hk with hk | ⟨hk, hright⟩ <;> rcases hj with hj | ⟨hj, hleft⟩
  · exact Or.inl (by omega)
  · exact Or.inl (by omega)
  · exact Or.inl (by omega)
  · rw [hk, hright] at hleft
    simp at hleft

end Levels

/-! ## Expressions -/

/-- A token of a chain, with its value. -/
inductive Token (O V : Type) where
  | number (value : V)
  | operator (operator : O) (value : V)

/-- Numbers put together by operators, all with their values. -/
inductive Expression (O V : Type) where
  | number (value : V)
  | apply (left : Expression O V) (operator : O) (value : V) (right : Expression O V)

namespace Expression

variable {O V : Type} {l : Levels O}

/-- The tokens of an expression, from left to right. -/
def tokens : Expression O V → List (Token O V)
  | number v => [.number v]
  | apply left k u right => left.tokens ++ .operator k u :: right.tokens

def root? : Expression O V → Option O
  | number _ => none
  | apply _ k _ _ => some k

/-- Every operand that is an operation stands where it can. -/
def Obeys (l : Levels O) : Expression O V → Prop
  | number _ => True
  | apply left k _ right => (∀ j, left.root? = some j → l.OnLeft k j) ∧
      (∀ j, right.root? = some j → l.OnRight k j) ∧ left.Obeys l ∧ right.Obeys l

def first : Expression O V → V
  | number v => v
  | apply left _ _ _ => left.first

/-- What follows the first number: operators, each with its value and the number after it. -/
def rest : Expression O V → List (O × V × V)
  | number _ => []
  | apply left k u right => left.rest ++ (k, u, right.first) :: right.rest

end Expression

def links {O V : Type} (rest : List (O × V × V)) : List (Token O V) :=
  rest.flatMap fun (k, u, v) ↦ [.operator k u, .number v]

/-- A chain of numbers with operators between them. -/
def chain {O V : Type} (first : V) (rest : List (O × V × V)) : List (Token O V) :=
  .number first :: links rest

section Chain

variable {O V : Type} {l : Levels O}

@[simp] theorem chain_nil (v : V) : chain (O := O) v [] = [.number v] := rfl

theorem chain_append_cons (v u w : V) (k : O) (rest more : List (O × V × V)) :
    chain v (rest ++ (k, u, w) :: more) = chain v rest ++ .operator k u :: chain w more := by
  simp [chain, links]

theorem chain_inj {v v' : V} {rest rest' : List (O × V × V)} (h : chain v rest = chain v' rest') :
    v = v' ∧ rest = rest' := by
  obtain ⟨hfirst, hrest⟩ := List.cons.inj h
  refine ⟨Token.number.inj hfirst, ?_⟩
  clear h hfirst
  induction rest generalizing rest' with
  | nil =>
    cases rest' with
    | nil => rfl
    | cons x rest' => simp [links] at hrest
  | cons x rest ih =>
    cases rest' with
    | nil => simp [links] at hrest
    | cons x' rest' =>
      obtain ⟨k, u, w⟩ := x
      obtain ⟨k', u', w'⟩ := x'
      simp only [links, List.flatMap_cons, List.cons_append, List.nil_append, List.cons.injEq,
        Token.operator.injEq, Token.number.injEq] at hrest
      obtain ⟨⟨rfl, rfl⟩, rfl, hrest⟩ := hrest
      rw [ih hrest]

theorem Expression.tokens_eq (e : Expression O V) : e.tokens = chain e.first e.rest := by
  induction e with
  | number v => rfl
  | apply left k u right ihl ihr => rw [tokens, ihl, ihr, first, rest, chain_append_cons]

end Chain

/-! ## Climbing -/

/-- An operator that waits for its right operand, with its left one and its value. -/
structure Waiting (O V : Type) where
  left : Expression O V
  operator : O
  value : V

section Climb

variable {O V : Type} (l : Levels O)

/-- Takes an operator: waiting operators that it finds complete become its left operand. -/
def advance (k : O) (u : V) : List (Waiting O V) → Expression O V → Option (List (Waiting O V))
  | [], e => some [⟨e, k, u⟩]
  | w :: stack, e =>
    match l.settle w.operator k with
    | .reduce => advance k u stack (.apply w.left w.operator w.value e)
    | .shift => some (⟨e, k, u⟩ :: w :: stack)
    | .error | .shiftByDefault => none

def complete : List (Waiting O V) → Expression O V → Expression O V
  | [], e => e
  | w :: stack, e => complete stack (.apply w.left w.operator w.value e)

/-- Puts a chain together, from a stack and the operand on top of it. -/
def climb : List (Waiting O V) → V → List (O × V × V) → Option (Expression O V)
  | stack, v, [] => some (complete stack (.number v))
  | stack, v, (k, u, w) :: rest =>
    (advance l k u stack (.number v)).bind fun stack' ↦ climb stack' w rest

variable {l}

private theorem climb_cons_of_advance {stack stack' : List (Waiting O V)} {k : O} {u v w : V}
    {rest : List (O × V × V)} (h : advance l k u stack (.number v) = some stack') :
    climb l stack v ((k, u, w) :: rest) = climb l stack' w rest := by
  rw [climb, h, Option.bind_some]

/-! ## What is put together obeys -/

/-- Left operands stand where they can, and so does each waiting operator on the right of the one
below it. -/
inductive Ready (l : Levels O) : List (Waiting O V) → Prop
  | nil : Ready l []
  | cons {w : Waiting O V} {stack : List (Waiting O V)} : w.left.Obeys l →
      (∀ j, w.left.root? = some j → l.OnLeft w.operator j) →
      (∀ w' ∈ stack.head?, l.OnRight w'.operator w.operator) → Ready l stack →
      Ready l (w :: stack)

/-- An expression that can be the right operand of the operator on top. -/
structure Fits (l : Levels O) (stack : List (Waiting O V)) (e : Expression O V) : Prop where
  obeys : e.Obeys l
  onRight : ∀ w ∈ stack.head?, ∀ j, e.root? = some j → l.OnRight w.operator j

variable {stack : List (Waiting O V)} {w : Waiting O V} {e : Expression O V}

theorem fits_number (v : V) : Fits l stack (.number v) := by
  refine ⟨trivial, ?_⟩
  intro w _ j hj
  simp [Expression.root?] at hj

/-- Completing the operator on top keeps the stack ready, and what fits still fits. -/
theorem Ready.apply (h : Ready l (w :: stack)) (he : Fits l (w :: stack) e) :
    Ready l stack ∧ Fits l stack (.apply w.left w.operator w.value e) := by
  cases h with
  | cons hleft hroot hbelow hstack =>
    refine ⟨hstack, ⟨hroot, he.onRight w rfl, hleft, he.obeys⟩, ?_⟩
    intro w' hw' j hj
    obtain rfl := Option.some.inj hj
    exact hbelow w' hw'

theorem Ready.advance {k : O} {u : V} (h : Ready l stack) (he : Fits l stack e)
    (hroot : ∀ j, e.root? = some j → l.OnLeft k j) {stack' : List (Waiting O V)}
    (hadvance : advance l k u stack e = some stack') : Ready l stack' := by
  induction stack generalizing e with
  | nil =>
    obtain rfl := Option.some.inj hadvance
    exact Ready.cons he.obeys hroot (by simp) h
  | cons w stack ih =>
    rw [Operators.advance] at hadvance
    split at hadvance
    · rename_i hreduce
      obtain ⟨hstack, hfits⟩ := h.apply he
      refine ih hstack hfits ?_ hadvance
      intro j hj
      obtain rfl := Option.some.inj hj
      exact Levels.settle_eq_reduce.mp hreduce
    · rename_i hshift
      obtain rfl := Option.some.inj hadvance
      refine Ready.cons he.obeys hroot ?_ h
      intro w' hw'
      obtain rfl := Option.some.inj hw'
      exact Levels.settle_eq_shift.mp hshift
    · simp at hadvance
    · simp at hadvance

theorem Ready.complete (h : Ready l stack) (he : Fits l stack e) : (complete stack e).Obeys l := by
  induction stack generalizing e with
  | nil => exact he.obeys
  | cons w stack ih =>
    obtain ⟨hstack, hfits⟩ := h.apply he
    exact ih hstack hfits

/-- The tokens on the stack, the lowest first. -/
def waitingTokens : List (Waiting O V) → List (Token O V)
  | [] => []
  | w :: stack => waitingTokens stack ++ w.left.tokens ++ [.operator w.operator w.value]

private theorem tokens_complete : (complete stack e).tokens = waitingTokens stack ++ e.tokens := by
  induction stack generalizing e with
  | nil => rfl
  | cons w stack ih =>
    rw [complete, ih, Expression.tokens, waitingTokens]
    simp only [List.append_assoc, List.singleton_append]

private theorem tokens_advance {k : O} {u : V} {stack' : List (Waiting O V)}
    (h : advance l k u stack e = some stack') :
    waitingTokens stack' = waitingTokens stack ++ e.tokens ++ [.operator k u] := by
  induction stack generalizing e with
  | nil =>
    obtain rfl := Option.some.inj h
    rfl
  | cons w stack ih =>
    rw [Operators.advance] at h
    split at h
    · rw [ih h, Expression.tokens, waitingTokens]
      simp only [List.append_assoc, List.singleton_append]
    · obtain rfl := Option.some.inj h
      rfl
    · simp at h
    · simp at h

/-- What climbing comes to obeys, and has the tokens of the stack and of the chain. -/
theorem climb_sound (h : Ready l stack) {v : V} {rest : List (O × V × V)} {e : Expression O V}
    (hclimb : climb l stack v rest = some e) :
    e.Obeys l ∧ e.tokens = waitingTokens stack ++ chain v rest := by
  induction rest generalizing stack v with
  | nil =>
    obtain rfl := Option.some.inj hclimb
    exact ⟨h.complete (fits_number v), tokens_complete⟩
  | cons x rest ih =>
    obtain ⟨k, u, w⟩ := x
    obtain ⟨stack', hadvance, hclimb⟩ := Option.bind_eq_some_iff.mp hclimb
    have hready : Ready l stack' := by
      refine h.advance (fits_number v) ?_ hadvance
      intro j hj
      simp [Expression.root?] at hj
    obtain ⟨hobeys, htokens⟩ := ih hready hclimb
    refine ⟨hobeys, ?_⟩
    have hchain : chain v ((k, u, w) :: rest) = .number v :: .operator k u :: chain w rest :=
      chain_append_cons v u w k [] rest
    rw [htokens, tokens_advance hadvance, hchain, Expression.tokens]
    simp only [List.append_assoc, List.cons_append, List.nil_append]

/-! ## What obeys is put together -/

/-- The operations on the right-most path, the last one first, without their right operands. -/
def Expression.spine : Expression O V → List (Waiting O V)
  | number _ => []
  | apply left k u right => right.spine ++ [⟨left, k, u⟩]

def Expression.last : Expression O V → V
  | number v => v
  | apply _ _ _ right => right.last

/-- An operator that finds an expression complete finds all on its right-most path complete. -/
theorem advance_spine {k : O} {u : V} (he : e.Obeys l)
    (hroot : ∀ j, e.root? = some j → l.OnLeft k j) :
    advance l k u (e.spine ++ stack) (.number e.last) = advance l k u stack e := by
  induction e generalizing stack with
  | number v => rfl
  | apply left j u' right _ ih =>
    obtain ⟨-, hright, -, hobeys⟩ := he
    have hj : l.OnLeft k j := hroot j rfl
    have hpath : ∀ i, right.root? = some i → l.OnLeft k i := fun i hi ↦ hj.trans (hright i hi)
    calc advance l k u ((Expression.apply left j u' right).spine ++ stack) (.number right.last)
        = advance l k u (right.spine ++ ⟨left, j, u'⟩ :: stack) (.number right.last) := by
          rw [Expression.spine, List.append_assoc, List.singleton_append]
      _ = advance l k u (⟨left, j, u'⟩ :: stack) right := ih hobeys hpath
      _ = advance l k u stack (.apply left j u' right) := by
          simp only [advance, Levels.settle_eq_reduce.mpr hj]

private theorem complete_spine (e : Expression O V) :
    complete (e.spine ++ stack) (.number e.last) = complete stack e := by
  induction e generalizing stack with
  | number v => rfl
  | apply left j u right _ ih =>
    rw [Expression.spine, List.append_assoc, List.singleton_append, Expression.last, ih, complete]

/-- Climbing over the tokens of an expression that fits leaves its right-most path waiting. -/
theorem climb_of_fits (he : Fits l stack e) (more : List (O × V × V)) :
    climb l stack e.first (e.rest ++ more) = climb l (e.spine ++ stack) e.last more := by
  induction e generalizing stack more with
  | number v => rfl
  | apply left k u right ihl ihr =>
    obtain ⟨⟨hleft, hright, hobeysl, hobeysr⟩, honRight⟩ := he
    have hfitsl : Fits l stack left :=
      ⟨hobeysl, fun w hw j hj ↦ (honRight w hw k rfl).trans (hleft j hj)⟩
    have hfitsr : Fits l (⟨left, k, u⟩ :: stack) right := by
      refine ⟨hobeysr, ?_⟩
      intro w hw j hj
      obtain rfl := Option.some.inj hw
      exact hright j hj
    -- The operator finds the left operand complete and whatever is below it waiting.
    have hadvance : advance l k u (left.spine ++ stack) (.number left.last)
        = some (⟨left, k, u⟩ :: stack) := by
      rw [advance_spine hobeysl hleft]
      cases stack with
      | nil => rfl
      | cons w stack => simp only [advance, Levels.settle_eq_shift.mpr (honRight w rfl k rfl)]
    calc climb l stack left.first ((Expression.apply left k u right).rest ++ more)
        = climb l stack left.first (left.rest ++ (k, u, right.first) :: (right.rest ++ more)) := by
          rw [Expression.rest, List.append_assoc, List.cons_append]
      _ = climb l (left.spine ++ stack) left.last ((k, u, right.first) :: (right.rest ++ more)) :=
          ihl hfitsl _
      _ = climb l (⟨left, k, u⟩ :: stack) right.first (right.rest ++ more) :=
          climb_cons_of_advance hadvance
      _ = climb l (right.spine ++ ⟨left, k, u⟩ :: stack) right.last more := ihr hfitsr _
      _ = climb l ((Expression.apply left k u right).spine ++ stack) right.last more := by
          rw [Expression.spine, List.append_assoc, List.singleton_append]

/-- **Climbing finds the expression that obeys.** It finds it if there is one, and no other. -/
theorem climb_eq_some_iff {v : V} {rest : List (O × V × V)} :
    climb l [] v rest = some e ↔ e.tokens = chain v rest ∧ e.Obeys l := by
  constructor
  · intro h
    obtain ⟨hobeys, htokens⟩ := climb_sound Ready.nil h
    exact ⟨htokens, hobeys⟩
  · rintro ⟨htokens, hobeys⟩
    rw [Expression.tokens_eq] at htokens
    obtain ⟨rfl, rfl⟩ := chain_inj htokens
    have hfits : Fits l [] e := ⟨hobeys, by simp⟩
    have hclimb := climb_of_fits hfits []
    have hcomplete : complete (e.spine ++ []) (.number e.last) = complete [] e := complete_spine e
    rw [List.append_nil] at hclimb
    rw [hclimb, climb, hcomplete, complete]

end Climb

end ShiftReduce.Operators
