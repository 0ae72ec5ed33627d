import Mathlib.Data.Fintype.Card
import Mathlib.Data.Fintype.Sum
import ShiftReduce.Proofs.Conflict.Cells
import ShiftReduce.Proofs.Operators.Climb
import ShiftReduce.Proofs.Parser.Stack

/-!
# The automaton of an operator grammar

An operator grammar (`Operators.Shape`) has an accept rule for an expression, and an expression is a
number or two expressions around a binary operator.

## Kinds of states

However many operators there are, the item sets of its automaton are of five kinds: nothing has been
read, or an expression alone, a number, an operator, or an operator and its right operand (`Kind`).
`closure_advanced` gives the set to which a symbol leads from a set of each kind, so that every
reachable set is of one of them (`exists_kind`). None is ambiguous, and the number of states is
bounded by the number of operators (`Shape.length_states_le`).

## Stacks

The kind of the state on top of a stack depends on the topmost two symbols only. `Shape.Reads` gives
the kind for a stack of symbols, and `Shape.exists_reads` the items of the top state.
-/

namespace ShiftReduce.Operators

open ShiftReduce.Automaton (Canonical)
open ShiftReduce.Parser (Stacked Top)

/-- A grammar whose rules are those of an accept rule for expressions, of numbers, and of an
operator for each member of `O`, with the levels on which the operators stand. -/
structure Shape (g : Grammar) (O : Type) where
  start : Nat
  expression : Nat
  number : Nat
  code : O → Nat
  startRule : Nat
  numberRule : Nat
  ruleOf : O → Nat
  levels : Levels O
  rule?_start : ∃ rule, g.rule? startRule = some rule ∧ rule.lhs = start ∧
    rule.rhs = [.nonterminal expression, .terminal 0] ∧ rule.accept = true
  rule?_number : ∃ rule, g.rule? numberRule = some rule ∧ rule.lhs = expression ∧
    rule.rhs = [.terminal number] ∧ rule.accept = false
  rule?_of : ∀ o, ∃ rule, g.rule? (ruleOf o) = some rule ∧ rule.lhs = expression ∧
    rule.rhs = [.nonterminal expression, .terminal (code o), .nonterminal expression] ∧
    rule.accept = false
  rule_cases : ∀ r rule, g.rule? r = some rule → r = startRule ∨ r = numberRule ∨ ∃ o, r = ruleOf o
  start_ne : start ≠ expression
  number_ne : number ≠ 0
  code_ne : ∀ o, code o ≠ 0 ∧ code o ≠ number
  code_injective : Function.Injective code
  settle_eq : ∀ waiting next, Conflict.settle g (ruleOf next) (ruleOf waiting)
    = levels.settle waiting next

variable {g : Grammar} {O : Type} (sh : Shape g O)

namespace Shape

/-! ## Items -/

private theorem startRule_ne_numberRule : sh.startRule ≠ sh.numberRule := by
  intro heq
  obtain ⟨rule, hrule, -, -, haccept⟩ := sh.rule?_start
  obtain ⟨rule', hrule', -, -, haccept'⟩ := sh.rule?_number
  rw [heq, hrule'] at hrule
  obtain rfl := Option.some.inj hrule
  simp [haccept] at haccept'

theorem startRule_ne_ruleOf (o : O) : sh.startRule ≠ sh.ruleOf o := by
  intro heq
  obtain ⟨rule, hrule, -, -, haccept⟩ := sh.rule?_start
  obtain ⟨rule', hrule', -, -, haccept'⟩ := sh.rule?_of o
  rw [heq, hrule'] at hrule
  obtain rfl := Option.some.inj hrule
  simp [haccept] at haccept'

theorem numberRule_ne_ruleOf (o : O) : sh.numberRule ≠ sh.ruleOf o := by
  intro heq
  obtain ⟨rule, hrule, -, hrhs, -⟩ := sh.rule?_number
  obtain ⟨rule', hrule', -, hrhs', -⟩ := sh.rule?_of o
  rw [heq, hrule'] at hrule
  obtain rfl := Option.some.inj hrule
  simp [hrhs] at hrhs'

private theorem ruleOf_injective : Function.Injective sh.ruleOf := by
  intro o o' heq
  obtain ⟨rule, hrule, -, hrhs, -⟩ := sh.rule?_of o
  obtain ⟨rule', hrule', -, hrhs', -⟩ := sh.rule?_of o'
  rw [heq, hrule'] at hrule
  obtain rfl := Option.some.inj hrule
  rw [hrhs] at hrhs'
  simp only [List.cons.injEq, Symbol.terminal.injEq, and_true, true_and] at hrhs'
  exact sh.code_injective hrhs'

theorem symbol?_eq_some_iff {i : Item} {X : Symbol} : i.symbol? g = some X ↔
    (X = .nonterminal sh.expression ∧ (i = ⟨sh.startRule, 0⟩ ∨
      ∃ o, i = ⟨sh.ruleOf o, 0⟩ ∨ i = ⟨sh.ruleOf o, 2⟩)) ∨
    (X = .terminal 0 ∧ i = ⟨sh.startRule, 1⟩) ∨
    (X = .terminal sh.number ∧ i = ⟨sh.numberRule, 0⟩) ∨
    ∃ o, X = .terminal (sh.code o) ∧ i = ⟨sh.ruleOf o, 1⟩ := by
  obtain ⟨startRule, hstart, -, hstartRhs, -⟩ := sh.rule?_start
  obtain ⟨numberRule, hnumber, -, hnumberRhs, -⟩ := sh.rule?_number
  rw [Item.symbol?_eq_some]
  obtain ⟨r, n⟩ := i
  constructor
  · rintro ⟨rule, hrule, hX⟩
    rcases sh.rule_cases r rule hrule with rfl | rfl | ⟨o, rfl⟩
    · obtain rfl := Option.some.inj (hstart.symm.trans hrule)
      rw [hstartRhs] at hX
      match n, hX with
      | 0, hX => simp at hX; simp [hX]
      | 1, hX => simp at hX; simp [hX]
    · obtain rfl := Option.some.inj (hnumber.symm.trans hrule)
      rw [hnumberRhs] at hX
      match n, hX with
      | 0, hX => simp at hX; simp [hX]
    · obtain ⟨opRule, hop, -, hopRhs, -⟩ := sh.rule?_of o
      obtain rfl := Option.some.inj (hop.symm.trans hrule)
      rw [hopRhs] at hX
      match n, hX with
      | 0, hX => exact Or.inl ⟨by simpa using hX.symm, Or.inr ⟨o, Or.inl rfl⟩⟩
      | 1, hX => exact Or.inr (Or.inr (Or.inr ⟨o, by simpa using hX.symm, rfl⟩))
      | 2, hX => exact Or.inl ⟨by simpa using hX.symm, Or.inr ⟨o, Or.inr rfl⟩⟩
  · rintro (⟨rfl, heq | ⟨o, heq | heq⟩⟩ | ⟨rfl, heq⟩ | ⟨rfl, heq⟩ | ⟨o, rfl, heq⟩)
    · obtain ⟨rfl, rfl⟩ := Item.mk.inj heq
      exact ⟨startRule, hstart, by rw [hstartRhs]; rfl⟩
    · obtain ⟨rfl, rfl⟩ := Item.mk.inj heq
      obtain ⟨opRule, hop, -, hopRhs, -⟩ := sh.rule?_of o
      exact ⟨opRule, hop, by rw [hopRhs]; rfl⟩
    · obtain ⟨rfl, rfl⟩ := Item.mk.inj heq
      obtain ⟨opRule, hop, -, hopRhs, -⟩ := sh.rule?_of o
      exact ⟨opRule, hop, by rw [hopRhs]; rfl⟩
    · obtain ⟨rfl, rfl⟩ := Item.mk.inj heq
      exact ⟨startRule, hstart, by rw [hstartRhs]; rfl⟩
    · obtain ⟨rfl, rfl⟩ := Item.mk.inj heq
      exact ⟨numberRule, hnumber, by rw [hnumberRhs]; rfl⟩
    · obtain ⟨rfl, rfl⟩ := Item.mk.inj heq
      obtain ⟨opRule, hop, -, hopRhs, -⟩ := sh.rule?_of o
      exact ⟨opRule, hop, by rw [hopRhs]; rfl⟩

theorem reads_nonterminal_iff {i : Item} {b : Nat} : i.symbol? g = some (.nonterminal b) ↔
    b = sh.expression ∧ (i = ⟨sh.startRule, 0⟩ ∨
      ∃ o, i = ⟨sh.ruleOf o, 0⟩ ∨ i = ⟨sh.ruleOf o, 2⟩) := by
  rw [sh.symbol?_eq_some_iff]
  simp

theorem reads_eof_iff {i : Item} : i.symbol? g = some (.terminal 0) ↔ i = ⟨sh.startRule, 1⟩ := by
  rw [sh.symbol?_eq_some_iff]
  simp [sh.number_ne.symm, fun o ↦ (sh.code_ne o).1.symm]

theorem reads_number_iff {i : Item} :
    i.symbol? g = some (.terminal sh.number) ↔ i = ⟨sh.numberRule, 0⟩ := by
  rw [sh.symbol?_eq_some_iff]
  simp [sh.number_ne, fun o ↦ (sh.code_ne o).2.symm]

theorem reads_code_iff {i : Item} {o : O} :
    i.symbol? g = some (.terminal (sh.code o)) ↔ i = ⟨sh.ruleOf o, 1⟩ := by
  rw [sh.symbol?_eq_some_iff]
  simp [(sh.code_ne o).1, (sh.code_ne o).2, sh.code_injective.eq_iff]

theorem eq_startRule {r : Nat} {rule : Rule} (hrule : g.rule? r = some rule)
    (haccept : rule.accept = true) : r = sh.startRule := by
  rcases sh.rule_cases r rule hrule with rfl | rfl | ⟨o, rfl⟩
  · rfl
  · obtain ⟨other, hother, -, -, hnot⟩ := sh.rule?_number
    obtain rfl := Option.some.inj (hother.symm.trans hrule)
    simp [haccept] at hnot
  · obtain ⟨other, hother, -, -, hnot⟩ := sh.rule?_of o
    obtain rfl := Option.some.inj (hother.symm.trans hrule)
    simp [haccept] at hnot

theorem accepts_iff {i : Item} : i.Accepts g ↔ i = ⟨sh.startRule, 1⟩ := by
  obtain ⟨rule, hrule, -, hrhs, haccept⟩ := sh.rule?_start
  obtain ⟨r, n⟩ := i
  constructor
  · rintro ⟨rule', hrule', haccept', hlength⟩
    obtain rfl : r = sh.startRule := sh.eq_startRule hrule' haccept'
    obtain rfl := Option.some.inj (hrule.symm.trans hrule')
    rw [hrhs] at hlength
    exact congrArg (Item.mk _) (Nat.succ.inj hlength)
  · intro heq
    obtain ⟨rfl, rfl⟩ := Item.mk.inj heq
    exact ⟨rule, hrule, haccept, by rw [hrhs]; rfl⟩

theorem completed_iff {i : Item} :
    i.Completed g ↔ i = ⟨sh.numberRule, 1⟩ ∨ ∃ o, i = ⟨sh.ruleOf o, 3⟩ := by
  constructor
  · rintro ⟨rule, hrule, hnot, hlength⟩
    obtain ⟨r, n⟩ := i
    rcases sh.rule_cases _ rule hrule with rfl | rfl | ⟨o, rfl⟩
    · obtain ⟨other, hother, -, -, haccept⟩ := sh.rule?_start
      obtain rfl := Option.some.inj (hother.symm.trans hrule)
      simp [haccept] at hnot
    · obtain ⟨other, hother, -, hrhs, -⟩ := sh.rule?_number
      obtain rfl := Option.some.inj (hother.symm.trans hrule)
      rw [hrhs] at hlength
      exact Or.inl (congrArg (Item.mk _) hlength)
    · obtain ⟨other, hother, -, hrhs, -⟩ := sh.rule?_of o
      obtain rfl := Option.some.inj (hother.symm.trans hrule)
      rw [hrhs] at hlength
      exact Or.inr ⟨o, congrArg (Item.mk _) hlength⟩
  · rintro (rfl | ⟨o, rfl⟩)
    · obtain ⟨rule, hrule, -, hrhs, hnot⟩ := sh.rule?_number
      exact ⟨rule, hrule, hnot, by rw [hrhs]; rfl⟩
    · obtain ⟨rule, hrule, -, hrhs, hnot⟩ := sh.rule?_of o
      exact ⟨rule, hrule, hnot, by rw [hrhs]; rfl⟩

/-! ## Closures -/

def begins : Set Item :=
  {i | i = ⟨sh.numberRule, 0⟩ ∨ ∃ o, i = ⟨sh.ruleOf o, 0⟩}

/-- Where an expression has been read and may go on. -/
def continues : Set Item :=
  {i | ∃ o, i = ⟨sh.ruleOf o, 1⟩}

/-- A set that reads an expression is closed by all rules of expressions. -/
theorem closure_of_reads {K : Set Item}
    (h : ∃ i ∈ K, i.symbol? g = some (.nonterminal sh.expression)) :
    Item.closure g K = K ∪ sh.begins := by
  obtain ⟨j, hj, hread⟩ := h
  ext i
  constructor
  · intro hi
    induction hi with
    | kernel hi => exact Or.inl hi
    | @start i b r rule _ hb hrule hlhs _ =>
      obtain ⟨rfl, -⟩ := sh.reads_nonterminal_iff.mp hb
      rcases sh.rule_cases r rule hrule with rfl | rfl | ⟨o, rfl⟩
      · obtain ⟨rule', hrule', hstart, -⟩ := sh.rule?_start
        obtain rfl := Option.some.inj (hrule'.symm.trans hrule)
        exact absurd (hstart.symm.trans hlhs) sh.start_ne
      · exact Or.inr (Or.inl rfl)
      · exact Or.inr (Or.inr ⟨o, rfl⟩)
  · rintro (hi | rfl | ⟨o, rfl⟩)
    · exact Item.Closes.kernel hi
    · obtain ⟨rule, hrule, hlhs, -⟩ := sh.rule?_number
      exact Item.Closes.start (Item.Closes.kernel hj) hread hrule hlhs
    · obtain ⟨rule, hrule, hlhs, -⟩ := sh.rule?_of o
      exact Item.Closes.start (Item.Closes.kernel hj) hread hrule hlhs

/-- A set that reads no expression is closed. -/
theorem closure_of_not_reads {K : Set Item}
    (h : ∀ i ∈ K, i.symbol? g ≠ some (.nonterminal sh.expression)) : Item.closure g K = K := by
  ext i
  constructor
  · intro hi
    induction hi with
    | kernel hi => exact hi
    | start _ hb _ _ ih =>
      obtain ⟨rfl, -⟩ := sh.reads_nonterminal_iff.mp hb
      exact absurd hb (h _ ih)
  · exact Item.Closes.kernel

end Shape

/-! ## Kinds of states -/

/-- What has been read last. -/
inductive Kind (O : Type) where
  /-- Nothing. -/
  | start
  /-- An expression, and nothing before it. -/
  | whole
  /-- A number. -/
  | number
  /-- An operator. -/
  | operator (o : O)
  /-- An expression after an operator. -/
  | operand (o : O)

namespace Shape

def items : Kind O → Set Item
  | .start => {⟨sh.startRule, 0⟩} ∪ sh.begins
  | .whole => {⟨sh.startRule, 1⟩} ∪ sh.continues
  | .number => {⟨sh.numberRule, 1⟩}
  | .operator o => {⟨sh.ruleOf o, 2⟩} ∪ sh.begins
  | .operand o => {⟨sh.ruleOf o, 3⟩} ∪ sh.continues

/-- The kind to which a symbol leads. -/
inductive Leads : Kind O → Symbol → Kind O → Prop
  | start_expression : Leads .start (.nonterminal sh.expression) .whole
  | start_number : Leads .start (.terminal sh.number) .number
  | whole_operator (o : O) : Leads .whole (.terminal (sh.code o)) (.operator o)
  | operator_expression (o : O) : Leads (.operator o) (.nonterminal sh.expression) (.operand o)
  | operator_number (o : O) : Leads (.operator o) (.terminal sh.number) .number
  | operand_operator (o o' : O) : Leads (.operand o) (.terminal (sh.code o')) (.operator o')

theorem closure_startItems : Item.closure g (Item.startItems g) = sh.items .start := by
  obtain ⟨rule, hrule, -, -, haccept⟩ := sh.rule?_start
  have hstart : Item.startItems g = {⟨sh.startRule, 0⟩} := by
    ext i
    constructor
    · rintro ⟨r, rule', hrule', haccept', rfl⟩
      rw [sh.eq_startRule hrule' haccept']
      rfl
    · rintro rfl
      exact ⟨_, rule, hrule, haccept, rfl⟩
  rw [hstart, sh.closure_of_reads]
  · rfl
  · exact ⟨_, rfl, sh.reads_nonterminal_iff.mpr ⟨rfl, Or.inl rfl⟩⟩

/-- The item of a set that reads `X`, one place further, where it is the only one and does not
accept. -/
theorem advanced_eq_singleton {I : Set Item} {X : Symbol} {i : Item} (hi : i ∈ I)
    (hiff : ∀ j : Item, j.symbol? g = some X ↔ j = i) (hnot : ¬i.Accepts g) :
    Item.advanced g I X = {i.advance} := by
  ext j
  constructor
  · rintro ⟨l, -, hread, -, rfl⟩
    rw [(hiff l).mp hread]
    rfl
  · rintro rfl
    exact ⟨i, hi, (hiff i).mpr rfl, hnot, rfl⟩

theorem not_accepts_ruleOf (o : O) (n : Nat) : ¬(⟨sh.ruleOf o, n⟩ : Item).Accepts g := by
  rw [sh.accepts_iff]
  intro heq
  exact sh.startRule_ne_ruleOf o (Item.mk.inj heq).1.symm

/-- An expression that has been read takes one item of its own further, and those of expressions
that begin with it. -/
theorem advanced_expression {i : Item} (hi : i = ⟨sh.startRule, 0⟩ ∨ ∃ o, i = ⟨sh.ruleOf o, 2⟩) :
    Item.advanced g ({i} ∪ sh.begins) (.nonterminal sh.expression)
      = {i.advance} ∪ sh.continues := by
  have hread : i.symbol? g = some (.nonterminal sh.expression) := by
    refine sh.reads_nonterminal_iff.mpr ⟨rfl, ?_⟩
    rcases hi with rfl | ⟨o, rfl⟩
    · exact Or.inl rfl
    · exact Or.inr ⟨o, Or.inr rfl⟩
  have hnot : ¬i.Accepts g := by
    rcases hi with rfl | ⟨o, rfl⟩
    · rw [sh.accepts_iff]
      simp
    · exact sh.not_accepts_ruleOf o 2
  ext j
  constructor
  · rintro ⟨l, rfl | rfl | ⟨o, rfl⟩, hl, -, rfl⟩
    · exact Or.inl rfl
    · rw [sh.reads_number_iff.mpr rfl] at hl
      simp at hl
    · exact Or.inr ⟨o, rfl⟩
  · rintro (rfl | ⟨o, rfl⟩)
    · exact ⟨i, Or.inl rfl, hread, hnot, rfl⟩
    · exact ⟨⟨sh.ruleOf o, 0⟩, Or.inr (Or.inr ⟨o, rfl⟩),
        sh.reads_nonterminal_iff.mpr ⟨rfl, Or.inr ⟨o, Or.inl rfl⟩⟩, sh.not_accepts_ruleOf o 0, rfl⟩

theorem closure_continues {i : Item}
    (hi : i.symbol? g ≠ some (.nonterminal sh.expression)) :
    Item.closure g ({i} ∪ sh.continues) = {i} ∪ sh.continues := by
  refine sh.closure_of_not_reads ?_
  rintro j (rfl | ⟨o, rfl⟩)
  · exact hi
  · rw [sh.reads_code_iff.mpr rfl]
    simp

theorem closure_number : Item.closure g {⟨sh.numberRule, 1⟩} = sh.items .number := by
  refine sh.closure_of_not_reads ?_
  rintro j rfl
  rw [(sh.completed_iff.mpr (Or.inl rfl)).symbol?_eq]
  simp

theorem closure_operator (o : O) :
    Item.closure g {⟨sh.ruleOf o, 2⟩} = sh.items (.operator o) := by
  rw [sh.closure_of_reads]
  · rfl
  · exact ⟨_, rfl, sh.reads_nonterminal_iff.mpr ⟨rfl, Or.inr ⟨o, Or.inr rfl⟩⟩⟩

/-- **Where a symbol leads.** -/
theorem closure_advanced {k k' : Kind O} {X : Symbol} (h : sh.Leads k X k') :
    Item.closure g (Item.advanced g (sh.items k) X) = sh.items k' := by
  have hnumber : ¬(⟨sh.numberRule, 0⟩ : Item).Accepts g := by
    rw [sh.accepts_iff]
    simp
  have honly : ∀ j : Item, j.symbol? g = some (.terminal sh.number) ↔ j = ⟨sh.numberRule, 0⟩ :=
    fun j ↦ sh.reads_number_iff
  cases h with
  | start_expression =>
    rw [items, sh.advanced_expression (Or.inl rfl)]
    refine sh.closure_continues ?_
    rw [Item.advance, sh.reads_eof_iff.mpr rfl]
    simp
  | start_number =>
    rw [advanced_eq_singleton (Or.inr (Or.inl rfl)) honly hnumber]
    exact sh.closure_number
  | whole_operator o =>
    rw [advanced_eq_singleton (Or.inr ⟨o, rfl⟩) (fun j ↦ sh.reads_code_iff)
      (sh.not_accepts_ruleOf o 1)]
    exact sh.closure_operator o
  | operator_expression o =>
    rw [items, sh.advanced_expression (Or.inr ⟨o, rfl⟩)]
    refine sh.closure_continues ?_
    rw [Item.advance, (sh.completed_iff.mpr (Or.inr ⟨o, rfl⟩)).symbol?_eq]
    simp
  | operator_number o =>
    rw [advanced_eq_singleton (Or.inr (Or.inl rfl)) honly hnumber]
    exact sh.closure_number
  | operand_operator o o' =>
    rw [advanced_eq_singleton (Or.inr ⟨o', rfl⟩) (fun j ↦ sh.reads_code_iff)
      (sh.not_accepts_ruleOf o' 1)]
    exact sh.closure_operator o'

theorem exists_leads {k : Kind O} {X : Symbol} {i : Item} (hi : i ∈ sh.items k)
    (hread : i.symbol? g = some X) (hnot : ¬i.Accepts g) : ∃ k', sh.Leads k X k' := by
  have hcontinues : i ∈ sh.continues → ∃ o, X = .terminal (sh.code o) := by
    rintro ⟨o, rfl⟩
    rw [sh.reads_code_iff.mpr rfl] at hread
    exact ⟨o, (Option.some.inj hread).symm⟩
  have hbegins : i ∈ sh.begins → X = .terminal sh.number ∨ X = .nonterminal sh.expression := by
    rintro (rfl | ⟨o, rfl⟩)
    · rw [sh.reads_number_iff.mpr rfl] at hread
      exact Or.inl (Option.some.inj hread).symm
    · rw [sh.reads_nonterminal_iff.mpr ⟨rfl, Or.inr ⟨o, Or.inl rfl⟩⟩] at hread
      exact Or.inr (Option.some.inj hread).symm
  cases k with
  | start =>
    rcases hi with rfl | hi
    · rw [sh.reads_nonterminal_iff.mpr ⟨rfl, Or.inl rfl⟩] at hread
      obtain rfl := Option.some.inj hread
      exact ⟨_, Leads.start_expression⟩
    · rcases hbegins hi with rfl | rfl
      · exact ⟨_, Leads.start_number⟩
      · exact ⟨_, Leads.start_expression⟩
  | whole =>
    rcases hi with rfl | hi
    · exact absurd (sh.accepts_iff.mpr rfl) hnot
    · obtain ⟨o, rfl⟩ := hcontinues hi
      exact ⟨_, Leads.whole_operator o⟩
  | number =>
    obtain rfl : i = ⟨sh.numberRule, 1⟩ := hi
    rw [(sh.completed_iff.mpr (Or.inl rfl)).symbol?_eq] at hread
    simp at hread
  | operator o =>
    rcases hi with rfl | hi
    · rw [sh.reads_nonterminal_iff.mpr ⟨rfl, Or.inr ⟨o, Or.inr rfl⟩⟩] at hread
      obtain rfl := Option.some.inj hread
      exact ⟨_, Leads.operator_expression o⟩
    · rcases hbegins hi with rfl | rfl
      · exact ⟨_, Leads.operator_number o⟩
      · exact ⟨_, Leads.operator_expression o⟩
  | operand o =>
    rcases hi with rfl | hi
    · rw [(sh.completed_iff.mpr (Or.inr ⟨o, rfl⟩)).symbol?_eq] at hread
      simp at hread
    · obtain ⟨o', rfl⟩ := hcontinues hi
      exact ⟨_, Leads.operand_operator o o'⟩

/-- **The item sets of an operator grammar** are of five kinds. -/
theorem exists_kind {I : Set Item} (h : Item.Reachable g I) : ∃ k, I = sh.items k := by
  induction h with
  | start => exact ⟨.start, sh.closure_startItems⟩
  | advance _ hne ih =>
    obtain ⟨k, rfl⟩ := ih
    obtain ⟨_, i, hi, hread, hnot, rfl⟩ := hne
    obtain ⟨k', hleads⟩ := sh.exists_leads hi hread hnot
    exact ⟨k', sh.closure_advanced hleads⟩

/-! ## No set is ambiguous -/

theorem completed_mem_iff {k : Kind O} {i : Item} (hi : i ∈ sh.items k) : i.Completed g ↔
    (k = .number ∧ i = ⟨sh.numberRule, 1⟩) ∨ ∃ o, k = .operand o ∧ i = ⟨sh.ruleOf o, 3⟩ := by
  rw [sh.completed_iff]
  constructor
  · rintro (rfl | ⟨o, rfl⟩)
    · cases k with
      | number => exact Or.inl ⟨rfl, rfl⟩
      | start | whole | operator | operand =>
        rcases hi with hi | hi <;>
          simp [begins, continues, sh.startRule_ne_numberRule.symm, sh.numberRule_ne_ruleOf] at hi
    · cases k with
      | number =>
        have hne := sh.numberRule_ne_ruleOf o
        simp [items, hne.symm] at hi
      | operand o' =>
        refine Or.inr ⟨o, ?_, rfl⟩
        rcases hi with hi | ⟨o'', hi⟩
        · rw [sh.ruleOf_injective (Item.mk.inj hi).1]
        · simp at hi
      | start | whole | operator =>
        rcases hi with hi | hi <;> simp [begins, continues] at hi
  · rintro (⟨-, rfl⟩ | ⟨o, -, rfl⟩)
    · exact Or.inl rfl
    · exact Or.inr ⟨o, rfl⟩

include sh in
theorem not_ambiguous {I : Set Item} (h : Item.Reachable g I) : ¬Item.Ambiguous g I := by
  obtain ⟨k, rfl⟩ := sh.exists_kind h
  rintro (⟨i, hi, j, hj, hne, hci, hcj⟩ | ⟨i, -, j, -, hne, hai, hread⟩)
  · rcases (sh.completed_mem_iff hi).mp hci with ⟨rfl, rfl⟩ | ⟨o, rfl, rfl⟩
    · rcases (sh.completed_mem_iff hj).mp hcj with ⟨-, rfl⟩ | ⟨o, hk, -⟩
      · exact hne rfl
      · simp at hk
    · rcases (sh.completed_mem_iff hj).mp hcj with ⟨hk, -⟩ | ⟨o', hk, rfl⟩
      · simp at hk
      · obtain rfl := Kind.operand.inj hk
        exact hne rfl
  · rw [sh.accepts_iff.mp hai, sh.reads_eof_iff.mp hread] at hne
    exact hne rfl

/-! ## How many states there are -/

end Shape

/-- A kind among two for each operator and three more. -/
def Kind.index : Kind O → Fin 3 ⊕ (O ⊕ O)
  | .start => .inl 0
  | .whole => .inl 1
  | .number => .inl 2
  | .operator o => .inr (.inl o)
  | .operand o => .inr (.inr o)

theorem Kind.index_injective : Function.Injective (Kind.index (O := O)) := by
  intro k k' h
  cases k <;> cases k' <;> simp_all [index]

include sh in
theorem Shape.length_states_le [Fintype O] {a : Automaton} (ha : Canonical g a) :
    a.states.length ≤ 2 * Fintype.card O + 3 := by
  have hkind : ∀ n : Fin a.states.length, ∃ k, itemsOf a.states[n].itemSet = sh.items k :=
    fun n ↦ sh.exists_kind ((ha.mem_iff _).mp ⟨_, List.getElem_mem n.isLt, rfl⟩)
  choose kind hkind using hkind
  have hinjective : Function.Injective (fun n ↦ (kind n).index) := by
    intro m n h
    have heq : kind m = kind n := Kind.index_injective h
    have hitems : itemsOf a.states[m].itemSet = itemsOf a.states[n].itemSet := by
      rw [hkind m, hkind n, heq]
    exact Fin.ext (ha.injective m n _ _ (List.getElem?_eq_getElem m.isLt)
      (List.getElem?_eq_getElem n.isLt) hitems)
  have hcard := Fintype.card_le_of_injective _ hinjective
  rw [Fintype.card_fin, Fintype.card_sum, Fintype.card_sum, Fintype.card_fin] at hcard
  omega

/-! ## The top of a stack -/

/-- The symbols on a stack and the kind of its top state. -/
inductive Shape.Reads : List Symbol → Kind O → Prop
  | start : Reads [] .start
  | push {symbols : List Symbol} {k k' : Kind O} {X : Symbol} :
      Reads symbols k → sh.Leads k X k' → Reads (X :: symbols) k'

/-- The items of the top state are those of the kind that the symbols lead to. -/
theorem Shape.exists_reads {a : Automaton} (ha : Canonical g a) {states : List Nat}
    {symbols : List Symbol} (h : Stacked g a states symbols) {s : State} (htop : Top a states s) :
    ∃ k, sh.Reads symbols k ∧ itemsOf s.itemSet = sh.items k := by
  induction h generalizing s with
  | start =>
    obtain ⟨t, ht, hitems⟩ := ha.start
    obtain rfl := htop.unique ⟨0, rfl, ht⟩
    exact ⟨.start, Reads.start, hitems.trans sh.closure_startItems⟩
  | @push states symbols X q u u' _ hu hedge ih =>
    obtain rfl := htop.unique ⟨q, rfl, hedge.target⟩
    obtain ⟨k, hreads, hitems⟩ := ih hu
    obtain ⟨i, hi, hX, hnot⟩ := hedge.reads
    have hmem : i ∈ itemsOf u.itemSet := hi
    rw [hitems] at hmem
    obtain ⟨k', hleads⟩ := sh.exists_leads hmem hX hnot
    refine ⟨k', Reads.push hreads hleads, ?_⟩
    rw [hedge.itemsOf_eq, hitems, sh.closure_advanced hleads]

end ShiftReduce.Operators
