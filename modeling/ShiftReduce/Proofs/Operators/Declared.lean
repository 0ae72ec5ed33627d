import Mathlib.Data.List.Nodup
import ShiftReduce.Proofs.Grammar.Faithful
import ShiftReduce.Proofs.Operators.States

/-!
# Declaring an operator grammar

An operator grammar is given by its names (`Operators.Names`): those of the start, of expressions,
of numbers and of the operators. `Names.Declares` says that declarations are those of such a
grammar: terminals and rules in any order, every operator on one level of precedence, and the levels
in any arrangement. There may be any number of operators and of levels.

## What is made of them

Such declarations contradict themselves nowhere, so they make a grammar, and the grammar has the
shape that the analysis of its automaton starts from (`Names.Declares.shape`).

Terminals and rules are found again by their places among those declared, and an operator stands on
the level at which its name was declared. A rule has no precedence of its own here: it has that of
its only terminal, which is how the level of an operator becomes that of its rule.
-/

namespace ShiftReduce.Operators

/-- The names of an operator grammar. -/
structure Names where
  start : String
  expression : String
  number : String
  operators : List String

namespace Names

abbrev Operator (o : Names) : Type :=
  {name : String // name ∈ o.operators}

/-- The right-hand side of the accept rule. -/
def wholeSide (o : Names) : List String :=
  [o.expression, eofName]

/-- The right-hand side of the rule of numbers. -/
def numberSide (o : Names) : List String :=
  [o.number]

/-- The right-hand side of the rule of an operator. -/
def operatorSide (o : Names) (name : String) : List String :=
  [o.expression, name, o.expression]

def rules (o : Names) : List (String × List String) :=
  (o.start, o.wholeSide) :: (o.expression, o.numberSide) ::
    o.operators.map fun name ↦ (o.expression, o.operatorSide name)

/-- The declarations are those of the operator grammar, in any order. -/
structure Declares (o : Names) (d : Declarations) : Prop where
  names : (eofName :: o.start :: o.expression :: o.number :: o.operators).Nodup
  settings : d.settings.validate = .ok ()
  terminals : (d.terminals.map (·.name)).Perm (o.number :: o.operators)
  /-- Every operator stands on one level. -/
  members : (d.precedence.flatMap (·.members)).Perm o.operators
  keywords : ∀ p ∈ d.precedence, ∃ a, Associativity.ofKeyword p.keyword = .ok a
  rules : (d.rules.map fun rule ↦ (rule.lhs, rule.rhs)).Perm o.rules
  /-- Rules have the precedence of their operators. -/
  borrowed : ∀ rule ∈ d.rules, rule.precedence = none
  accepts : d.accepts = [o.start]

/-- The number of a terminal is its place among those declared, the end of input first. -/
def terminalNumber (d : Declarations) (name : String) : Nat :=
  d.terminalNames.idxOf name

/-- The number of a rule is its place among those declared. -/
def ruleNumber (d : Declarations) (rhs : List String) : Nat :=
  (d.rules.map (·.rhs)).idxOf rhs

/-- How operators of a declared level group. -/
def groupingOf (p : PrecedenceDecl) : Associativity :=
  match Associativity.ofKeyword p.keyword with
  | .ok a => a
  | .error _ => .nonassoc

/-- The levels as declared, the loosest first. -/
def levels (o : Names) (d : Declarations) : Levels o.Operator where
  level op := d.precedence.findIdx (op.1 ∈ ·.members)
  grouping i := ((d.precedence[i]?).map groupingOf).getD .nonassoc

variable {o : Names} {d : Declarations}

/-! ## Rules by their sides -/

section Rules

theorem mem_rules {lhs : String} {rhs : List String} : (lhs, rhs) ∈ o.rules ↔
    (lhs = o.start ∧ rhs = o.wholeSide) ∨ (lhs = o.expression ∧ rhs = o.numberSide) ∨
      ∃ op : o.Operator, lhs = o.expression ∧ rhs = o.operatorSide op.1 := by
  rw [rules, List.mem_cons, List.mem_cons, List.mem_map, Prod.mk.injEq, Prod.mk.injEq]
  refine or_congr_right (or_congr_right ?_)
  constructor
  · rintro ⟨name, hname, heq⟩
    obtain ⟨rfl, rfl⟩ := Prod.mk.inj heq
    exact ⟨⟨name, hname⟩, rfl, rfl⟩
  · rintro ⟨⟨name, hname⟩, rfl, rfl⟩
    exact ⟨name, hname, rfl⟩

private theorem operatorSide_injective : Function.Injective o.operatorSide := by
  intro name name' h
  simpa [operatorSide] using h

variable (h : o.Declares d)

include h

theorem Declares.nodup_operators : o.operators.Nodup := by
  have hnames := h.names
  simp only [List.nodup_cons] at hnames
  exact hnames.2.2.2.2

theorem Declares.nodup_sides : (d.rules.map (·.rhs)).Nodup := by
  have hperm : (d.rules.map (·.rhs)).Perm (o.rules.map Prod.snd) := by
    have hmap := h.rules.map Prod.snd
    rwa [List.map_map] at hmap
  rw [hperm.nodup_iff, Names.rules, List.map_cons, List.map_cons, List.map_map, List.nodup_cons,
    List.nodup_cons]
  refine ⟨?_, ?_, h.nodup_operators.map operatorSide_injective⟩
  · simp [wholeSide, numberSide, operatorSide]
  · simp [numberSide, operatorSide]

theorem Declares.ruleNumber_eq {r : Nat} {decl : RuleDecl} (hr : d.rules[r]? = some decl) :
    ruleNumber d decl.rhs = r := by
  have hside : (d.rules.map (·.rhs))[r]? = some decl.rhs := by
    rw [List.getElem?_map, hr, Option.map_some]
  obtain ⟨hlt, heq⟩ := List.getElem?_eq_some_iff.mp hside
  rw [ruleNumber, ← heq, h.nodup_sides.idxOf_getElem]

/-- Every rule of the grammar is declared, at the place that its number says. -/
theorem Declares.exists_rule {lhs : String} {rhs : List String} (hmem : (lhs, rhs) ∈ o.rules) :
    ∃ decl, d.rules[ruleNumber d rhs]? = some decl ∧ decl.lhs = lhs ∧ decl.rhs = rhs ∧
      decl.precedence = none := by
  obtain ⟨decl, hdecl, heq⟩ := List.mem_map.mp (h.rules.mem_iff.mpr hmem)
  obtain ⟨rfl, rfl⟩ := Prod.mk.inj heq
  obtain ⟨i, hi⟩ := List.mem_iff_getElem?.mp hdecl
  exact ⟨decl, (h.ruleNumber_eq hi).symm ▸ hi, rfl, rfl, h.borrowed decl hdecl⟩

theorem Declares.mem_rules {decl : RuleDecl} (hdecl : decl ∈ d.rules) :
    (decl.lhs, decl.rhs) ∈ o.rules :=
  h.rules.mem_iff.mp (List.mem_map.mpr ⟨decl, hdecl, rfl⟩)

end Rules

/-! ## The declarations are consistent -/

section Consistent

variable (h : o.Declares d)

include h

theorem Declares.mem_terminalNames {name : String} :
    name ∈ d.terminalNames ↔ name = eofName ∨ name = o.number ∨ name ∈ o.operators := by
  rw [Builder.terminalNames, List.mem_cons, h.terminals.mem_iff, List.mem_cons]

theorem Declares.nodup_terminalNames : d.terminalNames.Nodup := by
  have hnames := h.names
  rw [Builder.terminalNames, (h.terminals.cons eofName).nodup_iff]
  exact hnames.sublist
    (((List.sublist_cons_self _ _).trans (List.sublist_cons_self _ _)).cons_cons _)

theorem Declares.not_terminal {name : String} (hname : name = o.start ∨ name = o.expression) :
    name ∉ d.terminalNames := by
  have hnames := h.names
  simp only [List.nodup_cons, List.mem_cons, not_or] at hnames
  rw [h.mem_terminalNames]
  rcases hname with rfl | rfl
  · rintro (heq | heq | hmem)
    · exact hnames.1.1 heq.symm
    · exact hnames.2.1.2.1 heq
    · exact hnames.2.1.2.2 hmem
  · rintro (heq | heq | hmem)
    · exact hnames.1.2.1 heq.symm
    · exact hnames.2.2.1.1 heq
    · exact hnames.2.2.1.2 hmem

theorem Declares.start_ne : o.start ≠ o.expression := by
  have hnames := h.names
  simp only [List.nodup_cons, List.mem_cons, not_or] at hnames
  exact hnames.2.1.1

theorem Declares.number_ne : o.number ≠ eofName := by
  have hnames := h.names
  simp only [List.nodup_cons, List.mem_cons, not_or] at hnames
  exact fun heq ↦ hnames.1.2.2.1 heq.symm

theorem Declares.operator_ne (op : o.Operator) : op.1 ≠ eofName ∧ op.1 ≠ o.number := by
  have hnames := h.names
  simp only [List.nodup_cons, List.mem_cons, not_or] at hnames
  exact ⟨fun heq ↦ hnames.1.2.2.2 (heq ▸ op.2), fun heq ↦ hnames.2.2.2.1 (heq ▸ op.2)⟩

omit h in
@[simp] theorem terminalNumber_eof : terminalNumber d eofName = 0 :=
  List.idxOf_cons_self

theorem Declares.terminalNumber_inj {name name' : String}
    (hname : name = eofName ∨ name = o.number ∨ name ∈ o.operators) :
    terminalNumber d name = terminalNumber d name' ↔ name = name' :=
  List.idxOf_inj (h.mem_terminalNames.mpr hname)

theorem Declares.accept_rule : ∃ rule, d.rules.filter (·.lhs = o.start) = [rule] ∧
    rule.rhs = o.wholeSide := by
  have hperm := h.rules.filter (·.1 = o.start)
  have hone : o.rules.filter (·.1 = o.start) = [(o.start, o.wholeSide)] := by
    rw [Names.rules, List.filter_cons_of_pos (by simp),
      List.filter_cons_of_neg (by simp [h.start_ne.symm]), List.filter_eq_nil_iff.mpr]
    simp [h.start_ne.symm]
  rw [hone, List.perm_singleton, List.filter_map, List.map_eq_singleton_iff] at hperm
  obtain ⟨rule, hrule, heq⟩ := hperm
  exact ⟨rule, hrule, congrArg Prod.snd heq⟩

/-- **Declarations of an operator grammar contradict themselves nowhere.** -/
theorem Declares.consistent : d.Consistent where
  terminals := h.nodup_terminalNames
  keywords := fun p hp ↦ Builder.exists_ofKeyword_iff.mp (h.keywords p hp)
  members := h.members.nodup_iff.mpr h.nodup_operators
  lhs := by
    intro rule hrule
    refine h.not_terminal ?_
    rcases Names.mem_rules.mp (h.mem_rules hrule) with ⟨hlhs, -⟩ | ⟨hlhs, -⟩ | ⟨-, hlhs, -⟩
    · exact Or.inl hlhs
    · exact Or.inr hlhs
    · exact Or.inr hlhs
  rhs := by
    intro rule hrule name hname hnot
    have hexpression : name = o.expression := by
      rw [h.mem_terminalNames, not_or, not_or] at hnot
      rcases Names.mem_rules.mp (h.mem_rules hrule) with ⟨-, hrhs⟩ | ⟨-, hrhs⟩ | ⟨op, -, hrhs⟩
      · simpa [hrhs, wholeSide, hnot.1] using hname
      · simp [hrhs, numberSide, hnot.2.1] at hname
      · have hne : name ≠ op.1 := fun heq ↦ hnot.2.2 (heq ▸ op.2)
        simpa [hrhs, operatorSide, hne] using hname
    obtain ⟨decl, hdecl, hlhs, -⟩ :=
      h.exists_rule (Names.mem_rules.mpr (Or.inr (Or.inl ⟨rfl, rfl⟩)))
    exact ⟨decl, List.mem_of_getElem? hdecl, hlhs.trans hexpression.symm⟩
  borrowed := by
    intro rule hrule name hname
    simp [h.borrowed rule hrule] at hname
  accepts_ne := by simp [h.accepts]
  accepts_nodup := by simp [h.accepts]
  accept_rule := by
    intro name hname
    rw [h.accepts, List.mem_singleton] at hname
    obtain ⟨rule, hrule, hrhs⟩ := h.accept_rule
    exact ⟨rule, hname ▸ hrule, by rw [hrhs]; rfl⟩

end Consistent

/-! ## The shape of the grammar -/

section Shape

variable {g : Grammar} (h : o.Declares d) (hg : d.Image g)

include h

theorem Declares.findTerminal?_eq (hg : d.Image g) {name : String}
    (hname : name ∈ d.terminalNames) :
    Builder.findTerminal? g.terminals name = some (terminalNumber d name) := by
  refine (Builder.findTerminal?_eq_some_iff hg.terminals_eq hg.numbered_terminals
    h.nodup_terminalNames).mpr ?_
  have hlt := List.idxOf_lt_length_of_mem hname
  rw [terminalNumber, List.getElem?_eq_getElem hlt, List.getElem_idxOf hlt]

theorem Declares.symbolOf_terminal (hg : d.Image g) {name : String}
    (hname : name ∈ d.terminalNames) :
    Builder.symbolOf g.terminals g.nonterminals name = .terminal (terminalNumber d name) :=
  Builder.symbolOf_terminal (h.findTerminal?_eq hg hname)

theorem Declares.exists_nonterminal (hg : d.Image g) {lhs : String} {rhs : List String}
    (hmem : (lhs, rhs) ∈ o.rules) : ∃ a, g.nonterminal? lhs = some a := by
  obtain ⟨decl, hdecl, hlhs, -⟩ := h.exists_rule hmem
  exact Builder.exists_findNonTerminal? ((hg.names.named_iff _).mpr
    ⟨decl, List.mem_of_getElem? hdecl, Or.inl hlhs.symm⟩)

theorem Declares.symbolOf_expression (hg : d.Image g) :
    Builder.symbolOf g.terminals g.nonterminals o.expression
      = .nonterminal ((g.nonterminal? o.expression).getD 0) := by
  have hnone : Builder.findTerminal? g.terminals o.expression = none :=
    (Builder.findTerminal?_eq_none_iff hg.terminals_eq).mpr (h.not_terminal (Or.inr rfl))
  obtain ⟨a, ha⟩ := h.exists_nonterminal hg (Names.mem_rules.mpr (Or.inr (Or.inl ⟨rfl, rfl⟩)))
  rw [ha, Option.getD_some]
  exact Builder.symbolOf_nonterminal hnone ha

theorem Declares.exists_rule? (hg : d.Image g) {lhs : String} {rhs : List String}
    (hmem : (lhs, rhs) ∈ o.rules) : ∃ rule, g.rule? (ruleNumber d rhs) = some rule ∧
      rule.lhs = (g.nonterminal? lhs).getD 0 ∧
      rule.rhs = rhs.map (Builder.symbolOf g.terminals g.nonterminals) ∧
      rule.accept = decide (lhs = o.start) ∧
      rule.precedence = (rhs.reverse.find? fun name ↦
        (Builder.findTerminal? g.terminals name).isSome).bind
          (Builder.findLevel? g.precedence) := by
  obtain ⟨decl, hdecl, rfl, rfl, hprecedence⟩ := h.exists_rule hmem
  obtain ⟨level, hlevel, hrule⟩ := hg.rule_eq _ decl hdecl
  rw [Builder.levelOf, hprecedence] at hlevel
  refine ⟨_, hrule, rfl, rfl, ?_, (Except.ok.inj hlevel).symm⟩
  simp only [h.accepts, List.mem_singleton]

theorem Declares.exists_precedence (hg : d.Image g) (op : o.Operator) : ∃ p,
    g.rulePrecedence? (ruleNumber d (o.operatorSide op.1)) = some p ∧
      p.level = (o.levels d).level op + 1 ∧
      p.associativity = (o.levels d).grouping ((o.levels d).level op) := by
  obtain ⟨rule, hrule, -, -, -, hprecedence⟩ :=
    h.exists_rule? hg (Names.mem_rules.mpr (Or.inr (Or.inr ⟨op, rfl, rfl⟩)))
  -- The right-most terminal of the rule is the operator.
  have hexpression : Builder.findTerminal? g.terminals o.expression = none :=
    (Builder.findTerminal?_eq_none_iff hg.terminals_eq).mpr (h.not_terminal (Or.inr rfl))
  have hoperator := h.findTerminal?_eq hg (h.mem_terminalNames.mpr (Or.inr (Or.inr op.2)))
  have hside : (o.operatorSide op.1).reverse = [o.expression, op.1, o.expression] := rfl
  rw [hside, List.find?_cons_of_neg (by simp [hexpression]),
    List.find?_cons_of_pos (by simp [hoperator]), Option.bind_some,
    hg.levels.findLevel?_eq] at hprecedence
  obtain ⟨decl, hdecl, hmem⟩ := List.mem_flatMap.mp (h.members.mem_iff.mpr op.2)
  have hlt : d.precedence.findIdx (op.1 ∈ ·.members) < d.precedence.length :=
    List.findIdx_lt_length_of_exists ⟨decl, hdecl, decide_eq_true hmem⟩
  rw [List.findIdx?_eq_some_of_exists ⟨decl, hdecl, decide_eq_true hmem⟩] at hprecedence
  have hlt' : d.precedence.findIdx (op.1 ∈ ·.members) < g.precedence.length :=
    hg.levels.forall₂.length_eq ▸ hlt
  have hget := List.getElem?_eq_getElem hlt'
  refine ⟨_, ?_, hg.levels.level_eq _ _ hget, ?_⟩
  · rw [Grammar.rulePrecedence?, hrule, Option.bind_eq_bind, Option.bind_some, hprecedence,
      Option.bind_eq_bind, Option.bind_some, hget]
  · have hof := hg.levels.forall₂.get hlt hlt'
    show _ = ((d.precedence[d.precedence.findIdx (op.1 ∈ ·.members)]?).map
      groupingOf).getD .nonassoc
    rw [List.getElem?_eq_getElem hlt, Option.map_some, Option.getD_some, groupingOf]
    have hkeyword := hof.associativity
    simp only [List.get_eq_getElem] at hkeyword
    rw [hkeyword]

theorem Declares.settle_eq (hg : d.Image g) (waiting next : o.Operator) :
    Conflict.settle g (ruleNumber d (o.operatorSide next.1))
      (ruleNumber d (o.operatorSide waiting.1)) = (o.levels d).settle waiting next := by
  obtain ⟨p, hp, hlevel, hgrouping⟩ := h.exists_precedence hg waiting
  obtain ⟨q, hq, hlevel', -⟩ := h.exists_precedence hg next
  simp only [Conflict.settle, hp, hq, hlevel, hlevel', hgrouping, gt_iff_lt,
    Nat.add_lt_add_iff_right]
  rfl

/-- **The grammar has the shape of an operator grammar.** -/
def Declares.shape (hg : d.Image g) : Shape g o.Operator where
  start := (g.nonterminal? o.start).getD 0
  expression := (g.nonterminal? o.expression).getD 0
  number := terminalNumber d o.number
  code op := terminalNumber d op.1
  startRule := ruleNumber d o.wholeSide
  numberRule := ruleNumber d o.numberSide
  ruleOf op := ruleNumber d (o.operatorSide op.1)
  levels := o.levels d
  rule?_start := by
    obtain ⟨rule, hrule, hlhs, hrhs, haccept, -⟩ :=
      h.exists_rule? hg (Names.mem_rules.mpr (Or.inl ⟨rfl, rfl⟩))
    refine ⟨rule, hrule, hlhs, ?_, by rw [haccept, decide_eq_true rfl]⟩
    rw [hrhs, wholeSide, List.map_cons, List.map_singleton, h.symbolOf_expression hg,
      Builder.symbolOf_eof hg.terminals_eq hg.numbered_terminals h.nodup_terminalNames]
    rfl
  rule?_number := by
    obtain ⟨rule, hrule, hlhs, hrhs, haccept, -⟩ :=
      h.exists_rule? hg (Names.mem_rules.mpr (Or.inr (Or.inl ⟨rfl, rfl⟩)))
    refine ⟨rule, hrule, hlhs, ?_, by rw [haccept, decide_eq_false h.start_ne.symm]⟩
    rw [hrhs, numberSide, List.map_singleton,
      h.symbolOf_terminal hg (h.mem_terminalNames.mpr (Or.inr (Or.inl rfl)))]
  rule?_of := by
    intro op
    obtain ⟨rule, hrule, hlhs, hrhs, haccept, -⟩ :=
      h.exists_rule? hg (Names.mem_rules.mpr (Or.inr (Or.inr ⟨op, rfl, rfl⟩)))
    refine ⟨rule, hrule, hlhs, ?_, by rw [haccept, decide_eq_false h.start_ne.symm]⟩
    rw [hrhs, operatorSide, List.map_cons, List.map_cons, List.map_singleton,
      h.symbolOf_expression hg,
      h.symbolOf_terminal hg (h.mem_terminalNames.mpr (Or.inr (Or.inr op.2)))]
  rule_cases := by
    intro r rule hrule
    have hlt : r < d.rules.length := hg.length_rules ▸ (List.getElem?_eq_some_iff.mp hrule).1
    have hr := List.getElem?_eq_getElem hlt
    have hnumber := h.ruleNumber_eq hr
    rcases Names.mem_rules.mp (h.mem_rules (List.getElem_mem hlt)) with
      ⟨-, hrhs⟩ | ⟨-, hrhs⟩ | ⟨op, -, hrhs⟩
    · exact Or.inl (by rw [← hnumber, hrhs])
    · exact Or.inr (Or.inl (by rw [← hnumber, hrhs]))
    · exact Or.inr (Or.inr ⟨op, by rw [← hnumber, hrhs]⟩)
  start_ne := by
    intro heq
    obtain ⟨a, ha⟩ := h.exists_nonterminal hg (Names.mem_rules.mpr (Or.inl ⟨rfl, rfl⟩))
    obtain ⟨b, hb⟩ := h.exists_nonterminal hg (Names.mem_rules.mpr (Or.inr (Or.inl ⟨rfl, rfl⟩)))
    rw [ha, hb, Option.getD_some, Option.getD_some] at heq
    rw [Grammar.nonterminal?, Builder.map_find?_eq_some_iff hg.numbered_nonterminals
      hg.names.nodup] at ha hb
    rw [heq, hb] at ha
    exact h.start_ne (Option.some.inj ha).symm
  number_ne := by
    intro heq
    rw [← terminalNumber_eof, h.terminalNumber_inj (Or.inr (Or.inl rfl))] at heq
    exact h.number_ne heq
  code_ne := by
    intro op
    refine ⟨?_, ?_⟩
    · intro heq
      rw [← terminalNumber_eof, h.terminalNumber_inj (Or.inr (Or.inr op.2))] at heq
      exact (h.operator_ne op).1 heq
    · intro heq
      rw [h.terminalNumber_inj (Or.inr (Or.inr op.2))] at heq
      exact (h.operator_ne op).2 heq
  code_injective := by
    intro op op' heq
    rw [h.terminalNumber_inj (Or.inr (Or.inr op.2))] at heq
    exact Subtype.ext heq
  settle_eq := h.settle_eq hg

end Shape

end Names

end ShiftReduce.Operators
