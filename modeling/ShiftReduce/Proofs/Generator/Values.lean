import ShiftReduce.Parser.Basic
import ShiftReduce.Proofs.Parser.Serves
import ShiftReduce.Proofs.Substitution

/-!
# Names in action code and values on the stack

Action code refers to the values of a right-hand side by their places. The generator gives a name to
every place of the right-hand side that the code of a rule refers to, and the parser hands out as
many values as the table of rules says.

## The exception

These numbers differ for accept rules: the end of input at their end is a place of the right-hand
side, but it is never on the stack. So every name stands for a value, except one for the end of
input that closes an accept rule (`Rule.le_arity_iff`). The exception is met: `named_without_value`
has a grammar whose code refers to the end of input.

## The result

`value_of_named` is about one parser and its code at a time: the code that was emitted for a rule,
the names that were put into it, and the values that the parser takes from its stack for the same
rule, in any action and whatever the stack.
-/

namespace ShiftReduce

variable {g : Grammar} {x : Generated} {rule : Rule} {r : Nat}

/-! ## Places that have names -/

namespace Generator

/-- The names for the places of a rule, numbered from `next`. -/
def ruleNames (rule : Rule) (next : Nat) : List (Option String) :=
  placeNames (Template.usedPlaces (rule.code.getD "") rule.rhs.length) rule.rhs.length next

/-- The places of the right-hand side that the code refers to have names, and no others. -/
theorem isSome_nameAt?_ruleNames {next i : Nat} :
    (Template.nameAt? (ruleNames rule next) i).isSome ↔
      (∃ digits, Template.Piece.value i digits ∈ Template.pieces (rule.code.getD "").toList) ∧
        1 ≤ i ∧ i ≤ rule.rhs.length := by
  rw [← Template.mem_usedPlaces, Template.nameAt?]
  cases i with
  | zero =>
    rw [if_pos rfl, Template.mem_usedPlaces]
    simp
  | succ i =>
    rw [if_neg (Nat.succ_ne_zero i), Nat.add_sub_cancel, ruleNames, placeNames, List.getElem?_map]
    by_cases hi : i < rule.rhs.length
    · rw [List.getElem?_range hi, Option.map_some, Option.join_some]
      split <;> simp_all
    · rw [List.getElem?_eq_none (by rw [List.length_range]; omega), Template.mem_usedPlaces]
      simp only [Option.map_none, Option.join_none, Option.isSome_none, Bool.false_eq_true,
        false_iff]
      omega

/-- The code of each rule is made with its names, numbered from somewhere. -/
theorem exists_ruleCode_of_reduceActions {rules : List Rule} {next : Nat} {codes : List String}
    (h : reduceActions g rules next = .ok codes) (hrule : rules[r]? = some rule) :
    ∃ next' code, codes[r]? = some code ∧
      g.ruleCode rule resultName (ruleNames rule next') = .ok code := by
  induction rules generalizing next codes r with
  | nil => simp at hrule
  | cons first rules ih =>
    simp only [reduceActions, bind_eq_ok] at h
    obtain ⟨code, hcode, codes', hcodes', heq⟩ := h
    obtain rfl := Except.ok.inj heq
    cases r with
    | zero =>
      obtain rfl := Option.some.inj hrule
      exact ⟨next, code, rfl, hcode⟩
    | succ r =>
      have hrest : rules[r]? = some rule := hrule
      obtain ⟨next', code', hcode', hresolved⟩ := ih hcodes' hrest
      exact ⟨next', code', hcode', hresolved⟩

private theorem reduceActions_of_generate {M : Type} {compiler : Lexer.Compiler M}
    {withLexer : Bool}
    (h : generate compiler withLexer g = .ok x) :
    reduceActions g g.rules 1 = .ok x.reduceActions := by
  rw [generate] at h
  simp only [bind_eq_ok] at h
  obtain ⟨_, -, _, -, _, -, _, -, codes, hcodes, hx⟩ := h
  obtain rfl := Except.ok.inj hx
  exact hcodes

end Generator

/-! ## Values that are handed out -/

private theorem ruleLength_of_generate {M : Type} {compiler : Lexer.Compiler M} {withLexer : Bool}
    (h : Generator.generate compiler withLexer g = .ok x) (hrule : g.rules[r]? = some rule) :
    x.ruleLength[r]? = some rule.arity := by
  obtain ⟨a, resolved, horigin⟩ := origin_of_generate h
  rw [Generated.ruleLength, horigin.rules_eq, List.getElem?_map, List.getElem?_map, hrule]
  simp [RuleEntry.popCount, Grammar.ruleEntry, Rule.arity]

/-- Of the places of a rule, only the end of input that closes an accept rule has no value. -/
theorem Rule.le_arity_iff {i : Nat} (hpos : 1 ≤ i) (hle : i ≤ rule.rhs.length) :
    i ≤ rule.arity ↔ ¬(rule.accept = true ∧ i = rule.rhs.length) := by
  rw [Rule.arity]
  cases rule.accept with
  | false => simpa using hle
  | true =>
    rw [if_pos rfl, eq_self_iff_true, true_and]
    omega

namespace Parser

variable {V : Type} {t : Tables} {combine : Nat → List V → V} {k r' : Nat} {v : V} {p q : Parser V}
  {values : List V}

theorem length_of_pop (h : p.pop t r = .ok (values, q)) :
    t.ruleLength[r]? = some values.length := by
  rw [pop] at h
  split at h
  · simp at h
  · rename_i n hn
    split at h
    · simp at h
    · obtain ⟨rfl, -⟩ := Prod.mk.inj (Except.ok.inj h)
      rw [hn, List.length_reverse, List.length_take]
      congr 1
      omega

private theorem exists_pop_of_reduceBy (h : .reduce r values ∈ (p.reduceBy t combine r').events) :
    ∃ q, p.pop t r = .ok (values, q) := by
  rw [reduceBy] at h
  split at h
  · simp at h
  · rename_i values' q hpop
    have hevent : Event.reduce r values = Event.reduce r' values' := by
      split at h <;> simpa using h
    obtain ⟨rfl, rfl⟩ := Event.reduce.inj hevent
    exact ⟨q, hpop⟩

private theorem exists_pop_of_acceptBy (h : .reduce r values ∈ (p.acceptBy t combine r').events) :
    ∃ q, p.pop t r = .ok (values, q) := by
  rw [acceptBy] at h
  split at h
  · simp at h
  · rename_i values' q hpop
    obtain ⟨rfl, rfl⟩ : r = r' ∧ values = values' := by simpa using h
    exact ⟨q, hpop⟩

private theorem length_of_reduce_mem_events (h : .reduce r values ∈ (p.step t combine k v).events) :
    t.ruleLength[r]? = some values.length := by
  rw [step] at h
  split at h
  · simp at h
  · split at h
    · simp at h
    split at h
    · obtain ⟨q, hpop⟩ := exists_pop_of_reduceBy h
      exact length_of_pop hpop
    split at h
    · obtain ⟨q, hpop⟩ := exists_pop_of_acceptBy h
      exact length_of_pop hpop
    split at h
    · simp at h
    split at h <;> simp at h

end Parser

/-- **Names and values.** The code of each rule is made with names for the places that it refers to.
A place that has a name is among the values that the parser takes from its stack for the rule, and
whenever it has them made into one it hands out a value for the place; with one exception, which is
the end of input that closes an accept rule. -/
theorem value_of_named {M : Type} {compiler : Lexer.Compiler M} {withLexer : Bool}
    (hx : Generator.generate compiler withLexer g = .ok x) (hrule : g.rules[r]? = some rule) :
    ∃ next code n, x.reduceActions[r]? = some code ∧
      g.ruleCode rule Generator.resultName (Generator.ruleNames rule next) = .ok code ∧
      x.ruleLength[r]? = some n ∧
      ∀ i name, Template.nameAt? (Generator.ruleNames rule next) i = some name →
        (i ≤ n ↔ ¬(rule.accept = true ∧ i = rule.rhs.length)) ∧
        ∀ {V : Type} (combine : Nat → List V → V) (k : Nat) (v : V) (p : Parser V) values,
          .reduce r values ∈ (p.step x.parserTables combine k v).events →
          (values[i - 1]?.isSome ↔ ¬(rule.accept = true ∧ i = rule.rhs.length)) := by
  obtain ⟨next, code, hcode, hresolved⟩ :=
    Generator.exists_ruleCode_of_reduceActions (Generator.reduceActions_of_generate hx) hrule
  have hlength := ruleLength_of_generate hx hrule
  refine ⟨next, code, rule.arity, hcode, hresolved, hlength, fun i name hname ↦ ?_⟩
  obtain ⟨-, hpos, hle⟩ := Generator.isSome_nameAt?_ruleNames.mp (Option.isSome_of_eq_some hname)
  have hiff := Rule.le_arity_iff hpos hle
  refine ⟨hiff, fun combine k v p values hevent ↦ ?_⟩
  have hvalues := Parser.length_of_reduce_mem_events hevent
  have harity : values.length = rule.arity := by
    rw [Generated.parserTables, List.getElem?_toArray, hlength] at hvalues
    exact (Option.some.inj hvalues).symm
  rw [← hiff, isSome_getElem?, harity]
  omega

def addition : Declarations where
  settings := { parserName := some "P", tokenType := some "T" }
  terminals :=
    [{ name := "n", pattern := none, code := none }, { name := "+", pattern := none, code := none }]
  precedence := [{ keyword := "left", members := ["+"] }]
  rules :=
    [{ lhs := "S", rhs := ["E", "EOF"], code := some "$$ = $1;" },
      { lhs := "E", rhs := ["E", "+", "E"], code := some "$$ = add($1, $3);" },
      { lhs := "E", rhs := ["n"], code := some "$$ = $1;" }]
  accepts := ["S"]

def additionGrammar : Grammar :=
  okValue addition.build (by decide +kernel)

def additionParser : Generated :=
  okValue (Generator.generate (.constant default) false additionGrammar) (by decide +kernel)

def additionRule : Rule :=
  ⟨1, 1, [.nonterminal 1, .terminal 2, .nonterminal 1], some 0, false, some "$$ = add($1, $3);"⟩

theorem value_of_named_addition :
    addition.build = .ok additionGrammar ∧
    Generator.generate (.constant default) false additionGrammar = .ok additionParser ∧
    additionGrammar.rules[1]? = some additionRule ∧
    ∃ next n name, additionParser.reduceActions[1]? = some "node = add(n2, n3);" ∧
      additionParser.ruleLength[1]? = some n ∧
      Template.nameAt? (Generator.ruleNames additionRule next) 3 = some name ∧ 3 ≤ n ∧
      ∃ (p : Parser Nat) (values : List Nat), .reduce 1 values
          ∈ (p.step additionParser.parserTables (fun _ values ↦ values.sum) 0 0).events ∧
        values[2]?.isSome := by
  have hd : addition.build = .ok additionGrammar := eq_ok_okValue _
  have hx : Generator.generate (.constant default) false additionGrammar = .ok additionParser :=
    eq_ok_okValue _
  have hrule : additionGrammar.rules[1]? = some additionRule := by decide +kernel
  have hcode : additionParser.reduceActions[1]? = some "node = add(n2, n3);" := by decide +kernel
  obtain ⟨next, code, n, -, -, hn, hplaces⟩ := value_of_named hx hrule
  have hnamed : (Template.nameAt? (Generator.ruleNames additionRule next) 3).isSome :=
    Generator.isSome_nameAt?_ruleNames.mpr ⟨⟨['3'], by decide +kernel⟩, by decide, by decide⟩
  obtain ⟨name, hname⟩ := Option.isSome_iff_exists.mp hnamed
  obtain ⟨hle, hvalues⟩ := hplaces 3 name hname
  -- The stack after `E + E`.
  have hevent : Parser.Event.reduce 1 [7, 8, 9]
      ∈ (Parser.step additionParser.parserTables (fun _ values ↦ values.sum) 0 0
        { states := [4, 3, 2, 0], values := [9, 8, 7] }).events := by
    decide +kernel
  exact ⟨hd, hx, hrule, next, n, name, hcode, hn, hname, hle.mpr (by decide), _, _, hevent,
    (hvalues _ _ _ _ _ hevent).mpr (by decide)⟩

/-- An accept rule whose code refers to the end of input. -/
def closing : Declarations where
  settings := { parserName := some "P", tokenType := some "T" }
  terminals := [{ name := "a", pattern := none, code := none }]
  rules :=
    [{ lhs := "S", rhs := ["E", "EOF"], code := some "$$ = $2;" }, { lhs := "E", rhs := ["a"] }]
  accepts := ["S"]

def closingGrammar : Grammar :=
  okValue closing.build (by decide +kernel)

def closingParser : Generated :=
  okValue (Generator.generate (.constant default) false closingGrammar) (by decide +kernel)

/-- The exception is met: a name stands in the code for a value that is not handed out. -/
theorem named_without_value :
    closing.build = .ok closingGrammar ∧
    Generator.generate (.constant default) false closingGrammar = .ok closingParser ∧
    ∃ rule, closingGrammar.rules[0]? = some rule ∧
      closingParser.reduceActions[0]? = some "node = n1;" ∧
      Template.nameAt? (Generator.ruleNames rule 1) 2 = some "n1" ∧
      closingParser.ruleLength[0]? = some 1 ∧
      ∃ p : Parser Nat, .reduce 0 [7]
        ∈ (p.step closingParser.parserTables (fun _ values ↦ values.sum) 0 0).events := by
  have hrule : closingGrammar.rules[0]? = some ⟨0, 0, [.nonterminal 1, .terminal 0], none, true,
      some "$$ = $2;"⟩ := by
    decide +kernel
  refine ⟨eq_ok_okValue _, eq_ok_okValue _, _, hrule, by decide +kernel, by decide +kernel,
    by decide +kernel, { states := [2, 0], values := [7] }, by decide +kernel⟩

end ShiftReduce
