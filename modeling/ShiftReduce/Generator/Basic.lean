import ShiftReduce.Automaton.Build
import ShiftReduce.Lexer.Basic
import ShiftReduce.Parser.Tables
import ShiftReduce.Tables.Basic
import ShiftReduce.Template

/-!
# Generating a parser

From a grammar to everything that an emitter of code needs: the packed tables, the conflicts that
were settled, a table of rules, the action code of each rule with names for its values, and the
tables of the lexer if one is wanted.

## Stages

The settings are looked at first, then the automaton is built and settled, the lexer is assembled,
and the code of the rules is made. The first stage that fails decides the error
(`Generator.generate`). How patterns are compiled is left to the compiler that is handed in.

## Names in code

Action code refers to values by their places on the right-hand side of a rule. A place that is used
gets a name, and names are numbered through all rules, so that no two rules share one
(`Generator.reduceActions`). The table of rules says how many values each rule takes from the stack;
for an accept rule that is one less than its right-hand side is long.
-/

namespace ShiftReduce

/-- A rule in the table of rules. -/
structure RuleEntry where
  lhs : Nat
  lhsName : String
  rhsNames : List String
  accept : Bool
deriving DecidableEq, Repr

/-- The number of values the parser takes from its stack to reduce by the rule. The end of input
that closes an accept rule is never there. -/
def RuleEntry.popCount (r : RuleEntry) : Nat :=
  if r.accept then r.rhsNames.length - 1 else r.rhsNames.length

/-- The action code of a rule with names in place of its placeholders. -/
def Grammar.ruleCode (g : Grammar) (rule : Rule) (result : String)
    (names : List (Option String)) : Except Error String :=
  match Template.resolve? (rule.code.getD "") result names with
  | some code => .ok code
  | none => .error (.missingResult (g.ruleText rule.number))

def Grammar.ruleEntry (g : Grammar) (rule : Rule) : RuleEntry where
  lhs := rule.lhs
  lhsName := g.nonterminalName rule.lhs
  rhsNames := rule.rhs.map g.symbolName
  accept := rule.accept

/-- A generated parser. -/
structure Generated where
  settings : Settings
  tables : Tables
  conflicts : List Conflict
  terminalNames : List String
  nonterminalNames : List String
  rules : List RuleEntry
  /-- For each rule, its action code. -/
  reduceActions : List String
  lexer : Option Lexer
deriving DecidableEq, Repr

namespace Generated

/-- For each rule, the non-terminal it defines. -/
def ruleLhs (x : Generated) : List Nat :=
  x.rules.map (·.lhs)

/-- For each rule, how many values it takes. -/
def ruleLength (x : Generated) : List Nat :=
  x.rules.map (·.popCount)

def parserTables (x : Generated) : Parser.Tables where
  actionTable := x.tables.encodedActionRows.flatten.toArray
  actionIndex := x.tables.actionIndex.toArray
  gotoTable := x.tables.encodedGotoRows.flatten.toArray
  gotoIndex := x.tables.gotoIndex.toArray
  terminals := x.terminalNames.length
  nonterminals := x.nonterminalNames.length
  ruleLhs := x.ruleLhs.toArray
  ruleLength := x.ruleLength.toArray

/-- The number of the terminal of that name. -/
def terminal? (x : Generated) (name : String) : Option Nat :=
  x.terminalNames.findIdx? (· = name)

end Generated

namespace Generator

/-- The name by which action code sets the value of its rule. -/
def resultName : String := "node"

/-- Names for the places of a right-hand side of length `n` that are used, numbered from `next`. -/
def placeNames (used : List Nat) (n next : Nat) : List (Option String) :=
  (List.range n).map fun i ↦
    if i + 1 ∈ used then some s!"n{next + (used.filter (· < i + 1)).length}" else none

/-- The action code of the rules in turn. The names are numbered through, so that no two rules share
one. -/
def reduceActions (g : Grammar) : List Rule → Nat → Except Error (List String)
  | [], _ => .ok []
  | rule :: rest, next => do
    let used := Template.usedPlaces (rule.code.getD "") rule.rhs.length
    let code ← g.ruleCode rule resultName (placeNames used rule.rhs.length next)
    return code :: (← reduceActions g rest (next + used.length))

/-- The lexer of a grammar, if one is wanted. -/
def lexer {M : Type} (compiler : Lexer.Compiler M) (withLexer : Bool) (g : Grammar) :
    Except Error (Option Lexer) :=
  if withLexer then (Lexer.assemble compiler g.terminals).map some else .ok none

/-- Generates a parser, with a lexer if one is wanted. -/
def generate {M : Type} (compiler : Lexer.Compiler M) (withLexer : Bool) (g : Grammar) :
    Except Error Generated := do
  g.settings.validate
  let automaton ← Automaton.build g
  let resolved ← (Conflict.resolve g automaton).2
  let lexer ← lexer compiler withLexer g
  let reduceActions ← reduceActions g g.rules 1
  return {
    settings := g.settings
    tables := Tables.compress resolved.rows
    conflicts := resolved.conflicts
    terminalNames := g.terminals.map (·.name)
    nonterminalNames := g.nonterminals.map (·.name)
    rules := g.rules.map g.ruleEntry
    reduceActions
    lexer }

end Generator

end ShiftReduce
