import ShiftReduce.Ascending
import ShiftReduce.Grammar.Basic
import ShiftReduce.Numbered

/-!
# Declarations

A grammar is declared by a list of statements in any order. A `Builder` collects them by kind, and
`Builder.build` numbers and checks what it has collected.

## Numbers

Terminals are numbered in the order of their declaration, after the end of input; non-terminals in
the order in which they first appear when each rule is read left-hand side first; rules in the order
of their declaration; levels of precedence likewise, from 1. Numbers have 32 bits. The number of an
entry is that of its index, which tells entries apart only as long as there are numbers left, and a
level past the last number stops the builder. `Declarations` are what a builder has collected when
every entry has a number of its own.

## Checks

The checks come in a fixed order, and the first that fails decides the error: terminals,
precedence, left-hand sides, undefined names, borrowed precedences, accept names. The later passes
look up what the earlier ones have numbered, by name or by number, and rely on finding it: each
look-up is a `require`.
-/

namespace ShiftReduce

/-- An optional part of a rule. -/
inductive RulePart where
  /-- Its action code. -/
  | code (text : String)
  /-- The name whose precedence it takes. -/
  | precedence (name : String)
  /-- The type of the values of its left-hand side. -/
  | valueType (type : String)
deriving DecidableEq, Repr

/-- A terminal as declared. -/
structure TerminalDecl where
  name : String
  pattern : Option String
  code : Option String
deriving DecidableEq, Repr

/-- A level of precedence as declared. -/
structure PrecedenceDecl where
  keyword : String
  members : List String
deriving DecidableEq, Repr

/-- A rule as declared. -/
structure RuleDecl where
  lhs : String
  rhs : List String
  precedence : Option String := none
  valueType : Option String := none
  code : Option String := none
deriving DecidableEq, Repr

/-- Sets an optional part of a rule; the last of a kind counts. -/
def RuleDecl.setPart (rule : RuleDecl) : RulePart → RuleDecl
  | .code text => { rule with code := some text }
  | .precedence name => { rule with precedence := some name }
  | .valueType type => { rule with valueType := some type }

/-- A statement about the grammar. -/
inductive Declaration where
  | parserName (name : String)
  | lexerName (name : String)
  | package (name : String)
  | tokenType (name : String)
  | importPath (path : String)
  | terminal (decl : TerminalDecl)
  | precedence (decl : PrecedenceDecl)
  | rule (lhs : String) (rhs : List String) (parts : List RulePart)
  | accept (name : String)
deriving DecidableEq, Repr

/-- The statements about a grammar, sorted by kind. -/
structure Builder where
  settings : Settings := {}
  terminals : List TerminalDecl := []
  precedence : List PrecedenceDecl := []
  rules : List RuleDecl := []
  accepts : List String := []
deriving DecidableEq, Repr

namespace Builder

def add (d : Builder) : Declaration → Builder
  | .parserName name => { d with settings := { d.settings with parserName := some name } }
  | .lexerName name => { d with settings := { d.settings with lexerName := some name } }
  | .package name => { d with settings := { d.settings with package := some name } }
  | .tokenType name => { d with settings := { d.settings with tokenType := some name } }
  | .importPath path =>
    { d with settings := { d.settings with imports := d.settings.imports ++ [path] } }
  | .terminal decl => { d with terminals := d.terminals ++ [decl] }
  | .precedence decl => { d with precedence := d.precedence ++ [decl] }
  | .rule lhs rhs parts =>
    { d with rules := d.rules ++ [parts.foldl RuleDecl.setPart { lhs, rhs }] }
  | .accept name => { d with accepts := d.accepts ++ [name] }

def ofList (statements : List Declaration) : Builder :=
  statements.foldl add {}

/-! ## Terminals -/

/-- Gives a declared terminal the next number. -/
def addTerminal (terminals : List Terminal) (decl : TerminalDecl) :
    Except Error (List Terminal) :=
  if decl.name = eofName then .error (.reservedTerminal decl.name)
  else if terminals.any (·.name = decl.name) then .error (.duplicateTerminal decl.name)
  else
    .ok (terminals ++
      [{ name := decl.name, number := Numbered.ofIndex terminals.length, pattern := decl.pattern,
         code := decl.code }])

/-- The terminals, the end of input first. -/
def buildTerminals (d : Builder) : Except Error (List Terminal) :=
  d.terminals.foldlM addTerminal [{ name := eofName, number := 0 }]

/-! ## Precedence -/

/-- Adds a name to a level; it may stand in no other place. -/
def addMember (levels : List Precedence) (members : List String) (name : String) :
    Except Error (List String) :=
  if name ∈ members ∨ levels.any (name ∈ ·.members) then .error (.duplicatePrecedence name)
  else .ok (Ascending.insert (fun a b ↦ a < b) name members)

def addLevel (levels : List Precedence) (decl : PrecedenceDecl) :
    Except Error (List Precedence) := do
  let associativity ← Associativity.ofKeyword decl.keyword
  let members ← decl.members.foldlM (addMember levels) []
  let level ← require (Numbered.advance? (Numbered.ofIndex levels.length) 1)
  return levels ++ [{ level := level, associativity := associativity, members := members }]

/-- The levels of precedence, the loosest first. -/
def buildPrecedence (d : Builder) : Except Error (List Precedence) :=
  d.precedence.foldlM addLevel []

/-- The index of the level on which a name stands. -/
def findLevel? (levels : List Precedence) (name : String) : Option Nat :=
  levels.findIdx? (name ∈ ·.members)

/-! ## Non-terminals -/

/-- The type of values where no rule says otherwise. -/
def defaultValueType : String := "Node"

/-- The number of the terminal of that name. -/
def findTerminal? (terminals : List Terminal) (name : String) : Option Nat :=
  (terminals.find? (·.name = name)).map (·.number)

/-- The number of the non-terminal of that name. -/
def findNonTerminal? (nonterminals : List NonTerminal) (name : String) : Option Nat :=
  (nonterminals.find? (·.name = name)).map (·.number)

/-- Gives a name the next number, unless it has one. -/
def addNonTerminal (nonterminals : List NonTerminal) (name : String) : List NonTerminal :=
  if nonterminals.any (·.name = name) then nonterminals
  else
    nonterminals ++
      [{ name, number := Numbered.ofIndex nonterminals.length, valueType := defaultValueType }]

/-- Sets the type of the values of a name, at its number. -/
def setValueType (nonterminals : List NonTerminal) (name type : String) :
    Except Error (List NonTerminal) := do
  let number ← require (findNonTerminal? nonterminals name)
  let entry ← require nonterminals[number]?
  return nonterminals.set number { entry with valueType := type }

/-- Numbers the names of a rule, left-hand side first, and notes the type it sets. -/
def addRuleNames (terminals : List Terminal) (nonterminals : List NonTerminal) (rule : RuleDecl) :
    Except Error (List NonTerminal) :=
  if (findTerminal? terminals rule.lhs).isSome then .error (.terminalOnLeftSide rule.lhs)
  else
    let names := rule.lhs :: rule.rhs.filter fun name ↦ (findTerminal? terminals name).isNone
    let numbered := names.foldl addNonTerminal nonterminals
    match rule.valueType with
    | some type => setValueType numbered rule.lhs type
    | none => .ok numbered

/-- The non-terminals; each must be defined by a rule. -/
def buildNonTerminals (d : Builder) (terminals : List Terminal) :
    Except Error (List NonTerminal) := do
  let nonterminals ← d.rules.foldlM (addRuleNames terminals) []
  let undefined :=
    (nonterminals.map NonTerminal.name).filter fun name ↦ d.rules.all (·.lhs ≠ name)
  if undefined = [] then return nonterminals
  else throw (.undefinedSymbol undefined)

/-! ## Rules -/

def symbol? (terminals : List Terminal) (nonterminals : List NonTerminal) (name : String) :
    Option Symbol :=
  match findTerminal? terminals name with
  | some t => some (.terminal t)
  | none => (findNonTerminal? nonterminals name).map .nonterminal

/-- The level of a rule: that of the name it borrows from, or else that of its right-most
terminal. -/
def levelOf (terminals : List Terminal) (levels : List Precedence) (rule : RuleDecl) :
    Except Error (Option Nat) :=
  match rule.precedence with
  | some name =>
    match findLevel? levels name with
    | some i => .ok (some i)
    | none => .error (.unknownPrecedence (rule.lhs ++ " : " ++ " ".intercalate rule.rhs) name)
  | none =>
    .ok ((rule.rhs.reverse.find? fun name ↦ (findTerminal? terminals name).isSome).bind
      (findLevel? levels))

def addRule (terminals : List Terminal) (levels : List Precedence)
    (nonterminals : List NonTerminal) (rules : List Rule) (rule : RuleDecl) :
    Except Error (List Rule) := do
  let lhs ← require (findNonTerminal? nonterminals rule.lhs)
  let rhs ← require (rule.rhs.mapM (symbol? terminals nonterminals))
  let precedence ← levelOf terminals levels rule
  return rules ++
    [{ number := Numbered.ofIndex rules.length, lhs, rhs, precedence, accept := false,
       code := rule.code }]

/-- The rules, none of them marked as a start of parsing yet. -/
def buildRules (d : Builder) (terminals : List Terminal) (levels : List Precedence)
    (nonterminals : List NonTerminal) : Except Error (List Rule) :=
  d.rules.foldlM (addRule terminals levels nonterminals) []

/-! ## Accept names -/

/-- Marks the one rule of an accept name, found by its number among those marked so far. The accept
names treated before come first. -/
def acceptName (g : Grammar) (done : List String × List Rule) (name : String) :
    Except Error (List String × List Rule) :=
  if name ∈ done.1 then .error (.duplicateAccept name)
  else
    match g.nonterminal? name with
    | none => .error (.noAcceptRule name)
    | some a =>
      match g.rulesFor a with
      | [] => .error (.noAcceptRule name)
      | [only] => do
        let rule ← require done.2[only.number]?
        if rule.rhs.getLast? = some .eof then
          return (done.1 ++ [name], done.2.set only.number { rule with accept := true })
        else
          let lhs ← require (g.symbolName? (.nonterminal rule.lhs))
          let rhs ← require (g.spacedNames? rule.rhs)
          throw (.acceptRuleWithoutEof (lhs ++ " :" ++ rhs))
      | rules => .error (.multipleAcceptRules name rules.length)

/-- The rules of a grammar with those of the accept names marked. -/
def markAccepts (d : Builder) (g : Grammar) : Except Error (List Rule) := do
  if d.accepts = [] then throw .noAcceptStates
  else return (← d.accepts.foldlM (acceptName g) ([], g.rules)).2

/-! ## The grammar -/

/-- The grammar that the statements declare. -/
def build (d : Builder) : Except Error Grammar := do
  let terminals ← d.buildTerminals
  let precedence ← d.buildPrecedence
  let nonterminals ← d.buildNonTerminals terminals
  let rules ← d.buildRules terminals precedence nonterminals
  let g : Grammar := { settings := d.settings, terminals, nonterminals, rules, precedence }
  return { g with rules := ← d.markAccepts g }

/-! ## Enough numbers -/

/-- There are numbers for all terminals, of which one is the end of input, for all levels, which
count from 1, and for all rules. -/
structure Numerable (d : Builder) : Prop where
  terminals : d.terminals.length < Numbered.numberBound
  precedence : d.precedence.length < Numbered.numberBound
  rules : d.rules.length ≤ Numbered.numberBound

instance (d : Builder) : Decidable d.Numerable :=
  decidable_of_iff
    (d.terminals.length < Numbered.numberBound ∧ d.precedence.length < Numbered.numberBound ∧
      d.rules.length ≤ Numbered.numberBound)
    ⟨fun h ↦ ⟨h.1, h.2.1, h.2.2⟩, fun h ↦ ⟨h.terminals, h.precedence, h.rules⟩⟩

end Builder

/-- Statements about a grammar that leave a number for each entry. -/
structure Declarations extends Builder where
  numerable : toBuilder.Numerable := by decide

end ShiftReduce
