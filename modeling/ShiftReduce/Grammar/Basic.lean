import ShiftReduce.Error

/-!
# Grammars

A grammar after validation: terminals, non-terminals and rules known by their numbers, which are
their places in the lists, and the levels of precedence. Terminal 0 is the end of input.

## Precedence

The levels are kept as they were declared, each with the names on it. A rule refers to its level by
the index in this list (`Grammar.rulePrecedence?`), so the names that gave it the level are not
needed any more.

## Texts

A symbol is shown by its name and a rule by the names of its symbols, which are looked up by number.
The texts `symbolName?`, `spacedNames?` and `ruleText?` are missing where a number leads to no
entry; `symbolName`, `spacedNames` and `ruleText` are empty there. In a grammar that was made from
declarations every number of a rule leads to an entry, so that none of them is.
-/

namespace ShiftReduce

/-- The name of the terminal that ends every input. -/
def eofName : String := "EOF"

/-- A grammar symbol. Terminals and non-terminals are numbered independently. -/
inductive Symbol where
  | terminal (number : Nat)
  | nonterminal (number : Nat)
deriving DecidableEq, Repr

namespace Symbol

def eof : Symbol := terminal 0

/-- Terminals come before non-terminals, and within either kind the smaller number first. -/
def lt : Symbol → Symbol → Bool
  | terminal a, terminal b => a < b
  | terminal _, nonterminal _ => true
  | nonterminal _, terminal _ => false
  | nonterminal a, nonterminal b => a < b

end Symbol

/-- A terminal. -/
structure Terminal where
  name : String
  number : Nat
  /-- The regular expression by which the lexer knows it, if any. -/
  pattern : Option String := none
  /-- The code run when the lexer has found it. -/
  code : Option String := none
deriving DecidableEq, Repr

/-- A non-terminal. -/
structure NonTerminal where
  name : String
  number : Nat
  /-- The type of its values. -/
  valueType : String
deriving DecidableEq, Repr

/-- How operators of one level group. -/
inductive Associativity where
  | left
  | right
  | nonassoc
deriving DecidableEq, Repr

/-- The associativity a keyword stands for, in letters of either case. -/
def Associativity.ofKeyword (keyword : String) : Except Error Associativity :=
  let letters := keyword.map Char.toLower
  if letters = "left" then .ok left
  else if letters = "right" then .ok right
  else if letters = "nonassoc" then .ok nonassoc
  else .error (.unknownAssociativity keyword)

/-- A level of precedence. -/
structure Precedence where
  /-- The level, from 1 for the loosest. -/
  level : Nat
  associativity : Associativity
  /-- The names on this level, in ascending order. -/
  members : List String
deriving DecidableEq, Repr

/-- A rule. -/
structure Rule where
  number : Nat
  lhs : Nat
  rhs : List Symbol
  /-- The index of its level of precedence, if it has one. -/
  precedence : Option Nat
  /-- Whether its left-hand side is a start of parsing. -/
  accept : Bool
  code : Option String
deriving DecidableEq, Repr

/-- Names for the emitted code. -/
structure Settings where
  parserName : Option String := none
  lexerName : Option String := none
  package : Option String := none
  tokenType : Option String := none
  imports : List String := []
deriving DecidableEq, Repr

/-- Code can be emitted under a parser name and either a lexer name or a token type. -/
def Settings.validate (s : Settings) : Except Error Unit :=
  if s.parserName.isNone then .error (.missingSetting .parserName)
  else if s.lexerName.isNone ∧ s.tokenType.isNone then
    .error (.missingSetting .lexerNameOrTokenType)
  else .ok ()

/-- A grammar. -/
structure Grammar where
  settings : Settings
  terminals : List Terminal
  nonterminals : List NonTerminal
  rules : List Rule
  precedence : List Precedence
deriving DecidableEq, Repr

namespace Grammar

def rule? (g : Grammar) (r : Nat) : Option Rule :=
  g.rules[r]?

/-- The number of the terminal of that name. -/
def terminal? (g : Grammar) (name : String) : Option Nat :=
  (g.terminals.find? (·.name = name)).map (·.number)

/-- The number of the non-terminal of that name. -/
def nonterminal? (g : Grammar) (name : String) : Option Nat :=
  (g.nonterminals.find? (·.name = name)).map (·.number)

def symbolName? (g : Grammar) : Symbol → Option String
  | .terminal t => g.terminals[t]?.map Terminal.name
  | .nonterminal a => g.nonterminals[a]?.map NonTerminal.name

def symbolName (g : Grammar) (s : Symbol) : String :=
  (g.symbolName? s).getD ""

def terminalName (g : Grammar) (t : Nat) : String :=
  g.symbolName (.terminal t)

def nonterminalName (g : Grammar) (a : Nat) : String :=
  g.symbolName (.nonterminal a)

def rulePrecedence? (g : Grammar) (r : Nat) : Option Precedence := do
  g.precedence[← (← g.rule? r).precedence]?

/-- The rules at which parsing may start, in order. -/
def acceptRules (g : Grammar) : List Rule :=
  g.rules.filter (·.accept)

/-- The rules that define a non-terminal, in order. -/
def rulesFor (g : Grammar) (a : Nat) : List Rule :=
  g.rules.filter (·.lhs = a)

def spacedNames? (g : Grammar) (symbols : List Symbol) : Option String := do
  return String.join ((← symbols.mapM g.symbolName?).map (" " ++ ·))

def spacedNames (g : Grammar) (symbols : List Symbol) : String :=
  (g.spacedNames? symbols).getD ""

/-- A rule as text: its number, its left-hand side, a colon and its right-hand side. -/
def ruleText? (g : Grammar) (r : Nat) : Option String := do
  let rule ← g.rule? r
  let lhs ← g.symbolName? (.nonterminal rule.lhs)
  return s!"(r{r}) {lhs} :" ++ (← g.spacedNames? rule.rhs)

def ruleText (g : Grammar) (r : Nat) : String :=
  (g.ruleText? r).getD ""

end Grammar

end ShiftReduce
