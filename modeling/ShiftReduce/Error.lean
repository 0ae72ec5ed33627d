/-!
# Why a parser cannot be generated

The causes for which a grammar is refused, an automaton has no tables, a rule has no action code or
a terminal no machine, with the text of each.

## Refusals and stops

Two of the causes are no refusals, but stops: a rule that an automaton made by hand refers to and
that does not exist, and a number or an entry that is looked up in vain (`require`). What is looked
up is expected to be there. A computation that looks something up says so by `require`, and that it
never stops is then a statement about its result.

## Texts

A message names what it is about as the grammar has it: a terminal or an accept name by its name, a
rule by its text, a state by its number and its listing. So an error carries these texts, and not
the numbers from which they would have to be worked out again.
-/

namespace ShiftReduce

/-- A setting without which nothing can be emitted. -/
inductive Setting where
  | parserName
  | lexerNameOrTokenType
deriving DecidableEq, Repr

def Setting.text : Setting → String
  | parserName => "parser name"
  | lexerNameOrTokenType => "lexer name or token enum"

/-- The causes of failure. -/
inductive Error where
  /-- A declared terminal has the name of the end of input. -/
  | reservedTerminal (name : String)
  /-- Two terminals have one name. -/
  | duplicateTerminal (name : String)
  /-- Names on right-hand sides that are neither terminals nor defined by a rule. -/
  | undefinedSymbol (names : List String)
  /-- A rule would define a terminal. -/
  | terminalOnLeftSide (name : String)
  /-- An accept name is declared twice. -/
  | duplicateAccept (name : String)
  /-- An accept name has no rule. -/
  | noAcceptRule (name : String)
  /-- An accept name has more than one rule. -/
  | multipleAcceptRules (name : String) (count : Nat)
  /-- The rule of an accept name does not end with the end of input. -/
  | acceptRuleWithoutEof (rule : String)
  /-- There is no accept name. -/
  | noAcceptStates
  /-- A name stands in two places of the precedence declarations. -/
  | duplicatePrecedence (name : String)
  /-- A precedence declaration starts with none of the three keywords. -/
  | unknownAssociativity (keyword : String)
  /-- A rule borrows the precedence of a name that has none. -/
  | unknownPrecedence (rule name : String)
  /-- Action code that never sets the value of its rule. -/
  | missingResult (rule : String)
  /-- The pattern of a terminal was refused. -/
  | invalidPattern (terminal reason : String)
  /-- A setting is missing. -/
  | missingSetting (setting : Setting)
  /-- A state in which a completed item does not stand alone in its group. -/
  | ambiguousEnd (state : Nat) (listing : String)
  /-- A state that reduces by two rules. -/
  | multipleReductions (state : Nat) (listing : String)
  /-- A state with an item that has no action. -/
  | unassignedItem (state : Nat) (listing : String)
  /-- An automaton assembled by hand refers to a rule that the grammar does not have. -/
  | unknownRule (rule : Nat)
  /-- A number past the last, or an entry that is not there. -/
  | outOfRange
deriving DecidableEq, Repr

/-- The text of an error. -/
def Error.message : Error → String
  | reservedTerminal name => s!"the terminal name `{name}` is reserved"
  | duplicateTerminal name => s!"terminal `{name}` is declared more than once"
  | undefinedSymbol names =>
    "the following symbols are referenced, but never defined: " ++ ", ".intercalate names
  | terminalOnLeftSide name => s!"terminal `{name}` cannot be the left-hand side of a rule"
  | duplicateAccept name => s!"accept state `{name}` is declared more than once"
  | noAcceptRule name => s!"no rule for accept state `{name}`"
  | multipleAcceptRules name count => s!"multiple rules ({count}) match accept state `{name}`"
  | acceptRuleWithoutEof rule => s!"accept rule `{rule}` must end with EOF"
  | noAcceptStates => "the grammar declares no accept states"
  | duplicatePrecedence name => s!"token `{name}` appears in more than one precedence rule"
  | unknownAssociativity keyword =>
    s!"unknown associativity `{keyword}`, expected left, right or nonassoc"
  | unknownPrecedence rule name =>
    s!"rule `{rule}` uses %prec `{name}`, which is in no precedence rule"
  | missingResult rule => s!"missing lvalue ($$) in rule `{rule}`"
  | invalidPattern terminal reason => s!"invalid pattern for terminal `{terminal}`: {reason}"
  | missingSetting setting => "missing setting: " ++ setting.text
  | ambiguousEnd state listing =>
    s!"state s{state} has several completed items in one group:\n{listing}"
  | multipleReductions state listing =>
    s!"state s{state} reduces by more than one rule:\n{listing}"
  | unassignedItem state listing => s!"state s{state} has an item with no action:\n{listing}"
  | unknownRule rule => s!"there is no rule r{rule}"
  | outOfRange => "a number is out of range"

/-- What has been looked up, which must be there. -/
def require {α : Type} : Option α → Except Error α
  | some a => .ok a
  | none => .error .outOfRange

@[simp] theorem require_some {α : Type} (a : α) : require (some a) = .ok a :=
  rfl

end ShiftReduce
