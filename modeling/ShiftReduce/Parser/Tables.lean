import ShiftReduce.Word

/-!
# Tables of the push parser

The packed tables as a parser carries them: every table one array, stored row by row, and the
actions as codes.

## Reading

An index has an entry for each state. In the index of actions the low bit of an entry tells whether
the entry holds a code itself, or twice the number of a row; in the index of gotos an entry is the
number of a row. The cell of a row is found by address, and the address is all that is checked
against the table: a column is not compared with the width of a row.

## Defects

Tables may come from anywhere, so reading them can fail; each way in which they can be malformed has
a name. An address that does not fit a word is no defect, but a stop: the tables are not reported as
malformed, and there is no answer.
-/

namespace ShiftReduce.Parser

/-- How tables can be malformed. -/
inductive Defect where
  | stateOutOfRange
  | actionCellOutOfRange
  | gotoCellOutOfRange
  | gotoInActionTable
  | unknownActionTag
  | ruleOutOfRange
  | stackUnderflow
  | missingGoto
deriving DecidableEq, Repr

def Defect.text : Defect → String
  | stateOutOfRange => "state out of range"
  | actionCellOutOfRange => "action cell out of range"
  | gotoCellOutOfRange => "goto cell out of range"
  | gotoInActionTable => "goto in action table"
  | unknownActionTag => "unknown action tag"
  | ruleOutOfRange => "rule out of range"
  | stackUnderflow => "stack underflow"
  | missingGoto => "missing goto"

/-- Why a token could not be taken. -/
inductive Error where
  /-- The terminal cannot stand where the parser is. -/
  | syntaxError (state terminal : Nat)
  /-- The parser has accepted already. -/
  | alreadyAccepted
  /-- The tables are malformed. -/
  | badTables (defect : Defect)
  /-- The address of a cell does not fit a word. -/
  | addressOverflow
deriving DecidableEq, Repr

/-- The text of an error. -/
def Error.message : Error → String
  | syntaxError state terminal => s!"syntax error in state {state} at terminal {terminal}"
  | alreadyAccepted => "the parser was pushed a token after it accepted"
  | badTables defect => "malformed parse tables: " ++ defect.text
  | addressOverflow => "a table address does not fit a word"

/-- The tables of a parser. -/
structure Tables where
  actionTable : Array Int
  actionIndex : Array Int
  gotoTable : Array Int
  gotoIndex : Array Int
  /-- The width of a row of actions. -/
  terminals : Nat
  /-- The width of a row of gotos. -/
  nonterminals : Nat
  /-- For each rule, the non-terminal it defines. -/
  ruleLhs : Array Nat
  /-- For each rule, how many values it takes. -/
  ruleLength : Array Nat
deriving DecidableEq, Repr

namespace Tables

/-- The cell of a table at a row and a column. -/
def cell (table : Array Int) (width : Nat) (defect : Defect) (row column : Nat) :
    Except Error Int :=
  match cellAddress row width column with
  | .error _ => .error .addressOverflow
  | .ok address =>
    match table[address]? with
    | some code => .ok code
    | none => .error (.badTables defect)

/-- The code of the action of a state on a terminal. -/
def action (t : Tables) (state terminal : Nat) : Except Error Int :=
  match t.actionIndex[state]? with
  | none => .error (.badTables .stateOutOfRange)
  | some entry =>
    if entry % 2 = 1 then .ok (entry / 2)
    else cell t.actionTable t.terminals .actionCellOutOfRange (wrap64 (entry / 2)) terminal

/-- The code of the action of a state on a non-terminal. -/
def goto (t : Tables) (state nonterminal : Nat) : Except Error Int :=
  match t.gotoIndex[state]? with
  | none => .error (.badTables .stateOutOfRange)
  | some row => cell t.gotoTable t.nonterminals .gotoCellOutOfRange (wrap64 row) nonterminal

end Tables

end ShiftReduce.Parser
