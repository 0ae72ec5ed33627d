import ShiftReduce.Conflict.Basic

/-!
# Packed tables

The rows of all states with every distinct row stored once, and for each state an entry that says
where its rows are. A goto entry is the number of a row. An action entry with its low bit set holds
the one action of a uniform row, above that bit; otherwise it is twice the number of a row.

## Representation

Rows are stored in the order in which they are first met, so that numbers already given stay right.
Index entries are signed 32-bit words: a number that does not fit is wrapped, and a row of actions
can be told from a code only by the low bit. A row without cells is stored like any other that is
not uniform.

## Reading

`Tables.action?` and `Tables.goto?` read the tables as lists of actions. A state past the last, a
column that the row does not have and a code that stands for nothing all have no action.
-/

namespace ShiftReduce

/-- Packed tables. -/
structure Tables where
  actionRows : List (List Action) := []
  actionIndex : List Int := []
  gotoRows : List (List Action) := []
  gotoIndex : List Int := []
deriving DecidableEq, Repr

namespace Tables

def stateCount (t : Tables) : Nat :=
  t.actionIndex.length

/-- The entry of a list at a signed index. -/
def entryAt? {α : Type} (l : List α) (i : Int) : Option α :=
  if i < 0 then none else l[i.toNat]?

def action? (t : Tables) (state terminal : Nat) : Option Action := do
  let entry ← t.actionIndex[state]?
  if entry % 2 = 1 then Action.decode? (entry / 2)
  else (← entryAt? t.actionRows (entry / 2))[terminal]?

/-- The action of a state on a non-terminal. -/
def goto? (t : Tables) (state nonterminal : Nat) : Option Action := do
  (← entryAt? t.gotoRows (← t.gotoIndex[state]?))[nonterminal]?

def encodedActionRows (t : Tables) : List (List Int) :=
  t.actionRows.map (·.map Action.encode)

def encodedGotoRows (t : Tables) : List (List Int) :=
  t.gotoRows.map (·.map Action.encode)

/-! ## Packing -/

/-- The number of a row among those stored, and the rows with it stored. -/
def storeRow (rows : List (List Action)) (row : List Action) : Nat × List (List Action) :=
  match rows.findIdx? (· = row) with
  | some i => (i, rows)
  | none => (rows.length, rows ++ [row])

def uniform? : List Action → Option Action
  | [] => none
  | a :: rest => if rest.all (· = a) then some a else none

def push (t : Tables) (rows : Rows) : Tables :=
  let (gotoRow, gotoRows) := storeRow t.gotoRows rows.gotos
  let gotoIndex := t.gotoIndex ++ [wrap32 gotoRow]
  match uniform? rows.actions with
  | some action =>
    { t with
      actionIndex := t.actionIndex ++ [wrap32 (action.encode * 2) + 1], gotoRows, gotoIndex }
  | none =>
    let (actionRow, actionRows) := storeRow t.actionRows rows.actions
    { actionRows, actionIndex := t.actionIndex ++ [wrap32 (wrap32 actionRow * 2)], gotoRows
      gotoIndex }

def compress (rows : List Rows) : Tables :=
  rows.foldl push {}

end Tables

end ShiftReduce
