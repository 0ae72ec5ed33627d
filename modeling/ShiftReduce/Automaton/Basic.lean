import ShiftReduce.Action
import ShiftReduce.Item

/-!
# Automata

A state is a set of items, each with the action the parser takes on the item's symbol once that is
decided. An automaton is a list of states, known by their places in it.

## Groups

The items of a state fall into groups by the symbol they read next; the items that read nothing are
a group of their own. A group acts as one: its items get one action, and what they lead to is found
from the group alone. Groups come in a fixed order, terminals before non-terminals and each by
number, since the order in which groups are treated decides the numbers of the states.

## Representation

The items of a state are an ascending list, and the action of an item stands beside it. A state can
also be made by hand, from items in any order and with any actions (`State.ofEntries`): items may
then lack an action, carry one that does not fit what they read, or belong to rules that do not
exist. What settling does with such a state is part of its meaning.
-/

namespace ShiftReduce

/-- A state: its items in ascending order, with their actions. -/
structure State where
  id : Nat
  items : List (Item × Option Action)
deriving DecidableEq, Repr

namespace State

/-- Puts an item with its action in its place; an item that is there already is replaced. -/
def insertEntry (item : Item) (action : Option Action) :
    List (Item × Option Action) → List (Item × Option Action)
  | [] => [(item, action)]
  | (other, a) :: rest =>
    if item.lt other then (item, action) :: (other, a) :: rest
    else if other.lt item then (other, a) :: insertEntry item action rest
    else (item, action) :: rest

/-- The state of the given items in any order; of two entries for an item the later counts. -/
def ofEntries (id : Nat) (entries : List (Item × Option Action)) : State where
  id
  items := entries.foldl (fun items (item, action) ↦ insertEntry item action items) []

/-- The state of the given ascending items, with no action decided. -/
def ofItems (id : Nat) (items : List Item) : State where
  id
  items := items.map (·, none)

def itemSet (s : State) : List Item :=
  s.items.map Prod.fst

def action? (s : State) (item : Item) : Option Action :=
  ((s.items.find? (·.1 = item)).map Prod.snd).join

def setAction (s : State) (item : Item) (action : Action) : State :=
  { s with
    items := s.items.map fun (i, a) ↦ if i = item then (i, some action) else (i, a) }

def forget (s : State) : State :=
  ofItems s.id s.itemSet

/-- Whether the grammar has the rules of all items. -/
def isKnown (g : Grammar) (s : State) : Bool :=
  s.itemSet.all (·.isKnown g)

/-! ## Groups -/

/-- What the items of a group read next. -/
inductive GroupKey where
  /-- A symbol. -/
  | symbol (s : Symbol)
  /-- Nothing: the rule has been read to its end. -/
  | completed
deriving DecidableEq, Repr

def GroupKey.ofItem (g : Grammar) (item : Item) : GroupKey :=
  match item.symbol? g with
  | some s => .symbol s
  | none => .completed

/-- All groups there can be, in order: terminals, non-terminals, and completed rules. -/
def groupKeys (g : Grammar) : List GroupKey :=
  (List.range g.terminals.length).map (fun t ↦ .symbol (.terminal t))
    ++ (List.range g.nonterminals.length).map (fun a ↦ .symbol (.nonterminal a))
    ++ [.completed]

def groupItems (g : Grammar) (items : List Item) (key : GroupKey) : List Item :=
  items.filter fun item ↦ GroupKey.ofItem g item = key

/-- The groups of a state that have items, in order. -/
def groups (g : Grammar) (s : State) : List (GroupKey × List Item) :=
  ((groupKeys g).map fun key ↦ (key, groupItems g s.itemSet key)).filter
    fun (_, items) ↦ items ≠ []

/-- Whether every item of a group has a symbol left to read. -/
def groupHasMore (g : Grammar) (items : List Item) : Bool :=
  items.all (·.hasMore g)

/-! ## Listings -/

/-- Fills a text with spaces up to a number of characters. -/
def padTo (width : Nat) (s : String) : String :=
  s ++ String.ofList (List.replicate (width - s.length) ' ')

/-- A line for an item; actions stand in a column of their own. -/
def entryLine (g : Grammar) : Item × Option Action → String
  | (item, some action) => "    " ++ padTo 40 (item.text g) ++ " " ++ action.text ++ "\n"
  | (item, none) => "    " ++ item.text g ++ "\n"

/-- A state as text, an item on each line. -/
def listing (g : Grammar) (s : State) : String :=
  s!"State s{s.id}\n" ++ String.join (s.items.map (entryLine g))

end State

/-- The states of a grammar. -/
structure Automaton where
  states : List State
deriving DecidableEq, Repr

namespace Automaton

def state? (a : Automaton) (id : Nat) : Option State :=
  a.states[id]?

/-- What a look-up of an item in a state shows. -/
structure Lookup where
  /-- The action decided for the item. -/
  action : Option Action
  /-- Whether the item has a symbol left to read. -/
  hasMore : Bool
  /-- The item as text. -/
  text : String
  /-- The item one place further, as text. -/
  advanced : String
  /-- The name of the symbol the item reads next. -/
  symbol : Option String
deriving DecidableEq, Repr

/-- Looks up an item, if the state exists and the grammar has the item's rule. -/
def lookup? (g : Grammar) (a : Automaton) (id : Nat) (item : Item) : Option Lookup := do
  let s ← a.state? id
  guard (item.isKnown g)
  return { action := s.action? item, hasMore := item.hasMore g, text := item.text g
           advanced := item.advance.text g, symbol := (item.symbol? g).map g.symbolName }

end Automaton

end ShiftReduce
