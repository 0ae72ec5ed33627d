import ShiftReduce.Grammar.Basic
import ShiftReduce.Lexer.Machine
import ShiftReduce.Word

/-!
# Lexer tables

The machine of all tokens with names in place of numbers, and how it is assembled from the patterns
of the terminals.

## Events

Events are looked up in a list of ranges, first match first. A character outside all of them gets
the number of ranges for its event (`Lexer.defaultEvent`). That is no event of the machine as long
as there are as many ranges as events; nothing here makes sure of it, since the machine comes from a
compiler that may be any.

## Assembly

Patterns are compiled in the order of their terminals, and the first that is refused decides the
error, with the name of its terminal. The end of input has no pattern even if one was declared for
it. States in which several terminals are recognised have no token; they are kept as collisions
(`Lexer.collisions`).
-/

namespace ShiftReduce

/-- The tables of a lexer. -/
structure Lexer where
  initial : Nat
  /-- For each state, the name of the token recognised by stopping there. -/
  tokens : List (Option String)
  /-- Ranges of characters with their events, tested in order. -/
  ranges : List (CharRange × Nat)
  /-- For each state and event, the next state. -/
  transitions : List (List (Option Nat))
  /-- The terminals that run code when found, with that code. -/
  actions : List (String × String)
  /-- The states in which several terminals are recognised, with their names. -/
  collisions : List (Nat × List String)
deriving DecidableEq, Repr

namespace Lexer

def stateCount (l : Lexer) : Nat :=
  l.transitions.length

def eventCount (l : Lexer) : Nat :=
  (l.transitions.head?.map List.length).getD 0

def defaultEvent (l : Lexer) : Nat :=
  l.ranges.length

def classify (l : Lexer) (c : Char) : Nat :=
  ((l.ranges.find? fun (range, _) ↦ range.contains c).map Prod.snd).getD l.defaultEvent

def next? (l : Lexer) (state : Nat) (c : Char) : Option Nat :=
  (l.transitions[state]?.bind (·[l.classify c]?)).join

/-- The transition matrix as signed words, with -1 where there is no transition. -/
def encodedTransitions (l : Lexer) : List (List Int) :=
  l.transitions.map (·.map fun next ↦ (next.map fun s ↦ wrap32 s).getD (-1))

/-! ## Assembly -/

/-- A pattern to be compiled, and the terminal it belongs to. -/
structure Source where
  terminal : Terminal
  pattern : String
deriving DecidableEq, Repr

/-- The pattern of a terminal; the end of input never has one. -/
def source? (t : Terminal) : Option Source :=
  if t.name = eofName then none else t.pattern.map fun pattern ↦ ⟨t, pattern⟩

/-- The patterns of the terminals, in order. -/
def sources (terminals : List Terminal) : List Source :=
  terminals.filterMap source?

/-- Compiles a pattern and names its terminal if that fails. -/
def compileSource {M : Type} (compiler : Compiler M) (s : Source) : Except Error M :=
  match compiler.compile s.pattern s.terminal.number with
  | .ok machine => .ok machine
  | .error e => .error (.invalidPattern s.terminal.name e.message)

/-- The name of the terminal of that number; of several, the last. -/
def tagName? (terminals : List Terminal) (tag : Nat) : Option String :=
  (terminals.reverse.find? (·.number = tag)).map (·.name)

def ofMachine (terminals : List Terminal) (m : Machine) : Lexer where
  initial := m.initial
  tokens := m.finalTags.map (·.bind (tagName? terminals))
  ranges := m.events.zipIdx.flatMap fun (ranges, event) ↦ ranges.map (·, event)
  transitions := m.transitions
  actions := terminals.filterMap fun t ↦ t.code.map (t.name, ·)
  collisions := m.collisions.map fun (state, tags) ↦ (state, tags.filterMap (tagName? terminals))

/-- Compiles the patterns of the terminals in order and combines their machines. -/
def assemble {M : Type} (compiler : Compiler M) (terminals : List Terminal) :
    Except Error Lexer := do
  let machines ← (sources terminals).mapM (compileSource compiler)
  return ofMachine terminals (compiler.combine machines)

end Lexer

end ShiftReduce
