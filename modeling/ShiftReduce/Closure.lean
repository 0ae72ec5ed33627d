import ShiftReduce.Ascending
import ShiftReduce.Bits.Matrix
import ShiftReduce.Error
import ShiftReduce.Item
import ShiftReduce.Log
import ShiftReduce.SliceTable

/-!
# Closing a set of items

A state that may read a non-terminal may also start any rule by which that non-terminal can begin.

## The tables

Which rules those are is worked out once for the grammar: `Closure.derives` lists the rules of each
non-terminal, `Closure.leftmost` relates a non-terminal to those with which it can begin without
reading anything, and `Closure.starts` to the rules it can start.

## Closing

Closing a set is then one union of masks per item. The mask is scratch space that the caller hands
in and gets back, so that it need not be made anew for each state; what it held before does not
matter, since it is cleared first.

## Look-ups

Rules, slices and rows are looked up by number. All of them must be there, so every stage may stop
at one that is not (`require`).
-/

namespace ShiftReduce.Closure

open Bits

/-- For each non-terminal, the rules that define it. -/
def derives (g : Grammar) : SliceTable Nat :=
  (List.range g.nonterminals.length).foldl
    (fun table a ↦ table.pushSlice ((g.rulesFor a).map (·.number))) {}

/-- The non-terminal with which a rule begins. -/
def leading? (rule : Rule) : Option Nat :=
  match rule.rhs.head? with
  | some (.nonterminal a) => some a
  | _ => none

/-- A relation between the non-terminals of a grammar. -/
abbrev Relation (g : Grammar) := Matrix g.nonterminals.length g.nonterminals.length

/-- Relates a non-terminal to the one with which a rule of it begins, if the rule begins with one.
-/
def relateLeading (g : Grammar) (a : Nat) (relation : Relation g) (r : Nat) :
    Except Error (Relation g) := do
  match leading? (← require (g.rule? r)) with
  | some b => require (relation.insert? a b)
  | none => return relation

/-- Relates a non-terminal to the ones with which its rules begin. -/
def leadingRelation (g : Grammar) (derives : SliceTable Nat) : Except Error (Relation g) := do
  (← require derives.toLists?).zipIdx.foldlM
    (fun relation (rules, a) ↦ rules.foldlM (relateLeading g a) relation)
    (Matrix.empty _ _)

/-- Relates a non-terminal to itself and to those that can come first in what it stands for. -/
def leftmost (g : Grammar) (derives : SliceTable Nat) : Except Error (Relation g) := do
  require (← leadingRelation g derives).closure?

/-- The rules that can start where a non-terminal is expected, row by row. -/
abbrev Starts (g : Grammar) := Matrix g.nonterminals.length g.rules.length

/-- Relates a non-terminal to the rules of one with which it can begin. -/
def relateRules (g : Grammar) (derives : SliceTable Nat) (relation : Starts g) :
    Nat × Nat → Except Error (Starts g)
  | (a, b) => do
    let rules ← require (derives.slice? b)
    rules.foldlM (fun relation r ↦ require (relation.insert? a r)) relation

/-- Relates a non-terminal to the rules that can start where it is expected. -/
def starts (g : Grammar) (derives : SliceTable Nat) : Except Error (Starts g) := do
  (← leftmost g derives).ones.foldlM (relateRules g derives) (Matrix.empty _ _)

/-- The non-terminal that an item reads next, if there is one to read. -/
def expected? (g : Grammar) (i : Item) : Option Nat :=
  if i.hasMore g then
    match i.symbol? g with
    | some (.nonterminal a) => some a
    | _ => none
  else none

/-- Puts in the rules that can start at an item. -/
def startAt (g : Grammar) (starts : Starts g) (started : Mask g.rules.length) (i : Item) :
    Except Error (Mask g.rules.length) := do
  let _ ← require (g.rule? i.rule)
  match expected? g i with
  | some a => return started.unionWords (← require (starts.row? a)).words
  | none => return started

/-- The rules that can start at one of the items. The scratch mask is cleared first. -/
def startedRules (g : Grammar) (starts : Starts g) (scratch : Mask g.rules.length)
    (kernel : List Item) : Except Error (Mask g.rules.length) :=
  kernel.foldlM (startAt g starts) (scratch.setAll false)

/-- The closure of an ascending list of items: the items themselves, and each rule that can start at
one of them, at its first place. The mask comes back for the next call. -/
def close (g : Grammar) (starts : Starts g) (scratch : Mask g.rules.length) (kernel : List Item) :
    Except Error (List Item × Mask g.rules.length) := do
  let started ← startedRules g starts scratch kernel
  return (started.ones.foldl (fun items r ↦ Ascending.insert Item.lt ⟨r, 0⟩ items) kernel, started)

/-! ## The report -/

/-- The record of a row that took in another. -/
def absorptionRecord : Nat × Nat → Log.Record
  | (i, k) => Log.trace s!"closure: row {i} absorbs row {k}"

/-- The records of a matrix: a heading for each row, and what the row is related to. -/
def rowRecords {m n : Nat} (heading entry : Nat → String) (a : Matrix m n) : List Log.Record :=
  a.rows.toList.zipIdx.flatMap fun (row, r) ↦
    Log.debug (heading r) :: row.ones.map fun c ↦ Log.debug (entry c)

/-- What there is to tell about the three tables. -/
def report (g : Grammar) : Except Error (List Log.Record) := do
  let derives := derives g
  let slices ← require derives.toLists?
  let absorptions ← require (← leadingRelation g derives).absorptions?
  let leftmost ← leftmost g derives
  let starts ← starts g derives
  return [Log.debug "DERIVES:"]
    ++ slices.zipIdx.flatMap (fun (rules, a) ↦
      Log.debug s!"    {g.nonterminalName a} derives rules: "
        :: rules.map fun r ↦ Log.debug ("        " ++ g.ruleText r))
    ++ absorptions.map absorptionRecord
    ++ [Log.debug "Epsilon Free Firsts"]
    ++ rowRecords g.nonterminalName (fun b ↦ "  " ++ g.nonterminalName b) leftmost
    ++ [Log.debug "", Log.debug "First Derives", Log.debug ""]
    ++ rowRecords (fun a ↦ s!"{g.nonterminalName a} derives")
      (fun r ↦ "    " ++ g.ruleText r) starts

end ShiftReduce.Closure
