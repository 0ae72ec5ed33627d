import ShiftReduce.Grammar.Basic
import ShiftReduce.Log

/-!
# The report on a grammar

Terminals that no rule uses, and the grammar with its numbers.

The unused terminals are found by ticking off the terminals of all rules, each at its number, in a
list with a mark for every terminal. The end of input counts as used.
-/

namespace ShiftReduce.Grammar

def tick (marks : List Bool) (i : Nat) : Except Error (List Bool) := do
  let _ ← require marks[i]?
  return marks.set i true

/-- The terminals on the right-hand side of a rule. -/
def terminalsOf (rule : Rule) : List Nat :=
  rule.rhs.filterMap fun
    | .terminal t => some t
    | .nonterminal _ => none

/-- The terminals that are left when those of all rules and the end of input are ticked off. -/
def unusedTerminals (g : Grammar) : Except Error (List Terminal) := do
  let marks ← (0 :: g.rules.flatMap terminalsOf).foldlM tick
    (List.replicate g.terminals.length false)
  let marked ← g.terminals.mapM fun t ↦ do return (t, ← require marks[t.number]?)
  return (marked.filter (!·.2)).map (·.1)

/-- What there is to tell about a grammar. -/
def report (g : Grammar) : Except Error (List Log.Record) := do
  let unused ← g.unusedTerminals
  let texts ← (List.range g.rules.length).mapM fun r ↦ require (g.ruleText? r)
  return unused.map (fun t ↦ Log.warn s!"terminal {t.name} is never used in a rule")
    ++ [Log.debug "grammar:"]
    ++ g.terminals.map (fun t ↦ Log.debug s!"    terminal t{t.number} {t.name}")
    ++ g.nonterminals.map (fun a ↦
      Log.debug s!"    non-terminal n{a.number} {a.name} ({a.valueType})")
    ++ texts.map (fun text ↦ Log.debug ("    " ++ text))

end ShiftReduce.Grammar
