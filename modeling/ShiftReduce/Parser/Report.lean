import ShiftReduce.Log
import ShiftReduce.Parser.Basic

/-!
# The report on pushing a token

One record for each thing the parser did, in the order in which it did them. A token that was
refused has the reductions before the refusal on record as well.
-/

namespace ShiftReduce.Parser

variable {V : Type}

def Event.text : Event V → String
  | shift state terminal target =>
    s!"state {state}: shift terminal {terminal}, goto state {target}"
  | reduce rule values => s!"reduce by rule {rule}, popping {values.length} values"
  | goto state target nonterminal =>
    s!"state {state}: goto state {target} on non-terminal {nonterminal}"
  | accept state rule => s!"state {state}: accept by rule {rule}"
  | refuse state terminal => s!"state {state}: syntax error at terminal {terminal}"

def Pushed.report (x : Pushed V) : List Log.Record :=
  x.events.map fun e ↦ Log.debug e.text

end ShiftReduce.Parser
