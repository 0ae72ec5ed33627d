import ShiftReduce.Automaton.Build

/-!
# The report on building an automaton

The tables of the closure, each state when its actions were about to be decided, and each state
promised while that was done.

The report is read off the finished automaton. The states are numbered in the order in which they
are promised, so which group asked for a state shows in the actions: a state was promised where an
action first enters its number (`Automaton.promised`). If the automaton could not be built, the
states up to the one in which the search was stuck are reported as far as they came.
-/

namespace ShiftReduce.Automaton

/-- The number by which an action enters a state. -/
def target? : Action → Option Nat
  | .shift s | .goto s => some s
  | _ => none

/-- The states that the groups of a state asked for, when `next` is the next number to be given. -/
def promised (g : Grammar) (s : State) (next : Nat) : List (Nat × Symbol) :=
  (s.groups g).foldl
    (fun found (key, group) ↦
      match key, (group.head?.bind s.action?).bind target? with
      | .symbol symbol, some target =>
        if target = next + found.length then found ++ [(target, symbol)] else found
      | _, _ => found)
    []

/-- The records of the states in turn, when `next` is the next number to be given. -/
def reportStates (g : Grammar) : List State → Nat → List Log.Record
  | [], _ => []
  | s :: rest, next =>
    let promises := promised g s next
    Log.debug ("computing actions for " ++ s.forget.listing g)
      :: promises.map (fun (target, symbol) ↦
        Log.debug s!"    created state s{target} on {g.symbolName symbol}")
      ++ reportStates g rest (next + promises.length)

/-- What there is to tell about building the automaton of a grammar. -/
def report (g : Grammar) : List Log.Record :=
  match Closure.report g, construct g with
  | .ok tables, .ok c =>
    tables ++ reportStates g (c.visited ++ c.stuck.toList) 1
      ++ if c.stuck.isNone then [Log.debug s!"automaton has {c.visited.length} states"] else []
  | _, _ => []

end ShiftReduce.Automaton
