import ShiftReduce.Conflict.Basic
import ShiftReduce.Log

/-!
# The report on settling conflicts

For each state the actions passed over, its conflicts between two listings, and its rows; then the
number of conflicts that only the default settled, and the rules that no state completes.

An action is passed over if it does not fit what its item reads. Taking up the items of a state may
fail, and then the actions passed over before that item are all there is to tell about the state. No
state behind it is reported.
-/

namespace ShiftReduce.Conflict

def actionTerm : Action → String
  | .error => "Error"
  | .shift s => s!"Shift(StateId({s}))"
  | .reduce r => s!"Reduce(RuleId({r}))"
  | .goto s => s!"Goto(StateId({s}))"
  | .accept r => s!"Accept(RuleId({r}))"

def rowTerm (row : List Action) : String :=
  "[" ++ ", ".intercalate (row.map actionTerm) ++ "]"

/-- The items whose actions do not fit, up to the item at which reading the state fails. -/
def passedOver (g : Grammar) (s : State) : List (Item × Option Action) → Demands →
    List Log.Record
  | [], _ => []
  | (item, action) :: rest, d =>
    match demand g s d (item, action) with
    | .error _ => []
    | .ok d =>
      (match action with
        | some action =>
          if fits action (item.symbol? g) then []
          else [Log.debug s!"s{s.id}: ignoring {action.text} for {item.text g}"]
        | none => []) ++ passedOver g s rest d

def conflictRecord (g : Grammar) (c : Conflict) : Log.Record :=
  Log.warn (s!"s{c.state}: shift/reduce conflict on {g.terminalName c.terminal} between "
    ++ s!"{g.ruleText c.shiftRule} and {g.ruleText c.reduceRule}, resolved as "
    ++ c.resolution.text)

def settledRecords (g : Grammar) (s : State) (x : SettledState) : List Log.Record :=
  (if x.conflicts = [] then []
    else
      [Log.debug ("before resolution:\n" ++ s.listing g)]
        ++ x.conflicts.map (conflictRecord g)
        ++ [Log.debug ("after resolution:\n" ++ x.state.listing g)])
    ++ [Log.debug s!"s{s.id} actions: {rowTerm x.rows.actions}",
      Log.debug s!"s{s.id} gotos: {rowTerm x.rows.gotos}"]

/-- The records of the states in turn, up to the first that has an error. -/
def reportStates (g : Grammar) : List State → List Log.Record
  | [] => []
  | s :: rest =>
    passedOver g s s.items (.empty g) ++
      match resolveState g s with
      | .error _ => []
      | .ok x => settledRecords g s x ++ reportStates g rest

def unusedRules (g : Grammar) (r : Resolved) : List Nat :=
  let used := usedRules r.rows
  (List.range g.rules.length).filter fun rule ↦ !used.contains rule

/-- What there is to tell about settling an automaton. -/
def report (g : Grammar) (a : Automaton) : List Log.Record :=
  reportStates g a.states ++
    match (resolve g a).2 with
    | .error _ => []
    | .ok r =>
      let byDefault := (r.conflicts.filter (·.resolution = .shiftByDefault)).length
      (if byDefault = 0 then []
        else [Log.warn s!"{byDefault} shift/reduce conflict(s) resolved by shifting"])
        ++ (unusedRules g r).map fun rule ↦
          Log.warn s!"rule {g.ruleText rule} is never reduced"

end ShiftReduce.Conflict
