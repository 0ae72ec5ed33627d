import ShiftReduce.Automaton.Basic

/-!
# Settling conflicts

A state that reduces by a rule may also shift. Which of the two it does on a terminal is decided by
precedence: the reducing rule is compared with each item that shifts the terminal. The higher level
wins; on equal levels the associativity decides; without a precedence on either side the parser
shifts. Every comparison is recorded.

## The rows

The outcome is a row of actions, by terminal, and a row of gotos, by non-terminal, for every state.
The automaton has no lookahead, so a state that reduces does so on all terminals that it has no
other action for.

## The order of things

The items of a state are first all taken up, which finds the rule to reduce by and the items that
shift (`Conflict.demands`); only then are the shifts settled, one after another
(`Conflict.settleAll`). A comparison concerns one item, and what it comes to is written into the
cell of the terminal and onto the item. Several items may shift one terminal, so the cell keeps what
the last of them that lost has left there.

## Failures

An automaton made by hand may have items without an action or reduce by two rules in one state.
Settling goes through the states in order and stops at the first such state, which stays as it was
along with those behind it (`Conflict.resolveStates`).
-/

namespace ShiftReduce

/-- How a conflict was settled. -/
inductive Resolution where
  /-- The reducing rule binds tighter, or the level groups to the left. -/
  | reduce
  /-- The shifting rule binds tighter, or the level groups to the right. -/
  | shift
  /-- The level does not group at all. -/
  | error
  /-- One of the rules has no precedence. -/
  | shiftByDefault
deriving DecidableEq, Repr

def Resolution.text : Resolution → String
  | reduce => "Reduce"
  | shift => "Shift"
  | error => "Error"
  | shiftByDefault => "ShiftByDefault"

/-- A state that may both shift a terminal and reduce. -/
structure Conflict where
  state : Nat
  terminal : Nat
  shiftRule : Nat
  reduceRule : Nat
  resolution : Resolution
deriving DecidableEq, Repr

/-- The rows of a state. -/
structure Rows where
  /-- By terminal. -/
  actions : List Action
  /-- By non-terminal. -/
  gotos : List Action
deriving DecidableEq, Repr

/-- The rows of all states and the conflicts settled on the way. -/
structure Resolved where
  rows : List Rows := []
  conflicts : List Conflict := []
deriving DecidableEq, Repr

namespace Conflict

/-- Compares a rule that shifts with a rule that reduces. -/
def settle (g : Grammar) (shiftRule reduceRule : Nat) : Resolution :=
  match g.rulePrecedence? reduceRule, g.rulePrecedence? shiftRule with
  | some r, some s =>
    if r.level > s.level then .reduce
    else if r.level < s.level then .shift
    else
      match r.associativity with
      | .left => .reduce
      | .right => .shift
      | .nonassoc => .error
  | _, _ => .shiftByDefault

/-! ## Reading a state -/

/-- What the items of a state ask for. -/
structure Demands where
  actions : List (Option Action)
  gotos : List (Option Action)
  /-- The rule that the state reduces by. -/
  reduction : Option Nat := none
  /-- The items that shift, with their terminals. -/
  shifts : List (Item × Nat) := []
deriving DecidableEq, Repr

/-- No demands yet. -/
def Demands.empty (g : Grammar) : Demands where
  actions := List.replicate g.terminals.length none
  gotos := List.replicate g.nonterminals.length none

/-- Whether an action is of a kind that fits the symbol its item reads next. -/
def fits : Action → Option Symbol → Bool
  | .goto _, some (.nonterminal _) => true
  | .shift _, some (.terminal _) => true
  | .accept _, some (.terminal _) => true
  | .reduce _, _ => true
  | _, _ => false

/-- Takes up an item; an action that does not fit its item is passed over. -/
def demand (g : Grammar) (s : State) (d : Demands) : Item × Option Action → Except Error Demands
  | (_, none) => .error (.unassignedItem s.id (s.listing g))
  | (item, some action) =>
    match action, item.symbol? g with
    | .goto _, some (.nonterminal a) => .ok { d with gotos := d.gotos.set a (some action) }
    | .shift _, some (.terminal t) =>
      .ok { d with actions := d.actions.set t (some action), shifts := d.shifts ++ [(item, t)] }
    | .accept _, some (.terminal t) => .ok { d with actions := d.actions.set t (some action) }
    | .reduce rule, _ =>
      if d.reduction.all (· = rule) then .ok { d with reduction := some rule }
      else .error (.multipleReductions s.id (s.listing g))
    | _, _ => .ok d

def demands (g : Grammar) (s : State) : Except Error Demands :=
  s.items.foldlM (demand g s) (.empty g)

/-! ## Settling a state -/

/-- A state while its conflicts are being settled. -/
structure Settlement where
  state : State
  actions : List (Option Action)
  conflicts : List Conflict := []
deriving DecidableEq, Repr

/-- Settles one shift against the rule that the state reduces by. -/
def settleShift (g : Grammar) (reduceRule : Nat) (x : Settlement) :
    Item × Nat → Settlement
  | (item, t) =>
    let resolution := settle g item.rule reduceRule
    let conflicts := x.conflicts ++
      [{ state := x.state.id, terminal := t, shiftRule := item.rule, reduceRule, resolution }]
    match resolution with
    | .reduce =>
      { state := x.state.setAction item (.reduce reduceRule)
        actions := x.actions.set t (some (.reduce reduceRule)), conflicts }
    | .error =>
      { state := x.state.setAction item .error, actions := x.actions.set t (some .error)
        conflicts }
    | .shift | .shiftByDefault => { x with conflicts }

/-- Settles all shifts of a state in turn. -/
def settleAll (g : Grammar) (s : State) (d : Demands) : Settlement :=
  match d.reduction with
  | none => { state := s, actions := d.actions }
  | some rule => d.shifts.foldl (settleShift g rule) { state := s, actions := d.actions }

/-- What the state does on a terminal that no item asks for. -/
def Demands.defaultAction (d : Demands) : Action :=
  match d.reduction with
  | some rule => .reduce rule
  | none => .error

/-- The rules that the comparisons of a state look at must exist. -/
def checkKnown (g : Grammar) (d : Demands) : Except Error Unit :=
  match d.reduction with
  | some rule =>
    if d.shifts ≠ [] ∧ g.rule? rule = none then .error (.unknownRule rule) else .ok ()
  | none => .ok ()

/-- The settled state and its rows. -/
structure SettledState where
  state : State
  rows : Rows
  conflicts : List Conflict
deriving DecidableEq, Repr

def resolveState (g : Grammar) (s : State) : Except Error SettledState := do
  if let some item := s.itemSet.find? (!·.isKnown g) then throw (.unknownRule item.rule)
  let d ← demands g s
  checkKnown g d
  let x := settleAll g s d
  return {
    state := x.state
    rows :=
      { actions := x.actions.map (·.getD d.defaultAction)
        gotos := d.gotos.map (·.getD .error) }
    conflicts := x.conflicts }

/-! ## Settling an automaton -/

/-- Settles the states in turn and stops at the first that has an error. That state and those after
it stay as they were. -/
def resolveStates (g : Grammar) : List State → List State × Except Error Resolved
  | [] => ([], .ok {})
  | s :: rest =>
    match resolveState g s with
    | .error e => (s :: rest, .error e)
    | .ok x =>
      let (rest, result) := resolveStates g rest
      (x.state :: rest, result.map fun r ↦
        { rows := x.rows :: r.rows, conflicts := x.conflicts ++ r.conflicts })

/-- The rule by which an action completes. -/
def completedRule? : Action → Option Nat
  | .reduce rule | .accept rule => some rule
  | _ => none

/-- The rules that some state reduces or accepts by. -/
def usedRules (rows : List Rows) : List Nat :=
  rows.flatMap fun row ↦ row.actions.filterMap completedRule?

/-- Settles an automaton. The automaton is returned with the actions of the items that lost; if
there is an error, as it was left. -/
def resolve (g : Grammar) (a : Automaton) : Automaton × Except Error Resolved :=
  let (states, result) := resolveStates g a.states
  let result := result.bind fun r ↦
    match (usedRules r.rows).find? fun rule ↦ g.rule? rule = none with
    | some rule => .error (.unknownRule rule)
    | none => .ok r
  ({ states }, result)

end Conflict

end ShiftReduce
