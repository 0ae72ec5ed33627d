import ShiftReduce.Parser.Tables

/-!
# The push parser

The parser is pushed one token at a time. It keeps a stack of states and a stack of values, both
with the top first. On a token it reduces as long as the tables say so, each time replacing the
values of a right-hand side by the one value that the caller's function makes of them, until it
shifts the token, accepts, or fails. A parser that failed can be pushed the next token, from where
the failure left it.

## Actions and tokens

`Parser.step` is one action. `Parser.push?` takes a token within a given number of reductions:
tables that are not generated from a grammar may reduce for ever.

## Failures

Three kinds of failure are told apart. A token may be refused. The tables may turn out to be
malformed, possibly after values have been taken from the stack, which are then gone. After either
the parser goes on. The address of a cell may not fit a word, and nothing goes on after that
(`Parser.Pushed.next?`).
-/

namespace ShiftReduce

/-- A parser between two tokens. -/
structure Parser (V : Type) where
  /-- The states entered, the current one first. -/
  states : List Nat := [0]
  /-- The values of the symbols read, the last one first. -/
  values : List V := []
  accepted : Bool := false
deriving DecidableEq, Repr

namespace Parser

variable {V : Type}

def state (p : Parser V) : Nat :=
  p.states.head?.getD 0

/-- What happened to a token that was taken. -/
inductive Answer (V : Type) where
  | shifted
  | accepted (value : V)
deriving DecidableEq, Repr

/-- What a parser did on the way. -/
inductive Event (V : Type) where
  /-- It read the token and entered a state. -/
  | shift (state terminal : Nat) (target : Int)
  /-- It took the values of a rule from the stack, in the order in which they were read, and had
  them made into one. -/
  | reduce (rule : Nat) (values : List V)
  /-- It entered a state after a reduction. -/
  | goto (state target nonterminal : Nat)
  /-- It found the input complete. -/
  | accept (state rule : Nat)
  /-- It refused the token. -/
  | refuse (state terminal : Nat)
deriving DecidableEq, Repr

def Event.reduced? : Event V → Option Nat
  | reduce rule _ => some rule
  | _ => none

/-- How an action leaves the parser. -/
inductive Outcome (V : Type) where
  /-- The token is still to be taken. -/
  | pending
  /-- The token was taken. -/
  | taken (answer : Answer V)
  /-- The token was not taken. -/
  | failed (error : Error)
deriving DecidableEq, Repr

/-- A parser after an action, what the action amounts to, and what was done. -/
structure Step (V : Type) where
  parser : Parser V
  outcome : Outcome V
  events : List (Event V) := []
deriving DecidableEq, Repr

/-- Takes the values of a rule from the stack, together with their states. -/
def pop (t : Tables) (rule : Nat) (p : Parser V) : Except Error (List V × Parser V) :=
  match t.ruleLength[rule]? with
  | none => .error (.badTables .ruleOutOfRange)
  | some n =>
    if n > p.values.length ∨ n ≥ p.states.length then .error (.badTables .stackUnderflow)
    else
      .ok ((p.values.take n).reverse,
        { p with states := p.states.drop n, values := p.values.drop n })

/-- The state to enter after a reduction, and the non-terminal on which it is entered. -/
def target (t : Tables) (rule : Nat) (p : Parser V) : Except Error (Nat × Nat) :=
  match t.ruleLhs[rule]? with
  | none => .error (.badTables .ruleOutOfRange)
  | some lhs =>
    match t.goto p.state lhs with
    | .error e => .error e
    | .ok code =>
      if code % 8 = 3 then .ok (wrap64 (code / 8), lhs) else .error (.badTables .missingGoto)

/-- Puts a value on the stack and enters a state. -/
def enter (p : Parser V) (state : Nat) (value : V) : Parser V :=
  { p with states := state :: p.states, values := value :: p.values }

def reduceBy (t : Tables) (combine : Nat → List V → V) (rule : Nat) (p : Parser V) : Step V :=
  match p.pop t rule with
  | .error e => { parser := p, outcome := .failed e }
  | .ok (values, q) =>
    match q.target t rule with
    | .error e => { parser := q, outcome := .failed e, events := [.reduce rule values] }
    | .ok (next, lhs) =>
      { parser := q.enter next (combine rule values), outcome := .pending
        events := [.reduce rule values, .goto q.state next lhs] }

def acceptBy (t : Tables) (combine : Nat → List V → V) (rule : Nat) (p : Parser V) : Step V :=
  match p.pop t rule with
  | .error e => { parser := p, outcome := .failed e, events := [.accept p.state rule] }
  | .ok (values, q) =>
    { parser := { q with accepted := true }
      outcome := .taken (.accepted (combine rule values))
      events := [.accept p.state rule, .reduce rule values] }

/-- One action on a token: a terminal with its value. -/
def step (t : Tables) (combine : Nat → List V → V) (terminal : Nat) (value : V)
    (p : Parser V) : Step V :=
  match t.action p.state terminal with
  | .error e => { parser := p, outcome := .failed e }
  | .ok code =>
    if code % 8 = 1 then
      { parser := p.enter (wrap64 (code / 8)) value, outcome := .taken .shifted
        events := [.shift p.state terminal (code / 8)] }
    else if code % 8 = 2 then p.reduceBy t combine (wrap64 (code / 8))
    else if code % 8 = 4 then p.acceptBy t combine (wrap64 (code / 8))
    else if code % 8 = 0 then
      { parser := p, outcome := .failed (.syntaxError p.state terminal)
        events := [.refuse p.state terminal] }
    else if code % 8 = 3 then
      { parser := p, outcome := .failed (.badTables .gotoInActionTable) }
    else { parser := p, outcome := .failed (.badTables .unknownActionTag) }

/-- A parser after a token, what became of the token, and what was done. -/
structure Pushed (V : Type) where
  parser : Parser V
  answer : Except Error (Answer V)
  events : List (Event V)
deriving Repr

def Pushed.reduced (x : Pushed V) : List Nat :=
  x.events.filterMap Event.reduced?

def Pushed.after (events : List (Event V)) (x : Pushed V) : Pushed V :=
  { x with events := events ++ x.events }

/-- Acts on a token until it is taken or refused, reducing at most `limit` times. -/
def run? (t : Tables) (combine : Nat → List V → V) (terminal : Nat) (value : V)
    (limit : Nat) (p : Parser V) : Option (Pushed V) :=
  let s := p.step t combine terminal value
  match s.outcome with
  | .taken answer => some { parser := s.parser, answer := .ok answer, events := s.events }
  | .failed e => some { parser := s.parser, answer := .error e, events := s.events }
  | .pending =>
    match limit with
    | 0 => none
    | limit + 1 => (run? t combine terminal value limit s.parser).map (·.after s.events)

/-- The parser that takes the next token. There is none where an address has overflowed: that is no
answer, but the end. -/
def Pushed.next? (x : Pushed V) : Option (Parser V) :=
  match x.answer with
  | .error .addressOverflow => none
  | _ => some x.parser

/-- Pushes a token, unless that takes more than `limit` reductions. A parser that has accepted takes
nothing more. -/
def push? (t : Tables) (combine : Nat → List V → V) (limit terminal : Nat) (value : V)
    (p : Parser V) : Option (Pushed V) :=
  if p.accepted then some { parser := p, answer := .error .alreadyAccepted, events := [] }
  else p.run? t combine terminal value limit

end Parser

end ShiftReduce
