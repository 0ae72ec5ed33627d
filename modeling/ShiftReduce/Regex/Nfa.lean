import ShiftReduce.Regex.Expr

/-!
# Machines with free moves

The machine of a regular expression: states joined by moves, which read a character of a range, and
by jumps, which read nothing.

## The construction

The machine is put together from the machines of the parts, each entered at one state and left at
another; a machine accepts in one state only. What adds a part to a draft is a `Nfa.Builder`, so
that copies of a part can be added without knowing what it is. A repetition is a number of copies in
a row, followed by more copies with a way out before each, or by a loop.

## Draft and machine

States are numbered in the order in which they are added, and a draft only grows. Moves and jumps
are kept with the latest first.

## Failures

A machine reads characters and does not look around. A literal of bytes that are no text, a class
with bytes past ASCII and an assertion have no machine, and the first of them that is met decides
the error. The body of a repetition that allows no copy is not looked at.
-/

namespace ShiftReduce.Regex

/-- A move that reads a character. -/
structure Move where
  source : Nat
  range : CharRange
  target : Nat
deriving DecidableEq, Repr

/-- A move that reads nothing. -/
structure Jump where
  source : Nat
  target : Nat
deriving DecidableEq, Repr

/-- The machine of one pattern. -/
structure Nfa where
  /-- The states are the numbers below this one. -/
  size : Nat
  moves : List Move
  jumps : List Jump
  start : Nat
  accept : Nat
  /-- The terminal that the pattern belongs to. -/
  tag : Nat
deriving DecidableEq, Repr

/-- Why a regular expression has no machine. -/
inductive BuildError where
  /-- A literal is no text. -/
  | invalidLiteral
  /-- A class of bytes holds some that are no characters. -/
  | wideByteClass (ranges : List ByteRange)
  /-- A machine cannot look around. -/
  | lookAround (look : Look)
deriving DecidableEq, Repr

namespace Nfa

/-- States and moves put together so far, the latest first. -/
structure Draft where
  size : Nat := 0
  moves : List Move := []
  jumps : List Jump := []
deriving DecidableEq, Repr

namespace Draft

def addState (d : Draft) : Nat × Draft :=
  (d.size, { d with size := d.size + 1 })

def move (d : Draft) (source : Nat) (range : CharRange) (target : Nat) : Draft :=
  { d with moves := ⟨source, range, target⟩ :: d.moves }

def jump (d : Draft) (source target : Nat) : Draft :=
  { d with jumps := ⟨source, target⟩ :: d.jumps }

/-- Adds a state for each character, reached from the one before by reading it. -/
def chain (d : Draft) (current : Nat) : List Char → Nat × Draft
  | [] => (current, d)
  | c :: cs =>
    let (next, d) := d.addState
    (d.move current (.single c) next).chain next cs

/-- Adds two states and a move between them for each range. -/
def fork (d : Draft) (ranges : List CharRange) : Nat × Nat × Draft :=
  let (start, d) := d.addState
  let (stop, d) := d.addState
  (start, stop, ranges.foldl (fun d r ↦ d.move start r stop) d)

end Draft

/-- A part put together: the states at which it is entered and left, and the draft with it. -/
structure Part where
  start : Nat
  stop : Nat
  draft : Draft
deriving DecidableEq, Repr

/-- What adds a part to a draft. -/
abbrev Builder := Draft → Except BuildError Part

/-- Adds copies of a part one after another. -/
def copies (build : Builder) : Nat → Nat → Draft → Except BuildError (Nat × Draft)
  | 0, current, d => .ok (current, d)
  | n + 1, current, d =>
    match build d with
    | .error e => .error e
    | .ok p => copies build n p.stop (p.draft.jump current p.start)

/-- Adds copies of a part one after another, with a way out before each. -/
def optionalCopies (build : Builder) (exit : Nat) :
    Nat → Nat → Draft → Except BuildError (Nat × Draft)
  | 0, current, d => .ok (current, d)
  | n + 1, current, d =>
    match build d with
    | .error e => .error e
    | .ok p =>
      optionalCopies build exit n p.stop ((p.draft.jump current p.start).jump current exit)

/-- Adds any number of passes through a part, around a state of their own. -/
def loop (build : Builder) (current : Nat) (d : Draft) : Except BuildError (Nat × Draft) :=
  match build d with
  | .error e => .error e
  | .ok p =>
    let (hub, d) := p.draft.addState
    .ok (hub, ((d.jump current hub).jump hub p.start).jump p.stop hub)

/-- Adds the optional part of a repetition: `extra` copies with ways out, or any number. -/
def repetitionTail (build : Builder) (extra : Option Nat) (current : Nat) (d : Draft) :
    Except BuildError (Nat × Draft) :=
  match extra with
  | none => loop build current d
  | some extra =>
    let (exit, d) := d.addState
    match optionalCopies build exit extra current d with
    | .error e => .error e
    | .ok (current, d) => .ok (exit, d.jump current exit)

/-- The range of characters with the codes of a range of bytes. -/
def charRange (r : ByteRange) : CharRange :=
  ⟨Char.ofNat r.first.toNat, Char.ofNat r.last.toNat⟩

mutual

def build : Expr → Builder
  | .empty, d =>
    let (s, d) := d.addState
    .ok ⟨s, s, d⟩
  | .literal bytes, d =>
    match String.fromUTF8? ⟨bytes.toArray⟩ with
    | none => .error .invalidLiteral
    | some text =>
      let (start, d) := d.addState
      let (stop, d) := d.chain start text.toList
      .ok ⟨start, stop, d⟩
  | .chars ranges, d =>
    let (start, stop, d) := d.fork ranges
    .ok ⟨start, stop, d⟩
  | .bytes ranges, d =>
    if ranges.all (·.last ≤ 0x7F) then
      let (start, stop, d) := d.fork (ranges.map charRange)
      .ok ⟨start, stop, d⟩
    else .error (.wideByteClass ranges)
  | .look l, _ => .error (.lookAround l)
  | .repetition min max _ sub, d =>
    let (start, d) := d.addState
    match copies (build sub) min start d with
    | .error e => .error e
    | .ok (current, d) =>
      match repetitionTail (build sub) (max.map (· - min)) current d with
      | .error e => .error e
      | .ok (stop, d) => .ok ⟨start, stop, d⟩
  | .capture _ _ sub, d => build sub d
  | .concat subs, d =>
    let (start, d) := d.addState
    match buildSequence subs start d with
    | .error e => .error e
    | .ok (stop, d) => .ok ⟨start, stop, d⟩
  | .alternation subs, d =>
    let (start, d) := d.addState
    let (stop, d) := d.addState
    match buildBranches subs start stop d with
    | .error e => .error e
    | .ok d => .ok ⟨start, stop, d⟩

/-- Adds the machines of expressions one after another. -/
def buildSequence : List Expr → Nat → Draft → Except BuildError (Nat × Draft)
  | [], current, d => .ok (current, d)
  | h :: rest, current, d =>
    match build h d with
    | .error e => .error e
    | .ok p => buildSequence rest p.stop (p.draft.jump current p.start)

/-- Adds the machines of expressions side by side. -/
def buildBranches : List Expr → Nat → Nat → Draft → Except BuildError Draft
  | [], _, _, d => .ok d
  | h :: rest, start, stop, d =>
    match build h d with
    | .error e => .error e
    | .ok p => buildBranches rest start stop ((p.draft.jump start p.start).jump p.stop stop)

end

/-- The machine of an expression, for a terminal. -/
def ofExpr (h : Expr) (tag : Nat) : Except BuildError Nfa :=
  match build h {} with
  | .error e => .error e
  | .ok p =>
    .ok { size := p.draft.size, moves := p.draft.moves, jumps := p.draft.jumps, start := p.start
          accept := p.stop, tag }

end Nfa

end ShiftReduce.Regex
