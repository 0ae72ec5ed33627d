import ShiftReduce.Regex.Pattern.Basic
import ShiftReduce.Regex.Pattern.Reader
import ShiftReduce.Text.Properties

/-!
# Openings of groups

What can follow an opening parenthesis: nothing, a name, or flags, which either open a group or, if
the parenthesis is closed behind them, hold for the rest of the group around them.

Groups that are remembered are numbered in the order of their parentheses, and no name is given
twice; both are the reader's to keep.
-/

namespace ShiftReduce.Regex

open Text

/-- What an opening parenthesis has turned out to be. -/
inductive Opening where
  /-- The beginning of a group. -/
  | group (kind : GroupKind) (span : Span)
  /-- Flags by themselves. -/
  | flags (changes : FlagChanges) (span : Span)
deriving Repr

namespace Reading

/-! ## Names -/

/-- A character that a name may start with. -/
def isNameStart (c : Char) : Bool :=
  c = '_' || isLetter c

/-- A character that a name may go on with. -/
def isNamePart (c : Char) : Bool :=
  c = '_' || c = '.' || c = '[' || c = ']' || isLetterOrNumber c

/-- The characters of a name at the start of a list. -/
def nameAt (cs : List Char) : List Char :=
  if cs.head?.any isNameStart then cs.takeWhile isNamePart else []

/-- The number of the next group that is remembered. -/
def nextCapture : Reading Nat := do
  modify fun r ↦ { r with captures := r.captures + 1 }
  return (← get).captures

/-- Reads a name and the angle bracket behind it. -/
def readName : Reading String := do
  let start ← position
  let name := nameAt ((← get).rest.map (·.char))
  skip name.length
  match ← peek? with
  | none => fail .nameUnclosed (← here)
  | some c =>
    if c ≠ '>' then fail .nameInvalid (← charSpan)
    else
      let span ← since start
      skip 1
      if name = [] then fail .nameEmpty (.empty start)
      else
        let text := String.ofList name
        match (← get).names.lookup text with
        | some first => fail (.nameDuplicate first) span
        | none =>
          modify fun r ↦ { r with names := (text, span) :: r.names }
          return text

/-! ## Flags -/

/-- The flags read so far. -/
structure FlagRun where
  changes : List (Flag × Bool) := []
  /-- Where each flag stands. -/
  places : List (Flag × Span) := []
  /-- Where the negation stands. -/
  negation : Option Span := none
  /-- Whether the negation came last. -/
  dangling : Bool := false
deriving Repr

/-- Takes up a letter among flags, or the negation. -/
def takeFlag (run : FlagRun) (c : Char) (span : Span) : Reading FlagRun :=
  if c = '-' then
    match run.negation with
    | some first => fail (.negationRepeated first) span
    | none => return { run with negation := some span, dangling := true }
  else
    match Flag.ofLetter? c with
    | none => fail .flagUnrecognized span
    | some flag =>
      match run.places.lookup flag with
      | some first => fail (.flagDuplicate first) span
      | none =>
        return { run with
          changes := run.changes ++ [(flag, run.negation.isNone)]
          places := (flag, span) :: run.places
          dangling := false }

/-- Reads flags up to a colon or a closing parenthesis. -/
def readFlags : Nat → FlagRun → Reading FlagRun
  | 0, run => return run
  | bound + 1, run => do
    match ← peek? with
    | none => fail .flagUnfinished (← here)
    | some c =>
      if c = ':' ∨ c = ')' then
        match run.negation with
        | some span => if run.dangling then fail .negationDangling span else return run
        | none => return run
      else
        let run ← takeFlag run c (← charSpan)
        skip 1
        readFlags bound run

/-! ## Openings -/

/-- What looks around begins with one of these. -/
def lookAroundMarks : List String :=
  ["?=", "?!", "?<=", "?<!"]

/-- Reads the flags of a group and the character that ends them. -/
def readFlagOpening (opening inner : Span) : Reading Opening := do
  if (← peek?).isNone then fail .groupUnclosed opening
  let run ← readFlags ((← get).rest.length + 1) {}
  let closed := (← peek?) = some ')'
  skip 1
  if !closed then return .group (.flags run.changes) opening
  else if run.changes = [] then fail .repetitionMissing inner
  else return .flags run.changes (← since opening.start)

/-- Reads an opening, from the parenthesis on. -/
def readOpenGroup : Reading Opening := do
  let opening ← charSpan
  bump
  for mark in lookAroundMarks do
    if ← skipIf mark then fail .lookAround (← since opening.start)
  let inner ← here
  let named ← if ← skipIf "?P<" then pure true else skipIf "?<"
  if named then
    let index ← nextCapture
    let name ← readName
    return .group (.capture index (some name)) opening
  else if ← skipIf "?" then readFlagOpening opening inner
  else return .group (.capture (← nextCapture) none) opening

end Reading

end ShiftReduce.Regex
