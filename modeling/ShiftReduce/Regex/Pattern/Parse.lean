import ShiftReduce.Regex.Pattern.Brackets
import ShiftReduce.Regex.Pattern.Group

/-!
# From text to a pattern

A pattern is read from left to right with a stack of open groups. A level is what stands between two
parentheses, or the whole: branches separated by bars, of which the last one grows by an item at a
time. A repetition takes the item before it.

Each round reads something, so the length of the pattern bounds the number of rounds. Patterns
nested too deep are refused once they have been read.
-/

namespace ShiftReduce.Regex

open Text

/-- What has been read between two parentheses. -/
structure Level where
  start : Position
  /-- The branches before the last bar, the last one first. -/
  branches : List Pattern := []
  /-- Where the current branch starts. -/
  branchStart : Position
  /-- The items of the current branch, the last one first. -/
  items : List Pattern := []
deriving Repr

namespace Level

def ofStart (start : Position) : Level where
  start
  branchStart := start

def push (l : Level) (item : Pattern) : Level :=
  { l with items := item :: l.items }

def branch (l : Level) (stop : Position) : Pattern :=
  match l.items.reverse with
  | [] => .empty ⟨l.branchStart, stop⟩
  | [item] => item
  | items => .concat items ⟨l.branchStart, stop⟩

/-- Everything on the level, up to a place. -/
def close (l : Level) (stop : Position) : Pattern :=
  match l.branches with
  | [] => l.branch stop
  | branches => .alternation (branches.reverse ++ [l.branch stop]) ⟨l.start, stop⟩

/-- Ends a branch at a bar and starts the next behind it. -/
def nextBranch (l : Level) (stop start : Position) : Level :=
  { l with branches := l.branch stop :: l.branches, branchStart := start, items := [] }

end Level

/-- A group whose closing parenthesis has not been read. -/
structure OpenGroup where
  kind : GroupKind
  opening : Span
  /-- The level the group stands on. -/
  outer : Level
  /-- Whether blanks are skipped on that level. -/
  extended : Bool
deriving Repr

/-- The levels of a pattern that is being read. -/
structure Levels where
  current : Level
  /-- The open groups, the innermost first. -/
  groups : List OpenGroup := []
deriving Repr

namespace Levels

def push (l : Levels) (item : Pattern) : Levels :=
  { l with current := l.current.push item }

end Levels

/-- Whether the flags set or clear the skipping of blanks. -/
def FlagChanges.extended? (changes : FlagChanges) : Option Bool :=
  changes.lookup .ignoreBlanks

namespace Reading

def setExtended (extended : Bool) : Reading Unit :=
  modify fun r ↦ { r with extended }

/-! ## Groups -/

/-- Reads what starts with an opening parenthesis. -/
def openGroup (l : Levels) : Reading Levels := do
  match ← readOpenGroup with
  | .flags changes span =>
    if let some extended := changes.extended? then setExtended extended
    return l.push (.flags changes span)
  | .group kind opening =>
    let extended := (← get).extended
    if let .flags changes := kind then
      if let some extended := changes.extended? then setExtended extended
    return {
      current := .ofStart (← position)
      groups := { kind, opening, outer := l.current, extended } :: l.groups }

def closeGroup (l : Levels) : Reading Levels := do
  match l.groups with
  | [] => fail .groupUnopened (← charSpan)
  | g :: groups =>
    setExtended g.extended
    let body := l.current.close (← position)
    skip 1
    return { current := g.outer.push (.group g.kind body (← since g.opening.start)), groups }

def readBar (l : Levels) : Reading Levels := do
  let stop ← position
  skip 1
  return { l with current := l.current.nextBranch stop (← position) }

/-! ## Repetition -/

/-- Takes the item to be repeated off the current level. -/
def takeItem (l : Levels) : Reading (Pattern × Levels) := do
  match l.current.items with
  | [] | .empty _ :: _ | .flags _ _ :: _ => fail .repetitionMissing (← here)
  | item :: items => return (item, { l with current := { l.current with items } })

/-- Reads the question mark that makes a repetition prefer fewer copies. -/
def readGreedy : Reading Bool :=
  return !(← skipIf "?")

def readSign (count : Count) (l : Levels) : Reading Levels := do
  let (item, l) ← takeItem l
  skip 1
  let greedy ← readGreedy
  return l.push (.repetition count greedy item (← since item.span.start))

/-- One more than the greatest number of copies that can be asked for. -/
def countBound : Nat := 0x100000000

/-- Reads a decimal number with blanks around it. A number that is missing or too great makes a
flaw, which the caller may put off. -/
def readDecimal : Reading (Except Flaw Nat) := do
  skipWhite
  let start ← position
  let digits ← takeSpaced Char.isDigit
  let span ← since start
  skipWhite
  skipBlanks
  let n := digits.foldl (fun n c ↦ 10 * n + (c.toNat - '0'.toNat)) 0
  if digits = [] then return .error ⟨.countMissing, span⟩
  else if n < countBound then return .ok n
  else return .error ⟨.decimalInvalid, span⟩

def settle (n : Except Flaw Nat) : Reading Nat :=
  match n with
  | .ok n => return n
  | .error flaw => throw flaw

/-- Reads a count, from the first character in the braces up to the closing one. -/
def readCount (opening : Position) : Reading Count := do
  let min ← readDecimal
  match ← peek? with
  | none => fail .countUnclosed (← since opening)
  | some ',' =>
    bump
    match ← peek? with
    | none => fail .countUnclosed (← since opening)
    | some '}' => return { min := ← settle min, max := none }
    | some _ =>
      let min ← settle min
      return { min, max := some (← settle (← readDecimal)) }
  | some _ =>
    let n ← settle min
    return { min := n, max := some n }

def readBraces (l : Levels) : Reading Levels := do
  let opening ← position
  let (item, l) ← takeItem l
  bump
  if (← peek?).isNone then fail .countUnclosed (← since opening)
  let count ← readCount opening
  if (← peek?) ≠ some '}' then fail .countUnclosed (← since opening)
  bump
  let greedy ← readGreedy
  if count.isValid then
    return l.push (.repetition count greedy item (← since item.span.start))
  else fail .countInvalid (← since opening)

/-! ## Items -/

/-- Reads the item that starts with a character that is no operator. -/
def readPrimitive (c : Char) : Reading Pattern := do
  if c = '\\' then readEscape
  else
    let span ← charSpan
    skip 1
    if c = '.' then return .dot span
    else if c = '^' then return .assertion .lineStart span
    else if c = '$' then return .assertion .lineEnd span
    else return .literal { char := c, span }

/-- Reads what starts with the given character. -/
def readNext (l : Levels) (c : Char) : Reading Levels := do
  match c with
  | '(' => openGroup l
  | ')' => closeGroup l
  | '|' => readBar l
  | '[' => return l.push (← readClass)
  | '?' => readSign ⟨0, some 1⟩ l
  | '*' => readSign ⟨0, none⟩ l
  | '+' => readSign ⟨1, none⟩ l
  | '{' => readBraces l
  | c => return l.push (← readPrimitive c)

/-- Reads to the end of the pattern. Each round reads something, so the first argument is enough if
it is the length of the pattern. -/
def readAll : Nat → Levels → Reading Levels
  | 0, l => return l
  | bound + 1, l => do
    skipBlanks
    match ← peek? with
    | none => return l
    | some c => readAll bound (← readNext l c)

def readPattern : Reading Pattern := do
  let bound := (← get).rest.length
  let l ← readAll bound { current := .ofStart (← position) }
  match l.groups with
  | [] => return l.current.close (← position)
  | g :: _ => fail .groupUnclosed g.opening

end Reading

/-! ## Depth -/

/-- Where a set is first nested deeper than the limit, counting from a depth. -/
def ClassSet.tooDeep? (limit : Nat) : Nat → ClassSet → Option Span
  | depth, .bracketed _ set span =>
    if depth ≥ limit then some span else set.tooDeep? limit (depth + 1)
  | depth, .binary _ left right span =>
    if depth ≥ limit then some span
    else left.tooDeep? limit (depth + 1) <|> right.tooDeep? limit (depth + 1)
  | depth, .union items span =>
    if depth ≥ limit then some span
    else items.attach.findSome? fun ⟨item, _⟩ ↦ item.tooDeep? limit (depth + 1)
  | _, _ => none

namespace Pattern

/-- Where a pattern is first nested deeper than the limit, counting from a depth. -/
def tooDeep? (limit : Nat) : Nat → Pattern → Option Span
  | depth, .bracketed _ set span =>
    if depth ≥ limit then some span else set.tooDeep? limit (depth + 1)
  | depth, .repetition _ _ sub span | depth, .group _ sub span =>
    if depth ≥ limit then some span else sub.tooDeep? limit (depth + 1)
  | depth, .alternation subs span | depth, .concat subs span =>
    if depth ≥ limit then some span
    else subs.attach.findSome? fun ⟨sub, _⟩ ↦ sub.tooDeep? limit (depth + 1)
  | _, _ => none

/-- How deep a pattern may be nested. -/
def nestLimit : Nat := 250

def ofString (text : String) : Except Flaw Pattern := do
  let (pattern, _) ← Reading.readPattern.run (.ofList text.toList)
  match pattern.tooDeep? nestLimit 0 with
  | some span => throw ⟨.nestedTooDeep nestLimit, span⟩
  | none => return pattern

end Pattern

end ShiftReduce.Regex
