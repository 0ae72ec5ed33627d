import ShiftReduce.Regex.Flaw
import ShiftReduce.Text.Blank

/-!
# Reading a pattern

The reader is a value: what is left of the pattern, each character at its place, and what was met on
the way that matters later. In an extended pattern blanks and comments may stand almost anywhere;
reading on past a character then skips them.

A `Reading` is a computation with a reader that stops at the first flaw. The first half of the
module looks at what comes next, the second reads on.
-/

namespace ShiftReduce.Regex

open Text

/-- A place in a pattern that is being read. -/
structure Reader where
  rest : List Placed
  /-- The end of the pattern. -/
  stop : Position
  /-- Whether blanks and comments are skipped. -/
  extended : Bool := false
  /-- How many groups are remembered so far. -/
  captures : Nat := 0
  /-- The names of groups so far, and where they are given. -/
  names : List (String × Span) := []
deriving Repr

/-- What reads a part of a pattern. -/
abbrev Reading := StateT Reader (Except Flaw)

namespace Reader

def ofList (pattern : List Char) : Reader where
  rest := Placed.ofList {} pattern
  stop := Position.afterAll {} pattern

/-- Drops blanks and comments; the first argument tells whether a comment has begun. -/
def dropBlanks : Bool → List Placed → List Placed
  | _, [] => []
  | true, p :: rest => dropBlanks (p.char ≠ '\n') rest
  | false, p :: rest =>
    if isBlank p.char then dropBlanks false rest
    else if p.char = '#' then dropBlanks true rest
    else p :: rest

/-- The first character that is neither a blank nor the first comment mark, or else the very first
one. -/
def peekPastBlanks (rest : List Placed) : Option Char :=
  let kept := rest.dropWhile fun p ↦ isBlank p.char
  let kept :=
    if kept.head?.any (·.char = '#') then kept.tail.dropWhile fun p ↦ isBlank p.char else kept
  (kept.head? <|> rest.head?).map (·.char)

end Reader

namespace Reading

/-! ## Looking -/

/-- Stops with a flaw. -/
def fail {α : Type} (kind : FlawKind) (span : Span) : Reading α :=
  throw ⟨kind, span⟩

def position : Reading Position := do
  let r ← get
  return (r.rest.head?.map (·.position)).getD r.stop

def here : Reading Span :=
  return .empty (← position)

def since (start : Position) : Reading Span :=
  return ⟨start, ← position⟩

def charSpan : Reading Span := do
  match (← get).rest with
  | [] => here
  | p :: _ => return p.span

def peek? : Reading (Option Char) :=
  return (← get).rest.head?.map (·.char)

def peekSecond? : Reading (Option Char) :=
  return (← get).rest.tail.head?.map (·.char)

/-- The character after the next, past blanks in an extended pattern. -/
def peekSpaced? : Reading (Option Char) := do
  let r ← get
  if r.extended then return Reader.peekPastBlanks r.rest.tail else peekSecond?

def isNext (text : String) : Reading Bool :=
  return text.toList.isPrefixOf ((← get).rest.map (·.char))

/-! ## Reading on -/

def skip (n : Nat) : Reading Unit :=
  modify fun r ↦ { r with rest := r.rest.drop n }

/-- Reads past blanks and comments of an extended pattern. -/
def skipBlanks : Reading Unit :=
  modify fun r ↦ if r.extended then { r with rest := Reader.dropBlanks false r.rest } else r

/-- Reads past the next character, and the blanks behind it. -/
def bump : Reading Unit := do
  skip 1
  skipBlanks

/-- Reads past some text if it comes next. -/
def skipIf (text : String) : Reading Bool := do
  if ← isNext text then
    skip text.length
    return true
  else return false

/-- Reads characters that pass a test, at most as many as the first argument says, with the blanks
behind each. -/
def takeUpTo (keep : Char → Bool) : Nat → Reading (List Char)
  | 0 => return []
  | bound + 1 => do
    match ← peek? with
    | none => return []
    | some c =>
      if keep c then
        bump
        return c :: (← takeUpTo keep bound)
      else return []

/-- Reads all characters that pass a test, with the blanks behind each. -/
def takeSpaced (keep : Char → Bool) : Reading (List Char) := do
  takeUpTo keep (← get).rest.length

def skipWhite : Reading Unit :=
  modify fun r ↦ { r with rest := r.rest.dropWhile fun p ↦ isBlank p.char }

end Reading

end ShiftReduce.Regex
