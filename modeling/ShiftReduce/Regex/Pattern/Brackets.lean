import ShiftReduce.Regex.Pattern.Escape

/-!
# Classes in brackets

A class is a run of items: characters, ranges, named classes, and classes in brackets of their own.
Two runs may be joined by an operation; operations group to the left. A bracket or a hyphen that
comes first stands for itself.

Classes nest, so the reader keeps a stack of those that are still open (`OpenClass`), each with the
operation that waits for its right side.
-/

namespace ShiftReduce.Regex

open Text

/-- A class whose closing bracket has not been read. -/
structure OpenClass where
  negated : Bool
  /-- Where it was opened. -/
  opening : Span
  /-- An operation with its left side. -/
  pending : Option (ClassOp × ClassSet) := none
  /-- Where the current run starts. -/
  start : Position
  /-- The items of the current run, the last one first. -/
  items : List ClassSet := []
deriving Repr

namespace OpenClass

def push (c : OpenClass) (item : ClassSet) : OpenClass :=
  { c with items := item :: c.items }

def run (c : OpenClass) : ClassSet :=
  match c.items.reverse with
  | [] => .empty (.empty c.start)
  | [item] => item
  | first :: rest =>
    .union (first :: rest) ⟨first.span.start, ((rest.getLast?.getD first).span).stop⟩

def set (c : OpenClass) : ClassSet :=
  match c.pending with
  | none => c.run
  | some (op, left) => .binary op left c.run ⟨left.span.start, c.run.span.stop⟩

/-- Starts the right side of an operation. -/
def pushOp (c : OpenClass) (op : ClassOp) (start : Position) : OpenClass :=
  { c with pending := some (op, c.set), start, items := [] }

end OpenClass

namespace Reading

/-- The operation that a character, written twice, stands for. -/
def classOp? : Char → Option ClassOp
  | '&' => some .intersection
  | '-' => some .difference
  | '~' => some .symmetricDifference
  | _ => none

/-- Reads hyphens that come first, with the place to blame if the pattern ends with them. -/
def readHyphens (opening : Position) : Nat → OpenClass → Reading OpenClass
  | 0, c => return c
  | bound + 1, c => do
    if (← peek?) ≠ some '-' then return c
    else
      let c := c.push (.literal { char := '-', span := ← charSpan })
      bump
      if (← peek?).isNone then fail .classUnclosed (.empty opening)
      else readHyphens opening bound c

/-- Reads past a character of the opening, behind which there must be more. -/
def bumpWithin (opening : Position) : Reading Unit := do
  bump
  if (← peek?).isNone then fail .classUnclosed (← since opening)

/-- Reads the opening of a class: the bracket, a negation, and a bracket or hyphens that stand for
themselves. -/
def readOpening : Reading OpenClass := do
  let opening ← position
  bumpWithin opening
  let negated := (← peek?) = some '^'
  if negated then bumpWithin opening
  let c : OpenClass := { negated, opening := .empty opening, start := ← position }
  let c ← readHyphens opening (← get).rest.length c
  if c.items.isEmpty ∧ (← peek?) = some ']' then
    let c := c.push (.literal { char := ']', span := ← charSpan })
    bumpWithin opening
    return { c with opening := ← since opening }
  else return { c with opening := ← since opening }

/-- Reads a named class, from the bracket on. If there is none, nothing is read. -/
def readAscii? : Reading (Option ClassSet) := do
  let before ← get
  let start ← position
  if ← skipIf "[:" then
    let negated ← skipIf "^"
    let name := (((← get).rest.map (·.char)).takeWhile (· ≠ ':'))
    skip name.length
    let closed ← skipIf ":]"
    match AsciiClass.ofName? (.ofList name) with
    | some kind =>
      if closed then return some (.ascii kind negated (← since start))
      else
        set before
        return none
    | none =>
      set before
      return none
  else return none

def readClassPart (c : Char) : Reading Pattern := do
  if c = '\\' then readEscape
  else
    let span ← charSpan
    skip 1
    return .literal { char := c, span }

def classItem (part : Pattern) : Reading ClassSet :=
  match part.classItem? with
  | some item => return item
  | none => fail .classEscapeInvalid part.span

def rangeEnd : Pattern → Reading Literal
  | .literal l => return l
  | part => fail .classRangeLiteral part.span

/-- Reads a range or a single item that starts with the given character. A hyphen before a closing
bracket or another hyphen makes no range. -/
def readRange (opening : Span) (c : Char) : Reading ClassSet := do
  let first ← readClassPart c
  skipBlanks
  match ← peek? with
  | none => fail .classUnclosed opening
  | some c =>
    let after ← peekSpaced?
    if c ≠ '-' ∨ after = some ']' ∨ after = some '-' then classItem first
    else
      bump
      match ← peek? with
      | none => fail .classUnclosed opening
      | some c =>
        let last ← readClassPart c
        let a ← rangeEnd first
        let b ← rangeEnd last
        if a.char ≤ b.char then return .range a b
        else fail .classRangeInvalid ⟨a.span.start, b.span.stop⟩

/-- Reads up to the bracket that closes the outermost class. Each round reads something, so the
first argument is enough if it is the length of the rest. -/
def readItems : Nat → OpenClass → List OpenClass → Reading Pattern
  | 0, c, _ => fail .classUnclosed c.opening
  | bound + 1, c, outer => do
    skipBlanks
    match ← peek? with
    | none => fail .classUnclosed c.opening
    | some '[' =>
      match ← readAscii? with
      | some item => readItems bound (c.push item) outer
      | none => readItems bound (← readOpening) (c :: outer)
    | some ']' =>
      skip 1
      let span ← since c.opening.start
      match outer with
      | [] => return .bracketed c.negated c.set span
      | parent :: outer => readItems bound (parent.push (.bracketed c.negated c.set span)) outer
    | some char =>
      match classOp? char with
      | some op =>
        if (← peekSecond?) = some char then
          skip 2
          readItems bound (c.pushOp op (← position)) outer
        else readItems bound (c.push (← readRange c.opening char)) outer
      | none => readItems bound (c.push (← readRange c.opening char)) outer

/-- Reads a class, from the opening bracket on. -/
def readClass : Reading Pattern := do
  let bound := (← get).rest.length
  readItems bound (← readOpening) []

end Reading

end ShiftReduce.Regex
