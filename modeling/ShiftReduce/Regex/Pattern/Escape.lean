import ShiftReduce.Regex.Pattern.Basic
import ShiftReduce.Regex.Pattern.Reader

/-!
# Escapes

A backslash and what belongs to it: a character that would otherwise have a meaning, a control
character by its letter, a character by its number, a class, or an assertion.

What stands for itself behind a backslash is told by exclusion: no letter or digit does, since these
may be given a meaning (`isEscapable`).
-/

namespace ShiftReduce.Regex.Reading

open Text

/-! ## Characters by number -/

def hexValue? (c : Char) : Option Nat :=
  if c.isDigit then some (c.toNat - '0'.toNat)
  else if 'a' ≤ c ∧ c ≤ 'f' then some (c.toNat - 'a'.toNat + 10)
  else if 'A' ≤ c ∧ c ≤ 'F' then some (c.toNat - 'A'.toNat + 10)
  else none

/-- The number that hexadecimal digits write. -/
def hexNumber (digits : List Char) : Nat :=
  digits.foldl (fun n c ↦ 16 * n + (hexValue? c).getD 0) 0

/-- The character of a number, if there is one. -/
def charOf? (n : Nat) : Option Char :=
  if n.isValidChar then some (Char.ofNat n) else none

/-- How many digits follow the letter of an escape. -/
def digitCount (letter : Char) : Nat :=
  if letter = 'x' then 2 else if letter = 'u' then 4 else 8

def readDigits : Nat → Reading (List Char)
  | 0 => return []
  | n + 1 => do
    match ← peek? with
    | none => fail .escapeUnfinished (← here)
    | some c =>
      if (hexValue? c).isNone then fail .hexDigitInvalid (← charSpan)
      else
        bump
        return c :: (← readDigits n)

/-- Reads digits in braces, from the opening brace on. -/
def readBracedDigits : Reading (List Char × Span) := do
  let opening ← position
  let start := (← charSpan).stop
  bump
  let digits ← takeSpaced fun c ↦ (hexValue? c).isSome
  let digitSpan ← since start
  match ← peek? with
  | none => fail .escapeUnfinished (← since opening)
  | some c =>
    if c ≠ '}' then fail .hexDigitInvalid (← charSpan)
    else
      bump
      if digits = [] then fail .hexEmpty (← since opening)
      else return (digits, digitSpan)

/-- Reads a character by its number, from the letter of the escape on. -/
def readHex (start : Position) (letter : Char) : Reading Literal := do
  bump
  match ← peek? with
  | none => fail .escapeUnfinished (← here)
  | some '{' =>
    let (digits, span) ← readBracedDigits
    match charOf? (hexNumber digits) with
    | none => fail .hexInvalid span
    | some char => return { char, span := ← since start }
  | some _ =>
    let digitStart ← position
    let digits ← readDigits (digitCount letter)
    match charOf? (hexNumber digits) with
    | none => fail .hexInvalid (← since digitStart)
    | some char => return { char, isByte := letter = 'x', span := ← since start }

/-! ## Properties -/

/-- The part of a list before the first place where another one stands, and the part behind. -/
def splitAt? (mark : List Char) : List Char → Option (List Char × List Char)
  | [] => none
  | c :: cs =>
    if mark.isPrefixOf (c :: cs) then some ([], (c :: cs).drop mark.length)
    else (splitAt? mark cs).map fun (before, behind) ↦ (c :: before, behind)

/-- The query between braces: a name, or a name and a value. -/
def queryOf (text : List Char) : PropertyQuery :=
  let value (equal : Bool) (parts : List Char × List Char) : PropertyQuery :=
    .value (.ofList parts.1) (.ofList parts.2) equal
  ((splitAt? ['!', '='] text).map (value false)
    <|> (splitAt? [':'] text).map (value true)
    <|> (splitAt? ['='] text).map (value true)).getD (.name (.ofList text))

/-- Reads a property, from the letter of the escape on. -/
def readProperty (start : Position) (letter : Char) : Reading PropertyClass := do
  bump
  match ← peek? with
  | none => fail .escapeUnfinished (← here)
  | some '{' =>
    bump
    let text ← takeSpaced (· ≠ '}')
    if (← peek?).isNone then fail .escapeUnfinished (← here)
    else
      skip 1
      return { query := queryOf text, negated := letter = 'P', span := ← since start }
  | some '\\' => fail .propertyInvalid (← charSpan)
  | some c =>
    bump
    return { query := .letter c, negated := letter = 'P', span := ← since start }

/-! ## Assertions -/

def boundary? : String → Option Assertion
  | "start" => some .wordStart
  | "end" => some .wordEnd
  | "start-half" => some .wordStartHalf
  | "end-half" => some .wordEndHalf
  | _ => none

/-- A character of the name of an assertion. -/
def isBoundaryChar (c : Char) : Bool :=
  ('a' ≤ c && c ≤ 'z') || ('A' ≤ c && c ≤ 'Z') || c = '-'

/-- Reads the name of an assertion in braces, from the opening brace on. If it is no name that
stands there, nothing is read: the brace starts a repetition. -/
def readBoundary? (start : Position) : Reading (Option Assertion) := do
  let before ← get
  let opening ← position
  bump
  match ← peek? with
  | none => fail .boundaryUnfinished (← since start)
  | some c =>
    if !isBoundaryChar c then
      set before
      return none
    else
      let nameStart ← position
      let name ← takeSpaced isBoundaryChar
      if (← peek?) ≠ some '}' then fail .boundaryUnclosed (← since opening)
      else
        let span ← since nameStart
        skip 1
        match boundary? (.ofList name) with
        | none => fail .boundaryUnrecognized span
        | some a => return some a

/-! ## All escapes -/

/-- The characters with a meaning of their own somewhere in a pattern. -/
def metaChars : List Char :=
  ['\\', '.', '+', '*', '?', '(', ')', '|', '[', ']', '{', '}', '^', '$', '#', '&', '-', '~']

/-- Whether a character stands for itself behind a backslash: no letter or digit does, nor a
character that is not ASCII, nor an angle bracket. -/
def isEscapable (c : Char) : Bool :=
  metaChars.contains c || (c.toNat < 128 && !c.isAlphanum && c ≠ '<' && c ≠ '>')

/-- The control character that a letter stands for. -/
def control? : Char → Option Char
  | 'a' => some '\x07'
  | 'f' => some '\x0C'
  | 't' => some '\t'
  | 'n' => some '\n'
  | 'r' => some '\r'
  | 'v' => some '\x0B'
  | _ => none

/-- The assertion that a character stands for. -/
def assertion? : Char → Option Assertion
  | 'A' => some .textStart
  | 'z' => some .textEnd
  | 'b' => some .wordBoundary
  | 'B' => some .notWordBoundary
  | '<' => some .wordStart
  | '>' => some .wordEnd
  | _ => none

/-- The class that a letter stands for, and whether the letter negates it. -/
def shortClass? : Char → Option (ShortClass × Bool)
  | 'd' => some (.digit, false)
  | 'D' => some (.digit, true)
  | 's' => some (.space, false)
  | 'S' => some (.space, true)
  | 'w' => some (.word, false)
  | 'W' => some (.word, true)
  | _ => none

/-- Reads an escape of a single character behind the backslash. -/
def readSingle (start : Position) (c : Char) : Reading Pattern := do
  skip 1
  let span ← since start
  if isEscapable c then return .literal { char := c, span }
  match control? c with
  | some char => return .literal { char, span }
  | none =>
    match assertion? c with
    | none => fail .escapeUnrecognized span
    | some a =>
      if a = .wordBoundary ∧ (← peek?) = some '{' then
        match ← readBoundary? start with
        | some special => return .assertion special (← since start)
        | none => return .assertion a span
      else return .assertion a span

/-- Reads an escape, from the backslash on. -/
def readEscape : Reading Pattern := do
  let start ← position
  skip 1
  match ← peek? with
  | none => fail .escapeUnfinished (← since start)
  | some c =>
    if c.isDigit then fail .backreference ⟨start, (← charSpan).stop⟩
    else if c = 'x' ∨ c = 'u' ∨ c = 'U' then return .literal (← readHex start c)
    else if c = 'p' ∨ c = 'P' then return .property (← readProperty start c)
    else
      match shortClass? c with
      | some (kind, negated) =>
        skip 1
        return .shorthand { kind, negated, span := ← since start }
      | none => readSingle start c

end ShiftReduce.Regex.Reading
