import ShiftReduce.Regex.Classes
import ShiftReduce.Regex.Expr
import ShiftReduce.Regex.Pattern.Parse

/-!
# What a pattern means

The reading of patterns that the program runs with (`Expr.read`). It covers the notation as far as
patterns of tokens go and knows some properties of characters by name; the compiler takes any other
reading in its place, and nothing about the compiler is proved of this one.

Resolves the notation of a pattern under the flags that hold at each place: from left to right, with
those of a group forgotten behind it. What could match a part of a character is refused.

Classes are sets of characters where the Unicode flag holds, and sets of bytes elsewhere; sets of
bytes must stay within ASCII.
-/

namespace ShiftReduce.Regex

open Text

/-- The flags that hold at a place. -/
structure Modes where
  caseInsensitive : Bool := false
  multiLine : Bool := false
  dotMatchesNewLine : Bool := false
  swapGreed : Bool := false
  unicode : Bool := true
  crlf : Bool := false
deriving DecidableEq, Repr

namespace Modes

/-- Sets or clears a flag. Blanks have been dealt with already. -/
def set (m : Modes) : Flag × Bool → Modes
  | (.caseInsensitive, b) => { m with caseInsensitive := b }
  | (.multiLine, b) => { m with multiLine := b }
  | (.dotMatchesNewLine, b) => { m with dotMatchesNewLine := b }
  | (.swapGreed, b) => { m with swapGreed := b }
  | (.unicode, b) => { m with unicode := b }
  | (.crlf, b) => { m with crlf := b }
  | (.ignoreBlanks, _) => m

def apply (m : Modes) (changes : FlagChanges) : Modes :=
  changes.foldl set m

/-- The code points of which classes are made. -/
def alphabet (m : Modes) : Alphabet :=
  if m.unicode then .chars else .bytes

/-- The set with the characters of the other case, where case does not count. -/
def fold (m : Modes) (s : Ranges) : Ranges :=
  if !m.caseInsensitive then s else if m.unicode then foldChars s else foldBytes s

/-- The complement, if there is a negation. -/
def negateIf (m : Modes) (negated : Bool) (s : Ranges) : Ranges :=
  if negated then s.compl m.alphabet else s

/-- A set of bytes that reaches past ASCII could match a part of a character. -/
def check (m : Modes) (span : Span) (s : Ranges) : Except Flaw Ranges :=
  if m.unicode ∨ s.isAscii then .ok s else .error ⟨.invalidUtf8, span⟩

/-- The characters of a set, in either case if case does not count, or all others. -/
def finish (m : Modes) (negated : Bool) (span : Span) (s : Ranges) : Except Flaw Ranges :=
  m.check span (m.negateIf negated (m.fold s))

def classOf (m : Modes) (s : Ranges) : Expr :=
  if m.unicode then .charsOf s else .bytesOf s

/-! ## Sets -/

/-- The set of a class with a letter of its own. -/
def shorthand (m : Modes) (s : Shorthand) : Except Flaw Ranges :=
  m.check s.span
    (m.negateIf s.negated (if m.unicode then s.kind.ranges else s.kind.asciiRanges))

/-- The set that a query for a property describes, and whether the query is for its complement. -/
def query? : PropertyQuery → Except FlawKind (Ranges × Bool)
  | .letter c =>
    match property? (String.singleton c) with
    | some s => .ok (s, false)
    | none => .error .propertyUnknown
  | .name name =>
    match property? name with
    | some s => .ok (s, false)
    | none => .error .propertyUnknown
  | .value name value equal =>
    if plainName name = "generalcategory" ∨ plainName name = "gc" then
      match property? value with
      | some s => .ok (s, !equal)
      | none => .error .propertyValueUnknown
    else if plainName name = "script" ∨ plainName name = "sc" then .error .propertyValueUnknown
    else .error .propertyUnknown

def property (m : Modes) (p : PropertyClass) : Except Flaw Ranges :=
  if !m.unicode then .error ⟨.unicodeNotAllowed, p.span⟩
  else
    match query? p.query with
    | .error kind => .error ⟨kind, p.span⟩
    | .ok (s, opposite) => m.finish (p.negated != opposite) p.span s

/-- The code point of a character in a class. -/
def classPoint (m : Modes) (l : Literal) : Except Flaw Nat :=
  if m.unicode ∨ l.char.toNat ≤ 0x7F then .ok l.char.toNat
  else if l.isByte then .error ⟨.invalidUtf8, l.span⟩
  else .error ⟨.unicodeNotAllowed, l.span⟩

def operate (m : Modes) : ClassOp → Ranges → Ranges → Ranges
  | .intersection, s, t => s.inter t
  | .difference, s, t => s.diff m.alphabet t
  | .symmetricDifference, s, t => s.symmDiff m.alphabet t

mutual

def classSet (m : Modes) : ClassSet → Except Flaw Ranges
  | .empty _ => .ok []
  | .literal l => (m.classPoint l).map fun n ↦ [.single n]
  | .range first last => do
    let a ← m.classPoint first
    let b ← m.classPoint last
    return [.between a b]
  | .ascii kind negated span => m.finish negated span kind.ranges
  | .shorthand s => m.shorthand s
  | .property p => m.property p
  | .bracketed negated set span => do m.finish negated span (← m.classSet set)
  | .union items _ => m.classUnion items
  | .binary op left right _ => do
    let s ← m.classSet left
    let t ← m.classSet right
    return m.operate op (m.fold s) (m.fold t)

def classUnion (m : Modes) : List ClassSet → Except Flaw Ranges
  | [] => .ok []
  | item :: rest => do
    let s ← m.classSet item
    return s.union (← m.classUnion rest)

end

/-! ## Single parts -/

def literal (m : Modes) (l : Literal) : Except Flaw Expr :=
  let c := l.char
  if !m.unicode && l.isByte && 0x7F < c.toNat then .error ⟨.invalidUtf8, l.span⟩
  else if !m.caseInsensitive then .ok (.textOf [c])
  else if m.unicode then
    if hasCases c then .ok (.charsOf (foldChars [.single c.toNat])) else .ok (.textOf [c])
  else if c.isAlpha then .ok (.bytesOf (foldBytes [.single c.toNat]))
  else .ok (.textOf [c])

def dotExcept (m : Modes) : Ranges :=
  if m.dotMatchesNewLine then []
  else if m.crlf then .ofList [.single '\n'.toNat, .single '\r'.toNat]
  else [.single '\n'.toNat]

def dot (m : Modes) (span : Span) : Except Flaw Expr :=
  if m.unicode then .ok (.charsOf (m.dotExcept.compl .chars)) else .error ⟨.invalidUtf8, span⟩

def look (m : Modes) : Assertion → Look
  | .lineStart => if !m.multiLine then .start else if m.crlf then .startCRLF else .startLF
  | .lineEnd => if !m.multiLine then .stop else if m.crlf then .endCRLF else .endLF
  | .textStart => .start
  | .textEnd => .stop
  | .wordBoundary => if m.unicode then .wordUnicode else .wordAscii
  | .notWordBoundary => if m.unicode then .wordUnicodeNegate else .wordAsciiNegate
  | .wordStart => if m.unicode then .wordStartUnicode else .wordStartAscii
  | .wordEnd => if m.unicode then .wordEndUnicode else .wordEndAscii
  | .wordStartHalf => if m.unicode then .wordStartHalfUnicode else .wordStartHalfAscii
  | .wordEndHalf => if m.unicode then .wordEndHalfUnicode else .wordEndHalfAscii

end Modes

namespace Pattern

/-- What resolves a pattern under flags that may change on the way. -/
abbrev Resolving := StateT Modes (Except Flaw)

/-- The expression that the flags of a place make of a part. -/
def resolveBy {α : Type} (f : Modes → Except Flaw α) : Resolving α := do
  match f (← get) with
  | .ok x => return x
  | .error flaw => throw flaw

def groupOf : GroupKind → Expr → Expr
  | .capture index name, h => .capture index name h
  | .flags _, h => h

def groupChanges : GroupKind → FlagChanges
  | .capture _ _ => []
  | .flags changes => changes

mutual

def resolve : Pattern → Resolving Expr
  | .empty _ => return .empty
  | .flags changes _ => do
    modify (·.apply changes)
    return .empty
  | .literal l => resolveBy (·.literal l)
  | .dot span => resolveBy (·.dot span)
  | .assertion a _ => return .look ((← get).look a)
  | .shorthand s => resolveBy fun m ↦ (m.shorthand s).map m.classOf
  | .property p => resolveBy fun m ↦ (m.property p).map m.classOf
  | .bracketed negated set span =>
    resolveBy fun m ↦ do return m.classOf (← m.finish negated span (← m.classSet set))
  | .repetition count greedy sub _ => do
    let h ← resolve sub
    return .repeatOf count.min count.max (greedy != (← get).swapGreed) h
  | .group kind sub _ => do
    let outer ← get
    set (outer.apply (groupChanges kind))
    let h ← resolve sub
    set outer
    return groupOf kind h
  | .alternation subs _ => return .alternationOf (← resolveAll subs)
  | .concat subs _ => return .concatOf (← resolveAll subs)

def resolveAll : List Pattern → Resolving (List Expr)
  | [] => return []
  | sub :: rest => return (← resolve sub) :: (← resolveAll rest)

end

def toExpr (p : Pattern) : Except Flaw Expr :=
  (p.resolve.run {}).map Prod.fst

end Pattern

namespace Expr

def ofString (text : String) : Except Flaw Expr :=
  (Pattern.ofString text).bind Pattern.toExpr

def read (text : String) : Except Lexer.PatternError Expr :=
  (ofString text).mapError fun flaw ↦ ⟨flaw.message text⟩

end Expr

end ShiftReduce.Regex
