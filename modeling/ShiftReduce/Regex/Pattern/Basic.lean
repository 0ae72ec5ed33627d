import ShiftReduce.Text.Position

/-!
# Patterns

A pattern as written: what its notation says, with the place of every part. Flags, escapes and named
classes are still there; `Pattern.toExpr` resolves them.

Every part keeps its span, because the flaws that are found in resolving a pattern are shown in its
text. A part that can be written in several ways, such as a character, is kept as what it stands
for.
-/

namespace ShiftReduce.Regex

open Text

/-- A character that stands for itself, however it was written. -/
structure Literal where
  char : Char
  /-- Whether it was written by two hexadecimal digits, which name a byte where bytes are asked
  for. -/
  isByte : Bool := false
  span : Span
deriving DecidableEq, Repr

/-- The classes with a letter of their own. -/
inductive ShortClass where
  | digit
  | space
  | word
deriving DecidableEq, Repr

/-- A class with a letter of its own, or its complement. -/
structure Shorthand where
  kind : ShortClass
  negated : Bool
  span : Span
deriving DecidableEq, Repr

/-- How a property of characters is referred to. -/
inductive PropertyQuery where
  /-- By the letter of a general category. -/
  | letter (c : Char)
  /-- By a name. -/
  | name (name : String)
  /-- By a name and a value, which the property shall have or not have. -/
  | value (name value : String) (equal : Bool)
deriving DecidableEq, Repr

/-- The characters with a property, or those without. -/
structure PropertyClass where
  query : PropertyQuery
  negated : Bool
  span : Span
deriving DecidableEq, Repr

/-- The named classes of ASCII characters. -/
inductive AsciiClass where
  | alnum
  | alpha
  | ascii
  | blank
  | cntrl
  | digit
  | graph
  | lower
  | print
  | punct
  | space
  | upper
  | word
  | xdigit
deriving DecidableEq, Repr

def AsciiClass.ofName? : String → Option AsciiClass
  | "alnum" => some alnum
  | "alpha" => some alpha
  | "ascii" => some ascii
  | "blank" => some blank
  | "cntrl" => some cntrl
  | "digit" => some digit
  | "graph" => some graph
  | "lower" => some lower
  | "print" => some print
  | "punct" => some punct
  | "space" => some space
  | "upper" => some upper
  | "word" => some word
  | "xdigit" => some xdigit
  | _ => none

/-- The operations between the two sides of a class. -/
inductive ClassOp where
  | intersection
  | difference
  | symmetricDifference
deriving DecidableEq, Repr

/-- What stands between brackets. -/
inductive ClassSet where
  | empty (span : Span)
  | literal (l : Literal)
  /-- The characters from one to another. -/
  | range (first last : Literal)
  | ascii (name : AsciiClass) (negated : Bool) (span : Span)
  | shorthand (s : Shorthand)
  | property (p : PropertyClass)
  /-- A class in brackets within the class. -/
  | bracketed (negated : Bool) (set : ClassSet) (span : Span)
  | union (items : List ClassSet) (span : Span)
  | binary (op : ClassOp) (left right : ClassSet) (span : Span)
deriving Repr

def ClassSet.span : ClassSet → Span
  | empty s | ascii _ _ s | bracketed _ _ s | union _ s | binary _ _ _ s => s
  | literal l => l.span
  | range a b => ⟨a.span.start, b.span.stop⟩
  | shorthand s => s.span
  | property p => p.span

/-- The flags. -/
inductive Flag where
  | caseInsensitive
  | multiLine
  | dotMatchesNewLine
  | swapGreed
  | unicode
  | crlf
  | ignoreBlanks
deriving DecidableEq, Repr

def Flag.ofLetter? : Char → Option Flag
  | 'i' => some caseInsensitive
  | 'm' => some multiLine
  | 's' => some dotMatchesNewLine
  | 'U' => some swapGreed
  | 'u' => some unicode
  | 'R' => some crlf
  | 'x' => some ignoreBlanks
  | _ => none

/-- The flags that are set or cleared in one place; none occurs twice. -/
abbrev FlagChanges := List (Flag × Bool)

/-- The assertions. -/
inductive Assertion where
  | lineStart
  | lineEnd
  | textStart
  | textEnd
  | wordBoundary
  | notWordBoundary
  | wordStart
  | wordEnd
  | wordStartHalf
  | wordEndHalf
deriving DecidableEq, Repr

/-- How often a part is repeated. -/
structure Count where
  min : Nat
  max : Option Nat
deriving DecidableEq, Repr

/-- Some number of copies, unless the greatest number is less than the least. -/
def Count.isValid (c : Count) : Bool :=
  c.max.all fun max ↦ c.min ≤ max

/-- The kinds of groups. -/
inductive GroupKind where
  /-- A group that is remembered. -/
  | capture (index : Nat) (name : Option String)
  /-- A group with flags of its own. -/
  | flags (changes : FlagChanges)
deriving DecidableEq, Repr

/-- A pattern. -/
inductive Pattern where
  | empty (span : Span)
  /-- Flags set or cleared from here to the end of the group. -/
  | flags (changes : FlagChanges) (span : Span)
  | literal (l : Literal)
  /-- Any character, or any but a line end. -/
  | dot (span : Span)
  | assertion (a : Assertion) (span : Span)
  | shorthand (s : Shorthand)
  | property (p : PropertyClass)
  | bracketed (negated : Bool) (set : ClassSet) (span : Span)
  | repetition (count : Count) (greedy : Bool) (sub : Pattern) (span : Span)
  | group (kind : GroupKind) (sub : Pattern) (span : Span)
  | alternation (subs : List Pattern) (span : Span)
  | concat (subs : List Pattern) (span : Span)
deriving Repr

namespace Pattern

def span : Pattern → Span
  | empty s | flags _ s | dot s | assertion _ s | bracketed _ _ s | repetition _ _ _ s
  | group _ _ s | alternation _ s | concat _ s => s
  | literal l => l.span
  | shorthand s => s.span
  | property p => p.span

/-- A pattern as an item of a class, if it can be one. -/
def classItem? : Pattern → Option ClassSet
  | literal l => some (.literal l)
  | shorthand s => some (.shorthand s)
  | property p => some (.property p)
  | _ => none

end Pattern

end ShiftReduce.Regex
