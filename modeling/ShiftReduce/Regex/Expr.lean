import ShiftReduce.Lexer.Machine
import ShiftReduce.Regex.Ranges

/-!
# Regular expressions

A regular expression after its notation has been resolved: flags, escapes and named classes are
gone.

## Simplified forms

The functions `Expr.literalOf`, `Expr.charsOf`, `Expr.repeatOf`, `Expr.concatOf` and
`Expr.alternationOf` build expressions in a simplified form: no empty parts in a concatenation,
literals next to each other joined, nothing nested that can be flat, alternatives of single
characters or of classes made one class, and a common beginning of alternatives taken out in front.

## Representation

A literal is a list of bytes and a class a list of ranges, of characters or of bytes. Not every
expression can be built by these functions, and nothing that is proved of machines asks for a
simplified form: an expression may have literals that are no text, empty classes, and repetitions
whose bounds are out of order.

Taking out a common beginning is a recursion on alternatives that have been rebuilt, so it is
bounded by their size (`Expr.size`).
-/

namespace ShiftReduce.Regex

/-- Assertions about the place between two characters. -/
inductive Look where
  | start
  | stop
  | startLF
  | endLF
  | startCRLF
  | endCRLF
  | wordAscii
  | wordAsciiNegate
  | wordUnicode
  | wordUnicodeNegate
  | wordStartAscii
  | wordEndAscii
  | wordStartUnicode
  | wordEndUnicode
  | wordStartHalfAscii
  | wordEndHalfAscii
  | wordStartHalfUnicode
  | wordEndHalfUnicode
deriving DecidableEq, Repr

def Look.name : Look → String
  | start => "Start"
  | stop => "End"
  | startLF => "StartLF"
  | endLF => "EndLF"
  | startCRLF => "StartCRLF"
  | endCRLF => "EndCRLF"
  | wordAscii => "WordAscii"
  | wordAsciiNegate => "WordAsciiNegate"
  | wordUnicode => "WordUnicode"
  | wordUnicodeNegate => "WordUnicodeNegate"
  | wordStartAscii => "WordStartAscii"
  | wordEndAscii => "WordEndAscii"
  | wordStartUnicode => "WordStartUnicode"
  | wordEndUnicode => "WordEndUnicode"
  | wordStartHalfAscii => "WordStartHalfAscii"
  | wordEndHalfAscii => "WordEndHalfAscii"
  | wordStartHalfUnicode => "WordStartHalfUnicode"
  | wordEndHalfUnicode => "WordEndHalfUnicode"

def Look.all : List Look :=
  [start, stop, startLF, endLF, startCRLF, endCRLF, wordAscii, wordAsciiNegate, wordUnicode,
    wordUnicodeNegate, wordStartAscii, wordEndAscii, wordStartUnicode, wordEndUnicode,
    wordStartHalfAscii, wordEndHalfAscii, wordStartHalfUnicode, wordEndHalfUnicode]

def Look.ofName? (name : String) : Option Look :=
  Look.all.find? (·.name = name)

/-- The bytes from the first to the last. -/
structure ByteRange where
  first : UInt8
  last : UInt8
deriving DecidableEq, Repr

/-- A regular expression. -/
inductive Expr where
  /-- The empty text. -/
  | empty
  /-- The text with these bytes. -/
  | literal (bytes : List UInt8)
  /-- One character of a class. -/
  | chars (ranges : List CharRange)
  /-- One byte of a class. -/
  | bytes (ranges : List ByteRange)
  /-- The empty text at a certain place. -/
  | look (look : Look)
  /-- Copies of an expression, between `min` and `max` in number. -/
  | repetition (min : Nat) (max : Option Nat) (greedy : Bool) (sub : Expr)
  /-- A group that is remembered. -/
  | capture (index : Nat) (name : Option String) (sub : Expr)
  /-- One expression after another. -/
  | concat (subs : List Expr)
  /-- One of several expressions. -/
  | alternation (subs : List Expr)
deriving Inhabited, Repr

namespace Expr

/-! ## Equality and size -/

mutual

def same : Expr → Expr → Bool
  | .empty, .empty => true
  | .literal a, .literal b => a = b
  | .chars a, .chars b => a = b
  | .bytes a, .bytes b => a = b
  | .look a, .look b => a = b
  | .repetition m n g a, .repetition m' n' g' b => m = m' && n = n' && g = g' && same a b
  | .capture i n a, .capture i' n' b => i = i' && n = n' && same a b
  | .concat as, .concat bs => sameAll as bs
  | .alternation as, .alternation bs => sameAll as bs
  | _, _ => false

/-- Whether two lists of expressions are equal. -/
def sameAll : List Expr → List Expr → Bool
  | [], [] => true
  | a :: as, b :: bs => same a b && sameAll as bs
  | _, _ => false

end

mutual

/-- The number of expressions within an expression, itself included. -/
def size : Expr → Nat
  | .repetition _ _ _ a => a.size + 1
  | .capture _ _ a => a.size + 1
  | .concat as => sizeAll as + 1
  | .alternation as => sizeAll as + 1
  | _ => 1

def sizeAll : List Expr → Nat
  | [] => 0
  | a :: as => a.size + sizeAll as

end

mutual

/-- The greatest length in bytes of a matching text, unless there is none or no bound. -/
def maxLength : Expr → Option Nat
  | .empty => some 0
  | .literal bs => some bs.length
  | .chars rs => rs.getLast?.map (·.last.utf8Size)
  | .bytes rs => rs.getLast?.map fun _ ↦ 1
  | .look _ => some 0
  | .repetition _ max _ a =>
    match max, a.maxLength with
    | some n, some k => some (k * n)
    | _, _ => none
  | .capture _ _ a => a.maxLength
  | .concat as => maxLengthSum as
  | .alternation as => maxLengthMax as

/-- The greatest length of one after another. -/
def maxLengthSum : List Expr → Option Nat
  | [] => some 0
  | a :: as =>
    match a.maxLength, maxLengthSum as with
    | some m, some n => some (m + n)
    | _, _ => none

/-- The greatest length of one of several. -/
def maxLengthMax : List Expr → Option Nat
  | [] => some 0
  | a :: as =>
    match a.maxLength, maxLengthMax as with
    | some m, some n => some (max m n)
    | _, _ => none

end

/-! ## Literals and classes -/

/-- The expression that nothing matches. -/
def fail : Expr :=
  .bytes []

def literalOf (bytes : List UInt8) : Expr :=
  if bytes = [] then .empty else .literal bytes

def textOf (cs : List Char) : Expr :=
  literalOf (cs.flatMap String.utf8EncodeChar)

/-- A class of characters; a single character is a literal. -/
def charsOf (s : Ranges) : Expr :=
  match s with
  | [] => fail
  | [r] =>
    if r.first = r.last then textOf [Char.ofNat r.first]
    else .chars [⟨Char.ofNat r.first, Char.ofNat r.last⟩]
  | s => .chars (s.map fun r ↦ ⟨Char.ofNat r.first, Char.ofNat r.last⟩)

/-- A class of bytes; a single byte is a literal. -/
def bytesOf (s : Ranges) : Expr :=
  match s with
  | [r] =>
    if r.first = r.last then .literal [UInt8.ofNat r.first]
    else .bytes [⟨UInt8.ofNat r.first, UInt8.ofNat r.last⟩]
  | s => .bytes (s.map fun r ↦ ⟨UInt8.ofNat r.first, UInt8.ofNat r.last⟩)

def class? : Expr → Option Ranges
  | .chars rs => some (rs.map fun r ↦ ⟨r.first.toNat, r.last.toNat⟩)
  | .bytes rs => some (rs.map fun r ↦ ⟨r.first.toNat, r.last.toNat⟩)
  | _ => none

/-- The code points of a class that can be read as one of characters. -/
def charClass? (h : Expr) : Option Ranges :=
  match h with
  | .bytes _ => h.class?.filter Ranges.isAscii
  | _ => h.class?

/-- The code points of a class that can be read as one of bytes. -/
def byteClass? (h : Expr) : Option Ranges :=
  match h with
  | .chars _ => h.class?.filter Ranges.isAscii
  | _ => h.class?

/-- The character of a literal that is just one. -/
def singleChar? : Expr → Option Range
  | .literal bs =>
    match (String.fromUTF8? ⟨bs.toArray⟩).map String.toList with
    | some [c] => some (.single c.toNat)
    | _ => none
  | _ => none

/-- The byte of a literal that is just one. -/
def singleByte? : Expr → Option Range
  | .literal [b] => some (.single b.toNat)
  | _ => none

/-! ## Repetition -/

/-- A repetition. An expression that can match the empty text only is not repeated more than once;
no copy at all is the empty expression, and just one is the expression itself. -/
def repeatOf (min : Nat) (max : Option Nat) (greedy : Bool) (sub : Expr) : Expr :=
  let (min, max) :=
    if sub.maxLength = some 0 then (Min.min min 1, some (Min.min (max.getD 1) 1))
    else (min, max)
  if min = 0 ∧ max = some 0 then .empty
  else if min = 1 ∧ max = some 1 then sub
  else .repetition min max greedy sub

/-! ## Concatenation -/

/-- The parts of a concatenation; anything else is its own only part. -/
def parts : Expr → List Expr
  | .concat subs => subs
  | h => [h]

/-- Drops empty parts and joins literals next to each other. -/
def joinParts : List Expr → List Expr
  | [] => []
  | .empty :: rest => joinParts rest
  | .literal bs :: rest =>
    match joinParts rest with
    | .literal cs :: joined => .literal (bs ++ cs) :: joined
    | joined => .literal bs :: joined
  | h :: rest => h :: joinParts rest

def concatOf (subs : List Expr) : Expr :=
  match joinParts (subs.flatMap parts) with
  | [] => .empty
  | [h] => h
  | joined => .concat joined

/-! ## Alternation -/

/-- The branches of an alternation; anything else is its own only branch. -/
def branches : Expr → List Expr
  | .alternation subs => subs
  | h => [h]

/-- The class that alternatives amount to, if they do: single characters, single bytes, or classes
of either kind. -/
def mergedClass? (subs : List Expr) : Option Expr :=
  ((subs.mapM singleChar?).map fun rs ↦ charsOf (.ofList rs))
    <|> ((subs.mapM singleByte?).map fun rs ↦ bytesOf (.ofList rs))
    <|> ((subs.mapM charClass?).map fun rs ↦ charsOf (.ofList rs.flatten))
    <|> ((subs.mapM byteClass?).map fun rs ↦ bytesOf (.ofList rs.flatten))

/-- How many parts two lists have in common at the front. -/
def commonCount : List Expr → List Expr → Nat
  | a :: as, b :: bs => if same a b then commonCount as bs + 1 else 0
  | _, _ => 0

/-- The parts of a concatenation, and of nothing else. -/
def concatParts? : Expr → Option (List Expr)
  | .concat subs => some subs
  | _ => none

/-- The parts with which all alternatives begin, and what is left of each, if all are concatenations
and there are such parts. -/
def commonStart? (subs : List Expr) : Option (List Expr × List (List Expr)) := do
  let lists ← subs.mapM concatParts?
  let first ← lists.head?
  let count := lists.foldl (fun n l ↦ Min.min n (commonCount first l)) first.length
  if count = 0 then none
  else some (first.take count, lists.map (·.drop count))

/-- One of several expressions; the first argument bounds how often a common beginning is taken
out. -/
def alternationWithin : Nat → List Expr → Expr
  | 0, subs => .alternation subs
  | bound + 1, subs =>
    match subs.flatMap branches with
    | [] => fail
    | [h] => h
    | flat =>
      match mergedClass? flat with
      | some h => h
      | none =>
        match commonStart? flat with
        | some (start, rests) =>
          concatOf (start ++ [alternationWithin bound (rests.map concatOf)])
        | none => .alternation flat

/-- One of several expressions. Taking out a common beginning makes the alternatives smaller, so
their size bounds how often that can happen. -/
def alternationOf (subs : List Expr) : Expr :=
  alternationWithin (sizeAll subs + 1) subs

end Expr

end ShiftReduce.Regex
