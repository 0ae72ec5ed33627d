/-!
# Sets of code points as ranges

A set is a list of inclusive ranges, ascending, with a gap between any two.

## Alphabets

Sets of characters and sets of bytes differ in their greatest code point and in what comes next
(`Alphabet`). Code points that are no characters lie between 0xD7FF and 0xE000; stepping from one of
these two characters to the other passes over them, though ranges that end and start there do not
count as touching.
-/

namespace ShiftReduce.Regex

/-- The code points that a set may hold, and how to step through them. -/
structure Alphabet where
  /-- The greatest code point. -/
  top : Nat
  /-- The code point after another. -/
  next : Nat → Nat
  /-- The code point before another. -/
  prev : Nat → Nat

namespace Alphabet

def chars : Alphabet where
  top := 0x10FFFF
  next n := if n = 0xD7FF then 0xE000 else n + 1
  prev n := if n = 0xE000 then 0xD7FF else n - 1

def bytes : Alphabet where
  top := 0xFF
  next n := n + 1
  prev n := n - 1

end Alphabet

/-- The code points from the first to the last. -/
structure Range where
  first : Nat
  last : Nat
deriving DecidableEq, Repr

namespace Range

/-- The range between two bounds in either order. -/
def between (a b : Nat) : Range :=
  if a ≤ b then ⟨a, b⟩ else ⟨b, a⟩

def single (n : Nat) : Range :=
  ⟨n, n⟩

/-- Ranges are ordered by their first code points, and then by their last. -/
def le (r s : Range) : Bool :=
  r.first < s.first || (r.first = s.first && r.last ≤ s.last)

def inter? (r s : Range) : Option Range :=
  if max r.first s.first ≤ min r.last s.last then
    some ⟨max r.first s.first, min r.last s.last⟩
  else none

/-- The parts of a range before and after another. -/
def minus (α : Alphabet) (r s : Range) : List Range :=
  if (r.inter? s).isNone then [r]
  else
    (if r.first < s.first then [between r.first (α.prev s.first)] else [])
      ++ (if s.last < r.last then [between (α.next s.last) r.last] else [])

end Range

/-- Sets of code points. -/
abbrev Ranges := List Range

namespace Ranges

/-- Joins ascending ranges that overlap or touch. -/
def join : Ranges → Ranges
  | [] => []
  | r :: rest =>
    match join rest with
    | [] => [r]
    | s :: joined =>
      if s.first ≤ r.last + 1 then ⟨r.first, max r.last s.last⟩ :: joined
      else r :: s :: joined

/-- The set of the code points of some ranges. -/
def ofList (rs : List Range) : Ranges :=
  join (rs.mergeSort Range.le)

def union (s t : Ranges) : Ranges :=
  ofList (s ++ t)

def inter (s t : Ranges) : Ranges :=
  s.flatMap fun r ↦ t.filterMap r.inter?

/-- The code points of the first set that are not in the second. -/
def diff (α : Alphabet) (s t : Ranges) : Ranges :=
  t.foldl (fun left r ↦ left.flatMap fun l ↦ l.minus α r) s

/-- The code points of one set but not of both. -/
def symmDiff (α : Alphabet) (s t : Ranges) : Ranges :=
  diff α (union s t) (inter s t)

/-- The gaps between ranges and up to the greatest code point, from a code point that ends a range
on. -/
def gapsAfter (α : Alphabet) : Nat → Ranges → Ranges
  | last, [] => if last < α.top then [⟨α.next last, α.top⟩] else []
  | last, r :: rest => Range.between (α.next last) (α.prev r.first) :: gapsAfter α r.last rest

/-- The code points of the alphabet that are not in the set. -/
def compl (α : Alphabet) : Ranges → Ranges
  | [] => [⟨0, α.top⟩]
  | r :: rest =>
    (if 0 < r.first then [⟨0, α.prev r.first⟩] else []) ++ gapsAfter α r.last rest

def isAscii (s : Ranges) : Bool :=
  s.all (·.last ≤ 0x7F)

end Ranges

end ShiftReduce.Regex
