/-!
# Places in a text

Lines and columns count from 1, and a column is a character. A place lies before a character or at
the end of the text, and a span lies between two places.
-/

namespace ShiftReduce.Text

/-- A place in a text. -/
structure Position where
  line : Nat := 1
  column : Nat := 1
deriving DecidableEq, Repr, Inhabited

def Position.after (p : Position) (c : Char) : Position :=
  if c = '\n' then ⟨p.line + 1, 1⟩ else { p with column := p.column + 1 }

/-- The text between two places. -/
structure Span where
  start : Position
  stop : Position
deriving DecidableEq, Repr, Inhabited

namespace Span

def empty (p : Position) : Span :=
  ⟨p, p⟩

/-- Whether the span starts and stops on one line. -/
def isOneLine (s : Span) : Bool :=
  s.start.line = s.stop.line

end Span

/-- A character at its place. -/
structure Placed where
  char : Char
  position : Position
deriving DecidableEq, Repr

namespace Placed

def span (p : Placed) : Span :=
  ⟨p.position, p.position.after p.char⟩

/-- The characters of a text at their places, from a place on. -/
def ofList (start : Position) : List Char → List Placed
  | [] => []
  | c :: cs => ⟨c, start⟩ :: ofList (start.after c) cs

end Placed

/-- The end of a text that starts at a place. -/
def Position.afterAll (start : Position) (cs : List Char) : Position :=
  cs.foldl after start

end ShiftReduce.Text
