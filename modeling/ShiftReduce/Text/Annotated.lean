import ShiftReduce.Text.Position

/-!
# A text with marks under it

A text of one line is indented and has carets under the marked spans. A longer text is set between
two rules, with its lines numbered and carets below the line they belong to; a span over several
lines has no carets, but a note below the text. A span has one caret at least, though it be empty.
-/

namespace ShiftReduce.Text.Annotated

/-- The lines of a text. A line end at the end of the text starts no further line. -/
def lines : List Char → List (List Char)
  | [] => []
  | '\n' :: rest => [] :: lines rest
  | '\r' :: '\n' :: rest => [] :: lines rest
  | c :: rest =>
    match lines rest with
    | [] => [[c]]
    | line :: more => (c :: line) :: more

/-- The number of lines, where the end of the text counts as a place on a line of its own if a line
end comes before it. -/
def lineCount (text : List Char) : Nat :=
  (lines text).length + if text.getLast? = some '\n' then 1 else 0

/-- The digits that the greatest line number has; none if there is one line only. -/
def numberWidth (text : List Char) : Nat :=
  if lineCount text ≤ 1 then 0 else (toString (lineCount text)).length

def run (c : Char) (n : Nat) : String :=
  String.ofList (List.replicate n c)

/-- What stands before a line: its number, filled up to the width, or the indent. -/
def lead (width number : Nat) : String :=
  if width = 0 then run ' ' 4
  else run ' ' (width - (toString number).length) ++ toString number ++ ": "

/-- The width of what stands before a line. -/
def leadWidth (width : Nat) : Nat :=
  if width = 0 then 4 else width + 2

/-- The carets for the spans on a line, in order, from a column on that many columns have been
written before. -/
def carets : Nat → List Span → String
  | _, [] => ""
  | written, s :: rest =>
    let start := max written (s.start.column - 1)
    let length := max 1 (s.stop.column - s.start.column)
    run ' ' (start - written) ++ run '^' length ++ carets (start + length) rest

/-- A span that starts earlier comes first. -/
def startsBy (s t : Span) : Bool :=
  s.start.line < t.start.line || (s.start.line = t.start.line && s.start.column ≤ t.start.column)

/-- The lines with their leads, and the lines of carets. -/
def body (text : List Char) (spans : List Span) : String :=
  let width := numberWidth text
  String.join ((lines text).zipIdx.map fun (line, i) ↦
    let here := spans.filter fun s ↦ s.isOneLine && s.start.line = i + 1
    lead width (i + 1) ++ String.ofList line ++ "\n"
      ++ if here = [] then "" else run ' ' (leadWidth width) ++ carets 0 here ++ "\n")

/-- The note on a span over several lines. -/
def note (s : Span) : String :=
  s!"on line {s.start.line} (column {s.start.column}) through line {s.stop.line} "
    ++ s!"(column {s.stop.column - 1})\n"

/-- The rule above and below a text of several lines. -/
def rule : String :=
  run '~' 79 ++ "\n"

/-- The text with the spans marked; it ends with a line end. -/
def render (text : List Char) (spans : List Span) : String :=
  let spans := spans.mergeSort startsBy
  if '\n' ∈ text then
    rule ++ body text spans ++ rule
      ++ String.join ((spans.filter (!·.isOneLine)).map note)
  else body text spans

end ShiftReduce.Text.Annotated
