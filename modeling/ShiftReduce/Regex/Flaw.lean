import ShiftReduce.Text.Annotated

/-!
# Flaws in a pattern

What can be wrong with a pattern, and where. The text of a flaw shows the pattern with the place
marked; where something occurs twice that may occur only once, both places are marked.

A flaw is a kind and a span. What else a text has to name, such as the first of two places, is a
part of the kind.
-/

namespace ShiftReduce.Regex

open Text

/-- What can be wrong. -/
inductive FlawKind where
  | groupUnclosed
  | groupUnopened
  | classUnclosed
  | classRangeInvalid
  | classRangeLiteral
  | classEscapeInvalid
  | repetitionMissing
  | countMissing
  | countUnclosed
  | countInvalid
  | decimalInvalid
  | escapeUnfinished
  | escapeUnrecognized
  | backreference
  | hexEmpty
  | hexDigitInvalid
  | hexInvalid
  | flagUnrecognized
  | flagDuplicate (first : Span)
  | negationRepeated (first : Span)
  | negationDangling
  | flagUnfinished
  | nameEmpty
  | nameInvalid
  | nameUnclosed
  | nameDuplicate (first : Span)
  | lookAround
  | propertyInvalid
  | propertyUnknown
  | propertyValueUnknown
  | invalidUtf8
  | unicodeNotAllowed
  | nestedTooDeep (limit : Nat)
  | boundaryUnrecognized
  | boundaryUnclosed
  | boundaryUnfinished
deriving DecidableEq, Repr

def FlawKind.text : FlawKind → String
  | groupUnclosed => "unclosed group"
  | groupUnopened => "unopened group"
  | classUnclosed => "unclosed character class"
  | classRangeInvalid => "invalid character class range, the start must be <= the end"
  | classRangeLiteral => "invalid range boundary, must be a literal"
  | classEscapeInvalid => "invalid escape sequence found in character class"
  | repetitionMissing => "repetition operator missing expression"
  | countMissing => "repetition quantifier expects a valid decimal"
  | countUnclosed => "unclosed counted repetition"
  | countInvalid => "invalid repetition count range, the start must be <= the end"
  | decimalInvalid => "decimal literal invalid"
  | escapeUnfinished => "incomplete escape sequence, reached end of pattern prematurely"
  | escapeUnrecognized => "unrecognized escape sequence"
  | backreference => "backreferences are not supported"
  | hexEmpty => "hexadecimal literal empty"
  | hexDigitInvalid => "invalid hexadecimal digit"
  | hexInvalid => "hexadecimal literal is not a Unicode scalar value"
  | flagUnrecognized => "unrecognized flag"
  | flagDuplicate _ => "duplicate flag"
  | negationRepeated _ => "flag negation operator repeated"
  | negationDangling => "dangling flag negation operator"
  | flagUnfinished => "expected flag but got end of regex"
  | nameEmpty => "empty capture group name"
  | nameInvalid => "invalid capture group character"
  | nameUnclosed => "unclosed capture group name"
  | nameDuplicate _ => "duplicate capture group name"
  | lookAround => "look-around, including look-ahead and look-behind, is not supported"
  | propertyInvalid => "invalid Unicode character class"
  | propertyUnknown => "Unicode property not found"
  | propertyValueUnknown => "Unicode property value not found"
  | invalidUtf8 => "pattern can match invalid UTF-8"
  | unicodeNotAllowed => "Unicode not allowed here"
  | nestedTooDeep limit =>
    s!"exceed the maximum number of nested parentheses/brackets ({limit})"
  | boundaryUnrecognized =>
    "unrecognized special word boundary assertion, "
      ++ "valid choices are: start, end, start-half or end-half"
  | boundaryUnclosed =>
    "special word boundary assertion is either unclosed or contains an invalid character"
  | boundaryUnfinished =>
    "found either the beginning of a special word boundary or a bounded repetition on a \\b "
      ++ "with an opening brace, but no closing brace"

/-- A flaw at its place. -/
structure Flaw where
  kind : FlawKind
  span : Span
deriving DecidableEq, Repr

namespace Flaw

def spans (f : Flaw) : List Span :=
  match f.kind with
  | .flagDuplicate first | .negationRepeated first | .nameDuplicate first => [f.span, first]
  | _ => [f.span]

def message (pattern : String) (f : Flaw) : String :=
  "regex parse error:\n" ++ Annotated.render pattern.toList f.spans ++ "error: " ++ f.kind.text

end Flaw

end ShiftReduce.Regex
