import ShiftReduce.Text.Printed

/-!
# Quoted text

The written form of a character or a text inside quotation marks. A character is written by an
escape if it is the enclosing mark, a backslash, a null, a tabulator or a line end; by its number in
lower-case hexadecimal if it has no printed form of its own; and as itself otherwise.
-/

namespace ShiftReduce.Text.Quoted

/-- The hexadecimal digits of `n`, lower case. -/
def hex (n : Nat) : String :=
  String.ofList (Nat.toDigits 16 n)

/-- The written form of one character between marks `mark`. -/
def escape (mark : Char) (c : Char) : String :=
  if c = mark ∨ c = '\\' then String.ofList ['\\', c]
  else if c = '\x00' then "\\0"
  else if c = '\t' then "\\t"
  else if c = '\r' then "\\r"
  else if c = '\n' then "\\n"
  else if isPrinted c then String.singleton c
  else "\\u\x7b" ++ hex c.toNat ++ "\x7d"

def char (c : Char) : String :=
  "'" ++ escape '\'' c ++ "'"

def string (s : String) : String :=
  "\"" ++ String.join (s.toList.map (escape '"')) ++ "\""

/-- Texts in quotation marks, separated by commas, in brackets. -/
def strings (ss : List String) : String :=
  "[" ++ ", ".intercalate (ss.map string) ++ "]"

end ShiftReduce.Text.Quoted
