import ShiftReduce.Ascending
import ShiftReduce.Text.Blank

/-!
# Action code

Action code is text in which only the placeholders are understood: `$$` stands for the value of the
left-hand side, and `$1`, `$2`, … for the values of the right-hand side.

## Cutting

A text is cut into pieces once, from left to right; a `$` that starts no placeholder is an ordinary
character. A place takes all the digits that follow, and keeps them as they are written, leading
zeros included. Because the pieces write back to the text they were cut from, putting names in place
of placeholders changes nothing else.

## Writing

Only a place that has a name is replaced. The result is replaced throughout, and code that never
mentions it is refused, unless there is nothing in it but blanks.
-/

namespace ShiftReduce.Template

/-- A piece of action code. -/
inductive Piece where
  /-- A character of its own. -/
  | char (c : Char)
  /-- The value of the left-hand side. -/
  | result
  /-- The value at a place of the right-hand side, with the digits that name the place. -/
  | value (place : Nat) (digits : List Char)
deriving DecidableEq, Repr

/-- The greatest place a placeholder can name; longer numbers name it too. -/
def lastPlace : Nat := 0xffffffffffffffff

def place (digits : List Char) : Nat :=
  min (digits.foldl (fun n c ↦ 10 * n + (c.toNat - '0'.toNat)) 0) lastPlace

/-- Cuts action code into pieces. A place takes every digit after the `$`. -/
def pieces : List Char → List Piece
  | [] => []
  | '$' :: '$' :: rest => .result :: pieces rest
  | '$' :: rest =>
    let digits := rest.takeWhile Char.isDigit
    if digits = [] then .char '$' :: pieces rest
    else .value (place digits) digits :: pieces (rest.dropWhile Char.isDigit)
  | c :: rest => .char c :: pieces rest
termination_by code => code.length
decreasing_by
  all_goals simp only [List.length_cons]
  · omega
  · omega
  · have := (List.dropWhile_sublist Char.isDigit (l := rest)).length_le
    omega
  · omega

def Piece.source : Piece → List Char
  | .char c => [c]
  | .result => ['$', '$']
  | .value _ digits => '$' :: digits

/-- The place a piece refers to, if it is one of `1, …, n`. -/
def Piece.place? (n : Nat) : Piece → Option Nat
  | .value place _ => if 1 ≤ place ∧ place ≤ n then some place else none
  | _ => none

/-- The places among `1, …, n` that action code refers to, in ascending order. -/
def usedPlaces (code : String) (n : Nat) : List Nat :=
  Ascending.ofList (fun i j ↦ i < j) ((pieces code.toList).filterMap (Piece.place? n))

def nameAt? (names : List (Option String)) (place : Nat) : Option String :=
  if place = 0 then none else (names[place - 1]?).join

/-- Writes a piece, with names for the result and for the places. -/
def Piece.write (result : String) (names : List (Option String)) : Piece → List Char
  | .char c => [c]
  | .result => result.toList
  | .value place digits => ((nameAt? names place).map String.toList).getD ('$' :: digits)

/-- What blank action code stands for. -/
def emptyAction : String := ";"

/-- Puts `result` in place of `$$`, and names in place of the placeholders that have one. Blank code
becomes the empty action; other code must set the result. -/
def resolve? (code : String) (result : String) (names : List (Option String)) : Option String :=
  if code.toList.all Text.isBlank then some emptyAction
  else if .result ∈ pieces code.toList then
    some (String.ofList ((pieces code.toList).flatMap (Piece.write result names)))
  else none

end ShiftReduce.Template
