import ShiftReduce.Word

/-!
# Parser actions and their codes

What the parser does on a symbol in a state, and the 32-bit code that stands for it in the tables.

## Representation

A code has two parts: the number carried, shifted left by three bits, and the kind of action in
those bits. An action without a number, which is only the error, carries -1. Codes are integers in
the signed 32-bit range, and the shift is that of words: a number that needs more than 28 bits loses
its top bits.

## Reading

A code is read by the same two parts (`Action.decode?`). There are codes that stand for nothing:
three kinds are not in use, and no action but the error carries a negative number. An error is an
error whatever it carries, so it has many codes and is written with one of them. How far writing and
reading undo each other is the subject of the module on codes; numbers below 2^28 are what it takes.
-/

namespace ShiftReduce

/-- What the parser does on a symbol in a state. -/
inductive Action where
  /-- The symbol cannot stand here. -/
  | error
  /-- Reads a terminal and enters a state. -/
  | shift (state : Nat)
  /-- Replaces the right-hand side of a rule by its left-hand side. -/
  | reduce (rule : Nat)
  /-- Enters a state after a non-terminal. -/
  | goto (state : Nat)
  /-- Ends with success by a rule. -/
  | accept (rule : Nat)
deriving DecidableEq, Repr, Inhabited

namespace Action

/-- The kind of action, as the low three bits of its code. -/
def tag : Action → Int
  | error => 0
  | shift _ => 1
  | reduce _ => 2
  | goto _ => 3
  | accept _ => 4

/-- The number carried, read as a signed word. -/
def payload : Action → Int
  | error => -1
  | shift n | reduce n | goto n | accept n => wrap32 n

def encode (a : Action) : Int :=
  wrap32 (a.payload * 8) + a.tag

/-- The action of a code. A code with tag 0 is an error whatever it carries; no other action carries
a negative number, and the tags 5 to 7 are not in use. -/
def decode? (code : Int) : Option Action :=
  let payload := code / 8
  if code % 8 = 0 then some error
  else if payload < 0 then none
  else if code % 8 = 1 then some (shift payload.toNat)
  else if code % 8 = 2 then some (reduce payload.toNat)
  else if code % 8 = 3 then some (goto payload.toNat)
  else if code % 8 = 4 then some (accept payload.toNat)
  else none

def text : Action → String
  | error => "Error"
  | shift s => s!"Shift s{s}"
  | reduce r => s!"Reduce r{r}"
  | goto s => s!"Goto s{s}"
  | accept r => s!"Accept r{r}"

end Action

end ShiftReduce
