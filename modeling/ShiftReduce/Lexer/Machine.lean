/-!
# Lexer machines

A machine that recognises all tokens at once: a deterministic automaton over events, where an event
stands for some ranges of characters. Whoever compiles patterns hands over machines of one kind or
another and a way to combine them; `Compiler` is what the lexer asks of it.

Nothing ties a machine to the patterns here, nor its rows to its events: a compiler may answer with
any machine at all (`Compiler.constant`). What follows for the lexer from the shape of a machine is
said where lexers are assembled.
-/

namespace ShiftReduce

/-- The characters from `first` to `last`. -/
structure CharRange where
  first : Char
  last : Char
deriving DecidableEq, Repr

namespace CharRange

def single (c : Char) : CharRange :=
  ⟨c, c⟩

/-- Whether a character lies in the range. -/
def contains (r : CharRange) (c : Char) : Bool :=
  r.first ≤ c && c ≤ r.last

end CharRange

namespace Lexer

/-- A deterministic machine for all tokens. -/
structure Machine where
  initial : Nat
  /-- For each event, the ranges of characters it stands for. -/
  events : List (List CharRange)
  /-- For each state and event, the next state. -/
  transitions : List (List (Option Nat))
  /-- For each state, the terminal recognised by stopping there. -/
  finalTags : List (Option Nat)
  /-- The states in which several terminals are recognised, with those. Such states have no tag. -/
  collisions : List (Nat × List Nat)
deriving DecidableEq, Repr, Inhabited

/-- Why a pattern was refused. -/
structure PatternError where
  message : String
deriving DecidableEq, Repr

/-- A compiler of patterns. -/
structure Compiler (M : Type) where
  /-- The machine of one pattern, for the terminal of that number. -/
  compile : String → Nat → Except PatternError M
  /-- The machine for all of them. -/
  combine : List M → Machine

/-- The compiler that makes the same machine of all patterns. -/
def Compiler.constant (m : Machine) : Compiler Unit where
  compile _ _ := .ok ()
  combine _ := m

end Lexer

end ShiftReduce
