import ShiftReduce.Lexer.Machine

/-!
# Runs of lexer machines

A machine takes a character by the first event it belongs to. A run on a text is undefined as soon
as a character belongs to no event or the state has no transition on it; the tag of a text is that
of the state in which the run ends.

This is what a machine means, and lexers and scanners are compared with it. It is defined for
machines of any shape. `Machine.Regular` is the shape that compiled machines have: one range for
each event, and rows that are complete.
-/

namespace ShiftReduce.Lexer.Machine

variable {m : Machine} {state : Nat} {w : List Char} {c : Char}

def event? (m : Machine) (c : Char) : Option Nat :=
  m.events.findIdx? (·.any (·.contains c))

def next? (m : Machine) (state : Nat) (c : Char) : Option Nat :=
  (m.event? c).bind fun event ↦ (m.transitions[state]?.bind (·[event]?)).join

def run? (m : Machine) (state : Nat) : List Char → Option Nat
  | [] => some state
  | c :: cs => (m.next? state c).bind (m.run? · cs)

def tagAt? (m : Machine) (state : Nat) : Option Nat :=
  (m.finalTags[state]?).join

def tag? (m : Machine) (w : List Char) : Option Nat :=
  (m.run? m.initial w).bind m.tagAt?

theorem run?_append_singleton :
    m.run? state (w ++ [c]) = (m.run? state w).bind (m.next? · c) := by
  induction w generalizing state with
  | nil =>
    rw [List.nil_append, run?, run?, Option.bind_some]
    cases m.next? state c <;> rfl
  | cons a w ih =>
    rw [List.cons_append, run?, run?, Option.bind_assoc]
    simp only [ih]

/-- Every event has one range, every row a cell for each event, and all states have rows. -/
structure Regular (m : Machine) : Prop where
  single : ∀ ranges ∈ m.events, ranges.length = 1
  width : ∀ row ∈ m.transitions, row.length = m.events.length
  events_le : m.events.length ≤ 0x110000
  initial_lt : m.initial < m.transitions.length
  target_lt : ∀ row ∈ m.transitions, ∀ s, some s ∈ row → s < m.transitions.length

end ShiftReduce.Lexer.Machine
