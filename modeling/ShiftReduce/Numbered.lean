/-!
# Numbered lists

Terminals, non-terminals, rules and states live in lists and are known by their places. A place is a
32-bit number: a larger index keeps its low 32 bits, and a sum past the last number has no value.

## Places and numbers

The number of an index is the index itself for as long as there are numbers left (`ofIndex_eq`), and
never more than the index (`ofIndex_le`). The first fact is what makes numbers tell entries apart,
and takes a list that is short enough; the second holds of every list, and is why a number that an
entry was given always leads back into the list.
-/

namespace ShiftReduce.Numbered

variable {α : Type}

/-- One more than the greatest number. -/
def numberBound : Nat := 0x100000000

def ofIndex (i : Nat) : Nat :=
  i % numberBound

theorem ofIndex_le (i : Nat) : ofIndex i ≤ i :=
  Nat.mod_le i numberBound

theorem ofIndex_eq {i : Nat} (h : i < numberBound) : ofIndex i = i :=
  Nat.mod_eq_of_lt h

/-- The number `d` places after `n`, if there is one. -/
def advance? (n d : Nat) : Option Nat :=
  if n + d < numberBound then some (n + d) else none

theorem advance?_eq_some {n d : Nat} (h : n + d < numberBound) : advance? n d = some (n + d) :=
  if_pos h

/-- Appends an entry and tells its number. -/
def push (xs : List α) (x : α) : Nat × List α :=
  (ofIndex xs.length, xs ++ [x])

/-- Replaces an entry, or nothing if the number is not in use. -/
def set? (xs : List α) (i : Nat) (x : α) : Option (List α) :=
  if i < xs.length then some (xs.set i x) else none

def ids (xs : List α) : List Nat :=
  (List.range xs.length).map ofIndex

def entries (xs : List α) : List (Nat × α) :=
  xs.zipIdx.map fun (x, i) ↦ (ofIndex i, x)

end ShiftReduce.Numbered
