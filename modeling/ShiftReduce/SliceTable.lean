/-!
# Slice tables

Lists for the keys `0, 1, 2, …`, one behind the other in a single list, with the bounds of each
key's slice. Values are pushed to the key under construction, and finishing a key opens the next.

## Representation

There is one bound more than there are finished keys: a slice goes from its bound to the next, and
the last bound is where the key under construction starts. Nothing here says that the bounds of a
table ascend or stay within the values. A table made by `push` and `finish` has both, and a slice
that is looked up is checked for both (`SliceTable.slice?`).
-/

namespace ShiftReduce

/-- Lists keyed by `0, 1, 2, …`, stored back to back. -/
structure SliceTable (α : Type) where
  /-- Where each slice starts; the last bound is where the next slice will start. -/
  bounds : List Nat := [0]
  /-- All values, key by key. -/
  values : List α := []

namespace SliceTable

variable {α : Type}

/-- Adds a value to the key under construction. -/
def push (t : SliceTable α) (x : α) : SliceTable α :=
  { t with values := t.values ++ [x] }

def finish (t : SliceTable α) : SliceTable α :=
  { t with bounds := t.bounds ++ [t.values.length] }

/-- The values from bound `start` up to bound `stop`. -/
def between (t : SliceTable α) (start stop : Nat) : List α :=
  (t.values.take stop).drop start

/-- The values of a key, which must be finished. Its bounds must be in order and within the
values. -/
def slice? (t : SliceTable α) (key : Nat) : Option (List α) := do
  let start ← t.bounds[key]?
  let stop ← t.bounds[key + 1]?
  if start ≤ stop ∧ stop ≤ t.values.length then return t.between start stop else none

def keys (t : SliceTable α) : Nat :=
  t.bounds.length - 1

def toLists? (t : SliceTable α) : Option (List (List α)) :=
  (List.range t.keys).mapM t.slice?

/-- Adds a finished key with the given values. -/
def pushSlice (t : SliceTable α) (xs : List α) : SliceTable α :=
  (xs.foldl push t).finish

end SliceTable

end ShiftReduce
