/-!
# Sets as ascending lists

A finite set is written as the list of its members in ascending order, each once. Two such sets are
equal exactly when the lists are, and listing the members needs no further work.

The order is a test that is handed in. Nothing is asked of it here; that inserting keeps a list
ascending, and adds just the entry, takes an order that is transitive and total on the entries.
-/

namespace ShiftReduce.Ascending

variable {α : Type} (lt : α → α → Bool)

/-- Adds `x` to an ascending list; a member stays as it is. -/
def insert (x : α) : List α → List α
  | [] => [x]
  | y :: ys => if lt x y then x :: y :: ys else if lt y x then y :: insert x ys else y :: ys

/-- The members of a list in ascending order, each once. -/
def ofList (xs : List α) : List α :=
  xs.foldl (fun set x ↦ insert lt x set) []

end ShiftReduce.Ascending
