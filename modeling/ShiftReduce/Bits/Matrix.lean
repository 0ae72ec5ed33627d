import ShiftReduce.Bits.Mask

/-!
# Bit matrices

A relation between the numbers below `m` and the numbers below `n`, one mask per row. Rows and cells
are looked up by number, and there is nothing outside the matrix: what reads or writes a cell may
fail, and so may everything that is made of such steps.

## Closure

The reflexive and transitive closure of a square matrix is Warshall's: for each middle element `k`
in turn, every other row that holds `k` takes in row `k`; at the end the diagonal is added. Rows are
changed in place, one after another. Row `k` never takes in itself, so all rows of a round take in
the same words.

Which rows took in which is reported step by step. The report runs through the same steps as the
closure and writes down each row that had something to learn.
-/

namespace ShiftReduce.Bits

/-- Relations between the numbers below `m` and those below `n`. -/
structure Matrix (m n : Nat) where
  /-- Row by row, the numbers related to the row's. -/
  rows : Vector (Mask n) m
deriving DecidableEq

namespace Matrix

variable {m n : Nat}

def empty (m n : Nat) : Matrix m n where
  rows := Vector.replicate m (Mask.fill n false)

def row? (a : Matrix m n) (r : Nat) : Option (Mask n) :=
  a.rows[r]?

/-- Whether `r` is related to `c`; `false` outside the matrix. -/
def test (a : Matrix m n) (r c : Nat) : Bool :=
  c < n && (a.row? r).any (·.test c)

/-- Whether `r` is related to `c`, or nothing outside the matrix. -/
def get? (a : Matrix m n) (r c : Nat) : Option Bool :=
  if c < n then (a.row? r).map (·.test c) else none

/-- Relates `r` to `c`, or nothing outside the matrix. -/
def insert? (a : Matrix m n) (r c : Nat) : Option (Matrix m n) :=
  if h : r < m ∧ c < n then
    have := h.1
    some ⟨a.rows.set r (a.rows[r].insert c)⟩
  else none

def ones (a : Matrix m n) : List (Nat × Nat) :=
  a.rows.toList.zipIdx.flatMap fun (row, r) ↦ row.ones.map (r, ·)

/-! ## Closure -/

/-- Row `i` takes in row `k`, or nothing if one of them is not there. -/
def absorb? (a : Matrix m n) (i k : Nat) : Option (Matrix m n) :=
  if h : i < m ∧ k < m then
    have := h.1
    have := h.2
    some ⟨a.rows.set i (a.rows[i].unionWords a.rows[k].words)⟩
  else none

/-- Whether row `i` has something to learn from another row `k`. -/
def absorbs? (a : Matrix m n) (k i : Nat) : Option Bool :=
  if i = k then some false else a.get? i k

/-- One step of the closure, at middle element `k` and row `i`. -/
def closureStep? (k : Nat) (a : Matrix m n) (i : Nat) : Option (Matrix m n) := do
  if ← a.absorbs? k i then a.absorb? i k else return a

def closureRound? (a : Matrix m n) (k : Nat) : Option (Matrix m n) :=
  (List.range m).foldlM (closureStep? k) a

def transitiveClosure? (a : Matrix m n) : Option (Matrix m n) :=
  (List.range m).foldlM closureRound? a

def insertDiagonal? (a : Matrix m n) : Option (Matrix m n) :=
  (List.range m).foldlM (fun a i ↦ a.insert? i i) a

/-- The reflexive and transitive closure of a square matrix, and nothing for any other. -/
def closure? (a : Matrix m n) : Option (Matrix m n) :=
  if m = n then a.transitiveClosure? >>= insertDiagonal? else none

/-! ## What the closure did -/

/-- The rows that took in row `k`, and the matrix after that round. -/
def absorptionsAt? (k : Nat) (a : Matrix m n) : Option (Matrix m n × List (Nat × Nat)) :=
  (List.range m).foldlM
    (fun (b, steps) i ↦ do
      let learns ← b.absorbs? k i
      return (← closureStep? k b i, if learns then steps ++ [(i, k)] else steps))
    (a, [])

/-- The pairs (row, row taken in) of the whole closure, in order. -/
def absorptions? (a : Matrix m n) : Option (List (Nat × Nat)) := do
  let (_, steps) ← (List.range m).foldlM
    (fun (b, steps) k ↦ do
      let (b, more) ← absorptionsAt? k b
      return (b, steps ++ more))
    (a, [])
  return steps

end Matrix

end ShiftReduce.Bits
