/-!
# Machine words

Table codes are signed 32-bit words, and states, symbols and addresses are unsigned 64-bit words. A
number enters a word by its residue; an address that would need more bits is an error.

The difference is deliberate. A code or an index entry is written once, and how large numbers may be
for it to be read back is a condition on the grammar. An address is made anew at every look-up from
numbers that may be anything, so that it does not fit is something that happens while a parser or a
scanner runs.
-/

namespace ShiftReduce

/-- The two's complement reading of the low 32 bits of `n`. -/
def wrap32 (n : Int) : Int :=
  n.bmod 0x100000000

/-- One more than the greatest 64-bit word. -/
def wordBound : Nat := 0x10000000000000000

def wrap64 (n : Int) : Nat :=
  (n % wordBound).toNat

/-- An address that does not fit a word. -/
structure AddressOverflow where
deriving DecidableEq, Repr

/-- The address of a cell in a table stored row by row. -/
def cellAddress (row width column : Nat) : Except AddressOverflow Nat :=
  if row * width + column < wordBound then .ok (row * width + column) else .error {}

end ShiftReduce
