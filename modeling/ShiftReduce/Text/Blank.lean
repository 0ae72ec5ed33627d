import ShiftReduce.Text.Table

/-!
# White space

The characters with the Unicode property `White_Space`. Action code that consists of nothing else
counts as empty, and an extended pattern skips them.
-/

namespace ShiftReduce.Text

def whiteSpace : Table :=
  [(0x09, 0x0D), (0x20, 0x20), (0x85, 0x85), (0xA0, 0xA0), (0x1680, 0x1680), (0x2000, 0x200A),
    (0x2028, 0x2029), (0x202F, 0x202F), (0x205F, 0x205F), (0x3000, 0x3000)]

/-- A character with the Unicode property `White_Space`. -/
def isBlank (c : Char) : Bool :=
  whiteSpace.has c

end ShiftReduce.Text
