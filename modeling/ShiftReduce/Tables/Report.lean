import ShiftReduce.Log
import ShiftReduce.Tables.Basic
import ShiftReduce.Text.Quoted

/-!
# The report on packing

The action entry of each state, in hexadecimal, and how many rows are left.
-/

namespace ShiftReduce.Tables

/-- A signed 32-bit number in hexadecimal, by its two's complement. -/
def hexWord (n : Int) : String :=
  "0x" ++ Text.Quoted.hex (n % 0x100000000).toNat

/-- What there is to tell about packed tables. -/
def report (t : Tables) : List Log.Record :=
  t.actionIndex.zipIdx.map (fun (entry, state) ↦
    Log.debug s!"s{state}: action index {hexWord entry}")
    ++ [Log.debug (s!"packed {t.stateCount} states into {t.actionRows.length} action rows and "
      ++ s!"{t.gotoRows.length} goto rows")]

end ShiftReduce.Tables
