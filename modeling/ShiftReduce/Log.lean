/-!
# Log records

What a stage has to tell about its work. Each stage has a `report`, a pure function from what the
stage was given and what it made of it, so that the stages themselves carry no log.

A record is a level and a text. Records are told in the order in which the stage came by them, and a
limit on the level leaves out the less severe ones (`Log.upTo`) without changing that order.
-/

namespace ShiftReduce.Log

/-- How much a record matters, from the most to the least. -/
inductive Level where
  | warn
  | info
  | debug
  | trace
deriving DecidableEq, Repr

namespace Level

def rank : Level → Nat
  | warn => 0
  | info => 1
  | debug => 2
  | trace => 3

def name : Level → String
  | warn => "WARN"
  | info => "INFO"
  | debug => "DEBUG"
  | trace => "TRACE"

/-- The level of that name, in small letters. -/
def ofName? : String → Option Level
  | "warn" => some warn
  | "info" => some info
  | "debug" => some debug
  | "trace" => some trace
  | _ => none

end Level

/-- One message. -/
structure Record where
  /-- Its severity. -/
  level : Level
  /-- Its text. -/
  text : String
deriving DecidableEq, Repr

/-- A record for the author of the grammar. -/
def warn (text : String) : Record := ⟨.warn, text⟩

def info (text : String) : Record := ⟨.info, text⟩

def debug (text : String) : Record := ⟨.debug, text⟩

def trace (text : String) : Record := ⟨.trace, text⟩

/-- The records at least as severe as `limit`. -/
def upTo (limit : Level) (records : List Record) : List Record :=
  records.filter fun r ↦ r.level.rank ≤ limit.rank

end ShiftReduce.Log
