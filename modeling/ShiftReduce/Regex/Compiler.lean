import ShiftReduce.Lexer.Report
import ShiftReduce.Regex.Subsets
import ShiftReduce.Text.Quoted

/-!
# The regular expression compiler

From the text of a pattern to its machine, and from the machines of all patterns to the one
deterministic machine of the lexer, with the texts of what can go wrong.

## Who reads the patterns

The compiler starts from expressions. The notation in which a pattern writes one belongs to somebody
else, so what reads it is handed in, as a `PatternParser`, and the flaws that it finds are passed on
in its own words. Of a parser the compiler relies on a single thing, which is that no repetition in
what it reads has a least count above its greatest; whatever is proved of patterns holds for every
parser of this kind. The program runs with `Expr.read`.

## Messages

What the compiler itself refuses are parts of an expression: a literal that is no text, a class of
bytes past ASCII, and an assertion about what is around the match. The texts name the part and, of a
class, show its ranges as terms.
-/

namespace ShiftReduce.Regex

/-! ## Messages -/

/-- The digits of a byte in hexadecimal, upper case. -/
def hexByte (b : UInt8) : String :=
  let digits := (Text.Quoted.hex b.toNat).map Char.toUpper
  if digits.length < 2 then "0" ++ digits else digits

/-- A byte in a message: as a character if that shows, or else by an escape. -/
def byteText (b : UInt8) : String :=
  let c := Char.ofNat b.toNat
  if c = ' ' then "' '"
  else if c = '\t' then "\\t"
  else if c = '\r' then "\\r"
  else if c = '\n' then "\\n"
  else if c = '\\' ∨ c = '\'' ∨ c = '"' then String.ofList ['\\', c]
  else if ' ' < c ∧ c ≤ '~' then String.singleton c
  else "\\x" ++ hexByte b

/-- Some text in braces with a space on either side. -/
def braced (text : String) : String :=
  "\x7b " ++ text ++ " \x7d"

def byteRangeTerm (r : ByteRange) : String :=
  "ClassBytesRange " ++ braced s!"start: {byteText r.first}, end: {byteText r.last}"

def byteClassTerm (ranges : List ByteRange) : String :=
  "ClassBytes " ++ braced ("set: IntervalSet "
    ++ braced ("ranges: [" ++ ", ".intercalate (ranges.map byteRangeTerm) ++ "], folded: false"))

def BuildError.message : BuildError → String
  | invalidLiteral => "literal is not valid UTF-8"
  | wideByteClass ranges =>
    s!"byte class {byteClassTerm ranges} reaches past ASCII, which is not supported"
  | lookAround look => s!"look-around assertion {look.name} is not supported"

/-! ## Compiling -/

/-- The machine of an expression, for a terminal. -/
def compileExpr (h : Expr) (tag : Nat) : Except Lexer.PatternError Nfa :=
  match Nfa.ofExpr h tag with
  | .ok machine => .ok machine
  | .error e => .error ⟨e.message⟩

/-- What reads patterns: the expression that a text writes, or why it writes none. -/
abbrev PatternParser := String → Except Lexer.PatternError Expr

/-- The machine of a pattern, for a terminal. -/
def compile (parse : PatternParser) (pattern : String) (tag : Nat) :
    Except Lexer.PatternError Nfa := do
  compileExpr (← parse pattern) tag

def combine (machines : List Nfa) : Lexer.Machine :=
  (Union.ofList machines).toMachine

/-- The compiler of regular expressions in the notation of a parser. -/
def compiler (parse : PatternParser) : Lexer.Compiler Nfa where
  compile := compile parse
  combine

/-! ## The report -/

def tagsTerm (tags : List Nat) : String :=
  "\x7b" ++ ", ".intercalate (tags.map fun t ↦ s!"TerminalId({t})") ++ "\x7d"

/-- What there is to tell about a compiled pattern. -/
def compiledReport (pattern : String) (m : Nfa) : List Log.Record :=
  [Log.trace s!"pattern /{pattern}/ -> {m.size} nfa states"]

/-- What there is to tell about combining machines. -/
def combinedReport (machines : List Nfa) : List Log.Record :=
  let u := Union.ofList machines
  let m := u.toMachine
  Log.debug s!"combined nfa: {u.size} states, {m.events.length} events" ::
    m.collisions.map fun (state, tags) ↦
      Log.debug s!"dfa state {state} accepts several terminals: {tagsTerm tags}"

def compilerReport : Lexer.CompilerReport Nfa where
  compiled := compiledReport
  combined := combinedReport

end ShiftReduce.Regex
