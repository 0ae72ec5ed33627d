import ShiftReduce.Lexer.Basic
import ShiftReduce.Log

/-!
# The report on assembling a lexer

Each pattern before it is compiled, what the compiler has to tell, the states that several terminals
compete for, and the tables. Nothing follows a pattern that was refused.
-/

namespace ShiftReduce.Lexer

/-- What a compiler has to tell. -/
structure CompilerReport (M : Type) where
  /-- About a pattern and its machine. -/
  compiled : String → M → List Log.Record := fun _ _ ↦ []
  /-- About the machines to be combined. -/
  combined : List M → List Log.Record := fun _ ↦ []

variable {M : Type}

/-- The records of the patterns, up to the first that is refused. -/
def reportSources (compiler : Compiler M) (tell : CompilerReport M) :
    List Source → List Log.Record
  | [] => []
  | s :: rest =>
    Log.debug s!"compiling t{s.terminal.number} {s.terminal.name} = /{s.pattern}/" ::
      match compiler.compile s.pattern s.terminal.number with
      | .error _ => []
      | .ok machine => tell.compiled s.pattern machine ++ reportSources compiler tell rest

def reportTables (m : Machine) (l : Lexer) : List Log.Record :=
  l.collisions.map (fun (state, names) ↦
    Log.warn (s!"lexer state {state} matches " ++ " and ".intercalate names
      ++ "; input ending there is not recognized as any of them"))
    ++ [Log.debug (s!"lexer: {m.transitions.length} states, {m.events.length} events, "
      ++ s!"initial state {m.initial}")]
    ++ (l.tokens.zipIdx.filterMap fun (token, state) ↦
      token.map fun name ↦ Log.debug s!"    state {state} recognizes {name}")

/-- What there is to tell about assembling a lexer. -/
def report (compiler : Compiler M) (tell : CompilerReport M) (terminals : List Terminal) :
    List Log.Record :=
  reportSources compiler tell (sources terminals) ++
    match (sources terminals).mapM (compileSource compiler) with
    | .error _ => []
    | .ok machines =>
      let m := compiler.combine machines
      tell.combined machines ++ reportTables m (ofMachine terminals m)

end ShiftReduce.Lexer
