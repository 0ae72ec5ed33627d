import ShiftReduce.Automaton.Report
import ShiftReduce.Conflict.Report
import ShiftReduce.Generator.Basic
import ShiftReduce.Lexer.Report
import ShiftReduce.Tables.Report

/-!
# The report on generating a parser

The reports of the stages in turn, up to the one that failed. On request, every state is listed
before its conflicts are settled.
-/

namespace ShiftReduce.Generator

variable {M : Type}

def reportTables (compiler : Lexer.Compiler M) (tell : Lexer.CompilerReport M)
    (withLexer : Bool) (g : Grammar) (r : Resolved) : List Log.Record :=
  let t := Tables.compress r.rows
  t.report
    ++ [Log.debug (s!"tables: {t.stateCount} states, {t.actionRows.length} action rows, "
      ++ s!"{t.gotoRows.length} goto rows")]
    ++ if withLexer then Lexer.report compiler tell g.terminals else []

/-- What there is to tell about generating a parser. -/
def report (compiler : Lexer.Compiler M) (tell : Lexer.CompilerReport M)
    (withLexer listStates : Bool) (g : Grammar) : List Log.Record :=
  match g.settings.validate with
  | .error _ => []
  | .ok _ =>
    Automaton.report g ++
      match Automaton.build g with
      | .error _ => []
      | .ok a =>
        (if listStates then a.states.map fun s ↦ Log.info (s.listing g) else [])
          ++ Conflict.report g a ++
          match (Conflict.resolve g a).2 with
          | .error _ => []
          | .ok r => reportTables compiler tell withLexer g r

end ShiftReduce.Generator
