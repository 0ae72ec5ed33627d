import ShiftReduce.Proofs.Parser.Session

/-!
# Generated tables are never malformed

A parser over generated tables finds a goto after every reduction and never runs out of stack,
whatever tokens it is pushed and however many of them it has refused. Nothing is assumed of the
grammar but that a parser could be generated from it: the non-terminal of an accept rule may occur
within rules, conflicts may have been settled, rules may be empty.

## Why

A parser that has not accepted stands on a path of the automaton, and every action from there is one
of four (`Parser.Acts`). A parser that has accepted takes nothing more. So no answer in a session is
one of those that only malformed tables give (`session_never_malformed`), and an address overflows
only where the tables are too large to be in memory.
-/

namespace ShiftReduce.Parser

variable {V : Type} {g : Grammar} {a : Automaton} {conflicts : List Conflict} {t : Tables}
  {combine : Nat → List V → V}

theorem Tables.Serves.answer_ne (wf : g.WellFormed) (ht : t.Serves g a conflicts)
    {calls : List (Call V)} {o : Option (Parser V)} (h : Session t combine calls o) {c : Call V}
    (hc : c ∈ calls) :
    (∀ defect, c.answer ≠ .error (.badTables defect)) ∧
      (c.answer = .error .addressOverflow → ¬t.Addressable) := by
  have hR : Respects g combine (fun _ _ ↦ True) := fun _ _ _ _ _ _ ↦ trivial
  induction h with
  | start => simp at hc
  | @push calls p limit k v x hsession hk hx ih =>
    rcases List.mem_append.mp hc with hc | hc
    · exact ih hc
    · obtain rfl := List.mem_singleton.mp hc
      cases hopen : p.accepted with
      | true => simp [(push?_of_accepted hopen hx).2]
      | false =>
        obtain ⟨symbols, hheld⟩ := ht.holds_session wf hR hsession (fun _ _ ↦ trivial) p rfl hopen
        have hlands := ht.lands_holds wf hR hk hheld hopen hx
        generalize x.answer = answer at hlands
        generalize x.parser = q at hlands
        cases hlands with
        | shifted | accepted | refused => simp
        | overflow hlarge => exact ⟨by simp, fun _ ↦ hlarge⟩

/-- **Generated tables are never malformed.** In any session of a parser over generated tables, no
call is answered with bad tables; nor does an address overflow, if the cells have addresses. -/
theorem session_never_malformed {M : Type} {compiler : Lexer.Compiler M} {withLexer : Bool}
    {d : Declarations} {x : Generated} (hg : d.build = .ok g)
    (hx : Generator.generate compiler withLexer g = .ok x)
    (hstates : x.tables.stateCount < 2 ^ 27) (hrules : x.rules.length < 2 ^ 27)
    {calls : List (Call V)} {o : Option (Parser V)} (h : Session x.parserTables combine calls o) :
    ∀ c ∈ calls, (∀ defect, c.answer ≠ .error (.badTables defect)) ∧
      (x.parserTables.Addressable → c.answer ≠ .error .addressOverflow) := by
  intro c hc
  have wf := Declarations.wellFormed_of_build hg
  obtain ⟨a, resolved, horigin⟩ := origin_of_generate hx
  obtain ⟨hdefect, hover⟩ := (horigin.serves wf hstates hrules).answer_ne wf h hc
  exact ⟨hdefect, fun haddress hanswer ↦ hover hanswer haddress⟩

/-- A start of parsing that occurs within a rule. -/
def nestedStart : Declarations where
  settings := { parserName := some "P", tokenType := some "T" }
  terminals :=
    [{ name := "a", pattern := none, code := none }, { name := "b", pattern := none, code := none }]
  rules :=
    [{ lhs := "S", rhs := ["E", "EOF"] }, { lhs := "E", rhs := ["b", "S", "a"] },
      { lhs := "E", rhs := ["a"] }]
  accepts := ["S"]

def nestedGrammar : Grammar :=
  okValue nestedStart.build (by decide +kernel)

def nestedParser : Generated :=
  okValue (Generator.generate (.constant default) false nestedGrammar) (by decide +kernel)

theorem session_nestedStart_never_malformed :
    ∃ (calls : List (Call Unit)) (o : Option (Parser Unit)),
      nestedStart.build = .ok nestedGrammar ∧
      Generator.generate (.constant default) false nestedGrammar = .ok nestedParser ∧
      nestedParser.tables.stateCount < 2 ^ 27 ∧ nestedParser.rules.length < 2 ^ 27 ∧
      Session nestedParser.parserTables (fun _ _ ↦ ()) calls o ∧
      calls.map (·.answer) = [.ok .shifted, .error (.syntaxError 2 0), .ok .shifted,
        .error (.syntaxError 3 1), .ok (.accepted ()), .error .alreadyAccepted] ∧
      ∀ c ∈ calls, ∀ defect, c.answer ≠ .error (.badTables defect) := by
  have hg : nestedStart.build = .ok nestedGrammar := eq_ok_okValue _
  have hx : Generator.generate (.constant default) false nestedGrammar = .ok nestedParser :=
    eq_ok_okValue _
  have hstates : nestedParser.tables.stateCount < 2 ^ 27 := by decide +kernel
  have hrules : nestedParser.rules.length < 2 ^ 27 := by decide +kernel
  have hanswers : (pushAll? nestedParser.parserTables (fun _ _ ↦ ()) 10
      [(2, ()), (0, ()), (1, ()), (1, ()), (0, ()), (1, ())] {}).map
        (fun run ↦ run.1.map (·.answer))
      = some [.ok .shifted, .error (.syntaxError 2 0), .ok .shifted, .error (.syntaxError 3 1),
        .ok (.accepted ()), .error .alreadyAccepted] := by
    decide +kernel
  obtain ⟨⟨calls, o⟩, hrun, hmap⟩ := Option.map_eq_some_iff.mp hanswers
  have hsession := session_of_pushAll? Session.start (by decide +kernel) hrun
  rw [List.nil_append] at hsession
  exact ⟨calls, o, hg, hx, hstates, hrules, hsession, hmap,
    fun c hc ↦ (session_never_malformed hg hx hstates hrules hsession c hc).1⟩

end ShiftReduce.Parser
