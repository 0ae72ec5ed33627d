import ShiftReduce.Proofs.Parser.Safety
import ShiftReduce.Proofs.Parser.Trees

/-!
# The end of input, and what acceptance leaves behind

The end of input is there to be accepted on, not to be shifted, and a parser that accepts should
have nothing left on its stack. Both rest on the grammar.

## Conditions

The end of input is not shifted if it occurs nowhere but at the end of accept rules
(`Grammar.EofLast`): a state is entered on a terminal that stands before the end of some rule
(`mem_of_edge`). The stack is used up if the non-terminals of accept rules do not occur within rules
(`Grammar.StartsOutermost`): then an accept rule stands at its first place only at the bottom of the
stack. `session_accepts_all` says both, of any session.

## Without them

Declarations are only checked for the last symbol of accept rules, so neither condition can be
relied upon: `endWithin` and `nestedStart` are let through, and their parsers shift the end of input
and leave values behind.
-/

namespace ShiftReduce.Parser

open Automaton (Canonical)
open Conflict (Edge)

variable {V : Type} {g : Grammar} {a : Automaton} {conflicts : List Conflict} {t : Tables}
  {combine : Nat → List V → V} {p : Parser V}

/-! ## Calls of a session -/

/-- Every call of a session was made to a parser with a stack, unless that parser had accepted; and
a parser that has accepted is the one that the session ends with. -/
theorem Tables.Serves.exists_lands (wf : g.WellFormed) (ht : t.Serves g a conflicts)
    {calls : List (Call V)} {o : Option (Parser V)} (h : Session t combine calls o) {c : Call V}
    (hc : c ∈ calls) (hne : c.answer ≠ .error .alreadyAccepted) :
    ∃ q q', Lands g a t combine c.terminal c.value (Holds g a fun _ _ ↦ True) q c.answer q' ∧
      (c.answer ≠ .error .addressOverflow → q'.accepted = true → o = some q') := by
  have hR : Respects g combine (fun _ _ ↦ True) := fun _ _ _ _ _ _ ↦ trivial
  induction h with
  | start => simp at hc
  | @push calls p limit k v x hsession hk hx ih =>
    rcases List.mem_append.mp hc with hc | hc
    · obtain ⟨q, q', hlands, hlast⟩ := ih hc
      refine ⟨q, q', hlands, fun hanswer haccepted ↦ ?_⟩
      obtain rfl := Option.some.inj (hlast hanswer haccepted)
      exact (push?_of_accepted haccepted hx).1
    · obtain rfl := List.mem_singleton.mp hc
      cases hopen : p.accepted with
      | true => exact absurd (push?_of_accepted hopen hx).2 hne
      | false =>
        obtain ⟨symbols, hheld⟩ := ht.holds_session wf hR hsession (fun _ _ ↦ trivial) p rfl hopen
        exact ⟨p, x.parser, ht.lands_holds wf hR hk hheld hopen hx,
          fun hanswer _ ↦ next?_eq_some.mpr ⟨hanswer, rfl⟩⟩

/-- A terminal on which a state is entered stands before the end of some rule, and within an accept
rule before its last symbol. -/
theorem mem_of_edge {s s' : State} {k n : Nat}
    (h : Edge g a s (.terminal k) n s') :
    ∃ rule ∈ g.rules, Symbol.terminal k ∈ if rule.accept then rule.rhs.dropLast else rule.rhs := by
  obtain ⟨i, -, hread, hnot⟩ := h.reads
  obtain ⟨rule, hrule, hsymbol⟩ := Item.symbol?_eq_some.mp hread
  refine ⟨rule, Grammar.mem_of_rule? hrule, ?_⟩
  cases haccept : rule.accept with
  | false => exact List.mem_of_getElem? hsymbol
  | true =>
    -- The item does not accept, so it is not the last symbol that it reads.
    have hlt := (List.getElem?_eq_some_iff.mp hsymbol).1
    have hne : i.position + 1 ≠ rule.rhs.length := fun hlast ↦ hnot ⟨rule, hrule, haccept, hlast⟩
    refine List.mem_of_getElem? (i := i.position) ?_
    rw [if_pos rfl, List.getElem?_dropLast, if_pos (by omega), hsymbol]

theorem Stacked.eq_start {states : List Nat} (h : Stacked g a states []) : states = [0] := by
  cases h
  rfl

/-- **The end of input and acceptance.** In any session of a parser over generated tables: if the
end of input occurs only at the end of accept rules, it is never shifted; and if the non-terminals
of accept rules do not occur within rules, a parser that accepts makes its result of all the values
there are, so that it ends with an empty stack of values in the state in which it started. -/
theorem session_accepts_all {M : Type} {compiler : Lexer.Compiler M} {withLexer : Bool}
    {d : Declarations} {x : Generated} (hd : d.build = .ok g)
    (hx : Generator.generate compiler withLexer g = .ok x)
    (hstates : x.tables.stateCount < 2 ^ 27) (hrules : x.rules.length < 2 ^ 27)
    {calls : List (Call V)} {o : Option (Parser V)} (h : Session x.parserTables combine calls o) :
    (g.EofLast → ∀ c ∈ calls, c.terminal = 0 → c.answer ≠ .ok .shifted) ∧
      (g.StartsOutermost → ∀ c ∈ calls, ∀ v, c.answer = .ok (.accepted v) →
        ∃ p, o = some p ∧ p.values = [] ∧ p.states = [0] ∧ ∃ r rule values, g.rule? r = some rule ∧
          rule.accept = true ∧ values.length = rule.arity ∧ v = combine r values) := by
  have wf := Declarations.wellFormed_of_build hd
  obtain ⟨a, resolved, horigin⟩ := origin_of_generate hx
  have ht := horigin.serves wf hstates hrules
  constructor
  · intro heof c hc hzero hshifted
    obtain ⟨q, q', hlands, -⟩ := ht.exists_lands wf h hc (by simp [hshifted])
    rw [hshifted, hzero] at hlands
    cases hlands with
    | shifted _ _ hedge =>
      obtain ⟨rule, hrule, hmem⟩ := mem_of_edge hedge
      exact heof rule hrule hmem
  · intro hg c hc v haccepted
    obtain ⟨q, q', hlands, hlast⟩ := ht.exists_lands wf h hc (by simp [haccepted])
    generalize hanswer : c.answer = answer at hlands
    cases hlands with
    | shifted | refused | overflow => simp [hanswer] at haccepted
    | @accepted q symbols r rule s hq hrule haccept _ hle htop hmem =>
      obtain rfl : combine r (q.topmost (rule.rhs.length - 1)) = v := by
        simpa [hanswer] using haccepted
      have hend := hlast (by simp [haccepted]) rfl
      -- The accept rule stands at its first place in the state uncovered.
      have hnil := (hq.stacked.drop hle).eq_nil_of_start hg htop hrule haccept hmem
      have hbelow := hq.below hle
      rw [hnil] at hbelow
      refine ⟨_, hend, List.length_eq_zero_iff.mp hbelow.length_eq, hbelow.stacked.eq_start, r,
        rule, _, hrule, haccept, ?_, rfl⟩
      rw [Rule.arity, if_pos haccept, topmost, List.length_reverse, List.length_take,
        hq.length_eq, Nat.min_eq_left hle]

theorem session_sums_accepts_all :
    ∃ (calls : List (Call (List Nat))) (p : Parser (List Nat)),
      sums.build = .ok sumsGrammar ∧
      Generator.generate (.constant default) false sumsGrammar = .ok sumsParser ∧
      sumsParser.tables.stateCount < 2 ^ 27 ∧ sumsParser.rules.length < 2 ^ 27 ∧
      sumsGrammar.EofLast ∧ sumsGrammar.StartsOutermost ∧
      Session sumsParser.parserTables (fun r values ↦ r :: values.flatten) calls (some p) ∧
      calls.map (fun c ↦ (c.terminal, c.answer)) = [(1, .ok .shifted),
        (2, .ok .shifted), (0, .error (.syntaxError 3 0)), (1, .ok .shifted),
        (0, .ok (.accepted [0, 1, 2, 9, 9, 2, 9]))] ∧
      (∀ c ∈ calls, c.terminal = 0 → c.answer ≠ .ok .shifted) ∧
      p.values = [] ∧ p.states = [0] := by
  have hd : sums.build = .ok sumsGrammar := eq_ok_okValue _
  have hx : Generator.generate (.constant default) false sumsGrammar = .ok sumsParser :=
    eq_ok_okValue _
  have hstates : sumsParser.tables.stateCount < 2 ^ 27 := by decide +kernel
  have hrules : sumsParser.rules.length < 2 ^ 27 := by decide +kernel
  have heof : sumsGrammar.EofLast := by
    rw [Grammar.EofLast]
    decide +kernel
  have hg : sumsGrammar.StartsOutermost := by
    rw [Grammar.StartsOutermost]
    decide +kernel
  have hanswers : (pushAll? sumsParser.parserTables (fun r values ↦ r :: values.flatten) 10
      [(1, [9]), (2, [9]), (0, []), (1, [9]), (0, [])] {}).map
        (fun run ↦ run.1.map fun c ↦ (c.terminal, c.answer))
      = some [(1, .ok .shifted), (2, .ok .shifted), (0, .error (.syntaxError 3 0)),
        (1, .ok .shifted), (0, .ok (.accepted [0, 1, 2, 9, 9, 2, 9]))] := by
    decide +kernel
  obtain ⟨⟨calls, o⟩, hrun, hmap⟩ := Option.map_eq_some_iff.mp hanswers
  have hsession := session_of_pushAll? Session.start (by decide +kernel) hrun
  rw [List.nil_append] at hsession
  obtain ⟨hshifted, haccepted⟩ := session_accepts_all hd hx hstates hrules hsession
  have hlast : (0, .ok (.accepted [0, 1, 2, 9, 9, 2, 9]))
      ∈ calls.map (fun c ↦ (c.terminal, c.answer)) := by
    rw [hmap]
    simp
  obtain ⟨c, hc, heq⟩ := List.mem_map.mp hlast
  obtain ⟨p, rfl, hvalues, hstart, -⟩ := haccepted hg c hc _ (Prod.mk.inj heq).2
  exact ⟨calls, p, hd, hx, hstates, hrules, heof, hg, hsession, hmap, hshifted heof, hvalues,
    hstart⟩

def endWithin : Declarations where
  settings := { parserName := some "P", tokenType := some "T" }
  terminals :=
    [{ name := "a", pattern := none, code := none }, { name := "b", pattern := none, code := none }]
  rules := [{ lhs := "S", rhs := ["E", "EOF"] }, { lhs := "E", rhs := ["a", "EOF", "b"] }]
  accepts := ["S"]

def endWithinGrammar : Grammar :=
  okValue endWithin.build (by decide +kernel)

def endWithinParser : Generated :=
  okValue (Generator.generate (.constant default) false endWithinGrammar) (by decide +kernel)

/-- Grammars that are let through without these conditions: one parser shifts the end of input, and
another accepts with a value left on its stack. -/
theorem exists_session_shifting_eof_leaving_values :
    (endWithin.build = .ok endWithinGrammar ∧
      Generator.generate (.constant default) false endWithinGrammar = .ok endWithinParser ∧
      ∃ (calls : List (Call Nat)) (o : Option (Parser Nat)),
        Session endWithinParser.parserTables (fun _ values ↦ values.length) calls o ∧
        calls.map (fun c ↦ (c.terminal, c.answer)) = [(1, .ok .shifted), (0, .ok .shifted)]) ∧
    (nestedStart.build = .ok nestedGrammar ∧
      Generator.generate (.constant default) false nestedGrammar = .ok nestedParser ∧
      ∃ (calls : List (Call Nat)) (p : Parser Nat),
        Session nestedParser.parserTables (fun _ values ↦ values.length) calls (some p) ∧
        calls.map (fun c ↦ (c.terminal, c.answer))
          = [(2, .ok .shifted), (1, .ok .shifted), (0, .ok (.accepted 1))] ∧
        p.values = [7] ∧ p.states = [2, 0]) := by
  have hshifted : (pushAll? endWithinParser.parserTables (fun _ values ↦ values.length) 10
      [(1, 7), (0, 7)] {}).map (fun run ↦ run.1.map fun c ↦ (c.terminal, c.answer))
      = some [(1, .ok .shifted), (0, .ok .shifted)] := by
    decide +kernel
  have haccepted : (pushAll? nestedParser.parserTables (fun _ values ↦ values.length) 10
      [(2, 7), (1, 7), (0, 7)] {}).map
        (fun run ↦ (run.1.map (fun c ↦ (c.terminal, c.answer)),
          run.2.map fun p ↦ (p.values, p.states)))
      = some ([(2, .ok .shifted), (1, .ok .shifted), (0, .ok (.accepted 1))],
        some ([7], [2, 0])) := by
    decide +kernel
  obtain ⟨⟨calls, o⟩, hrun, hmap⟩ := Option.map_eq_some_iff.mp hshifted
  obtain ⟨⟨calls', o'⟩, hrun', hmap'⟩ := Option.map_eq_some_iff.mp haccepted
  obtain ⟨hcalls', hlast⟩ := Prod.mk.inj hmap'
  obtain ⟨p', rfl, hleft⟩ := Option.map_eq_some_iff.mp hlast
  obtain ⟨hvalues, hstates⟩ := Prod.mk.inj hleft
  have hsession := session_of_pushAll? Session.start (by decide +kernel) hrun
  have hsession' := session_of_pushAll? Session.start (by decide +kernel) hrun'
  rw [List.nil_append] at hsession hsession'
  exact ⟨⟨eq_ok_okValue _, eq_ok_okValue _, calls, o, hsession, hmap⟩,
    ⟨eq_ok_okValue _, eq_ok_okValue _, calls', p', hsession', hcalls', hvalues, hstates⟩⟩

end ShiftReduce.Parser
