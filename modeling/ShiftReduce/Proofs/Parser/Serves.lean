import ShiftReduce.Generator.Basic
import ShiftReduce.Proofs.Conflict.Rows
import ShiftReduce.Proofs.Tables.Lookup

/-!
# Tables made for a grammar

What the parser relies on is `Parser.Tables.Serves`: the tables belong to the canonical automaton of
a grammar, reading them gives the rows of the settled states, and the rules have their left-hand
sides and lengths. Every later fact about the parser uses this and nothing else of the generator;
`Generated.Origin.serves` establishes it.

## Sizes

Codes have room for 28 bits, one of which marks index entries. With fewer than `2 ^ 27` states and
rules all actions have small numbers, so that reading the tables gives back what was packed. The
bound is asked of the parser that was generated, since the number of states is known only then.

## Origins

`Generated.Origin` is how a generated parser came about: the grammar was made from declarations, its
automaton built and settled, and the rows packed.
-/

namespace ShiftReduce

/-- How many values a rule takes from the stack. The end of an accept rule is never there. -/
def Rule.arity (rule : Rule) : Nat :=
  if rule.accept then rule.rhs.length - 1 else rule.rhs.length

namespace Parser

open Automaton (Canonical ItemAction)
open Conflict (SettledState resolveState Offers)

/-- The tables of the settled canonical automaton of a grammar. -/
structure Tables.Serves (g : Grammar) (a : Automaton) (conflicts : List Conflict) (t : Tables) :
    Prop where
  canonical : Canonical g a
  /-- What is read for a state is what its items were settled to. -/
  settled : ∀ (n : Nat) (s : State), a.states[n]? = some s →
    ∃ x : SettledState, resolveState g s = .ok x ∧ x.conflicts ⊆ conflicts ∧
      (∀ k action, x.rows.actions[k]? = some action → action.Small ∧
        ShiftReduce.Tables.ReadsCell action t.actionTable (t.action n k)) ∧
      ∀ b action, x.rows.gotos[b]? = some action → action.Small ∧
        ShiftReduce.Tables.ReadsCell action t.gotoTable (t.goto n b)
  ruleLhs_eq : ∀ r, t.ruleLhs[r]? = (g.rule? r).map (·.lhs)
  ruleLength_eq : ∀ r, t.ruleLength[r]? = (g.rule? r).map Rule.arity
  terminals_eq : t.terminals = g.terminals.length

end Parser

section Generate

variable {g : Grammar} {a : Automaton} {resolved : Resolved} {x : Generated}

/-- What a generated parser was made from. -/
structure Generated.Origin (g : Grammar) (a : Automaton) (resolved : Resolved) (x : Generated) :
    Prop where
  build_eq : Automaton.build g = .ok a
  resolve_eq : (Conflict.resolve g a).2 = .ok resolved
  tables_eq : x.tables = Tables.compress resolved.rows
  conflicts_eq : x.conflicts = resolved.conflicts
  terminalNames_eq : x.terminalNames = g.terminals.map (·.name)
  nonterminalNames_eq : x.nonterminalNames = g.nonterminals.map (·.name)
  rules_eq : x.rules = g.rules.map g.ruleEntry

theorem origin_of_generate {M : Type} {compiler : Lexer.Compiler M} {withLexer : Bool}
    (h : Generator.generate compiler withLexer g = .ok x) :
    ∃ a resolved, x.Origin g a resolved := by
  rw [Generator.generate] at h
  simp only [bind_eq_ok] at h
  obtain ⟨_, -, a, ha, resolved, hresolved, _, -, _, -, hx⟩ := h
  obtain rfl := Except.ok.inj hx
  exact ⟨a, resolved, ha, hresolved, rfl, rfl, rfl, rfl, rfl⟩

/-! ## Rules and states that fit their codes -/

theorem small_of_lt {action : Action} {n : Nat} (h : action.number? = some n) (hn : n < 2 ^ 27) :
    action.Small := by
  intro m hm
  rw [← Option.some.inj (h.symm.trans hm)]
  exact hn

theorem small_error : Action.error.Small := by
  intro n hn
  simp [Action.number?] at hn

theorem Grammar.lt_of_rule? {r : Nat} {rule : Rule} (h : g.rule? r = some rule) :
    r < g.rules.length :=
  (List.getElem?_eq_some_iff.mp h).1

/-- With few states and rules, all that a state can do has a small number. -/
theorem small_of_offers {s : State} {t : Nat} {action : Action}
    (h : Conflict.Offers g a s t action) (hstates : a.states.length < 2 ^ 27)
    (hrules : g.rules.length < 2 ^ 27) : action.Small := by
  cases h with
  | error => exact small_error
  | shift hedge =>
    exact small_of_lt rfl ((List.getElem?_eq_some_iff.mp hedge.target).1.trans hstates)
  | reduce _ hcompleted =>
    obtain ⟨rule, hrule, -⟩ := hcompleted
    exact small_of_lt rfl ((Grammar.lt_of_rule? hrule).trans hrules)
  | accept _ haccepts =>
    obtain ⟨rule, hrule, -⟩ := haccepts
    exact small_of_lt rfl ((Grammar.lt_of_rule? hrule).trans hrules)

/-! ## Generated tables -/

theorem Generated.Origin.length_states (h : x.Origin g a resolved) :
    x.tables.stateCount = a.states.length := by
  rw [Tables.stateCount, h.tables_eq, (Tables.packed_compress _).actions.length_index,
    List.length_map, (Conflict.resolve_ok h.resolve_eq).1]

theorem Generated.Origin.length_of_mem_rows (wf : g.WellFormed) (h : x.Origin g a resolved)
    {row : Rows} (hrow : row ∈ resolved.rows) :
    row.actions.length = g.terminals.length ∧ row.gotos.length = g.nonterminals.length := by
  have ha := Automaton.canonical_of_build wf h.build_eq
  obtain ⟨s, hs, y, hy, rfl⟩ := Conflict.exists_state_of_mem_rows h.resolve_eq hrow
  exact ⟨Conflict.length_actions_of_resolveState wf ha hs hy,
    Conflict.length_gotos_of_resolveState wf ha hs hy⟩

theorem Generated.Origin.small_of_mem_rows (wf : g.WellFormed) (h : x.Origin g a resolved)
    (hstates : a.states.length < 2 ^ 27) (hrules : g.rules.length < 2 ^ 27) {row : Rows}
    (hrow : row ∈ resolved.rows) {action : Action} (haction : action ∈ row.actions) :
    action.Small := by
  have ha := Automaton.canonical_of_build wf h.build_eq
  obtain ⟨s, hs, y, hy, rfl⟩ := Conflict.exists_state_of_mem_rows h.resolve_eq hrow
  obtain ⟨k, hk⟩ := List.mem_iff_getElem?.mp haction
  exact small_of_offers (Conflict.offers_of_resolveState wf ha hs hy hk) hstates hrules

/-- **Generated tables serve the automaton.** -/
theorem Generated.Origin.serves (wf : g.WellFormed) (h : x.Origin g a resolved)
    (hstates : x.tables.stateCount < 2 ^ 27) (hrules : x.rules.length < 2 ^ 27) :
    Parser.Tables.Serves g a x.conflicts x.parserTables := by
  have ha := Automaton.canonical_of_build wf h.build_eq
  obtain ⟨hlength, hsettled⟩ := Conflict.resolve_ok h.resolve_eq
  rw [h.length_states] at hstates
  rw [h.rules_eq, List.length_map] at hrules
  have hterminals : x.parserTables.terminals = g.terminals.length := by
    rw [Generated.parserTables, h.terminalNames_eq, List.length_map]
  have hnonterminals : x.parserTables.nonterminals = g.nonterminals.length := by
    rw [Generated.parserTables, h.nonterminalNames_eq, List.length_map]
  have hpacked : ShiftReduce.Tables.Packed resolved.rows x.tables := by
    rw [h.tables_eq]
    exact Tables.packed_compress _
  have hflattens : x.tables.Flattens x.parserTables := ⟨rfl, rfl, rfl, rfl⟩
  have hcount : resolved.rows.length < 2 ^ 30 := by omega
  have hsmall : ∀ row ∈ resolved.rows, ∀ action ∈ row.actions, action.Small :=
    fun _ hrow _ haction ↦ h.small_of_mem_rows wf hstates hrules hrow haction
  refine ⟨ha, fun n s hn ↦ ?_, fun r ↦ ?_, fun r ↦ ?_, hterminals⟩
  · have hs := List.mem_of_getElem? hn
    obtain ⟨y, hy, hrow, hconflicts⟩ := hsettled n s hn
    refine ⟨y, hy, h.conflicts_eq ▸ hconflicts, fun k action hk ↦ ?_, fun b action hb ↦ ?_⟩
    · refine ⟨hsmall _ (List.mem_of_getElem? hrow) action (List.mem_of_getElem? hk), ?_⟩
      refine hpacked.readsCell_action hflattens (fun row hrow' ↦ ?_) hsmall hcount hrow hk
      rw [hterminals, (h.length_of_mem_rows wf hrow').1]
    · refine ⟨?_, hpacked.readsCell_goto hflattens (fun row hrow' ↦ ?_) hcount hrow hb⟩
      · rcases Conflict.lt_of_goto wf ha hs hy hb with rfl | ⟨q, rfl, hq⟩
        · exact small_error
        · exact small_of_lt rfl (hq.trans hstates)
      · rw [hnonterminals, (h.length_of_mem_rows wf hrow').2]
  · simp only [Generated.parserTables, Generated.ruleLhs, h.rules_eq, List.getElem?_toArray,
      List.getElem?_map, Option.map_map]
    rfl
  · simp only [Generated.parserTables, Generated.ruleLength, h.rules_eq, List.getElem?_toArray,
      List.getElem?_map, Option.map_map]
    refine congrArg (Option.map · _) (funext fun rule ↦ ?_)
    simp [RuleEntry.popCount, Grammar.ruleEntry, Rule.arity]

end Generate

end ShiftReduce
