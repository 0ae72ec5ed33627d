import ShiftReduce.Proofs.Operators.Declared
import ShiftReduce.Proofs.Operators.Simulate

/-!
# Precedence is obeyed

The declarations of an operator grammar make a grammar, and a parser is generated for it. That
parser accepts a chain of numbers and operators exactly if some expression over the chain obeys the
precedence of its operators, and what it accepts is the value of that expression, of which there is
one. It refuses a token of every other chain (`precedence_obeyed`).

## From names to answers

The parts have been prepared: the shape of the grammar, the five kinds of states of its automaton,
the run of a parser as a climb, and the climb as a search for the obeying expression. What is left
is that nothing fails on the way from declarations to a parser, whatever compiler there is
(`Names.Declares.exists_generate`), and that the tables are the right ones.

## Sizes

The tables of such a parser are small enough for their codes and addresses as long as there are
fewer than `2 ^ 25` operators. The number of states is at most two for each operator and three more,
and that of rules one for each and two more.
-/

namespace ShiftReduce

/-! ## Addresses -/

theorem Generated.Origin.addressable {g : Grammar} {a : Automaton} {resolved : Resolved}
    {x : Generated} (wf : g.WellFormed) (h : x.Origin g a resolved)
    (hactions : a.states.length * g.terminals.length ≤ wordBound)
    (hgotos : a.states.length * g.nonterminals.length ≤ wordBound) :
    x.parserTables.Addressable := by
  have hpacked : ShiftReduce.Tables.Packed resolved.rows x.tables := by
    rw [h.tables_eq]
    exact Tables.packed_compress _
  have hrows : resolved.rows.length = a.states.length := (Conflict.resolve_ok h.resolve_eq).1
  refine ⟨?_, ?_⟩
  · have hwidth : ∀ row ∈ x.tables.encodedActionRows, row.length = g.terminals.length := by
      intro row hrow
      obtain ⟨stored, hstored, rfl⟩ := List.mem_map.mp hrow
      obtain ⟨row', hrow', rfl⟩ := List.mem_map.mp (hpacked.actions.mem_stored stored hstored)
      rw [List.length_map, (h.length_of_mem_rows wf hrow').1]
    rw [Generated.parserTables, List.size_toArray, Tables.length_flatten_of_length hwidth,
      Tables.encodedActionRows, List.length_map]
    exact le_trans (Nat.mul_le_mul_right _ (hrows ▸ hpacked.length_actionRows_le)) hactions
  · have hwidth : ∀ row ∈ x.tables.encodedGotoRows, row.length = g.nonterminals.length := by
      intro row hrow
      obtain ⟨stored, hstored, rfl⟩ := List.mem_map.mp hrow
      obtain ⟨row', hrow', rfl⟩ := List.mem_map.mp (hpacked.gotos.mem_stored stored hstored)
      rw [List.length_map, (h.length_of_mem_rows wf hrow').2]
    rw [Generated.parserTables, List.size_toArray, Tables.length_flatten_of_length hwidth,
      Tables.encodedGotoRows, List.length_map]
    exact le_trans (Nat.mul_le_mul_right _ (hrows ▸ hpacked.length_gotoRows_le)) hgotos

namespace Operators

open ShiftReduce.Parser

variable {g : Grammar} {o : Names} {d : Declarations}

/-! ## A parser is generated -/

private theorem exists_reduceActions_eq_ok {rules : List Rule}
    (h : ∀ rule ∈ rules, rule.code = none)
    (next : Nat) : ∃ codes, Generator.reduceActions g rules next = .ok codes := by
  induction rules generalizing next with
  | nil => exact ⟨[], rfl⟩
  | cons rule rules ih =>
    have hcode : rule.code = none := h rule List.mem_cons_self
    obtain ⟨codes, hcodes⟩ := ih (fun rule hrule ↦ h rule (List.mem_cons_of_mem _ hrule))
      (next + (Template.usedPlaces (rule.code.getD "") rule.rhs.length).length)
    refine ⟨Template.emptyAction :: codes, ?_⟩
    simp only [Generator.reduceActions, bind_eq_ok]
    refine ⟨_, ?_, codes, hcodes, rfl⟩
    rw [Grammar.ruleCode, hcode]
    rfl

theorem Shape.exists_resolved {O : Type} (sh : Shape g O) (wf : g.WellFormed) :
    ∃ a resolved, Automaton.build g = .ok a ∧ (Conflict.resolve g a).2 = .ok resolved := by
  cases ha : Automaton.build g with
  | error e =>
    obtain ⟨I, hI, hambiguous⟩ := (Automaton.exists_build_eq_error_iff wf).mp ⟨e, ha⟩
    exact absurd hambiguous (sh.not_ambiguous hI)
  | ok a =>
    obtain ⟨resolved, hresolved⟩ :=
      Conflict.exists_resolve_eq_ok wf (Automaton.canonical_of_build wf ha)
    exact ⟨a, resolved, rfl, hresolved⟩

/-- A parser without a lexer is generated, where the rules have no code that could be wrong. -/
theorem Names.Declares.exists_generate {M : Type} (compiler : Lexer.Compiler M) (h : o.Declares d)
    (hg : d.build = .ok g) (hcode : ∀ rule ∈ d.rules, rule.code = none) :
    ∃ x, Generator.generate compiler false g = .ok x := by
  have himage := Declarations.image_of_build hg
  obtain ⟨a, resolved, ha, hresolved⟩ :=
    (h.shape himage).exists_resolved (Declarations.wellFormed_of_build hg)
  have hcodes : ∀ rule ∈ g.rules, rule.code = none := by
    intro rule hrule
    obtain ⟨r, hr⟩ := List.mem_iff_getElem?.mp hrule
    have hlt : r < d.rules.length :=
      himage.length_rules ▸ (List.getElem?_eq_some_iff.mp hr).1
    obtain ⟨level, -, heq⟩ := himage.rule_eq r _ (List.getElem?_eq_getElem hlt)
    obtain rfl := Option.some.inj (hr.symm.trans heq)
    exact hcode _ (List.getElem_mem hlt)
  obtain ⟨codes, hactions⟩ := exists_reduceActions_eq_ok (g := g) hcodes 1
  simp only [Generator.generate, bind_eq_ok]
  exact ⟨_, (), himage.settings_eq ▸ h.settings, a, ha, resolved, hresolved, none, rfl, codes,
    hactions, rfl⟩

/-! ## The tables are small -/

theorem Names.Declares.length_terminals (h : o.Declares d) (hg : d.Image g) :
    g.terminals.length = o.operators.length + 2 := by
  have hlength := congrArg List.length hg.terminals_eq
  rw [List.length_map, Builder.terminalNames, List.length_cons, h.terminals.length_eq,
    List.length_cons] at hlength
  exact hlength

theorem Names.Declares.length_rules (h : o.Declares d) (hg : d.Image g) :
    g.rules.length = o.operators.length + 2 := by
  have hlength := h.rules.length_eq
  rw [List.length_map, Names.rules, List.length_cons, List.length_cons, List.length_map] at hlength
  rw [hg.length_rules, hlength]

theorem Names.Declares.length_nonterminals_le (h : o.Declares d) (hg : d.Image g) :
    g.nonterminals.length ≤ 2 := by
  have hsub : g.nonterminals.map (·.name) ⊆ [o.start, o.expression] := by
    intro name hname
    obtain ⟨rule, hrule, rfl⟩ := hg.defined name (Builder.named_iff.mpr hname)
    rcases Names.mem_rules.mp (h.mem_rules hrule) with ⟨hlhs, -⟩ | ⟨hlhs, -⟩ | ⟨-, hlhs, -⟩ <;>
      simp [hlhs]
  have hle := (hg.names.nodup.subperm hsub).length_le
  rwa [List.length_map] at hle

/-- The parser of an operator grammar has what every fact about its runs asks for. -/
theorem Names.Declares.serves {a : Automaton} {resolved : Resolved} {x : Generated}
    (h : o.Declares d) (hg : d.build = .ok g) (hx : x.Origin g a resolved)
    (hsize : o.operators.length < 2 ^ 25) :
    Tables.Serves g a x.conflicts x.parserTables ∧ x.parserTables.Addressable := by
  have wf := Declarations.wellFormed_of_build hg
  have himage := Declarations.image_of_build hg
  have ha := Automaton.canonical_of_build wf hx.build_eq
  have hstates : a.states.length ≤ 2 * o.operators.length + 3 := by
    have hcard : Fintype.card o.Operator ≤ o.operators.length := by
      rw [Fintype.card_of_subtype o.operators.toFinset fun _ ↦ List.mem_toFinset]
      exact List.toFinset_card_le _
    have hle := (h.shape himage).length_states_le ha
    omega
  refine ⟨hx.serves wf ?_ ?_, hx.addressable wf ?_ ?_⟩
  · rw [hx.length_states]
    omega
  · rw [hx.rules_eq, List.length_map, h.length_rules himage]
    omega
  · rw [h.length_terminals himage, wordBound]
    have hle : a.states.length * (o.operators.length + 2) ≤ 2 ^ 27 * 2 ^ 26 :=
      Nat.mul_le_mul (by omega) (by omega)
    omega
  · rw [wordBound]
    have hle : a.states.length * g.nonterminals.length ≤ 2 ^ 27 * 2 :=
      Nat.mul_le_mul (by omega) (h.length_nonterminals_le himage)
    omega

/-! ## Chains -/

/-- A token of a chain as the parser takes it. -/
def Names.token {V : Type} (o : Names) (d : Declarations) : Token o.Operator V → Nat × V :=
  Token.coded (terminalNumber d o.number) fun op ↦ terminalNumber d op.1

/-- The value that the accept rule makes of an expression, operation by operation. -/
def Names.result {V : Type} (o : Names) (d : Declarations) (combine : Nat → List V → V)
    (e : Expression o.Operator V) : V :=
  combine (ruleNumber d o.wholeSide)
    [e.value combine (ruleNumber d o.numberSide) fun op ↦ ruleNumber d (o.operatorSide op.1)]

/-- **Precedence is obeyed.** Declarations of an operator grammar, in any order, with the operators
on any levels, make a grammar, and a parser is generated for it. On a chain of numbers and
operators that parser accepts the values of the expressions over the chain that obey precedence, of
which there is at most one; if there is none, it refuses a token. -/
theorem precedence_obeyed (h : o.Declares d) (hsize : o.operators.length < 2 ^ 25) :
    ∃ g, d.build = .ok g ∧
      (∀ {M : Type} (compiler : Lexer.Compiler M), (∀ rule ∈ d.rules, rule.code = none) →
        ∃ x, Generator.generate compiler false g = .ok x) ∧
      ∀ {M : Type} (compiler : Lexer.Compiler M) (withLexer : Bool) (x : Generated),
        Generator.generate compiler withLexer g = .ok x →
        x.terminalNames = d.terminalNames ∧
        ∀ {V : Type} (combine : Nat → List V → V) (first : V) (rest : List (o.Operator × V × V))
          (eof : V),
          (∀ z, Accepts x.parserTables combine ((chain first rest).map (o.token d)) eof z ↔
            ∃ e : Expression o.Operator V, e.tokens = chain first rest ∧ e.Obeys (o.levels d) ∧
              z = o.result d combine e) ∧
          (∀ e e' : Expression o.Operator V, e.tokens = chain first rest → e.Obeys (o.levels d) →
            e'.tokens = chain first rest → e'.Obeys (o.levels d) → e = e') ∧
          ((¬∃ e : Expression o.Operator V, e.tokens = chain first rest ∧ e.Obeys (o.levels d)) →
            Refuses x.parserTables combine ((chain first rest).map (o.token d))) := by
  obtain ⟨g, hg⟩ := Declarations.exists_build_eq_ok h.consistent
  refine ⟨g, hg, fun compiler ↦ h.exists_generate compiler hg, ?_⟩
  intro M compiler withLexer x hx
  have wf := Declarations.wellFormed_of_build hg
  have himage := Declarations.image_of_build hg
  obtain ⟨a, resolved, horigin⟩ := origin_of_generate hx
  obtain ⟨ht, haddress⟩ := h.serves hg horigin hsize
  refine ⟨horigin.terminalNames_eq.trans himage.terminals_eq, ?_⟩
  intro V combine first rest eof
  have haccepts : ∀ e, climb (o.levels d) [] first rest = some e →
      Accepts x.parserTables combine ((chain first rest).map (o.token d)) eof
        (o.result d combine e) :=
    fun e he ↦ (h.shape himage).accepts_chain wf ht haddress he
  have hrefuses : climb (o.levels d) [] first rest = none →
      Refuses x.parserTables combine ((chain first rest).map (o.token d)) :=
    fun hnone ↦ (h.shape himage).refuses_chain wf ht haddress hnone
  refine ⟨fun z ↦ ⟨fun hz ↦ ?_, ?_⟩, ?_, fun hnone ↦ ?_⟩
  · cases hclimb : climb (o.levels d) [] first rest with
    | none => exact absurd (hrefuses hclimb) hz.not_refuses
    | some e =>
      obtain ⟨htokens, hobeys⟩ := climb_eq_some_iff.mp hclimb
      exact ⟨e, htokens, hobeys, hz.unique (haccepts e hclimb)⟩
  · rintro ⟨e, htokens, hobeys, rfl⟩
    exact haccepts e (climb_eq_some_iff.mpr ⟨htokens, hobeys⟩)
  · intro e e' htokens hobeys htokens' hobeys'
    have hclimb := climb_eq_some_iff.mpr ⟨htokens, hobeys⟩
    rw [climb_eq_some_iff.mpr ⟨htokens', hobeys'⟩] at hclimb
    exact (Option.some.inj hclimb).symm
  · apply hrefuses
    cases hclimb : climb (o.levels d) [] first rest with
    | none => rfl
    | some e => exact absurd ⟨e, climb_eq_some_iff.mp hclimb⟩ hnone

/-- Names for a comparison that does not group, a sum that groups to the left, and a power that
groups to the right. -/
def mixedNames : Names where
  start := "S"
  expression := "E"
  number := "NUM"
  operators := ["=", "+", "^"]

/-- The declarations of `mixedNames`, out of order. -/
def mixed : Declarations where
  settings := { parserName := some "P", tokenType := some "T" }
  terminals := ["^", "=", "NUM", "+"].map fun name ↦ { name, pattern := none, code := none }
  precedence := [⟨"nonassoc", ["="]⟩, ⟨"Left", ["+"]⟩, ⟨"right", ["^"]⟩]
  rules :=
    [{ lhs := "E", rhs := ["E", "=", "E"] }, { lhs := "E", rhs := ["NUM"] },
      { lhs := "E", rhs := ["E", "^", "E"] }, { lhs := "S", rhs := ["E", "EOF"] },
      { lhs := "E", rhs := ["E", "+", "E"] }]
  accepts := ["S"]

theorem mixedNames_declares : mixedNames.Declares mixed where
  names := by decide
  settings := rfl
  terminals := by decide
  members := by decide
  keywords := by
    intro p hp
    rw [mixed, List.mem_cons, List.mem_cons, List.mem_singleton] at hp
    rcases hp with rfl | rfl | rfl
    · exact ⟨.nonassoc, by decide +kernel⟩
    · exact ⟨.left, by decide +kernel⟩
    · exact ⟨.right, by decide +kernel⟩
  rules := by decide
  borrowed := by decide
  accepts := rfl

def sums : List (mixedNames.Operator × String × String) :=
  [(⟨"+", by decide⟩, "+", "2"), (⟨"+", by decide⟩, "+", "3"), (⟨"=", by decide⟩, "=", "4")]

def comparisons : List (mixedNames.Operator × String × String) :=
  [(⟨"=", by decide⟩, "=", "2"), (⟨"+", by decide⟩, "+", "3"), (⟨"=", by decide⟩, "=", "4")]

/-- Values in parentheses, behind the number of the rule. -/
def parenthesize (r : Nat) (values : List String) : String :=
  "(" ++ toString r ++ String.join values ++ ")"

theorem precedence_obeyed_mixed : mixedNames.operators.length < 2 ^ 25 ∧
    ∃ g x, mixed.build = .ok g ∧ Generator.generate (.constant default) false g = .ok x ∧
      Accepts x.parserTables parenthesize ((chain "1" sums).map (mixedNames.token mixed)) ""
        "(3(0(4(4(11)+(12))+(13))=(14)))" ∧
      Refuses x.parserTables parenthesize
        ((chain "1" comparisons).map (mixedNames.token mixed)) := by
  have hsize : mixedNames.operators.length < 2 ^ 25 := by decide
  obtain ⟨g, hg, hgenerate, hchains⟩ := precedence_obeyed mixedNames_declares hsize
  obtain ⟨x, hx⟩ := hgenerate (.constant default) (by decide)
  obtain ⟨-, hchains⟩ := hchains (.constant default) false x hx
  refine ⟨hsize, g, x, hg, hx, ?_, ?_⟩
  · have hclimb : (climb (mixedNames.levels mixed) [] "1" sums).map
        (mixedNames.result mixed parenthesize) = some "(3(0(4(4(11)+(12))+(13))=(14)))" := by
      decide +kernel
    obtain ⟨e, he, hresult⟩ := Option.map_eq_some_iff.mp hclimb
    obtain ⟨htokens, hobeys⟩ := climb_eq_some_iff.mp he
    exact ((hchains parenthesize "1" sums "").1 _).mpr ⟨e, htokens, hobeys, hresult.symm⟩
  · refine (hchains parenthesize "1" comparisons "").2.2 ?_
    rintro ⟨e, he⟩
    have hnone : (climb (mixedNames.levels mixed) [] "1" comparisons).isNone = true := by
      decide +kernel
    rw [climb_eq_some_iff.mpr he] at hnone
    simp at hnone

end Operators

end ShiftReduce
