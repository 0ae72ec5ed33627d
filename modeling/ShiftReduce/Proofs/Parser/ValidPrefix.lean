import ShiftReduce.Proofs.Grammar.Derivation
import ShiftReduce.Proofs.Parser.Trees

/-!
# A wrong token is never shifted

A state without lookahead may reduce before it finds that the token cannot stand where it is. What
it has reduced by then is no mistake: whatever the stack holds can still be completed to something
that an accept rule derives.

## Viable items

This is a property of the path of states alone (`Stacked.viable`): an item of the top state is
`Item.Viable` for the symbols read so far, which is to say that a sentential form of some accept
rule begins with those symbols and goes on with what is left of the item's rule. A rule that begins
and a symbol that is read keep this (`Viable.begin`, `Viable.advance`).

## Terminals

Together with the terminals that the symbols on the stack have come from (`Spelled`) this gives the
valid-prefix property, `session_shifts_prefix`. What is left of the item's rule derives some string
of terminals, since every non-terminal does. The property holds across refused tokens as well, and
however conflicts were settled: settling a conflict takes actions away and adds none.
-/

namespace ShiftReduce

open Grammar (Derives Yields Produces)

variable {g : Grammar}

/-! ## Viable prefixes -/

namespace Item

/-- A sentential form of some accept rule begins with `γ` and goes on with what is left of the
item's rule. -/
def Viable (g : Grammar) (γ : List Symbol) (i : Item) : Prop :=
  ∃ start ∈ g.rules, start.accept = true ∧ ∃ rule after, g.rule? i.rule = some rule ∧
    Derives g start.rhs (γ ++ rule.rhs.drop i.position ++ after)

private theorem viable_start {i : Item} (h : i ∈ startItems g) : i.Viable g [] := by
  obtain ⟨r, rule, hrule, haccept, rfl⟩ := h
  refine ⟨rule, Grammar.mem_of_rule? hrule, haccept, rule, [], hrule, ?_⟩
  rw [List.nil_append, List.append_nil, List.drop_zero]
  exact Relation.ReflTransGen.refl

theorem drop_position_eq_cons {i : Item} {rule : Rule} {X : Symbol}
    (hrule : g.rule? i.rule = some rule) (hread : i.symbol? g = some X) :
    rule.rhs.drop i.position = X :: rule.rhs.drop (i.position + 1) := by
  obtain ⟨rule', hrule', hX⟩ := symbol?_eq_some.mp hread
  obtain rfl := Option.some.inj (hrule'.symm.trans hrule)
  obtain ⟨hlt, rfl⟩ := List.getElem?_eq_some_iff.mp hX
  exact List.drop_eq_getElem_cons hlt

/-- A rule can begin where its non-terminal comes next. -/
theorem Viable.begin {γ : List Symbol} {i : Item} {r : Nat} {rule : Rule} (h : i.Viable g γ)
    (hread : i.symbol? g = some (.nonterminal rule.lhs)) (hrule : g.rule? r = some rule) :
    (⟨r, 0⟩ : Item).Viable g γ := by
  obtain ⟨start, hstart, haccept, outer, after, houter, hderives⟩ := h
  refine ⟨start, hstart, haccept, rule, outer.rhs.drop (i.position + 1) ++ after, hrule, ?_⟩
  rw [drop_position_eq_cons houter hread, List.append_assoc, List.cons_append] at hderives
  rw [List.drop_zero]
  exact hderives.tail (Produces.rewrite γ _ hrule)

/-- A symbol that is read joins those read before. -/
theorem Viable.advance {γ : List Symbol} {i : Item} {X : Symbol} (h : i.Viable g γ)
    (hread : i.symbol? g = some X) : i.advance.Viable g (γ ++ [X]) := by
  obtain ⟨start, hstart, haccept, rule, after, hrule, hderives⟩ := h
  refine ⟨start, hstart, haccept, rule, after, hrule, ?_⟩
  rw [drop_position_eq_cons hrule hread] at hderives
  rw [List.append_assoc γ [X], List.singleton_append]
  exact hderives

theorem Closes.viable {K : Set Item} {γ : List Symbol} (hK : ∀ i ∈ K, i.Viable g γ) {i : Item}
    (h : Closes g K i) : i.Viable g γ := by
  induction h with
  | kernel hi => exact hK _ hi
  | start _ hread hrule hlhs ih => exact ih.begin (hlhs ▸ hread) hrule

/-- In a grammar whose non-terminals all derive something, a viable prefix is completed to a
sentence. -/
theorem Viable.exists_sentence (wf : g.WellFormed) (hg : g.Productive) {γ : List Symbol} {i : Item}
    (h : i.Viable g γ) {w : List Nat} (hw : Yields g γ w) :
    ∃ start ∈ g.rules, start.accept = true ∧
      ∃ more, Derives g start.rhs ((w ++ more).map Symbol.terminal) := by
  obtain ⟨start, hstart, haccept, rule, after, -, hderives⟩ := h
  have hrange : g.InRange (γ ++ rule.rhs.drop i.position ++ after) :=
    Grammar.InRange.of_derives wf (fun b hb ↦ wf.nonterminal_lt start hstart b hb) hderives
  rw [List.append_assoc] at hrange hderives
  obtain ⟨more, hmore⟩ := hg.exists_yields fun b hb ↦ hrange b (List.mem_append_right γ hb)
  have hyields : Yields g start.rhs (w ++ more) := Yields.of_derives hderives (hw.append hmore)
  exact ⟨start, hstart, haccept, more, Grammar.derives_of_yields hyields⟩

end Item

namespace Parser

open Automaton (Canonical)
open Conflict (Edge)

variable {V : Type} {a : Automaton} {conflicts : List Conflict} {t : Tables}
  {combine : Nat → List V → V} {p : Parser V} {symbols : List Symbol}

/-- Every item of the top state is viable for the symbols on the stack. -/
theorem Stacked.viable (ha : Canonical g a) {states : List Nat} (h : Stacked g a states symbols)
    {s : State} (htop : Top a states s) : ∀ i ∈ s.itemSet, i.Viable g symbols.reverse := by
  induction h generalizing s with
  | start =>
    obtain ⟨t, ht, hitems⟩ := ha.start
    obtain rfl := htop.unique ⟨0, rfl, ht⟩
    intro i hi
    have hclosed : i ∈ Item.closure g (Item.startItems g) := hitems ▸ hi
    exact Item.Closes.viable (fun j hj ↦ Item.viable_start hj) hclosed
  | @push states symbols X q u u' _ hu hedge ih =>
    obtain rfl := htop.unique ⟨q, rfl, hedge.target⟩
    intro i hi
    have hclosed : i ∈ Item.closure g (Item.advanced g (itemsOf u.itemSet) X) :=
      hedge.itemsOf_eq ▸ hi
    refine Item.Closes.viable ?_ hclosed
    rintro j ⟨l, hl, hread, -, rfl⟩
    rw [List.reverse_cons]
    exact (ih hu l hl).advance hread

/-! ## What has been shifted -/

/-- The terminal of a call whose token was shifted. -/
def Call.read? (c : Call V) : Option Nat :=
  c.shifted?.map fun _ ↦ c.terminal

theorem filterMap_read?_append (calls : List (Call V)) (c : Call V) :
    (calls ++ [c]).filterMap Call.read? = calls.filterMap Call.read? ++ c.read?.toList := by
  rw [List.filterMap_append]
  cases h : c.read? <;> simp [h]

/-- A parser that has not accepted, over a stack whose symbols have come from the given
terminals. -/
structure Spelled (g : Grammar) (a : Automaton) (w : List Nat) (p : Parser V)
    (symbols : List Symbol) : Prop where
  holds : Holds g a (fun _ _ ↦ True) p symbols
  yields : Yields g symbols.reverse w
  not_accepted : p.accepted = false

private theorem kept_spelled (w : List Nat) : Kept g a combine (Spelled g a w) := by
  rintro q symbols r n rule s s' ⟨hq, hyields, hopen⟩ hrule haccept htake hle htop hedge
  have hR : Respects g combine (fun _ _ ↦ True) := fun _ _ _ _ _ _ ↦ trivial
  refine ⟨kept_holds hR _ _ _ _ _ _ _ hq hrule haccept htake hle htop hedge, ?_, hopen⟩
  have hrhs : rule.rhs = (symbols.take rule.rhs.length).reverse := by
    rw [htake, List.reverse_reverse]
  have hsplit : symbols.reverse = (symbols.drop rule.rhs.length).reverse ++ rule.rhs ++ [] := by
    calc symbols.reverse
        = (symbols.take rule.rhs.length ++ symbols.drop rule.rhs.length).reverse := by
          rw [List.take_append_drop]
      _ = (symbols.drop rule.rhs.length).reverse ++ rule.rhs ++ [] := by
          rw [List.reverse_append, ← hrhs, List.append_nil]
  rw [hsplit] at hyields
  rw [List.reverse_cons]
  exact Yields.of_produces (Produces.rewrite _ _ hrule) hyields

theorem Spelled.exists_sentence (wf : g.WellFormed) (ha : Canonical g a) (hg : g.Productive)
    (hstart : ∃ rule ∈ g.rules, rule.accept = true) {w : List Nat} (h : Spelled g a w p symbols) :
    ∃ start ∈ g.rules, start.accept = true ∧
      ∃ more, Derives g start.rhs ((w ++ more).map Symbol.terminal) := by
  obtain ⟨s, htop⟩ := h.holds.stacked.exists_top ha
  obtain ⟨i, hi⟩ := ((ha.mem_iff _).mp ⟨s, htop.mem, rfl⟩).nonempty wf hstart
  exact (h.holds.stacked.viable ha htop i hi).exists_sentence wf hg h.yields

/-- What has been shifted is on the stack, or was when the parser accepted. -/
theorem Tables.Serves.spelled_session (wf : g.WellFormed) (ht : t.Serves g a conflicts)
    {calls : List (Call V)} {o : Option (Parser V)} (h : Session t combine calls o) :
    ∃ q symbols, Spelled g a (calls.filterMap Call.read?) q symbols ∧
      ∀ p ∈ o, p.accepted = false → q = p := by
  induction h with
  | start =>
    exact ⟨{}, [], ⟨holds_start, Yields.nil, rfl⟩, fun p hp _ ↦ Option.some.inj hp⟩
  | @push calls p limit k v x _ hk hx ih =>
    obtain ⟨q, symbols, hq, hsame⟩ := ih
    cases hopen : p.accepted with
    | true =>
      obtain ⟨hnext, hanswer⟩ := push?_of_accepted hopen hx
      refine ⟨q, symbols, ?_, fun p' hp' hfalse ↦ ?_⟩
      · rw [filterMap_read?_append, hanswer]
        simpa [Call.read?, Call.shifted?] using hq
      · obtain rfl := Option.some.inj (hnext.symm.trans hp')
        simp [hopen] at hfalse
    | false =>
      obtain rfl := hsame p rfl hopen
      have hstack : ∀ (p : Parser V) symbols, Spelled g a (calls.filterMap Call.read?) p symbols →
          Stacked g a p.states symbols ∧ p.values.length = symbols.length :=
        fun _ _ hp ↦ ⟨hp.holds.stacked, hp.holds.length_eq⟩
      have hlands := ht.lands wf (kept_spelled _) hstack (ht.terminals_eq ▸ hk) hq hopen hx
      rw [filterMap_read?_append]
      simp only [Option.mem_def, next?_eq_some]
      generalize x.answer = answer at hlands
      generalize x.parser = p' at hlands
      cases hlands with
      | @shifted p symbols n _ _ hp htop hedge =>
        refine ⟨p.enter n v, .terminal k :: symbols,
          ⟨hp.holds.enter htop hedge trivial, ?_, hp.not_accepted⟩, fun _ h _ ↦ h.2⟩
        rw [List.reverse_cons]
        exact hp.yields.append (Yields.terminal Yields.nil)
      | @accepted p symbols _ _ _ hp =>
        refine ⟨p, symbols, ?_, ?_⟩
        · simpa [Call.read?, Call.shifted?] using hp
        · rintro _ ⟨-, rfl⟩ hfalse
          simp at hfalse
      | @refused p symbols hp =>
        refine ⟨p', symbols, ?_, fun _ h _ ↦ h.2⟩
        simpa [Call.read?, Call.shifted?] using hp
      | overflow =>
        refine ⟨q, symbols, ?_, fun _ h ↦ absurd rfl h.1⟩
        simpa [Call.read?, Call.shifted?] using hq

/-- **A wrong token is never shifted.** Let every non-terminal derive some string of terminals. Then
the terminals shifted in a session, refused tokens in between or not, are the beginning of a string
that is derived from the right-hand side of some accept rule. -/
theorem session_shifts_prefix {M : Type} {compiler : Lexer.Compiler M} {withLexer : Bool}
    {d : Declarations} {x : Generated} (hd : d.build = .ok g)
    (hx : Generator.generate compiler withLexer g = .ok x)
    (hstates : x.tables.stateCount < 2 ^ 27) (hrules : x.rules.length < 2 ^ 27)
    (hg : g.Productive) {calls : List (Call V)} {o : Option (Parser V)}
    (h : Session x.parserTables combine calls o) :
    ∃ rule ∈ g.rules, rule.accept = true ∧ ∃ w : List Nat,
      Derives g rule.rhs (w.map Symbol.terminal) ∧ calls.filterMap Call.read? <+: w := by
  have wf := Declarations.wellFormed_of_build hd
  obtain ⟨a, resolved, horigin⟩ := origin_of_generate hx
  have ht := horigin.serves wf hstates hrules
  obtain ⟨q, symbols, hspelled, -⟩ := ht.spelled_session wf h
  obtain ⟨rule, hrule, haccept, more, hderives⟩ :=
    hspelled.exists_sentence wf ht.canonical hg (Builder.exists_accept_of_build hd)
  exact ⟨rule, hrule, haccept, _, hderives, List.prefix_append _ _⟩

theorem productive_sums : sumsGrammar.Productive := by
  have hsum : sumsGrammar.rule? 0 = some
      ⟨0, 0, [.nonterminal 1, .terminal 0], none, true, none⟩ := by decide +kernel
  have hnumber : sumsGrammar.rule? 2 = some ⟨2, 1, [.terminal 1], none, false, none⟩ := by
    decide +kernel
  have hn : Yields sumsGrammar [.nonterminal 1] [1] :=
    Yields.nonterminal hnumber (Yields.terminal Yields.nil) Yields.nil
  have hs : Yields sumsGrammar [.nonterminal 0] [1, 0] :=
    Yields.nonterminal hsum (hn.append (Yields.terminal Yields.nil)) Yields.nil
  intro b hb
  have hcount : sumsGrammar.nonterminals.length = 2 := by decide +kernel
  have hlt : b < 2 := hcount ▸ hb
  match b, hlt with
  | 0, _ => exact ⟨_, Grammar.derives_of_yields hs⟩
  | 1, _ => exact ⟨_, Grammar.derives_of_yields hn⟩

theorem session_sums_shifts_prefix :
    ∃ (calls : List (Call Unit)) (o : Option (Parser Unit)),
      sums.build = .ok sumsGrammar ∧
      Generator.generate (.constant default) false sumsGrammar = .ok sumsParser ∧
      sumsParser.tables.stateCount < 2 ^ 27 ∧ sumsParser.rules.length < 2 ^ 27 ∧
      sumsGrammar.Productive ∧ Session sumsParser.parserTables (fun _ _ ↦ ()) calls o ∧
      calls.map (·.answer.isOk) = [false, true, false, true, true, true] ∧
      calls.filterMap Call.read? = [1, 2, 1] ∧
      ∃ rule ∈ sumsGrammar.rules, rule.accept = true ∧ ∃ w : List Nat,
        Derives sumsGrammar rule.rhs (w.map Symbol.terminal) ∧ [1, 2, 1] <+: w := by
  have hd : sums.build = .ok sumsGrammar := eq_ok_okValue _
  have hx : Generator.generate (.constant default) false sumsGrammar = .ok sumsParser :=
    eq_ok_okValue _
  have hstates : sumsParser.tables.stateCount < 2 ^ 27 := by decide +kernel
  have hrules : sumsParser.rules.length < 2 ^ 27 := by decide +kernel
  -- A second number is refused only after the first has been reduced.
  have hrun : (pushAll? sumsParser.parserTables (fun _ _ ↦ ()) 10
      [(2, ()), (1, ()), (1, ()), (2, ()), (1, ()), (0, ())] {}).map
        (fun run ↦ (run.1.map (·.answer.isOk), run.1.filterMap Call.read?))
      = some ([false, true, false, true, true, true], [1, 2, 1]) := by
    decide +kernel
  obtain ⟨⟨calls, o⟩, hcalls, hanswers⟩ := Option.map_eq_some_iff.mp hrun
  obtain ⟨hoks, hread⟩ := Prod.mk.inj hanswers
  have hsession := session_of_pushAll? Session.start (by decide +kernel) hcalls
  rw [List.nil_append] at hsession
  refine ⟨calls, o, hd, hx, hstates, hrules, productive_sums, hsession, hoks, hread, ?_⟩
  exact hread ▸ session_shifts_prefix hd hx hstates hrules productive_sums hsession

end Parser

end ShiftReduce
