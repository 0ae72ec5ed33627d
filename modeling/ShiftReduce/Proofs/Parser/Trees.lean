import ShiftReduce.Proofs.Grammar.Derivation
import ShiftReduce.Proofs.Parser.Session

/-!
# The parser builds parse trees

Let the values be parse trees: a token is a leaf, and a reduction makes a node of its rule. Then the
values on the stack are valid trees, and their leaves are the tokens shifted so far, in order
(`Tables.Serves.reads_session`).

## Reductions and leaves

A tree stands for a symbol if it is valid and its root is the symbol (`Tree.Stands`), and making a
node respects this because the path of states says what a reduction takes off (`respects_node`). The
leaves are not touched: what is taken off is put back under one root (`leaves_reduce`).

## Acceptance

If the non-terminals of accept rules do not occur within rules, an accept rule can only be found
with the whole stack behind it, so that acceptance hands out one tree with all the tokens.
`session_builds_trees` says all of this, after every call of a session, refused tokens in between or
not.
-/

namespace ShiftReduce

/-! ## Trees -/

/-- A parse tree with tokens of type `α`. -/
inductive Tree (α : Type) where
  | leaf (terminal : Nat) (token : α)
  | node (rule : Nat) (children : List (Tree α))

namespace Tree

variable {α : Type} {g : Grammar}

def root? (g : Grammar) : Tree α → Option Symbol
  | leaf t _ => some (.terminal t)
  | node r _ => (g.rule? r).map fun rule ↦ .nonterminal rule.lhs

/-- The leaves of a tree, from left to right. -/
def leaves : Tree α → List (Tree α)
  | leaf t token => [leaf t token]
  | node _ children => children.flatMap leaves

private theorem leaves_leaf (t : Nat) (token : α) : (leaf t token).leaves = [leaf t token] := by
  rw [leaves]

theorem leaves_node (r : Nat) (children : List (Tree α)) :
    (node r children).leaves = children.flatMap leaves := by
  rw [leaves]

/-- The children of every node match, symbol by symbol, the right-hand side of its rule. -/
inductive Valid (g : Grammar) : Tree α → Prop
  | leaf {t : Nat} {token : α} : Valid g (leaf t token)
  | node {r : Nat} {rule : Rule} {children : List (Tree α)} : g.rule? r = some rule →
      children.map (root? g) = rule.rhs.map some → (∀ child ∈ children, Valid g child) →
      Valid g (node r children)

/-- A node of an accept rule, over valid trees that match its right-hand side without the end of
input. -/
def Complete (g : Grammar) (v : Tree α) : Prop :=
  ∃ r rule children, v = node r children ∧ g.rule? r = some rule ∧ rule.accept = true ∧
    children.map (root? g) = rule.rhs.dropLast.map some ∧ ∀ child ∈ children, child.Valid g

/-- A valid tree for a symbol. -/
structure Stands (g : Grammar) (X : Symbol) (v : Tree α) : Prop where
  valid : v.Valid g
  root_eq : v.root? g = some X

private theorem stands_leaf (t : Nat) (token : α) : Stands g (.terminal t) (leaf t token) :=
  ⟨Valid.leaf, rfl⟩

theorem map_root?_of_stands {symbols : List Symbol} {children : List (Tree α)}
    (h : List.Forall₂ (Stands g) symbols children) :
    children.map (root? g) = symbols.map some ∧ ∀ child ∈ children, child.Valid g := by
  induction h with
  | nil => simp
  | cons hstands _ ih =>
    obtain ⟨hroots, hvalid⟩ := ih
    refine ⟨by rw [List.map_cons, List.map_cons, hstands.root_eq, hroots], fun child hchild ↦ ?_⟩
    rcases List.mem_cons.mp hchild with rfl | hchild
    · exact hstands.valid
    · exact hvalid child hchild

theorem respects_node : Parser.Respects g node (Stands (α := α) g) := by
  intro r rule values hrule _ hvalues
  obtain ⟨hroots, hvalid⟩ := map_root?_of_stands hvalues
  exact ⟨Valid.node hrule hroots hvalid, by rw [root?, hrule, Option.map_some]⟩

end Tree

namespace Parser

open Automaton (Canonical)
open Conflict (Edge)
open ShiftReduce.Tree (Stands)

variable {α : Type} {g : Grammar} {a : Automaton} {conflicts : List Conflict} {t : Tables}

/-! ## Leaves on the stack -/

/-- The leaves of the trees on the stack, in the order in which they were read. -/
def leaves (p : Parser (Tree α)) : List (Tree α) :=
  p.values.reverse.flatMap Tree.leaves

theorem leaves_below (p : Parser (Tree α)) (n : Nat) :
    (p.below n).leaves ++ (p.topmost n).flatMap Tree.leaves = p.leaves := by
  rw [leaves, leaves, topmost, below, ← List.flatMap_append, ← List.reverse_append,
    List.take_append_drop]

theorem leaves_enter (p : Parser (Tree α)) (q : Nat) (v : Tree α) :
    (p.enter q v).leaves = p.leaves ++ v.leaves := by
  rw [leaves, leaves, enter, List.reverse_cons, List.flatMap_append, List.flatMap_singleton]

/-- A reduction only puts leaves together. -/
theorem leaves_reduce (p : Parser (Tree α)) (n q r : Nat) :
    ((p.below n).enter q (.node r (p.topmost n))).leaves = p.leaves := by
  rw [leaves_enter, Tree.leaves_node, leaves_below]

/-- A parser that has not accepted, over a stack of trees with the given leaves. -/
structure Grown (g : Grammar) (a : Automaton) (tokens : List (Tree α)) (p : Parser (Tree α))
    (symbols : List Symbol) : Prop where
  holds : Holds g a (Stands g) p symbols
  leaves_eq : p.leaves = tokens
  not_accepted : p.accepted = false

private theorem kept_grown (tokens : List (Tree α)) : Kept g a Tree.node (Grown g a tokens) := by
  rintro q symbols r n rule s s' ⟨hq, hleaves, hopen⟩ hrule haccept htake hle htop hedge
  refine ⟨?_, ?_, hopen⟩
  · exact kept_holds Tree.respects_node _ _ _ _ _ _ _ hq hrule haccept htake hle htop hedge
  · rw [leaves_reduce, hleaves]

/-! ## Where an accept rule starts -/

/-- An accept rule stands at its first place only at the bottom of the stack. -/
theorem Stacked.eq_nil_of_start (hg : g.StartsOutermost) {states : List Nat}
    {symbols : List Symbol} {s : State} (h : Stacked g a states symbols) (htop : Top a states s)
    {r : Nat} {rule : Rule} (hrule : g.rule? r = some rule) (haccept : rule.accept = true)
    (hmem : (⟨r, 0⟩ : Item) ∈ s.itemSet) : symbols = [] := by
  cases h with
  | start => rfl
  | @push states symbols X q u u' _ _ hedge =>
    obtain rfl := htop.unique ⟨q, rfl, hedge.target⟩
    have hclosed : (⟨r, 0⟩ : Item) ∈ Item.closure g (Item.advanced g (itemsOf u.itemSet) X) :=
      hedge.itemsOf_eq ▸ hmem
    cases hclosed with
    | kernel hadvanced =>
      exact absurd (Item.position_pos_of_mem_advanced hadvanced) (Nat.lt_irrefl 0)
    | @start i b r rule' _ hread hrule' hlhs =>
      -- Some rule reads the non-terminal of the accept rule.
      obtain rfl := Option.some.inj (hrule'.symm.trans hrule)
      obtain ⟨other, hother, hsymbol⟩ := Item.symbol?_eq_some.mp hread
      refine absurd (List.mem_of_getElem? hsymbol) ?_
      rw [← hlhs]
      exact hg _ (Grammar.mem_of_rule? hrule') haccept _ (Grammar.mem_of_rule? hother)

/-- An accept rule takes the whole stack. -/
theorem Grown.accepted (hg : g.StartsOutermost) {tokens : List (Tree α)} {p : Parser (Tree α)}
    {symbols : List Symbol} (h : Grown g a tokens p symbols) {r : Nat} {rule : Rule} {s : State}
    (hrule : g.rule? r = some rule) (haccept : rule.accept = true)
    (htake : symbols.take (rule.rhs.length - 1) = rule.rhs.dropLast.reverse)
    (hle : rule.rhs.length - 1 ≤ symbols.length)
    (htop : Top a (p.states.drop (rule.rhs.length - 1)) s) (hmem : (⟨r, 0⟩ : Item) ∈ s.itemSet) :
    (Tree.node r (p.topmost (rule.rhs.length - 1))).Complete g ∧
      (Tree.node r (p.topmost (rule.rhs.length - 1))).leaves = tokens ∧
      (p.below (rule.rhs.length - 1)).values = [] := by
  obtain ⟨hholds, hleaves, -⟩ := h
  -- The rule stands at its first place in the state uncovered, so that is the first state.
  have hnil := (hholds.stacked.drop hle).eq_nil_of_start hg htop hrule haccept hmem
  have hempty : (p.below (rule.rhs.length - 1)).values = [] := by
    have hlength := (hholds.below hle).length_eq
    rw [hnil] at hlength
    exact List.length_eq_zero_iff.mp hlength
  obtain ⟨hroots, hvalid⟩ := Tree.map_root?_of_stands (hholds.topmost htake)
  refine ⟨⟨r, rule, _, rfl, hrule, haccept, hroots, hvalid⟩, ?_, hempty⟩
  rw [Tree.leaves_node, ← hleaves, ← leaves_below p (rule.rhs.length - 1),
    Parser.leaves, hempty, List.reverse_nil, List.flatMap_nil, List.nil_append]

/-! ## Sessions -/

/-- The value of a call whose token was shifted. -/
def Call.shifted? {V : Type} (c : Call V) : Option V :=
  match c.answer with
  | .ok .shifted => some c.value
  | _ => none

/-- What a session with trees for values has come to. -/
structure Reads (g : Grammar) (a : Automaton) (calls : List (Call (Tree α)))
    (p : Parser (Tree α)) : Prop where
  stack : p.accepted = false → ∃ symbols, Grown g a (calls.filterMap Call.shifted?) p symbols
  result : ∀ c ∈ calls, ∀ v, c.answer = .ok (.accepted v) → p.accepted = true ∧ p.values = [] ∧
    v.Complete g ∧ v.leaves = calls.filterMap Call.shifted?
  exists_result : p.accepted = true → ∃ c ∈ calls, ∃ v, c.answer = .ok (.accepted v)

section Reads

variable {calls : List (Call (Tree α))} {p : Parser (Tree α)}

theorem shifted_append (calls : List (Call (Tree α))) (c : Call (Tree α)) :
    (calls ++ [c]).filterMap Call.shifted?
      = calls.filterMap Call.shifted? ++ c.shifted?.toList := by
  rw [List.filterMap_append]
  cases h : c.shifted? <;> simp [h]

theorem Reads.push_of_accepted (h : Reads g a calls p) (hopen : p.accepted = true)
    {c : Call (Tree α)} (hc : c.answer = .error .alreadyAccepted) : Reads g a (calls ++ [c]) p := by
  have hshifted : (calls ++ [c]).filterMap Call.shifted? = calls.filterMap Call.shifted? := by
    rw [shifted_append, Call.shifted?, hc]
    simp
  refine ⟨fun hfalse ↦ by simp [hopen] at hfalse, fun c' hc' v hv ↦ ?_, fun _ ↦ ?_⟩
  · rw [hshifted]
    rcases List.mem_append.mp hc' with hc' | hc'
    · exact h.result c' hc' v hv
    · rw [List.mem_singleton.mp hc', hc] at hv
      simp at hv
  · obtain ⟨c', hc', hv⟩ := h.exists_result hopen
    exact ⟨c', List.mem_append_left _ hc', hv⟩

/-- A call that is not answered by accepting leaves a parser that has not accepted. -/
theorem Reads.push_of_grown (h : Reads g a calls p) (hopen : p.accepted = false)
    {c : Call (Tree α)} (hc : ∀ v, c.answer ≠ .ok (.accepted v)) {q : Parser (Tree α)}
    {symbols : List Symbol}
    (hq : Grown g a ((calls ++ [c]).filterMap Call.shifted?) q symbols) :
    Reads g a (calls ++ [c]) q := by
  refine ⟨fun _ ↦ ⟨symbols, hq⟩, fun c' hc' v hv ↦ ?_, fun htrue ↦ ?_⟩
  · rcases List.mem_append.mp hc' with hc' | hc'
    · have haccepted := (h.result c' hc' v hv).1
      simp [hopen] at haccepted
    · rw [List.mem_singleton.mp hc'] at hv
      exact absurd hv (hc v)
  · rw [hq.not_accepted] at htrue
    simp at htrue

theorem Reads.push (wf : g.WellFormed) (ht : t.Serves g a conflicts) (hg : g.StartsOutermost)
    (h : Reads g a calls p) {limit k : Nat} {token : α} {x : Pushed (Tree α)}
    (hk : k < t.terminals) (hx : p.push? t Tree.node limit k (.leaf k token) = some x)
    {q : Parser (Tree α)} (hnext : x.next? = some q) :
    Reads g a (calls ++ [{ terminal := k, value := .leaf k token, answer := x.answer }]) q := by
  cases hopen : p.accepted with
  | true =>
    obtain ⟨hsame, hanswer⟩ := push?_of_accepted hopen hx
    obtain rfl := Option.some.inj (hsame.symm.trans hnext)
    exact h.push_of_accepted hopen hanswer
  | false =>
    obtain ⟨symbols, hgrown⟩ := h.stack hopen
    have hstack : ∀ q symbols, Grown g a (calls.filterMap Call.shifted?) q symbols →
        Stacked g a q.states symbols ∧ q.values.length = symbols.length :=
      fun _ _ hq ↦ ⟨hq.holds.stacked, hq.holds.length_eq⟩
    have hlands := ht.lands wf (kept_grown _) hstack (ht.terminals_eq ▸ hk) hgrown hopen hx
    obtain ⟨hanswer, rfl⟩ := next?_eq_some.mp hnext
    generalize x.answer = answer at hlands hanswer
    generalize x.parser = q' at hlands
    cases hlands with
    | @shifted q _ n _ _ hq htop hedge =>
      refine h.push_of_grown hopen (by simp) ⟨hq.holds.enter htop hedge (Tree.stands_leaf k token),
        ?_, hq.not_accepted⟩
      rw [leaves_enter, hq.leaves_eq, Tree.leaves_leaf, shifted_append]
      rfl
    | @accepted q _ r rule _ hq hrule haccept htake hle htop hmem =>
      obtain ⟨hcomplete, hleaves, hempty⟩ :=
        hq.accepted hg hrule haccept htake hle htop hmem
      refine ⟨fun hfalse ↦ by simp at hfalse, fun c hc v hv ↦ ?_, fun _ ↦ ?_⟩
      · rcases List.mem_append.mp hc with hc | hc
        · have haccepted := (h.result c hc v hv).1
          simp [hopen] at haccepted
        · obtain rfl := List.mem_singleton.mp hc
          obtain rfl : Tree.node r (q.topmost (rule.rhs.length - 1)) = v := by simpa using hv
          refine ⟨rfl, hempty, hcomplete, ?_⟩
          rw [hleaves, shifted_append]
          simp [Call.shifted?]
      · exact ⟨_, List.mem_append_right _ List.mem_cons_self, _, rfl⟩
    | refused hq =>
      refine h.push_of_grown hopen (by simp) ⟨hq.holds, ?_, hq.not_accepted⟩
      rw [hq.leaves_eq, shifted_append]
      simp [Call.shifted?]
    | overflow => exact absurd rfl hanswer

theorem Tables.Serves.reads_session (wf : g.WellFormed) (ht : t.Serves g a conflicts)
    (hg : g.StartsOutermost) {o : Option (Parser (Tree α))} (h : Session t Tree.node calls o)
    (htokens : ∀ c ∈ calls, ∃ token, c.value = .leaf c.terminal token) :
    ∀ p ∈ o, Reads g a calls p := by
  induction h with
  | start =>
    intro p hp
    obtain rfl := Option.some.inj hp
    exact ⟨fun _ ↦ ⟨[], holds_start, rfl, rfl⟩, by simp, by simp⟩
  | @push calls p limit k v x _ hk hx ih =>
    obtain ⟨token, rfl⟩ : ∃ token, v = .leaf k token :=
      htokens _ (List.mem_append_right _ List.mem_cons_self)
    have hreads := ih (fun c hc ↦ htokens c (List.mem_append_left _ hc)) p rfl
    exact fun q hq ↦ hreads.push wf ht hg hk hx hq

end Reads

/-- **The parser builds parse trees.** After every call of a session the values on the stack are
valid trees. Until the parser accepts, their leaves are the tokens that were shifted, in order; what
it accepts with is a tree of an accept rule, over valid trees, with all the tokens that were
shifted, and then nothing is left on the stack. -/
theorem session_builds_trees {M : Type} {compiler : Lexer.Compiler M} {withLexer : Bool}
    {d : Declarations} {x : Generated} (hd : d.build = .ok g)
    (hx : Generator.generate compiler withLexer g = .ok x)
    (hstates : x.tables.stateCount < 2 ^ 27) (hrules : x.rules.length < 2 ^ 27)
    (hg : g.StartsOutermost) {calls : List (Call (Tree α))} {p : Parser (Tree α)}
    (h : Session x.parserTables Tree.node calls (some p))
    (htokens : ∀ c ∈ calls, ∃ token, c.value = .leaf c.terminal token) :
    (∀ v ∈ p.values, v.Valid g) ∧
      (p.accepted = false → p.leaves = calls.filterMap Call.shifted?) ∧
      (∀ c ∈ calls, ∀ v, c.answer = .ok (.accepted v) →
        v.Complete g ∧ v.leaves = calls.filterMap Call.shifted? ∧ p.values = []) ∧
      (p.accepted = true → ∃ c ∈ calls, ∃ v, c.answer = .ok (.accepted v)) := by
  have wf := Declarations.wellFormed_of_build hd
  obtain ⟨a, resolved, horigin⟩ := origin_of_generate hx
  have hreads := (horigin.serves wf hstates hrules).reads_session wf hg h htokens p rfl
  refine ⟨?_, ?_, ?_, hreads.exists_result⟩
  · cases hopen : p.accepted with
    | true =>
      obtain ⟨c, hc, v, hv⟩ := hreads.exists_result hopen
      rw [(hreads.result c hc v hv).2.1]
      simp
    | false =>
      obtain ⟨symbols, hgrown⟩ := hreads.stack hopen
      exact (Tree.map_root?_of_stands hgrown.holds.values).2
  · intro hopen
    obtain ⟨symbols, hgrown⟩ := hreads.stack hopen
    exact hgrown.leaves_eq
  · intro c hc v hv
    obtain ⟨-, hempty, hcomplete, hleaves⟩ := hreads.result c hc v hv
    exact ⟨hcomplete, hleaves, hempty⟩

/-- Sums, where precedence decides how they group. -/
def sums : Declarations where
  settings := { parserName := some "P", tokenType := some "T" }
  terminals :=
    [{ name := "n", pattern := none, code := none }, { name := "+", pattern := none, code := none }]
  precedence := [{ keyword := "left", members := ["+"] }]
  rules :=
    [{ lhs := "S", rhs := ["E", "EOF"] }, { lhs := "E", rhs := ["E", "+", "E"] },
      { lhs := "E", rhs := ["n"] }]
  accepts := ["S"]

def sumsGrammar : Grammar :=
  okValue sums.build (by decide +kernel)

def sumsParser : Generated :=
  okValue (Generator.generate (.constant default) false sumsGrammar) (by decide +kernel)

theorem session_sums_builds_trees :
    ∃ (calls : List (Call (Tree Unit))) (p : Parser (Tree Unit)),
      sums.build = .ok sumsGrammar ∧
      Generator.generate (.constant default) false sumsGrammar = .ok sumsParser ∧
      sumsParser.tables.stateCount < 2 ^ 27 ∧ sumsParser.rules.length < 2 ^ 27 ∧
      sumsParser.conflicts ≠ [] ∧ sumsGrammar.StartsOutermost ∧
      Session sumsParser.parserTables Tree.node calls (some p) ∧
      (∀ c ∈ calls, ∃ token, c.value = .leaf c.terminal token) ∧
      calls.map (·.answer.isOk) = [true, false, true, true, true, true, true] ∧
      ∃ c ∈ calls, ∃ v, c.answer = .ok (.accepted v) ∧ v.Complete sumsGrammar ∧
        v.leaves = calls.filterMap Call.shifted? ∧ p.values = [] := by
  have hd : sums.build = .ok sumsGrammar := eq_ok_okValue _
  have hx : Generator.generate (.constant default) false sumsGrammar = .ok sumsParser :=
    eq_ok_okValue _
  have hstates : sumsParser.tables.stateCount < 2 ^ 27 := by decide +kernel
  have hrules : sumsParser.rules.length < 2 ^ 27 := by decide +kernel
  have hconflicts : sumsParser.conflicts ≠ [] := by decide +kernel
  have hg : sumsGrammar.StartsOutermost := by
    rw [Grammar.StartsOutermost]
    decide +kernel
  have hrun : (pushAll? sumsParser.parserTables Tree.node 10
      ([1, 1, 2, 1, 2, 1, 0].map fun k ↦ (k, Tree.leaf k ())) {}).map
        (fun run ↦ (run.1.map (·.answer.isOk), run.2.map (·.accepted)))
      = some ([true, false, true, true, true, true, true], some true) := by
    decide +kernel
  obtain ⟨⟨calls, o⟩, hcalls, hanswers⟩ := Option.map_eq_some_iff.mp hrun
  obtain ⟨hoks, hlast⟩ := Prod.mk.inj hanswers
  obtain ⟨p, rfl, haccepted⟩ := Option.map_eq_some_iff.mp hlast
  have hsession := session_of_pushAll? Session.start (by simp; decide +kernel) hcalls
  rw [List.nil_append] at hsession
  have htokens : ∀ c ∈ calls, ∃ token, c.value = .leaf c.terminal token := by
    intro c hc
    have hmem := List.mem_map_of_mem (f := fun c ↦ (c.terminal, c.value)) hc
    rw [map_of_pushAll? hcalls, List.mem_map] at hmem
    obtain ⟨k, -, heq⟩ := hmem
    obtain ⟨rfl, hvalue⟩ := Prod.mk.inj heq
    exact ⟨(), hvalue.symm⟩
  obtain ⟨-, -, hresult, hexists⟩ :=
    session_builds_trees hd hx hstates hrules hg hsession htokens
  obtain ⟨c, hc, v, hv⟩ := hexists haccepted
  exact ⟨calls, p, hd, hx, hstates, hrules, hconflicts, hg, hsession, htokens, hoks, c, hc, v, hv,
    hresult c hc v hv⟩

end Parser

end ShiftReduce
