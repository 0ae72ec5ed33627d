import ShiftReduce.Parser.Basic
import ShiftReduce.Proofs.Parser.Serves
import ShiftReduce.Proofs.Parser.Stack

/-!
# One step of a parser over generated tables

`Parser.Acts` lists what one step can come to, by the action in the cell of the tables: the token is
shifted, a rule is reduced, the parser accepts, or it refuses the token. There is no other way out,
apart from tables too large to be addressed.

## Where it holds

`Tables.Serves.acts` says that every step from a stack that is a path of the automaton is one of
these. A reduction finds enough on the stack because an item of the top state has been read to its
end, and it finds a goto because the state that it uncovers reads the left-hand side.

## The stack

A step is described by what it leaves of the stack: `Parser.topmost` are the values that are taken,
in the order in which they were read, and `Parser.below` is the parser without them. The values
themselves are of any type.
-/

namespace ShiftReduce.Parser

open Automaton (Canonical)
open Conflict (Edge Offers SettledState resolveState)
open ShiftReduce.Tables (ReadsCell)

variable {V : Type} {g : Grammar} {a : Automaton} {conflicts : List Conflict} {t : Tables}
  {combine : Nat → List V → V} {k : Nat} {v : V} {p : Parser V} {symbols : List Symbol}

/-- The parser without the top `n` values and their states. -/
def below (p : Parser V) (n : Nat) : Parser V :=
  { p with states := p.states.drop n, values := p.values.drop n }

/-- The top `n` values, in the order in which they were read. -/
def topmost (p : Parser V) (n : Nat) : List V :=
  (p.values.take n).reverse

/-- Every cell of the tables has a word for its address, as in all tables that fit into memory. -/
def Tables.Addressable (t : Tables) : Prop :=
  t.actionTable.size ≤ wordBound ∧ t.gotoTable.size ≤ wordBound

/-- What a step comes to by the action found, where the stack holds `symbols`. -/
inductive Acts (g : Grammar) (a : Automaton) (t : Tables) (combine : Nat → List V → V) (k : Nat)
    (v : V) (p : Parser V) (symbols : List Symbol) : Action → Step V → Prop
  | shift {q : Nat} {s s' : State} {events : List (Event V)} :
      Top a p.states s → Edge g a s (.terminal k) q s' →
      Acts g a t combine k v p symbols (.shift q)
        { parser := p.enter q v, outcome := .taken .shifted, events }
  | reduce {r q : Nat} {rule : Rule} {s s' : State} {events : List (Event V)} :
      g.rule? r = some rule → rule.accept = false →
      symbols.take rule.rhs.length = rule.rhs.reverse → rule.rhs.length ≤ symbols.length →
      Top a (p.states.drop rule.rhs.length) s → Edge g a s (.nonterminal rule.lhs) q s' →
      Acts g a t combine k v p symbols (.reduce r)
        { parser := (p.below rule.rhs.length).enter q (combine r (p.topmost rule.rhs.length))
          outcome := .pending, events }
  | accept {r : Nat} {rule : Rule} {s : State} {events : List (Event V)} :
      g.rule? r = some rule → rule.accept = true →
      symbols.take (rule.rhs.length - 1) = rule.rhs.dropLast.reverse →
      rule.rhs.length - 1 ≤ symbols.length →
      Top a (p.states.drop (rule.rhs.length - 1)) s → (⟨r, 0⟩ : Item) ∈ s.itemSet → k = 0 →
      Acts g a t combine k v p symbols (.accept r)
        { parser := { p.below (rule.rhs.length - 1) with accepted := true }
          outcome := .taken (.accepted (combine r (p.topmost (rule.rhs.length - 1)))), events }
  | refuse {events : List (Event V)} :
      Acts g a t combine k v p symbols .error
        { parser := p, outcome := .failed (.syntaxError p.state k), events }
  | overflow {action : Action} {q : Parser V} {events : List (Event V)} : ¬t.Addressable →
      Acts g a t combine k v p symbols action
        { parser := q, outcome := .failed .addressOverflow, events }

/-! ## Reading the tables -/

theorem Top.state_eq {s : State} (h : Top a p.states s) : a.states[p.state]? = some s := by
  obtain ⟨n, hn, hs⟩ := h
  rw [Parser.state, hn]
  exact hs

theorem pop_eq {r n : Nat} (hr : t.ruleLength[r]? = some n) (hvalues : n ≤ p.values.length)
    (hstates : n < p.states.length) : p.pop t r = .ok (p.topmost n, p.below n) := by
  have hnot : ¬(n > p.values.length ∨ n ≥ p.states.length) := by omega
  simp only [pop, hr]
  rw [if_neg hnot]
  rfl

section Step

variable {n : Nat}

private theorem step_shift (hn : (Action.shift n).Small)
    (hread : t.action p.state k = .ok (Action.shift n).encode) :
    p.step t combine k v =
      { parser := p.enter n v, outcome := .taken .shifted
        events := [.shift p.state k ((Action.shift n).encode / 8)] } := by
  have htag := Action.encode_emod (.shift n)
  rw [Action.tag] at htag
  simp only [step, hread, htag, Action.wrap64_encode hn rfl, if_pos]

private theorem step_reduce (hn : (Action.reduce n).Small)
    (hread : t.action p.state k = .ok (Action.reduce n).encode) :
    p.step t combine k v = p.reduceBy t combine n := by
  have htag := Action.encode_emod (.reduce n)
  rw [Action.tag] at htag
  simp [step, hread, htag, Action.wrap64_encode hn rfl]

private theorem step_accept (hn : (Action.accept n).Small)
    (hread : t.action p.state k = .ok (Action.accept n).encode) :
    p.step t combine k v = p.acceptBy t combine n := by
  have htag := Action.encode_emod (.accept n)
  rw [Action.tag] at htag
  simp [step, hread, htag, Action.wrap64_encode hn rfl]

private theorem step_error (hread : t.action p.state k = .ok Action.error.encode) :
    p.step t combine k v =
      { parser := p, outcome := .failed (.syntaxError p.state k)
        events := [.refuse p.state k] } := by
  have htag := Action.encode_emod .error
  rw [Action.tag] at htag
  simp [step, hread, htag]

end Step

/-! ## Reducing and accepting -/

section Serves

variable {s : State} {i : Item}

/-- Where the uncovered state reads the left-hand side, the parser enters the next state. -/
theorem Tables.Serves.target (wf : g.WellFormed) (ht : t.Serves g a conflicts)
    (htop : Top a p.states s) (hi : i ∈ s.itemSet) {r : Nat} {rule : Rule}
    (hrule : g.rule? r = some rule) (hread : i.symbol? g = some (.nonterminal rule.lhs)) :
    (∃ q s', Edge g a s (.nonterminal rule.lhs) q s' ∧ p.target t r = .ok (q, rule.lhs)) ∨
      (¬t.Addressable ∧ p.target t r = .error .addressOverflow) := by
  have hlhs : t.ruleLhs[r]? = some rule.lhs := by rw [ht.ruleLhs_eq, hrule, Option.map_some]
  obtain ⟨x, hx, -, -, hgotos⟩ := ht.settled _ s htop.state_eq
  obtain ⟨q, s', hcell, hedge⟩ := Conflict.goto_of_resolveState wf ht.canonical htop.mem hx hi hread
  obtain ⟨hsmall, hreads⟩ := hgotos _ _ hcell
  have htag := Action.encode_emod (.goto q)
  rw [Action.tag] at htag
  generalize hr : t.goto p.state rule.lhs = result at hreads
  cases hreads with
  | code =>
    refine Or.inl ⟨q, s', hedge, ?_⟩
    simp [Parser.target, hlhs, hr, htag, Action.wrap64_encode hsmall rfl]
  | overflow hlt =>
    refine Or.inr ⟨fun haddress ↦ absurd haddress.2 (Nat.not_le.mpr hlt), ?_⟩
    simp [Parser.target, hlhs, hr]

theorem Tables.Serves.acts_reduceBy (wf : g.WellFormed) (ht : t.Serves g a conflicts)
    (h : Stacked g a p.states symbols) (hlength : p.values.length = symbols.length)
    (htop : Top a p.states s) (hi : i ∈ s.itemSet) (hcompleted : i.Completed g) :
    Acts g a t combine k v p symbols (.reduce i.rule) (p.reduceBy t combine i.rule) := by
  obtain ⟨rule, hrule, haccept, -⟩ := id hcompleted
  obtain ⟨htake, hle, s', hs', j, hj, hread⟩ :=
    h.completed ht.canonical htop hi hrule hcompleted
  have hpop : p.pop t i.rule = .ok (p.topmost rule.rhs.length, p.below rule.rhs.length) := by
    have harity : t.ruleLength[i.rule]? = some rule.rhs.length := by
      rw [ht.ruleLength_eq, hrule, Option.map_some, Rule.arity, if_neg (by simp [haccept])]
    have hstates := h.length_eq
    exact pop_eq harity (by omega) (by omega)
  have htop' : Top a (p.below rule.rhs.length).states s' := hs'
  rw [reduceBy, hpop]
  rcases ht.target wf htop' hj hrule hread with ⟨q, s'', hedge, htarget⟩ | ⟨hover, htarget⟩
  · simp only [htarget]
    exact Acts.reduce hrule haccept htake hle hs' hedge
  · simp only [htarget]
    exact Acts.overflow hover

theorem Tables.Serves.acts_acceptBy (ht : t.Serves g a conflicts)
    (h : Stacked g a p.states symbols) (hlength : p.values.length = symbols.length)
    (htop : Top a p.states s) (hi : i ∈ s.itemSet) (haccepts : i.Accepts g) (hk : k = 0) :
    Acts g a t combine k v p symbols (.accept i.rule) (p.acceptBy t combine i.rule) := by
  obtain ⟨rule, hrule, haccept, -⟩ := id haccepts
  obtain ⟨htake, hle, s', hs', hstart⟩ := h.accepts ht.canonical htop hi hrule haccepts
  have hpop : p.pop t i.rule
      = .ok (p.topmost (rule.rhs.length - 1), p.below (rule.rhs.length - 1)) := by
    have harity : t.ruleLength[i.rule]? = some (rule.rhs.length - 1) := by
      rw [ht.ruleLength_eq, hrule, Option.map_some, Rule.arity, if_pos haccept]
    have hstates := h.length_eq
    exact pop_eq harity (by omega) (by omega)
  simp only [acceptBy, hpop]
  exact Acts.accept hrule haccept htake hle hs' hstart hk

/-- **Every step is one of those listed.** The action is the one in the row of the top state. -/
theorem Tables.Serves.acts (wf : g.WellFormed) (ht : t.Serves g a conflicts)
    (h : Stacked g a p.states symbols) (hlength : p.values.length = symbols.length)
    (hk : k < g.terminals.length) :
    ∃ s x action, Top a p.states s ∧ resolveState g s = .ok x ∧ x.conflicts ⊆ conflicts ∧
      x.rows.actions[k]? = some action ∧
      Acts g a t combine k v p symbols action (p.step t combine k v) := by
  have ha := ht.canonical
  obtain ⟨s, htop⟩ := h.exists_top ha
  obtain ⟨x, hx, hconflicts, hactions, -⟩ := ht.settled _ s htop.state_eq
  have hlt : k < x.rows.actions.length := by
    rw [Conflict.length_actions_of_resolveState wf ha htop.mem hx]
    exact hk
  have hcell : x.rows.actions[k]? = some x.rows.actions[k] := List.getElem?_eq_getElem hlt
  obtain ⟨hsmall, hreads⟩ := hactions k _ hcell
  -- The cell holds an action that rests on an item, and the tables give its code.
  have hoffers := Conflict.offers_of_resolveState wf ha htop.mem hx hcell
  refine ⟨s, x, _, htop, hx, hconflicts, hcell, ?_⟩
  generalize x.rows.actions[k] = action at hsmall hreads hoffers
  generalize hr : t.action p.state k = result at hreads
  cases hreads with
  | overflow hlt =>
    have hstep : p.step t combine k v = { parser := p, outcome := .failed .addressOverflow } := by
      simp [step, hr]
    rw [hstep]
    exact Acts.overflow fun haddress ↦ absurd haddress.1 (Nat.not_le.mpr hlt)
  | code =>
    cases hoffers with
    | error =>
      rw [step_error hr]
      exact Acts.refuse
    | shift hedge =>
      rw [step_shift hsmall hr]
      exact Acts.shift htop hedge
    | reduce hi hcompleted =>
      rw [step_reduce hsmall hr]
      exact ht.acts_reduceBy wf h hlength htop hi hcompleted
    | accept hi haccepts hzero =>
      rw [step_accept hsmall hr]
      exact ht.acts_acceptBy h hlength htop hi haccepts hzero

end Serves

end ShiftReduce.Parser
