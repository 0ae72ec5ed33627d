import ShiftReduce.Proofs.Conflict.Rows

/-!
# What the stack of states means

The states on the stack of a parser form a path of the automaton from its first state, and the
symbols along that path are those that the parser has read (`Parser.Stacked`).

## Items and symbols

An item of the top state says what the topmost of these symbols are: the symbols that the item has
behind it (`Stacked.read`). So there is always enough on the stack to reduce by a rule whose item is
completed, and the state uncovered by it holds the rule at its first place; by
`Item.Reachable.exists_expecting` that state goes on with the rule's left-hand side.

This is said of states and symbols alone. What stands for the symbols, such as values or trees, is
put beside them where it is needed.
-/

namespace ShiftReduce.Parser

open Automaton (Canonical)
open Conflict (Edge)

variable {g : Grammar} {a : Automaton} {states : List Nat} {symbols : List Symbol} {s : State}

/-- The state that the top of a stack stands for. -/
def Top (a : Automaton) (states : List Nat) (s : State) : Prop :=
  ∃ n, states.head? = some n ∧ a.states[n]? = some s

/-- The states of a path from the first state, and the symbols along it, both with the last
first. -/
inductive Stacked (g : Grammar) (a : Automaton) : List Nat → List Symbol → Prop
  | start : Stacked g a [0] []
  | push {states : List Nat} {symbols : List Symbol} {X : Symbol} {q : Nat} {s s' : State} :
      Stacked g a states symbols → Top a states s → Edge g a s X q s' →
      Stacked g a (q :: states) (X :: symbols)

theorem Top.mem (h : Top a states s) : s ∈ a.states := by
  obtain ⟨n, -, hn⟩ := h
  exact List.mem_of_getElem? hn

theorem Top.unique {t : State} (h : Top a states s) (h' : Top a states t) : s = t := by
  obtain ⟨n, hn, hs⟩ := h
  obtain ⟨m, hm, ht⟩ := h'
  obtain rfl := Option.some.inj (hn.symm.trans hm)
  exact Option.some.inj (hs.symm.trans ht)

theorem Stacked.exists_top (ha : Canonical g a) (h : Stacked g a states symbols) :
    ∃ s, Top a states s := by
  cases h with
  | start =>
    obtain ⟨s, hs, -⟩ := ha.start
    exact ⟨s, 0, rfl, hs⟩
  | push _ _ hedge => exact ⟨_, _, rfl, hedge.target⟩

theorem Stacked.length_eq (h : Stacked g a states symbols) :
    states.length = symbols.length + 1 := by
  induction h with
  | start => rfl
  | push _ _ _ ih => rw [List.length_cons, List.length_cons, ih]

theorem Stacked.drop (h : Stacked g a states symbols) {n : Nat} (hn : n ≤ symbols.length) :
    Stacked g a (states.drop n) (symbols.drop n) := by
  induction h generalizing n with
  | start =>
    obtain rfl := Nat.le_zero.mp hn
    exact Stacked.start
  | push hstacked htop hedge ih =>
    cases n with
    | zero => exact Stacked.push hstacked htop hedge
    | succ n => exact ih (Nat.le_of_succ_le_succ hn)

/-- An item of the top state has behind it the symbols on top of the stack, and stands at its first
place in the state below them. -/
theorem Stacked.read (ha : Canonical g a) (h : Stacked g a states symbols) (htop : Top a states s)
    {i : Item} (hi : i ∈ s.itemSet) {rule : Rule} (hrule : g.rule? i.rule = some rule) :
    symbols.take i.position = (rule.rhs.take i.position).reverse ∧
      i.position ≤ symbols.length ∧
      ∃ t, Top a (states.drop i.position) t ∧ (⟨i.rule, 0⟩ : Item) ∈ t.itemSet := by
  induction h generalizing s i with
  | start =>
    obtain ⟨t, ht, hitems⟩ := ha.start
    obtain rfl := htop.unique ⟨0, rfl, ht⟩
    have hmem : i ∈ Item.closure g (Item.startItems g) := hitems ▸ hi
    have hzero := Item.position_eq_zero_of_mem_start hmem
    obtain ⟨r, k⟩ := i
    obtain rfl : k = 0 := hzero
    exact ⟨rfl, le_rfl, s, htop, hi⟩
  | @push states symbols X q t t' hstacked ht hedge ih =>
    obtain rfl := htop.unique ⟨q, rfl, hedge.target⟩
    obtain ⟨r, k⟩ := i
    cases k with
    | zero => exact ⟨rfl, Nat.zero_le _, s, htop, hi⟩
    | succ k =>
      -- The item comes from one of the state below, by reading the symbol on top.
      have hclosed : (⟨r, k + 1⟩ : Item) ∈ Item.closure g (Item.advanced g (itemsOf t.itemSet) X) :=
        hedge.itemsOf_eq ▸ hi
      obtain ⟨⟨r', k'⟩, hj, hread, -, heq⟩ := Item.Closes.mem_of_pos hclosed (Nat.succ_pos k)
      obtain ⟨rfl, hk⟩ := Item.mk.inj heq
      obtain rfl := Nat.succ.inj hk
      obtain ⟨htake, hle, u, hu, hstart⟩ := ih ht hj hrule
      obtain ⟨rule', hrule', hX⟩ := Item.symbol?_eq_some.mp hread
      obtain rfl := Option.some.inj (hrule'.symm.trans hrule)
      refine ⟨?_, Nat.succ_le_succ hle, u, hu, hstart⟩
      rw [List.take_succ_cons, htake, List.take_add_one, hX, Option.toList_some,
        List.reverse_append, List.reverse_singleton, List.singleton_append]

theorem Stacked.completed (ha : Canonical g a) (h : Stacked g a states symbols)
    (htop : Top a states s) {i : Item} (hi : i ∈ s.itemSet) {rule : Rule}
    (hrule : g.rule? i.rule = some rule) (hcompleted : i.Completed g) :
    symbols.take rule.rhs.length = rule.rhs.reverse ∧ rule.rhs.length ≤ symbols.length ∧
      ∃ t, Top a (states.drop rule.rhs.length) t ∧
        ∃ j ∈ t.itemSet, j.symbol? g = some (.nonterminal rule.lhs) := by
  obtain ⟨rule', hrule', haccept, hpos⟩ := hcompleted
  obtain rfl := Option.some.inj (hrule'.symm.trans hrule)
  obtain ⟨htake, hle, t, ht, hstart⟩ := h.read ha htop hi hrule
  rw [hpos, List.take_length] at htake
  rw [hpos] at hle ht
  refine ⟨htake, hle, t, ht, ?_⟩
  exact ((ha.mem_iff _).mp ⟨t, ht.mem, rfl⟩).exists_expecting hstart hrule haccept

theorem Stacked.accepts (ha : Canonical g a) (h : Stacked g a states symbols)
    (htop : Top a states s) {i : Item} (hi : i ∈ s.itemSet) {rule : Rule}
    (hrule : g.rule? i.rule = some rule) (haccepts : i.Accepts g) :
    symbols.take (rule.rhs.length - 1) = rule.rhs.dropLast.reverse ∧
      rule.rhs.length - 1 ≤ symbols.length ∧
      ∃ t, Top a (states.drop (rule.rhs.length - 1)) t ∧ (⟨i.rule, 0⟩ : Item) ∈ t.itemSet := by
  obtain ⟨rule', hrule', haccept, hpos⟩ := haccepts
  obtain rfl := Option.some.inj (hrule.symm.trans hrule')
  have hlength : rule.rhs.length - 1 = i.position := by omega
  rw [hlength, List.dropLast_eq_take, hlength]
  exact h.read ha htop hi hrule

end ShiftReduce.Parser
