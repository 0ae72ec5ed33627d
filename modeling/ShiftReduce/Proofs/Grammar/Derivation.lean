import Mathlib.Logic.Relation
import ShiftReduce.Proofs.Grammar.WellFormed

/-!
# Derivations

`Grammar.Derives` is derivation as usual: any number of rewriting steps, each of which puts the
right-hand side of a rule in the place of its left-hand side, anywhere in the sentential form.

## Two descriptions

What a string of symbols comes to as a string of terminals can also be described symbol by symbol
(`Grammar.Yields`), which is the order in which a parser goes through it; the two agree on terminal
strings (`yields_of_derives`, `derives_of_yields`). Statements about grammars are made with the
first, and inductions along a run with the second.

## Conditions on grammars

Three conditions stand here because results about parsers ask for one or the other: that every
non-terminal derives something (`Grammar.Productive`), that accept rules are outermost
(`Grammar.StartsOutermost`), and that the end of input is only at their ends (`Grammar.EofLast`).
Declarations are checked for none of them.
-/

namespace ShiftReduce.Grammar

variable {g : Grammar}

/-- One rewriting step. -/
inductive Produces (g : Grammar) : List Symbol → List Symbol → Prop
  | rewrite {r : Nat} {rule : Rule} (before after : List Symbol) : g.rule? r = some rule →
      Produces g (before ++ .nonterminal rule.lhs :: after) (before ++ rule.rhs ++ after)

/-- Any number of rewriting steps. -/
def Derives (g : Grammar) : List Symbol → List Symbol → Prop :=
  Relation.ReflTransGen (Produces g)

/-- The strings of terminals that a string of symbols comes to, symbol by symbol. -/
inductive Yields (g : Grammar) : List Symbol → List Nat → Prop
  | nil : Yields g [] []
  | terminal {t : Nat} {rest : List Symbol} {w : List Nat} :
      Yields g rest w → Yields g (.terminal t :: rest) (t :: w)
  | nonterminal {r : Nat} {rule : Rule} {rest : List Symbol} {u w : List Nat} :
      g.rule? r = some rule → Yields g rule.rhs u → Yields g rest w →
      Yields g (.nonterminal rule.lhs :: rest) (u ++ w)

theorem Yields.append {α β : List Symbol} {u w : List Nat} (hα : Yields g α u)
    (hβ : Yields g β w) : Yields g (α ++ β) (u ++ w) := by
  induction hα with
  | nil => exact hβ
  | terminal _ ih => exact Yields.terminal ih
  | nonterminal hrule hrhs _ _ ih =>
    rw [List.cons_append, List.append_assoc]
    exact Yields.nonterminal hrule hrhs ih

theorem Yields.exists_append {α β : List Symbol} {w : List Nat} (h : Yields g (α ++ β) w) :
    ∃ u v, w = u ++ v ∧ Yields g α u ∧ Yields g β v := by
  induction α generalizing w with
  | nil => exact ⟨[], w, rfl, Yields.nil, h⟩
  | cons X α ih =>
    rw [List.cons_append] at h
    cases h with
    | terminal hrest =>
      obtain ⟨u, v, rfl, hu, hv⟩ := ih hrest
      exact ⟨_, v, rfl, Yields.terminal hu, hv⟩
    | nonterminal hrule hrhs hrest =>
      obtain ⟨u, v, rfl, hu, hv⟩ := ih hrest
      exact ⟨_, v, (List.append_assoc _ _ _).symm, Yields.nonterminal hrule hrhs hu, hv⟩

private theorem yields_terminals (w : List Nat) : Yields g (w.map Symbol.terminal) w := by
  induction w with
  | nil => exact Yields.nil
  | cons t w ih => exact Yields.terminal ih

/-- A rewriting step can be undone in what a string of symbols comes to. -/
theorem Yields.of_produces {α β : List Symbol} {w : List Nat} (h : Produces g α β)
    (hβ : Yields g β w) : Yields g α w := by
  cases h with
  | rewrite before after hrule =>
    obtain ⟨u, v, rfl, hu, hafter⟩ := hβ.exists_append
    obtain ⟨u, v', rfl, hbefore, hrhs⟩ := hu.exists_append
    rw [List.append_assoc]
    exact hbefore.append (Yields.nonterminal hrule hrhs hafter)

theorem Yields.of_derives {α β : List Symbol} {w : List Nat} (h : Derives g α β)
    (hβ : Yields g β w) : Yields g α w := by
  induction h using Relation.ReflTransGen.head_induction_on with
  | refl => exact hβ
  | head hstep _ ih => exact Yields.of_produces hstep ih

theorem yields_of_derives {α : List Symbol} {w : List Nat}
    (h : Derives g α (w.map Symbol.terminal)) : Yields g α w :=
  Yields.of_derives h (yields_terminals w)

theorem Produces.congr {α β : List Symbol} (h : Produces g α β) (x y : List Symbol) :
    Produces g (x ++ α ++ y) (x ++ β ++ y) := by
  cases h with
  | rewrite before after hrule =>
    have hstep := Produces.rewrite (x ++ before) (after ++ y) hrule
    simpa only [List.append_assoc, List.cons_append] using hstep

theorem Derives.congr {α β : List Symbol} (h : Derives g α β) (x y : List Symbol) :
    Derives g (x ++ α ++ y) (x ++ β ++ y) := by
  induction h with
  | refl => exact Relation.ReflTransGen.refl
  | tail _ hstep ih => exact ih.tail (hstep.congr x y)

/-- What a string of symbols comes to, symbol by symbol, is derived from it. -/
theorem derives_of_yields {α : List Symbol} {w : List Nat} (h : Yields g α w) :
    Derives g α (w.map Symbol.terminal) := by
  induction h with
  | nil => exact Relation.ReflTransGen.refl
  | @terminal t rest w _ ih => simpa using ih.congr [.terminal t] []
  | @nonterminal r rule rest u w hrule _ _ ihrhs ih =>
    have hstep : Produces g (.nonterminal rule.lhs :: rest) (rule.rhs ++ rest) :=
      Produces.rewrite [] rest hrule
    have hrhs : Derives g (rule.rhs ++ rest) (u.map Symbol.terminal ++ rest) := ihrhs.congr [] rest
    have hrest : Derives g (u.map Symbol.terminal ++ rest) ((u ++ w).map Symbol.terminal) := by
      simpa using ih.congr (u.map Symbol.terminal) []
    exact Relation.ReflTransGen.head hstep (hrhs.trans hrest)

/-! ## Strings that come to something -/

/-- Every non-terminal derives some string of terminals. -/
def Productive (g : Grammar) : Prop :=
  ∀ b < g.nonterminals.length, ∃ w : List Nat, Derives g [.nonterminal b] (w.map Symbol.terminal)

/-- The non-terminals of a string of symbols are non-terminals of the grammar. -/
def InRange (g : Grammar) (α : List Symbol) : Prop :=
  ∀ b, Symbol.nonterminal b ∈ α → b < g.nonterminals.length

theorem InRange.of_produces (wf : g.WellFormed) {α β : List Symbol} (hα : g.InRange α)
    (h : Produces g α β) : g.InRange β := by
  cases h with
  | rewrite before after hrule =>
    intro b hb
    rcases List.mem_append.mp hb with hb | hb
    · rcases List.mem_append.mp hb with hb | hb
      · exact hα b (List.mem_append_left _ hb)
      · exact wf.nonterminal_lt _ (mem_of_rule? hrule) b hb
    · exact hα b (List.mem_append_right _ (List.mem_cons_of_mem _ hb))

theorem InRange.of_derives (wf : g.WellFormed) {α β : List Symbol} (hα : g.InRange α)
    (h : Derives g α β) : g.InRange β := by
  induction h with
  | refl => exact hα
  | tail _ hstep ih => exact ih.of_produces wf hstep

theorem Productive.exists_yields (hg : g.Productive) {α : List Symbol} (hα : g.InRange α) :
    ∃ w, Yields g α w := by
  induction α with
  | nil => exact ⟨[], Yields.nil⟩
  | cons X α ih =>
    obtain ⟨w, hw⟩ := ih fun b hb ↦ hα b (List.mem_cons_of_mem _ hb)
    cases X with
    | terminal t => exact ⟨t :: w, Yields.terminal hw⟩
    | nonterminal b =>
      obtain ⟨u, hu⟩ := hg b (hα b List.mem_cons_self)
      exact ⟨u ++ w, (yields_of_derives hu).append hw⟩

/-! ## What is derived within rules -/

/-- The non-terminals of accept rules do not occur within rules. -/
def StartsOutermost (g : Grammar) : Prop :=
  ∀ rule ∈ g.rules, rule.accept = true → ∀ other ∈ g.rules, Symbol.nonterminal rule.lhs ∉ other.rhs

/-- The end of input occurs nowhere but at the end of accept rules. -/
def EofLast (g : Grammar) : Prop :=
  ∀ rule ∈ g.rules, Symbol.eof ∉ if rule.accept then rule.rhs.dropLast else rule.rhs

theorem StartsOutermost.not_accept (hg : g.StartsOutermost) {rule other : Rule}
    (hrule : rule ∈ g.rules) (hother : other ∈ g.rules)
    (h : Symbol.nonterminal rule.lhs ∈ other.rhs) : rule.accept = false := by
  by_contra haccept
  exact hg rule hrule (Bool.of_not_eq_false haccept) other hother h

/-- The terminals that a part of a rule comes to are terminals of the grammar other than the end of
input. -/
theorem Yields.inner (wf : g.WellFormed) (hg : g.StartsOutermost) (heof : g.EofLast)
    {α : List Symbol} {w : List Nat} (h : Yields g α w) {rule : Rule} (hrule : rule ∈ g.rules)
    (hsub : α ⊆ rule.rhs) (hα : Symbol.eof ∉ α) : ∀ t ∈ w, t ≠ 0 ∧ t < g.terminals.length := by
  induction h generalizing rule with
  | nil => simp
  | @terminal t rest w _ ih =>
    obtain ⟨hne, hrest⟩ := not_or.mp (List.mem_cons.not.mp hα)
    obtain ⟨hmem, hsub'⟩ := List.cons_subset.mp hsub
    intro t' ht'
    rcases List.mem_cons.mp ht' with rfl | ht'
    · refine ⟨?_, wf.terminal_lt rule hrule _ hmem⟩
      rintro rfl
      exact hne rfl
    · exact ih hrule hsub' hrest t' ht'
  | @nonterminal r rule' rest u w hr _ _ ihrhs ih =>
    obtain ⟨hmem, hsub'⟩ := List.cons_subset.mp hsub
    have hrule' := mem_of_rule? hr
    have hinner : Symbol.eof ∉ rule'.rhs := by
      have hlast := heof rule' hrule'
      rwa [if_neg (by simp [hg.not_accept hrule' hrule hmem])] at hlast
    intro t ht
    rcases List.mem_append.mp ht with ht | ht
    · exact ihrhs hrule' (List.Subset.refl _) hinner t ht
    · exact ih hrule hsub' (fun hrest ↦ hα (List.mem_cons_of_mem _ hrest)) t ht

end ShiftReduce.Grammar
