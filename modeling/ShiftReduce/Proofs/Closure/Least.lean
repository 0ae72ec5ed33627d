import Mathlib.Order.Bounds.Defs
import ShiftReduce.Proofs.Closure.Tables
import ShiftReduce.Proofs.Items

/-!
# Closing is the least closure

`Item.Closes g K` is the closure of a set of items as the rules of the grammar have it: the items of
`K`, and with an item that reads a non-terminal every rule of that non-terminal at its first place.
It is the least set that holds the items and is closed under starting rules
(`Item.isLeast_closure`).

## The two closures

The closure that is worked out with bit rows is that set, whatever the scratch mask held before
(`Closure.exists_close`). The rows jump over chains of leading non-terminals in one go, whereas the
closure adds one rule at a time; `Item.Closes.of_path` follows such a chain rule by rule. The other
direction is an induction on the closure: an item that was added starts one of the rules found, so
whatever it leads to was found along with it.

## Look-ups

The items may be any, as long as their rules are rules of the grammar. Then their rules, the rows of
the non-terminals that they read and the words of the rows are all found, and closing has a result.
-/

namespace ShiftReduce

namespace Item

/-- The least set of items that holds those of `K` and, with an item that reads a non-terminal, each
rule of that non-terminal at its first place. -/
inductive Closes (g : Grammar) (K : Set Item) : Item → Prop
  /-- The items of `K`. -/
  | kernel {i : Item} : i ∈ K → Closes g K i
  /-- The rules of a non-terminal that is read next. -/
  | start {i : Item} {a r : Nat} {rule : Rule} :
      Closes g K i → i.symbol? g = some (.nonterminal a) → g.rule? r = some rule → rule.lhs = a →
        Closes g K ⟨r, 0⟩

def closure (g : Grammar) (K : Set Item) : Set Item :=
  {i | Closes g K i}

/-- With an item that reads a non-terminal, the set has each rule of that non-terminal at its first
place. -/
def IsClosed (g : Grammar) (s : Set Item) : Prop :=
  ∀ i ∈ s, ∀ a, i.symbol? g = some (.nonterminal a) →
    ∀ r rule, g.rule? r = some rule → rule.lhs = a → (⟨r, 0⟩ : Item) ∈ s

variable {g : Grammar} {K : Set Item}

theorem isLeast_closure : IsLeast {s | K ⊆ s ∧ IsClosed g s} (closure g K) := by
  refine ⟨⟨fun i hi ↦ Closes.kernel hi, ?_⟩, ?_⟩
  · intro i hi a hsymbol r rule hrule hlhs
    exact Closes.start hi hsymbol hrule hlhs
  · rintro s ⟨hK, hclosed⟩ i hi
    induction hi with
    | kernel hi => exact hK hi
    | start _ hsymbol hrule hlhs ih => exact hclosed _ ih _ hsymbol _ _ hrule hlhs

theorem symbol?_eq_some {i : Item} {s : Symbol} :
    i.symbol? g = some s ↔ ∃ rule, g.rule? i.rule = some rule ∧ rule.rhs[i.position]? = some s := by
  simp [symbol?, Option.bind_eq_some_iff]

theorem terminal_lt (wf : g.WellFormed) {i : Item} {t : Nat}
    (h : i.symbol? g = some (.terminal t)) : t < g.terminals.length := by
  obtain ⟨rule, hrule, hread⟩ := symbol?_eq_some.mp h
  exact wf.terminal_lt _ (Grammar.mem_of_rule? hrule) t (List.mem_of_getElem? hread)

theorem nonterminal_lt (wf : g.WellFormed) {i : Item} {a : Nat}
    (h : i.symbol? g = some (.nonterminal a)) : a < g.nonterminals.length := by
  obtain ⟨rule, hrule, hread⟩ := symbol?_eq_some.mp h
  exact wf.nonterminal_lt _ (Grammar.mem_of_rule? hrule) a (List.mem_of_getElem? hread)

/-- The first symbol of a rule, if it is a non-terminal, is the leading one. -/
theorem symbol?_start_eq {r a : Nat} {rule : Rule} (hrule : g.rule? r = some rule) :
    (⟨r, 0⟩ : Item).symbol? g = some (.nonterminal a) ↔ Closure.leading? rule = some a := by
  rw [symbol?, hrule, Option.bind_eq_bind, Option.bind_some, ← List.head?_eq_getElem?,
    Closure.leading?_eq_some]

/-- What is read next of an item that has something to read is never the end of an accept rule. -/
theorem hasMore_of_symbol?_nonterminal (wf : g.WellFormed) {i : Item} {a : Nat}
    (h : i.symbol? g = some (.nonterminal a)) : i.hasMore g = true := by
  obtain ⟨rule, hrule, hsymbol⟩ := symbol?_eq_some.mp h
  have hlt := (List.getElem?_eq_some_iff.mp hsymbol).1
  simp only [hasMore, hrule]
  split
  · rename_i haccept
    have hlast := wf.getLast?_rhs rule (Grammar.mem_of_rule? hrule) haccept
    rw [List.getLast?_eq_getElem?] at hlast
    rw [decide_eq_true_iff]
    by_contra hge
    rw [show rule.rhs.length - 1 = i.position by omega, hsymbol] at hlast
    simp [Symbol.eof] at hlast
  · exact decide_eq_true hlt

theorem expected?_eq_some (wf : g.WellFormed) {i : Item} {a : Nat} :
    Closure.expected? g i = some a ↔ i.symbol? g = some (.nonterminal a) := by
  rw [Closure.expected?]
  constructor
  · intro h
    split at h
    · split at h
      · rename_i b hb
        rw [hb, Option.some.inj h]
      · simp at h
    · simp at h
  · intro h
    rw [if_pos (hasMore_of_symbol?_nonterminal wf h), h]

/-- From an item that reads `a`, the closure reaches an item that reads any non-terminal with which
`a` can begin. -/
theorem Closes.of_path {a b : Nat} (hpath : Relation.ReflTransGen (Closure.Leads g) a b) {i : Item}
    (hi : Closes g K i) (ha : i.symbol? g = some (.nonterminal a)) :
    ∃ j, Closes g K j ∧ j.symbol? g = some (.nonterminal b) := by
  induction hpath with
  | refl => exact ⟨i, hi, ha⟩
  | tail _ hlead ih =>
    obtain ⟨j, hj, hsymbol⟩ := ih
    obtain ⟨r, rule, hrule, hlhs, hleading⟩ := hlead
    exact ⟨⟨r, 0⟩, hj.start hsymbol hrule hlhs, (symbol?_start_eq hrule).mpr hleading⟩

end Item

namespace Closure

open Bits

variable {g : Grammar}

private theorem expected?_lt (wf : g.WellFormed) {i : Item} {a : Nat} (h : expected? g i = some a) :
    a < g.nonterminals.length :=
  Item.nonterminal_lt wf ((Item.expected?_eq_some wf).mp h)

private theorem exists_startAt (wf : g.WellFormed) (s : Starts g) (started : Mask g.rules.length)
    {i : Item}
    (hi : i.rule < g.rules.length) :
    ∃ started', startAt g s started i = .ok started' ∧ ∀ r < g.rules.length,
      started'.test r = true
        ↔ started.test r = true ∨ ∃ a, expected? g i = some a ∧ s.test a r = true := by
  have hrule : g.rule? i.rule = some g.rules[i.rule] := List.getElem?_eq_getElem hi
  rw [startAt, hrule, require_some]
  cases hexpected : expected? g i with
  | none => exact ⟨started, rfl, by simp⟩
  | some a =>
    obtain ⟨row, hrow⟩ := s.exists_row? (expected?_lt wf hexpected)
    refine ⟨started.unionWords row.words, ?_, fun r hr ↦ ?_⟩
    · simp [bind, Except.bind, hrow, pure, Except.pure]
    · have htest : s.test a r = testBit row.words r := by simp [Matrix.test, hrow, hr, Mask.test]
      simp [Mask.test_unionWords _ _ hr, htest]

private theorem exists_startedRules (wf : g.WellFormed) {s : Starts g} (hs : s.Exact)
    (scratch : Mask g.rules.length) {kernel : List Item}
    (hkernel : ∀ i ∈ kernel, i.rule < g.rules.length) :
    ∃ started, startedRules g s scratch kernel = .ok started ∧ ∀ r, r ∈ started.ones
      ↔ ∃ i ∈ kernel, ∃ a rule, i.symbol? g = some (.nonterminal a) ∧ g.rule? r = some rule ∧
          Relation.ReflTransGen (Leads g) a rule.lhs := by
  have hstep : ∀ done i started, done ++ [i] <+: kernel →
      (∀ r < g.rules.length, started.test r = true
        ↔ ∃ i ∈ done, ∃ a, expected? g i = some a ∧ s.test a r = true) →
      ∃ started', startAt g s started i = .ok started' ∧ ∀ r < g.rules.length,
        started'.test r = true ↔ ∃ j ∈ done ++ [i], ∃ a, expected? g j = some a ∧
          s.test a r = true := by
    intro done i started hpre hP
    have hi := hkernel i (hpre.subset (List.mem_append_right _ List.mem_cons_self))
    obtain ⟨started', hstarted', htest⟩ := exists_startAt wf s started hi
    refine ⟨started', hstarted', fun r hr ↦ ?_⟩
    rw [htest r hr, hP r hr]
    simp [or_and_right, exists_or]
  obtain ⟨started, hstarted, htest⟩ := exists_foldlM_eq_ok
    (b := scratch.setAll false) (fun r hr ↦ by simp [Mask.test_setAll _ _ hr]) hstep
  refine ⟨started, hstarted, fun r ↦ ?_⟩
  rw [Mask.mem_ones]
  constructor
  · rintro ⟨hr, hset⟩
    obtain ⟨i, hi, a, hexpected, hstarts⟩ := (htest r hr).mp hset
    obtain ⟨-, rule, hrule, hpath⟩ := (hs a r).mp hstarts
    exact ⟨i, hi, a, rule, (Item.expected?_eq_some wf).mp hexpected, hrule, hpath⟩
  · rintro ⟨i, hi, a, rule, hsymbol, hrule, hpath⟩
    have hr : r < g.rules.length := (List.getElem?_eq_some_iff.mp hrule).1
    exact ⟨hr, (htest r hr).mpr ⟨i, hi, a, (Item.expected?_eq_some wf).mpr hsymbol,
      (hs a r).mpr ⟨Item.nonterminal_lt wf hsymbol, rule, hrule, hpath⟩⟩⟩

private theorem mem_foldl_insert_start {items : List Item} {rs : List Nat} {i : Item} :
    i ∈ rs.foldl (fun items r ↦ Ascending.insert Item.lt ⟨r, 0⟩ items) items
      ↔ i ∈ items ∨ ∃ r ∈ rs, i = ⟨r, 0⟩ := by
  induction rs generalizing items with
  | nil => simp
  | cons r rs ih =>
    rw [List.foldl_cons, ih, mem_insert_item, or_comm (a := i = ⟨r, 0⟩), or_assoc]
    simp only [List.mem_cons, exists_eq_or_imp]

private theorem ascending_foldl_insert_start {items : List Item} {rs : List Nat}
    (h : AscendingItems items) :
    AscendingItems (rs.foldl (fun items r ↦ Ascending.insert Item.lt ⟨r, 0⟩ items) items) := by
  induction rs generalizing items with
  | nil => exact h
  | cons r rs ih => exact ih (ascending_insert_item h)

/-- **Closing computes the closure**, whatever the scratch mask held, and no look-up fails. -/
theorem exists_close (wf : g.WellFormed) {s : Starts g} (hs : s.Exact)
    (scratch : Mask g.rules.length) {kernel : List Item}
    (hkernel : ∀ i ∈ kernel, i.rule < g.rules.length) :
    ∃ items started, close g s scratch kernel = .ok (items, started) ∧
      (AscendingItems kernel → AscendingItems items) ∧
      itemsOf items = Item.closure g (itemsOf kernel) := by
  obtain ⟨started, hstarted, hmem⟩ := exists_startedRules wf hs scratch hkernel
  refine ⟨_, started, by rw [close, hstarted]; rfl, ascending_foldl_insert_start,
    Set.ext fun i ↦ ?_⟩
  refine mem_foldl_insert_start.trans ⟨?_, ?_⟩
  · rintro (hi | ⟨r, hr, rfl⟩)
    · exact Item.Closes.kernel hi
    · obtain ⟨j, hj, a, rule, hsymbol, hrule, hpath⟩ := (hmem r).mp hr
      have hclosed : Item.Closes g (itemsOf kernel) j := Item.Closes.kernel (mem_itemsOf.mpr hj)
      obtain ⟨l, hl, hread⟩ := Item.Closes.of_path hpath hclosed hsymbol
      exact hl.start hread hrule rfl
  · intro h
    induction h with
    | kernel hi => exact Or.inl hi
    | @start j a r rule _ hsymbol hrule hlhs ih =>
      refine Or.inr ⟨r, (hmem r).mpr ?_, rfl⟩
      -- The item that reads the non-terminal is of the kernel, or starts with the non-terminal.
      rcases ih with hj | ⟨r', hr', rfl⟩
      · exact ⟨j, hj, a, rule, hsymbol, hrule, hlhs ▸ Relation.ReflTransGen.refl⟩
      · obtain ⟨l, hl, b, rule', hread, hrule', hpath⟩ := (hmem r').mp hr'
        have hlead : Leads g rule'.lhs a :=
          ⟨r', rule', hrule', rfl, (Item.symbol?_start_eq hrule').mp hsymbol⟩
        exact ⟨l, hl, b, rule, hread, hrule, hlhs ▸ hpath.tail hlead⟩

/-- **Closing computes the least closed set**: from the rules of a grammar and any scratch mask it
comes, with every look-up finding something, to the least set that holds the items and is closed
under starting rules. -/
theorem close_isLeast {d : Declarations} (hg : d.build = .ok g) (scratch : Mask g.rules.length)
    {kernel : List Item} (hkernel : AscendingItems kernel)
    (hrules : ∀ i ∈ kernel, i.rule < g.rules.length) :
    ∃ result, (starts g (derives g) >>= fun s ↦ close g s scratch kernel) = .ok result ∧
      AscendingItems result.1 ∧
      IsLeast {s | itemsOf kernel ⊆ s ∧ Item.IsClosed g s} (itemsOf result.1) := by
  have wf := Declarations.wellFormed_of_build hg
  obtain ⟨s, hs, hexact⟩ := exists_starts wf
  obtain ⟨items, started, hclose, hascending, hitems⟩ := exists_close wf hexact scratch hrules
  refine ⟨(items, started), bind_eq_ok.mpr ⟨s, hs, hclose⟩, hascending hkernel, ?_⟩
  rw [hitems]
  exact Item.isLeast_closure

/-- A grammar in which `E` and `T` begin with each other, and nothing leads to `F`. -/
def chained : Declarations where
  terminals := [{ name := "x", pattern := none, code := none }]
  rules :=
    [{ lhs := "S", rhs := ["E", "EOF"] }, { lhs := "E", rhs := ["T"] },
      { lhs := "T", rhs := ["E", "x"] }, { lhs := "T", rhs := ["x"] },
      { lhs := "F", rhs := ["x", "F"] }]
  accepts := ["S"]

def chainedGrammar : Grammar :=
  okValue chained.build (by decide +kernel)

theorem close_isLeast_chained :
    chained.build = .ok chainedGrammar ∧
      IsLeast {s | itemsOf [⟨0, 0⟩] ⊆ s ∧ Item.IsClosed chainedGrammar s}
        (itemsOf [⟨0, 0⟩, ⟨1, 0⟩, ⟨2, 0⟩, ⟨3, 0⟩]) := by
  have hg : chained.build = .ok chainedGrammar := eq_ok_okValue _
  obtain ⟨result, hclose, -, hleast⟩ := close_isLeast hg (Mask.fill _ true)
    (List.pairwise_singleton _ ⟨0, 0⟩) (by decide +kernel)
  have hitems : ((starts chainedGrammar (derives chainedGrammar) >>= fun s ↦
      close chainedGrammar s (Mask.fill _ true) [⟨0, 0⟩]).map Prod.fst)
        = .ok [⟨0, 0⟩, ⟨1, 0⟩, ⟨2, 0⟩, ⟨3, 0⟩] := by
    decide +kernel
  rw [hclose] at hitems
  exact ⟨hg, Except.ok.inj hitems ▸ hleast⟩

end Closure

end ShiftReduce
