import ShiftReduce.Proofs.Conflict.Locality

/-!
# What the rows of a state hold

The rows of a settled automaton, described from the items alone. A terminal may be shifted by
several items of a state, and each of them is compared with the rule that the state reduces by; the
last item that loses its comparison decides the cell, whatever the others have come to.

## The description

`State.Gives` has one clause for each way in which a cell is filled: a comparison is lost, all
comparisons are won, or no item reads the terminal. There is only one pair of rows that fits it
(`State.Gives.unique`), so it is a definition of the rows. How two rules compare is said by
`Settles`, again one clause for each way.

## The result

The pair that settling produces fits the description (`gives_of_resolveState`). `rows_exact` says so
of every state of every automaton that was built, along with the list of conflicts in its order. The
example `signs` has a state in which the clauses differ from one item to the next.
-/

namespace ShiftReduce

open Automaton (Canonical ItemAction)

variable {g : Grammar} {a : Automaton} {s : State}

/-! ## Comparisons -/

def Resolution.Keeps (x : Resolution) : Prop :=
  x = .shift ∨ x = .shiftByDefault

instance : DecidablePred Resolution.Keeps :=
  fun _ ↦ inferInstanceAs (Decidable (_ ∨ _))

theorem Resolution.not_keeps_iff {x : Resolution} : ¬x.Keeps ↔ x = .reduce ∨ x = .error := by
  cases x <;> simp [Keeps]

namespace Conflict

/-- How a rule that shifts and a rule that reduces compare by their precedence. -/
inductive Settles (g : Grammar) (shiftRule reduceRule : Nat) : Resolution → Prop
  /-- One of the rules has no precedence. -/
  | byDefault : g.rulePrecedence? shiftRule = none ∨ g.rulePrecedence? reduceRule = none →
      Settles g shiftRule reduceRule .shiftByDefault
  | tighter {p q : Precedence} : g.rulePrecedence? shiftRule = some p →
      g.rulePrecedence? reduceRule = some q → p.level < q.level →
      Settles g shiftRule reduceRule .reduce
  | looser {p q : Precedence} : g.rulePrecedence? shiftRule = some p →
      g.rulePrecedence? reduceRule = some q → q.level < p.level →
      Settles g shiftRule reduceRule .shift
  | left {p q : Precedence} : g.rulePrecedence? shiftRule = some p →
      g.rulePrecedence? reduceRule = some q → q.level = p.level → q.associativity = .left →
      Settles g shiftRule reduceRule .reduce
  | right {p q : Precedence} : g.rulePrecedence? shiftRule = some p →
      g.rulePrecedence? reduceRule = some q → q.level = p.level → q.associativity = .right →
      Settles g shiftRule reduceRule .shift
  | nonassoc {p q : Precedence} : g.rulePrecedence? shiftRule = some p →
      g.rulePrecedence? reduceRule = some q → q.level = p.level → q.associativity = .nonassoc →
      Settles g shiftRule reduceRule .error

private theorem settles_settle (g : Grammar) (shiftRule reduceRule : Nat) :
    Settles g shiftRule reduceRule (settle g shiftRule reduceRule) := by
  rw [settle]
  split
  · rename_i q p hq hp
    rcases lt_trichotomy p.level q.level with hlt | heq | hgt
    · rw [if_pos hlt]
      exact Settles.tighter hp hq hlt
    · rw [if_neg heq.not_lt, if_neg heq.not_gt]
      split
      · exact Settles.left hp hq heq.symm ‹_›
      · exact Settles.right hp hq heq.symm ‹_›
      · exact Settles.nonassoc hp hq heq.symm ‹_›
    · rw [if_neg hgt.not_gt, if_pos hgt]
      exact Settles.looser hp hq hgt
  · rename_i hnone
    refine Settles.byDefault ?_
    cases hp : g.rulePrecedence? shiftRule with
    | none => exact Or.inl rfl
    | some p =>
      cases hq : g.rulePrecedence? reduceRule with
      | none => exact Or.inr rfl
      | some q => exact absurd hp (hnone q p hq)

theorem override?_eq_none_iff {rule : Nat} {i : Item} :
    override? g rule i = none ↔ (settle g i.rule rule).Keeps := by
  rw [override?]
  cases settle g i.rule rule <;> simp [Resolution.Keeps]

end Conflict

/-! ## The description of the rows -/

namespace State

/-- The items that shift a terminal, in order. -/
def shifting (g : Grammar) (s : State) (t : Nat) : List Item :=
  ((s.shifts g).filter (·.2 = t)).map Prod.fst

theorem mem_shifting {i : Item} {t : Nat} : i ∈ s.shifting g t ↔
    i ∈ s.itemSet ∧ i.symbol? g = some (.terminal t) ∧ ¬i.Accepts g := by
  rw [← mem_shifts, shifting, List.mem_map]
  constructor
  · rintro ⟨⟨j, t'⟩, hp, rfl⟩
    obtain ⟨hshift, heq⟩ := List.mem_filter.mp hp
    obtain rfl : t' = t := of_decide_eq_true heq
    exact hshift
  · intro hshift
    exact ⟨(i, t), List.mem_filter.mpr ⟨hshift, by simp⟩, rfl⟩

/-- The rows that a state should have. -/
structure Gives (g : Grammar) (s : State) (rows : Rows) : Prop where
  length_actions : rows.actions.length = g.terminals.length
  length_gotos : rows.gotos.length = g.nonterminals.length
  /-- A non-terminal has the goto of the items that read it. -/
  goto : ∀ i ∈ s.itemSet, ∀ b, i.symbol? g = some (.nonterminal b) →
    ∃ q, s.action? i = some (.goto q) ∧ rows.gotos[b]? = some (.goto q)
  /-- A non-terminal that no item reads is an error. -/
  no_goto : ∀ b < g.nonterminals.length,
    (∀ i ∈ s.itemSet, i.symbol? g ≠ some (.nonterminal b)) → rows.gotos[b]? = some .error
  /-- An item before its final end of input accepts. -/
  accept : ∀ i ∈ s.itemSet, i.Accepts g → rows.actions[0]? = some (.accept i.rule)
  /-- A terminal is shifted if there is no rule to reduce by, or no comparison with it is lost. -/
  shift : ∀ t, ∀ i ∈ s.shifting g t,
    (∀ r, s.reduction? g = some r → ∀ j ∈ s.shifting g t, (Conflict.settle g j.rule r).Keeps) →
    ∃ q, s.action? i = some (.shift q) ∧ rows.actions[t]? = some (.shift q)
  /-- The last comparison that is lost decides: by it the state reduces. -/
  reduce : ∀ t r before i after, s.reduction? g = some r →
    s.shifting g t = before ++ i :: after → Conflict.settle g i.rule r = .reduce →
    (∀ j ∈ after, (Conflict.settle g j.rule r).Keeps) → rows.actions[t]? = some (.reduce r)
  /-- The last comparison that is lost decides: by it the terminal is an error. -/
  error : ∀ t r before i after, s.reduction? g = some r →
    s.shifting g t = before ++ i :: after → Conflict.settle g i.rule r = .error →
    (∀ j ∈ after, (Conflict.settle g j.rule r).Keeps) → rows.actions[t]? = some .error
  /-- On all other terminals the state reduces, if it has a rule to reduce by. -/
  fill : ∀ t < g.terminals.length, s.shifting g t = [] →
    (t = 0 → ∀ i ∈ s.itemSet, ¬i.Accepts g) →
    rows.actions[t]? = some ((s.reduction? g).elim .error .reduce)

/-! ## The description fits one pair of rows only -/

/-- Either all items satisfy a property, or there is a last one that does not. -/
theorem forall_or_exists_last {p : Item → Prop} [DecidablePred p] (items : List Item) :
    (∀ i ∈ items, p i) ∨
      ∃ before i after, items = before ++ i :: after ∧ ¬p i ∧ ∀ j ∈ after, p j := by
  induction items with
  | nil => exact Or.inl (by simp)
  | cons i items ih =>
    rcases ih with hall | ⟨before, j, after, rfl, hj, hafter⟩
    · by_cases hi : p i
      · exact Or.inl (List.forall_mem_cons.mpr ⟨hi, hall⟩)
      · exact Or.inr ⟨[], i, items, rfl, hi, hall⟩
    · exact Or.inr ⟨i :: before, j, after, rfl, hj, hafter⟩

namespace Gives

variable {rows rows' : Rows}

private theorem actions_eq (h : s.Gives g rows) (h' : s.Gives g rows') {t : Nat}
    (ht : t < g.terminals.length) : rows.actions[t]? = rows'.actions[t]? := by
  -- An item that accepts, no item at all, no comparison lost, and then the last one that is.
  by_cases haccepts : t = 0 ∧ ∃ i ∈ s.itemSet, i.Accepts g
  · obtain ⟨rfl, i, hi, haccepts⟩ := haccepts
    rw [h.accept i hi haccepts, h'.accept i hi haccepts]
  cases hshifting : s.shifting g t with
  | nil =>
    have hnone : t = 0 → ∀ i ∈ s.itemSet, ¬i.Accepts g :=
      fun hzero i hi hi' ↦ haccepts ⟨hzero, i, hi, hi'⟩
    rw [h.fill t ht hshifting hnone, h'.fill t ht hshifting hnone]
  | cons i items =>
    have hi : i ∈ s.shifting g t := hshifting ▸ List.mem_cons_self
    by_cases hkeep : ∀ r, s.reduction? g = some r →
        ∀ j ∈ s.shifting g t, (Conflict.settle g j.rule r).Keeps
    · obtain ⟨q, hq, hcell⟩ := h.shift t i hi hkeep
      obtain ⟨q', hq', hcell'⟩ := h'.shift t i hi hkeep
      rw [hcell, hcell', ← hq, ← hq']
    · push Not at hkeep
      obtain ⟨r, hr, j, hj, hlost⟩ := hkeep
      obtain hall | ⟨before, i, after, hsplit, hi, hafter⟩ :=
        forall_or_exists_last (p := fun i ↦ (Conflict.settle g i.rule r).Keeps) (s.shifting g t)
      · exact absurd (hall j hj) hlost
      · rcases Resolution.not_keeps_iff.mp hi with hreduce | herror
        · rw [h.reduce t r before i after hr hsplit hreduce hafter,
            h'.reduce t r before i after hr hsplit hreduce hafter]
        · rw [h.error t r before i after hr hsplit herror hafter,
            h'.error t r before i after hr hsplit herror hafter]

private theorem gotos_eq (h : s.Gives g rows) (h' : s.Gives g rows') {b : Nat}
    (hb : b < g.nonterminals.length) : rows.gotos[b]? = rows'.gotos[b]? := by
  by_cases hread : ∃ i ∈ s.itemSet, i.symbol? g = some (.nonterminal b)
  · obtain ⟨i, hi, hread⟩ := hread
    obtain ⟨q, hq, hcell⟩ := h.goto i hi b hread
    obtain ⟨q', hq', hcell'⟩ := h'.goto i hi b hread
    rw [hcell, hcell', ← hq, ← hq']
  · push Not at hread
    rw [h.no_goto b hb hread, h'.no_goto b hb hread]

theorem unique (h : s.Gives g rows) (h' : s.Gives g rows') : rows = rows' := by
  have hactions : rows.actions = rows'.actions := by
    refine List.ext_getElem? fun t ↦ ?_
    by_cases ht : t < g.terminals.length
    · exact h.actions_eq h' ht
    · rw [List.getElem?_eq_none (h.length_actions.trans_le (not_lt.mp ht)),
        List.getElem?_eq_none (h'.length_actions.trans_le (not_lt.mp ht))]
  have hgotos : rows.gotos = rows'.gotos := by
    refine List.ext_getElem? fun b ↦ ?_
    by_cases hb : b < g.nonterminals.length
    · exact h.gotos_eq h' hb
    · rw [List.getElem?_eq_none (h.length_gotos.trans_le (not_lt.mp hb)),
        List.getElem?_eq_none (h'.length_gotos.trans_le (not_lt.mp hb))]
  obtain ⟨actions, gotos⟩ := rows
  obtain rfl : actions = rows'.actions := hactions
  obtain rfl : gotos = rows'.gotos := hgotos
  rfl

end Gives

/-! ## What settling gives -/

theorem action?_of_mem (hs : AscendingItems s.itemSet) {i : Item} {o : Option Action}
    (h : (i, o) ∈ s.items) : s.action? i = o := by
  obtain ⟨e, he⟩ : ∃ e, s.items.find? (·.1 = i) = some e := by
    rw [← Option.isSome_iff_exists, List.find?_isSome]
    exact ⟨_, h, by simp⟩
  have heq : e.1 = i := by simpa using List.find?_some he
  have hentry : e = (i, o) :=
    List.inj_on_of_nodup_map hs.nodup (List.mem_of_find?_eq_some he) h heq
  rw [action?, he, hentry]
  rfl

private theorem reduction?_eq_some_iff (wf : g.WellFormed) (ha : Canonical g a) (hs : s ∈ a.states)
    {r : Nat} : s.reduction? g = some r ↔ ∃ i ∈ s.itemSet, i.Completed g ∧ i.rule = r := by
  constructor
  · exact exists_completed_of_reduction?
  · rintro ⟨i, hi, hcompleted, rfl⟩
    cases hr : s.reduction? g with
    | none => exact absurd hcompleted (not_completed_of_reduction? hr i hi)
    | some r =>
      obtain ⟨j, hj, hcompleted', rfl⟩ := exists_completed_of_reduction? hr
      rw [ha.eq_of_symbol?_eq wf hs hj hi
        (hcompleted'.symbol?_eq.trans hcompleted.symbol?_eq.symm) (Or.inr hcompleted'.symbol?_eq)]

end State

namespace Conflict

section Settled

variable {x : SettledState} {d : Demands} {t : Nat}

theorem Demands.Gathered.override?_eq (wf : g.WellFormed) (ha : Canonical g a) (hs : s ∈ a.states)
    (hd : d.Gathered g s.items) (t : Nat) : d.override? g t = (s.reduction? g).bind fun r ↦
      ((s.shifting g t).filterMap (Conflict.override? g r)).getLast? := by
  rw [Demands.override?, hd.reduction_eq wf ha hs, hd.shifts_eq_shifts wf ha hs]
  refine Option.bind_congr fun r _ ↦ ?_
  rw [State.shifting, List.filterMap_map]
  rfl

/-- The action of an item that shifts, which is also what the items ask for on its terminal. -/
theorem Demands.Gathered.exists_shift (wf : g.WellFormed) (ha : Canonical g a) (hs : s ∈ a.states)
    (hd : d.Gathered g s.items) {i : Item} (hi : i ∈ s.shifting g t) :
    ∃ q, s.action? i = some (.shift q) ∧ d.actions[t]? = some (some (.shift q)) := by
  obtain ⟨himem, hread, hnot⟩ := State.mem_shifting.mp hi
  obtain ⟨action, hentry, hitem⟩ := ha.exists_action hs himem
  have haction := State.action?_of_mem (ha.ascending s hs) hentry
  have hcell := hd.actions_eq_some wf ha hs himem hread hitem
  cases hitem with
  | @enter symbol q s' hread' =>
    obtain rfl := Option.some.inj (hread'.symm.trans hread)
    exact ⟨q, haction, hcell⟩
  | accept haccepts => exact absurd haccepts hnot
  | reduce hcompleted => simp [hcompleted.symbol?_eq] at hread

/-- The action of an item that reads a non-terminal, which is also what the items ask for on it. -/
theorem Demands.Gathered.exists_goto (wf : g.WellFormed) (ha : Canonical g a) (hs : s ∈ a.states)
    (hd : d.Gathered g s.items) {i : Item} {b : Nat} (hi : i ∈ s.itemSet)
    (hread : i.symbol? g = some (.nonterminal b)) :
    ∃ q, s.action? i = some (.goto q) ∧ d.gotos[b]? = some (some (.goto q)) := by
  obtain ⟨action, hentry, hitem⟩ := ha.exists_action hs hi
  have haction := State.action?_of_mem (ha.ascending s hs) hentry
  have hcell := (hd.gotos b action).mpr ⟨i, hentry, hread⟩
  cases hitem with
  | @enter symbol q s' hread' =>
    obtain rfl := Option.some.inj (hread'.symm.trans hread)
    exact ⟨q, haction, hcell⟩
  | accept haccepts => simp [haccepts.symbol?_eq wf, Symbol.eof] at hread
  | reduce hcompleted => simp [hcompleted.symbol?_eq] at hread

/-- On a terminal that is shifted, the last comparison that is lost decides the cell. -/
theorem action_of_lost (wf : g.WellFormed) (ha : Canonical g a) (hs : s ∈ a.states)
    (h : resolveState g s = .ok x) {r : Nat} (hr : s.reduction? g = some r)
    {before after : List Item} {i : Item} (hsplit : s.shifting g t = before ++ i :: after)
    {action : Action} (hover : override? g r i = some action)
    (hafter : ∀ j ∈ after, (settle g j.rule r).Keeps) : x.rows.actions[t]? = some action := by
  obtain ⟨d, hd, hactions, -, -⟩ := resolveState_ok wf ha hs h
  have hi : i ∈ s.shifting g t := by simp [hsplit]
  obtain ⟨q, -, hcell⟩ := hd.exists_shift wf ha hs hi
  -- What won against `i` is the last entry that the comparisons leave for the terminal.
  have hrest : after.filterMap (override? g r) = [] :=
    List.filterMap_eq_nil_iff.mpr fun j hj ↦ override?_eq_none_iff.mpr (hafter j hj)
  rw [hactions, hcell, hd.override?_eq wf ha hs, hr, Option.bind_some, hsplit,
    List.filterMap_append, List.filterMap_cons_some hover, hrest, List.getLast?_concat]
  rfl

/-- On a terminal whose comparisons are all won, the items have their way. -/
theorem action_of_kept (wf : g.WellFormed) (ha : Canonical g a) (hs : s ∈ a.states)
    (h : resolveState g s = .ok x) {i : Item} (hi : i ∈ s.shifting g t)
    (hkeep : ∀ r, s.reduction? g = some r → ∀ j ∈ s.shifting g t, (settle g j.rule r).Keeps) :
    ∃ q, s.action? i = some (.shift q) ∧ x.rows.actions[t]? = some (.shift q) := by
  obtain ⟨d, hd, hactions, -, -⟩ := resolveState_ok wf ha hs h
  obtain ⟨q, haction, hcell⟩ := hd.exists_shift wf ha hs hi
  have hover : d.override? g t = none := by
    rw [hd.override?_eq wf ha hs, Option.bind_eq_none_iff]
    intro r hr
    have hnil : (s.shifting g t).filterMap (override? g r) = [] :=
      List.filterMap_eq_nil_iff.mpr fun j hj ↦ override?_eq_none_iff.mpr (hkeep r hr j hj)
    rw [hnil]
    rfl
  refine ⟨q, haction, ?_⟩
  rw [hactions, hcell, hover]
  rfl

/-- A terminal that no item shifts or accepts is one that no item reads. -/
theorem unread_of_shifting_eq_nil (wf : g.WellFormed) (hnil : s.shifting g t = [])
    (hnone : t = 0 → ∀ i ∈ s.itemSet, ¬i.Accepts g) :
    ∀ i ∈ s.itemSet, i.symbol? g ≠ some (.terminal t) := by
  intro i hi hread
  by_cases haccepts : i.Accepts g
  · have heof := (haccepts.symbol?_eq wf).symm.trans hread
    exact hnone (Symbol.terminal.inj (Option.some.inj heof)).symm i hi haccepts
  · have hmem : i ∈ s.shifting g t := State.mem_shifting.mpr ⟨hi, hread, haccepts⟩
    rw [hnil] at hmem
    exact absurd hmem List.not_mem_nil

theorem gives_of_resolveState (wf : g.WellFormed) (ha : Canonical g a) (hs : s ∈ a.states)
    (h : resolveState g s = .ok x) : s.Gives g x.rows where
  length_actions := length_actions_of_resolveState wf ha hs h
  length_gotos := length_gotos_of_resolveState wf ha hs h
  goto := by
    intro i hi b hread
    obtain ⟨d, hd, -, hgotos, -⟩ := resolveState_ok wf ha hs h
    obtain ⟨q, haction, hcell⟩ := hd.exists_goto wf ha hs hi hread
    refine ⟨q, haction, ?_⟩
    rw [hgotos, List.getElem?_map, hcell]
    rfl
  no_goto := by
    intro b hb hunread
    obtain ⟨d, hd, -, hgotos, -⟩ := resolveState_ok wf ha hs h
    have hcell : d.gotos[b]? = some none := hd.gotos.getElem?_of_unread (hd.length_gotos ▸ hb)
      fun i _ hi ↦ hunread i (List.mem_map_of_mem hi)
    rw [hgotos, List.getElem?_map, hcell]
    rfl
  accept := fun _ hi haccepts ↦ action_of_accepts wf ha hs h hi haccepts
  shift := fun _ _ hi hkeep ↦ action_of_kept wf ha hs h hi hkeep
  reduce := by
    intro t r before i after hr hsplit hreduce hafter
    exact action_of_lost wf ha hs h hr hsplit
      (override?_eq_some_iff.mpr (Or.inl ⟨hreduce, rfl⟩)) hafter
  error := by
    intro t r before i after hr hsplit herror hafter
    exact action_of_lost wf ha hs h hr hsplit
      (override?_eq_some_iff.mpr (Or.inr ⟨herror, rfl⟩)) hafter
  fill := by
    intro t ht hnil hnone
    obtain ⟨hnoRule, hrule⟩ :=
      action_of_unread wf ha hs h ht (unread_of_shifting_eq_nil wf hnil hnone)
    cases hr : s.reduction? g with
    | none => exact hnoRule (State.not_completed_of_reduction? hr)
    | some r =>
      obtain ⟨i, hi, hcompleted, rfl⟩ := State.exists_completed_of_reduction? hr
      exact hrule i hi hcompleted

end Settled

/-- **What the rows of a settled automaton hold.** Each state has exactly the rows that
`State.Gives` describes, and the conflicts are the comparisons of its shifts with the rule it
reduces by, state by state and item by item, each settled by precedence. -/
theorem rows_exact {d : Declarations} (hd : d.build = .ok g) (hbuild : Automaton.build g = .ok a) :
    ∃ a' r, resolve g a = (a', .ok r) ∧ r.rows.length = a.states.length ∧
      (∀ (n : Nat) (s : State), a.states[n]? = some s → AscendingItems s.itemSet ∧
        (∀ rule, s.reduction? g = some rule ↔
          ∃ i ∈ s.itemSet, i.Completed g ∧ i.rule = rule) ∧
        ∀ rows, r.rows[n]? = some rows ↔ s.Gives g rows) ∧
      r.conflicts = a.states.flatMap (State.conflicts g) ∧
      ∀ shiftRule reduceRule,
        Settles g shiftRule reduceRule (settle g shiftRule reduceRule) := by
  have wf := Declarations.wellFormed_of_build hd
  have ha := Automaton.canonical_of_build wf hbuild
  obtain ⟨rows, hresolve⟩ := exists_resolve_eq wf ha
  obtain ⟨hlength, hstates⟩ := resolve_ok (congrArg Prod.snd hresolve)
  refine ⟨_, _, hresolve, hlength, fun n s hn ↦ ?_, rfl, settles_settle g⟩
  have hs : s ∈ a.states := List.mem_of_getElem? hn
  obtain ⟨x, hx, hrow, -⟩ := hstates n s hn
  have hgives := gives_of_resolveState wf ha hs hx
  refine ⟨ha.ascending s hs, fun _ ↦ State.reduction?_eq_some_iff wf ha hs, fun rows ↦ ?_⟩
  rw [hrow]
  constructor
  · intro heq
    exact Option.some.inj heq ▸ hgives
  · intro hrows
    rw [hgives.unique hrows]

/-- Sums, and an operator written behind its operand with the same sign that binds tighter. In the
state behind `E + E` the two rules that go on with a sign do not come to the same. -/
def signs : Declarations where
  terminals := ["n", "+"].map fun name ↦ { name, pattern := none, code := none }
  precedence := [⟨"left", ["+"]⟩, ⟨"left", ["POST"]⟩]
  rules :=
    [{ lhs := "S", rhs := ["E", "EOF"] }, { lhs := "E", rhs := ["E", "+", "E"] },
      { lhs := "E", rhs := ["E", "+"], precedence := some "POST" }, { lhs := "E", rhs := ["n"] }]
  accepts := ["S"]

def signsGrammar : Grammar :=
  okValue signs.build (by decide +kernel)

def signsAutomaton : Automaton :=
  okValue (Automaton.build signsGrammar) (by decide +kernel)

theorem rows_exact_signs :
    signs.build = .ok signsGrammar ∧ Automaton.build signsGrammar = .ok signsAutomaton ∧
    ∃ a' r, resolve signsGrammar signsAutomaton = (a', .ok r) ∧
      (∀ (n : Nat) (s : State), signsAutomaton.states[n]? = some s → ∀ rows,
        r.rows[n]? = some rows ↔ s.Gives signsGrammar rows) ∧
      r.conflicts.map (fun c ↦ (c.state, c.shiftRule, c.reduceRule, c.resolution))
        = [(3, 3, 2, .shiftByDefault), (4, 1, 1, .reduce), (4, 2, 1, .shift)] ∧
      (r.rows[4]?.map (·.actions)) = some [.reduce 1, .reduce 1, .reduce 1] := by
  have hg : signs.build = .ok signsGrammar := eq_ok_okValue _
  have ha : Automaton.build signsGrammar = .ok signsAutomaton := eq_ok_okValue _
  obtain ⟨a', r, hresolve, -, hstates, -, -⟩ := rows_exact hg ha
  have hconflicts : (resolve signsGrammar signsAutomaton).2.map
      (·.conflicts.map fun c ↦ (c.state, c.shiftRule, c.reduceRule, c.resolution))
        = .ok [(3, 3, 2, .shiftByDefault), (4, 1, 1, .reduce), (4, 2, 1, .shift)] := by
    decide +kernel
  have hrows : (resolve signsGrammar signsAutomaton).2.map (·.rows[4]?.map (·.actions))
      = .ok (some [.reduce 1, .reduce 1, .reduce 1]) := by
    decide +kernel
  rw [hresolve] at hconflicts hrows
  exact ⟨hg, ha, a', r, hresolve, fun n s hn ↦ (hstates n s hn).2.2, Except.ok.inj hconflicts,
    Except.ok.inj hrows⟩

end Conflict

end ShiftReduce
