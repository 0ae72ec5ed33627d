import ShiftReduce.Proofs.Conflict.Rows

/-!
# Settling never fails, and what a cell holds

On a canonical automaton every state can be settled: each item has an action, all reductions of a
state agree, and every rule in sight exists (`exists_resolve_eq_ok`). This is a statement of its own
because settling fails on automata made by hand, and because it stops at rules that it looks up in
vain.

## Single items

Where a single item of a state reads a terminal, the cell of that terminal is easy to name: it is
the item's own action, unless the state has a rule to reduce by and the comparison with it goes
against the shift (`action_of_alone`). Where an item accepts, nothing is settled on the end of input
(`action_of_accepts`). Where no item reads the terminal, the state reduces by that rule if there is
one (`action_of_unread`).

These three are all that is needed of a grammar whose states are known item by item. The general
description of a cell is in the module on the meaning of rows.
-/

namespace ShiftReduce.Conflict

open Automaton (Canonical ItemAction)

variable {g : Grammar} {a : Automaton} {s : State}

/-! ## What has been gathered -/

section Gathered

variable {d : Demands} {i : Item} {t : Nat}

theorem Demands.Gathered.reduction_eq_some (wf : g.WellFormed) (ha : Canonical g a)
    (hs : s ∈ a.states) (hd : d.Gathered g s.items) (hi : i ∈ s.itemSet) (h : i.Completed g) :
    d.reduction = some i.rule := by
  obtain ⟨action, hentry, hitem⟩ := ha.exists_action hs hi
  obtain rfl := ha.action_unique wf hs hi hi hitem (ItemAction.reduce h) rfl
  exact (hd.reduction_iff _).mpr ⟨i, hentry⟩

theorem Demands.Gathered.reduction_eq_none (ha : Canonical g a) (hs : s ∈ a.states)
    (hd : d.Gathered g s.items) (h : ∀ i ∈ s.itemSet, ¬i.Completed g) : d.reduction = none := by
  cases hr : d.reduction with
  | none => rfl
  | some r =>
    obtain ⟨i, hi, hcompleted, -⟩ := Demands.exists_completed ha hs hd hr
    exact absurd hcompleted (h i hi)

theorem Demands.Gathered.actions_eq_some (wf : g.WellFormed) (ha : Canonical g a)
    (hs : s ∈ a.states) (hd : d.Gathered g s.items) (hi : i ∈ s.itemSet)
    (ht : i.symbol? g = some (.terminal t)) {action : Action}
    (hitem : ItemAction g a (itemsOf s.itemSet) i action) :
    d.actions[t]? = some (some action) := by
  obtain ⟨action', hentry, hitem'⟩ := ha.exists_action hs hi
  obtain rfl := ha.action_unique wf hs hi hi hitem hitem' rfl
  exact (hd.actions t action).mpr ⟨i, hentry, ht⟩

theorem Demands.Gathered.actions_eq_none (hd : d.Gathered g s.items) (ht : t < g.terminals.length)
    (h : ∀ i ∈ s.itemSet, i.symbol? g ≠ some (.terminal t)) : d.actions[t]? = some none :=
  hd.actions.getElem?_of_unread (hd.length_actions ▸ ht) fun i _ hi ↦ h i (List.mem_map_of_mem hi)

theorem Demands.Gathered.mem_shifts (ha : Canonical g a) (hs : s ∈ a.states)
    (hd : d.Gathered g s.items) :
    (i, t) ∈ d.shifts ↔ i ∈ s.itemSet ∧ i.symbol? g = some (.terminal t) ∧ ¬i.Accepts g := by
  rw [hd.shifts_eq, List.mem_filterMap]
  constructor
  · rintro ⟨⟨j, o⟩, hj, hshift⟩
    obtain ⟨action, rfl, hitem⟩ := ha.action s hs j o hj
    have hjmem : j ∈ s.itemSet := List.mem_map_of_mem hj
    cases hitem with
    | @enter symbol q s' hread hnot =>
      cases symbol with
      | terminal t' =>
        simp only [shiftOf?, Automaton.enter, hread, Option.some.injEq, Prod.mk.injEq] at hshift
        obtain ⟨rfl, rfl⟩ := hshift
        exact ⟨hjmem, hread, hnot⟩
      | nonterminal b => simp [shiftOf?, Automaton.enter] at hshift
    | accept => simp [shiftOf?] at hshift
    | reduce => simp [shiftOf?] at hshift
  · rintro ⟨hi, hread, hnot⟩
    obtain ⟨action, hentry, hitem⟩ := ha.exists_action hs hi
    refine ⟨_, hentry, ?_⟩
    cases hitem with
    | enter hread' =>
      obtain rfl := Option.some.inj (hread'.symm.trans hread)
      simp [shiftOf?, Automaton.enter, hread]
    | accept haccepts => exact absurd haccepts hnot
    | reduce hcompleted => simp [hcompleted.symbol?_eq] at hread

end Gathered

/-! ## Settling never fails -/

section Total

private theorem exists_demands_eq_ok (wf : g.WellFormed) (ha : Canonical g a) (hs : s ∈ a.states) :
    ∃ d, demands g s = .ok d := by
  have hfold : ∃ d, s.items.foldlM (demand g s) (.empty g) = .ok d ∧ d.Gathered g s.items := by
    refine exists_foldlM_eq_ok (gathered_empty g) ?_
    intro done x d hpre hd
    have hsub : done ++ [x] ⊆ s.items := hpre.subset
    suffices hok : ∃ d', demand g s d x = .ok d' by
      obtain ⟨d', hd'⟩ := hok
      exact ⟨d', hd', gathered_demand wf ha hs hsub hd hd'⟩
    obtain ⟨i, o⟩ := x
    have hentry : (i, o) ∈ s.items := hsub (by simp)
    obtain ⟨action, rfl, hitem⟩ := ha.action s hs i o hentry
    cases hitem with
    | @enter symbol q s' hread =>
      cases symbol with
      | terminal t => exact ⟨_, by simp only [Automaton.enter, demand, hread]; rfl⟩
      | nonterminal b => exact ⟨_, by simp only [Automaton.enter, demand, hread]; rfl⟩
    | accept haccepts =>
      have hread := haccepts.symbol?_eq wf
      rw [Symbol.eof] at hread
      exact ⟨_, by simp only [demand, hread]; rfl⟩
    | reduce hcompleted =>
      -- The items before this one cannot have asked for another rule.
      have hall : d.reduction.all (· = i.rule) = true := by
        rw [Option.all_eq_true]
        intro r hr
        obtain ⟨j, hj⟩ := (hd.reduction_iff r).mp hr
        have hj' : (j, some (.reduce r)) ∈ s.items := hsub (List.mem_append_left _ hj)
        have hmem : j ∈ s.itemSet := List.mem_map_of_mem hj'
        generalize haction : Action.reduce r = action at hj'
        cases ha.action_of_mem hs hj' with
        | @enter symbol => cases symbol <;> simp [Automaton.enter] at haction
        | accept => simp at haction
        | reduce hcompleted' =>
          obtain rfl := Action.reduce.inj haction
          have heq := ha.eq_of_symbol?_eq wf hs hmem (List.mem_map_of_mem hentry)
            (hcompleted'.symbol?_eq.trans hcompleted.symbol?_eq.symm)
            (Or.inr hcompleted'.symbol?_eq)
          simp [heq]
      exact ⟨_, by simp only [demand, hall, if_true]; rfl⟩
  obtain ⟨d, hd, -⟩ := hfold
  exact ⟨d, hd⟩

private theorem isKnown_of_mem (wf : g.WellFormed) (ha : Canonical g a) (hs : s ∈ a.states)
    {i : Item}
    (hi : i ∈ s.itemSet) : i.isKnown g = true := by
  obtain ⟨rule, hrule, -⟩ := ((ha.mem_iff _).mp ⟨s, hs, rfl⟩).placed wf i hi
  rw [Item.isKnown, hrule, Option.isSome_some]

private theorem checkKnown_eq_ok (ha : Canonical g a) (hs : s ∈ a.states) {d : Demands}
    (hd : d.Gathered g s.items) : checkKnown g d = .ok () := by
  rw [checkKnown]
  split
  · rename_i r hr
    obtain ⟨i, -, ⟨rule, hrule, -⟩, rfl⟩ := Demands.exists_completed ha hs hd hr
    rw [if_neg (by simp [hrule])]
  · rfl

/-- Every state of a canonical automaton can be settled. -/
theorem exists_resolveState_eq_ok (wf : g.WellFormed) (ha : Canonical g a) (hs : s ∈ a.states) :
    ∃ x, resolveState g s = .ok x := by
  obtain ⟨d, hd⟩ := exists_demands_eq_ok wf ha hs
  have hfind : s.itemSet.find? (!·.isKnown g) = none := by
    rw [List.find?_eq_none]
    intro i hi
    simp [isKnown_of_mem wf ha hs hi]
  rw [resolveState, hfind]
  simp only [bind_eq_ok]
  exact ⟨_, d, hd, (), checkKnown_eq_ok ha hs (gathered_demands wf ha hs hd), rfl⟩

theorem exists_resolveStates_eq_ok {states : List State}
    (h : ∀ s ∈ states, ∃ x, resolveState g s = .ok x) :
    ∃ r, (resolveStates g states).2 = .ok r := by
  induction states with
  | nil => exact ⟨_, rfl⟩
  | cons s states ih =>
    obtain ⟨x, hx⟩ := h s List.mem_cons_self
    obtain ⟨r, hr⟩ := ih fun s' hs' ↦ h s' (List.mem_cons_of_mem _ hs')
    refine ⟨{ rows := x.rows :: r.rows, conflicts := x.conflicts ++ r.conflicts }, ?_⟩
    simp only [resolveStates, hx, hr, Except.map]

/-- **Settling never fails** on a canonical automaton. -/
theorem exists_resolve_eq_ok (wf : g.WellFormed) (ha : Canonical g a) :
    ∃ r, (resolve g a).2 = .ok r := by
  obtain ⟨r, hr⟩ : ∃ r, (resolveStates g a.states).2 = .ok r :=
    exists_resolveStates_eq_ok fun s hs ↦ exists_resolveState_eq_ok wf ha hs
  refine ⟨r, ?_⟩
  rw [resolve]
  refine bind_eq_ok.mpr ⟨r, hr, ?_⟩
  -- The rules that states reduce and accept by are rules of their items.
  have hsettled : resolveStates g a.states = (_, .ok r) := Prod.ext rfl hr
  rw [find?_usedRules_eq_none hsettled]
  intro s hs x hx action haction rule hcompleted
  obtain ⟨t, ht⟩ := List.mem_iff_getElem?.mp haction
  cases offers_of_resolveState wf ha hs hx ht with
  | error | shift => simp [completedRule?] at hcompleted
  | reduce _ hcompleted' =>
    obtain ⟨rule', hrule', -⟩ := hcompleted'
    obtain rfl := Option.some.inj hcompleted
    simp [hrule']
  | accept _ haccepts =>
    obtain ⟨rule', hrule', -⟩ := haccepts
    obtain rfl := Option.some.inj hcompleted
    simp [hrule']

end Total

/-! ## What a cell holds -/

section Cell

variable {x : SettledState} {i c : Item} {t : Nat}

private theorem getLast?_filterMap_of_forall {α β : Type} {f : α → Option β} {xs : List α}
    {o : Option β}
    (hne : xs ≠ []) (h : ∀ y ∈ xs, f y = o) : (xs.filterMap f).getLast? = o := by
  cases o with
  | none =>
    rw [List.filterMap_eq_nil_iff.mpr h]
    rfl
  | some b =>
    obtain ⟨init, y, rfl⟩ := List.eq_nil_or_concat xs |>.resolve_left hne
    have hy : f y = some b := h y (by simp)
    simp [hy]

/-- Where one item alone shifts a terminal, only its own comparison decides. -/
theorem override?_of_alone (ha : Canonical g a) (hs : s ∈ a.states)
    {d : Demands} (hd : d.Gathered g s.items) (hi : i ∈ s.itemSet)
    (ht : i.symbol? g = some (.terminal t)) (hnot : ¬i.Accepts g)
    (halone : ∀ j ∈ s.itemSet, j.symbol? g = some (.terminal t) → j = i) :
    d.override? g t = d.reduction.bind fun r ↦ Conflict.override? g r i := by
  rw [Demands.override?]
  refine Option.bind_congr fun r _ ↦ ?_
  have hshift : (i, t) ∈ d.shifts := (hd.mem_shifts ha hs).mpr ⟨hi, ht, hnot⟩
  refine getLast?_filterMap_of_forall ?_ ?_
  · exact List.ne_nil_of_mem (List.mem_filter.mpr ⟨hshift, by simp⟩)
  · rintro ⟨j, t'⟩ hj
    obtain ⟨hshift', heq⟩ := List.mem_filter.mp hj
    obtain rfl : t' = t := of_decide_eq_true heq
    obtain ⟨hjmem, hread, -⟩ := (hd.mem_shifts ha hs).mp hshift'
    rw [halone j hjmem hread]

/-- One item alone reads the terminal: it shifts, unless the comparison with the rule that the state
reduces by goes against it. -/
theorem action_of_alone (wf : g.WellFormed) (ha : Canonical g a) (hs : s ∈ a.states)
    (h : resolveState g s = .ok x) (hi : i ∈ s.itemSet) (ht : i.symbol? g = some (.terminal t))
    (hnot : ¬i.Accepts g) (halone : ∀ j ∈ s.itemSet, j.symbol? g = some (.terminal t) → j = i) :
    ∃ q s', Edge g a s (.terminal t) q s' ∧
      ((∀ c ∈ s.itemSet, ¬c.Completed g) → x.rows.actions[t]? = some (.shift q)) ∧
      ∀ c ∈ s.itemSet, c.Completed g →
        x.rows.actions[t]? = some ((Conflict.override? g c.rule i).getD (.shift q)) := by
  obtain ⟨d, hd, hactions, -, -⟩ := resolveState_ok wf ha hs h
  obtain ⟨action, -, hitem⟩ := ha.exists_action hs hi
  have hcell := hd.actions_eq_some wf ha hs hi ht hitem
  have hover := override?_of_alone ha hs hd hi ht hnot halone
  cases hitem with
  | @enter symbol q s' hread _ hs' _ heq =>
    obtain rfl := Option.some.inj (hread.symm.trans ht)
    refine ⟨q, s', ⟨⟨i, hi, ht, hnot⟩, hs', heq⟩, fun hnone ↦ ?_, fun c hc hcompleted ↦ ?_⟩
    · rw [hactions, hcell, hover, hd.reduction_eq_none ha hs hnone]
      rfl
    · rw [hactions, hcell, hover, hd.reduction_eq_some wf ha hs hc hcompleted, Option.bind_some]
      cases Conflict.override? g c.rule i <;> rfl
  | accept haccepts => exact absurd haccepts hnot
  | reduce hcompleted => simp [hcompleted.symbol?_eq] at ht

theorem action_of_accepts (wf : g.WellFormed) (ha : Canonical g a) (hs : s ∈ a.states)
    (h : resolveState g s = .ok x) (hi : i ∈ s.itemSet) (haccepts : i.Accepts g) :
    x.rows.actions[0]? = some (.accept i.rule) := by
  obtain ⟨d, hd, hactions, -, -⟩ := resolveState_ok wf ha hs h
  have hread : i.symbol? g = some (.terminal 0) := haccepts.symbol?_eq wf
  have hcell := hd.actions_eq_some wf ha hs hi hread (ItemAction.accept haccepts)
  have hshifts : d.shifts.filter (·.2 = 0) = [] := by
    rw [List.filter_eq_nil_iff]
    rintro ⟨j, t⟩ hj hzero
    obtain rfl : t = 0 := of_decide_eq_true hzero
    obtain ⟨hjmem, hjread, hnot⟩ := (hd.mem_shifts ha hs).mp hj
    obtain rfl := ha.eq_of_symbol?_eq wf hs hi hjmem (hread.trans hjread.symm) (Or.inl haccepts)
    exact hnot haccepts
  have hover : d.override? g 0 = none := by
    rw [Demands.override?, hshifts]
    cases d.reduction <;> rfl
  rw [hactions, hcell, hover]
  rfl

/-- No item reads the terminal: the state reduces by the rule that it has read, if there is one. -/
theorem action_of_unread (wf : g.WellFormed) (ha : Canonical g a) (hs : s ∈ a.states)
    (h : resolveState g s = .ok x) (ht : t < g.terminals.length)
    (hunread : ∀ i ∈ s.itemSet, i.symbol? g ≠ some (.terminal t)) :
    ((∀ c ∈ s.itemSet, ¬c.Completed g) → x.rows.actions[t]? = some .error) ∧
      ∀ c ∈ s.itemSet, c.Completed g → x.rows.actions[t]? = some (.reduce c.rule) := by
  obtain ⟨d, hd, hactions, -, -⟩ := resolveState_ok wf ha hs h
  have hcell := hd.actions_eq_none ht hunread
  have hshifts : d.shifts.filter (·.2 = t) = [] := by
    rw [List.filter_eq_nil_iff]
    rintro ⟨j, t'⟩ hj heq
    obtain rfl : t' = t := of_decide_eq_true heq
    obtain ⟨hjmem, hjread, -⟩ := (hd.mem_shifts ha hs).mp hj
    exact hunread j hjmem hjread
  have hover : d.override? g t = none := by
    rw [Demands.override?, hshifts]
    cases d.reduction <;> rfl
  rw [hactions, hcell, hover]
  refine ⟨fun hnone ↦ ?_, fun c hc hcompleted ↦ ?_⟩
  · simp [Demands.defaultAction, hd.reduction_eq_none ha hs hnone]
  · simp [Demands.defaultAction, hd.reduction_eq_some wf ha hs hc hcompleted]

end Cell

end ShiftReduce.Conflict
