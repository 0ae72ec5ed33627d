import ShiftReduce.Proofs.Conflict.Demands

/-!
# The rows of a state

Settling a state goes over its shifts in turn, so on a terminal the last shift that loses decides
(`Demands.override?`). A cell is then what was decided against the shifts, or what the items ask
for, or what the state does by default; `resolveState_ok` says so of whole rows.

## What parsers need

What later proofs need of a row is less. `Offers` lists the actions that a state can take on a
terminal and the items that they rest on, and every cell is one of them (`offers_of_resolveState`):
settling a conflict takes actions away and adds none. In a state without conflicts every item has
its way (`action_of_reads`, `action_of_completed`). Gotos are never in conflict, so the row of gotos
is what the items ask for (`goto_of_resolveState`).

## Whole automata

States are settled one by one, and no rule is found missing in the end, since rows complete rules of
their items only (`resolve_ok`).
-/

namespace ShiftReduce.Conflict

open Automaton (Canonical ItemAction)

variable {g : Grammar} {a : Automaton}

/-! ## Settling a state -/

/-- The action that takes the place of an item's shift, where the shift loses. -/
def override? (g : Grammar) (reduceRule : Nat) (i : Item) : Option Action :=
  match settle g i.rule reduceRule with
  | .reduce => some (.reduce reduceRule)
  | .error => some .error
  | .shift | .shiftByDefault => none

/-- What is decided on a terminal against the items that shift it. -/
def Demands.override? (g : Grammar) (d : Demands) (t : Nat) : Option Action :=
  d.reduction.bind fun rule ↦
    ((d.shifts.filter (·.2 = t)).filterMap fun p ↦ Conflict.override? g rule p.1).getLast?

def conflictOf (g : Grammar) (id reduceRule : Nat) (p : Item × Nat) : Conflict where
  state := id
  terminal := p.2
  shiftRule := p.1.rule
  reduceRule
  resolution := settle g p.1.rule reduceRule

private theorem id_settleShift (rule : Nat) (x : Settlement) (p : Item × Nat) :
    (settleShift g rule x p).state.id = x.state.id := by
  rw [settleShift]
  split <;> rfl

private theorem actions_settleShift (rule : Nat) (x : Settlement) (p : Item × Nat) :
    (settleShift g rule x p).actions
      = match Conflict.override? g rule p.1 with
        | some action => x.actions.set p.2 (some action)
        | none => x.actions := by
  rw [settleShift, Conflict.override?]
  split <;> simp_all

private theorem conflicts_settleShift (rule : Nat) (x : Settlement) (p : Item × Nat) :
    (settleShift g rule x p).conflicts = x.conflicts ++ [conflictOf g x.state.id rule p] := by
  rw [settleShift, conflictOf]
  split <;> simp_all

/-- The shifts settled in turn: on each terminal, the last that loses decides. -/
theorem actions_foldl_settleShift (rule : Nat) (x : Settlement) (shifts : List (Item × Nat))
    (t : Nat) : (shifts.foldl (settleShift g rule) x).actions[t]? = x.actions[t]?.map fun cell ↦
      ((shifts.filter (·.2 = t)).filterMap fun p ↦ Conflict.override? g rule p.1).getLast?.or
        cell := by
  induction shifts using List.reverseRecOn with
  | nil => simp
  | append_singleton shifts p ih =>
    rw [List.foldl_append, List.foldl_cons, List.foldl_nil, actions_settleShift, List.filter_append,
      List.filterMap_append]
    cases hover : Conflict.override? g rule p.1 with
    | none =>
      have hnone : (List.filter (fun q ↦ decide (q.2 = t)) [p]).filterMap
          (fun q ↦ Conflict.override? g rule q.1) = [] := by
        by_cases hpt : p.2 = t <;> simp [hpt, hover]
      rw [hnone, List.append_nil, ih]
    | some action =>
      by_cases hpt : p.2 = t
      · subst hpt
        rw [List.getElem?_set_self', ih]
        simp [hover, Function.const_def]
      · rw [List.getElem?_set_ne hpt, ih]
        simp [hpt]

private theorem conflicts_foldl_settleShift (rule : Nat) (x : Settlement)
    (shifts : List (Item × Nat)) :
    (shifts.foldl (settleShift g rule) x).conflicts
      = x.conflicts ++ shifts.map (conflictOf g x.state.id rule) := by
  induction shifts generalizing x with
  | nil => simp
  | cons p shifts ih =>
    rw [List.foldl_cons, ih, conflicts_settleShift, id_settleShift, List.map_cons,
      List.append_assoc, List.singleton_append]

theorem settleAll_actions (s : State) (d : Demands) (t : Nat) :
    (settleAll g s d).actions[t]? = d.actions[t]?.map fun cell ↦ (d.override? g t).or cell := by
  rw [settleAll, Demands.override?]
  split
  · rename_i hnone
    simp [hnone]
  · rename_i rule hrule
    rw [hrule, actions_foldl_settleShift]
    rfl

theorem settleAll_conflicts (s : State) (d : Demands) :
    (settleAll g s d).conflicts = (d.reduction.map fun rule ↦
      d.shifts.map (conflictOf g s.id rule)).getD [] := by
  rw [settleAll]
  split
  · rename_i hnone
    simp [hnone]
  · rename_i rule hrule
    rw [hrule, conflicts_foldl_settleShift]
    simp

def Demands.settledState (g : Grammar) (s : State) (d : Demands) : SettledState where
  state := (settleAll g s d).state
  rows :=
    { actions := (settleAll g s d).actions.map (·.getD d.defaultAction)
      gotos := d.gotos.map (·.getD .error) }
  conflicts := (settleAll g s d).conflicts

theorem exists_demands_of_resolveState {s : State} {x : SettledState}
    (h : resolveState g s = .ok x) : ∃ d, demands g s = .ok d ∧ x = d.settledState g s := by
  rw [resolveState] at h
  split at h
  · simp [bind, Except.bind, throw, throwThe, MonadExceptOf.throw] at h
  · simp only [bind_eq_ok] at h
    obtain ⟨d, hd, -, -, hx⟩ := h
    exact ⟨d, hd, (Except.ok.inj hx).symm⟩

theorem resolveState_ok (wf : g.WellFormed) (ha : Canonical g a) {s : State} (hs : s ∈ a.states)
    {x : SettledState} (h : resolveState g s = .ok x) :
    ∃ d : Demands, d.Gathered g s.items ∧
      (∀ t, x.rows.actions[t]? = d.actions[t]?.map fun cell ↦
        ((d.override? g t).or cell).getD d.defaultAction) ∧
      x.rows.gotos = d.gotos.map (·.getD .error) ∧
      x.conflicts = (d.reduction.map fun rule ↦ d.shifts.map (conflictOf g s.id rule)).getD [] := by
  obtain ⟨d, hd, rfl⟩ := exists_demands_of_resolveState h
  refine ⟨d, gathered_demands wf ha hs hd, fun t ↦ ?_, rfl, settleAll_conflicts s d⟩
  rw [Demands.settledState, List.getElem?_map, settleAll_actions, Option.map_map]
  rfl

/-! ## What a state does -/

/-- On a symbol that one of its items reads, the state `s` leads to the state `s'` of number `q`. -/
structure Edge (g : Grammar) (a : Automaton) (s : State) (X : Symbol) (q : Nat) (s' : State) :
    Prop where
  reads : ∃ i ∈ s.itemSet, i.symbol? g = some X ∧ ¬i.Accepts g
  target : a.states[q]? = some s'
  itemsOf_eq : itemsOf s'.itemSet = Item.closure g (Item.advanced g (itemsOf s.itemSet) X)

/-- The actions that a state can take on a terminal, with the items of the state that they rest
on. -/
inductive Offers (g : Grammar) (a : Automaton) (s : State) (t : Nat) : Action → Prop
  | error : Offers g a s t .error
  | shift {q : Nat} {s' : State} : Edge g a s (.terminal t) q s' → Offers g a s t (.shift q)
  | reduce {i : Item} : i ∈ s.itemSet → i.Completed g → Offers g a s t (.reduce i.rule)
  | accept {i : Item} : i ∈ s.itemSet → i.Accepts g → t = 0 → Offers g a s t (.accept i.rule)

theorem Demands.exists_completed {s : State} (ha : Canonical g a) (hs : s ∈ a.states)
    {d : Demands} (hd : d.Gathered g s.items) {r : Nat} (h : d.reduction = some r) :
    ∃ i ∈ s.itemSet, i.Completed g ∧ i.rule = r := by
  obtain ⟨i, hi⟩ := (hd.reduction_iff r).mp h
  have hitem := ha.action_of_mem hs hi
  refine ⟨i, List.mem_map_of_mem hi, ?_⟩
  generalize haction : Action.reduce r = action at hitem
  cases hitem with
  | @enter symbol => cases symbol <;> simp [Automaton.enter] at haction
  | accept => simp at haction
  | reduce hcompleted => exact ⟨hcompleted, (Action.reduce.inj haction).symm⟩

private theorem offers_of_itemAction (wf : g.WellFormed) {s : State} {i : Item} {t : Nat}
    {action : Action}
    (hi : i ∈ s.itemSet) (ht : i.symbol? g = some (.terminal t))
    (h : ItemAction g a (itemsOf s.itemSet) i action) : Offers g a s t action := by
  cases h with
  | enter hsymbol hnot hs' _ heq =>
    obtain rfl := Option.some.inj (hsymbol.symm.trans ht)
    exact Offers.shift ⟨⟨i, hi, ht, hnot⟩, hs', heq⟩
  | accept haccepts =>
    have heof := (haccepts.symbol?_eq wf).symm.trans ht
    exact Offers.accept hi haccepts (Symbol.terminal.inj (Option.some.inj heof)).symm
  | reduce hcompleted => simp [hcompleted.symbol?_eq] at ht

private theorem override?_eq_some {d : Demands} {t : Nat} {action : Action}
    (h : d.override? g t = some action) :
    action = .error ∨ ∃ r, d.reduction = some r ∧ action = .reduce r := by
  obtain ⟨r, hr, hlast⟩ := Option.bind_eq_some_iff.mp h
  obtain ⟨p, -, hp⟩ := List.mem_filterMap.mp (List.mem_of_getLast? hlast)
  rw [Conflict.override?] at hp
  split at hp
  · exact Or.inr ⟨r, hr, (Option.some.inj hp).symm⟩
  · exact Or.inl (Option.some.inj hp).symm
  · simp at hp
  · simp at hp

/-- Whatever a cell holds rests on an item of the state. -/
theorem offers_of_resolveState (wf : g.WellFormed) (ha : Canonical g a) {s : State}
    (hs : s ∈ a.states) {x : SettledState} (h : resolveState g s = .ok x) {t : Nat}
    {action : Action} (hcell : x.rows.actions[t]? = some action) : Offers g a s t action := by
  obtain ⟨d, hd, hactions, -, -⟩ := resolveState_ok wf ha hs h
  have hreduce : ∀ r, d.reduction = some r → Offers g a s t (.reduce r) := by
    intro r hr
    obtain ⟨i, hi, hcompleted, rfl⟩ := Demands.exists_completed ha hs hd hr
    exact Offers.reduce hi hcompleted
  rw [hactions t, Option.map_eq_some_iff] at hcell
  obtain ⟨cell, hcell, rfl⟩ := hcell
  -- What was decided against the shifts comes first, then the items, then the default.
  cases hover : d.override? g t with
  | some action =>
    rcases override?_eq_some hover with rfl | ⟨r, hr, rfl⟩
    · exact Offers.error
    · exact hreduce r hr
  | none =>
    cases cell with
    | some action =>
      obtain ⟨i, hi, ht⟩ := (hd.actions t action).mp hcell
      exact offers_of_itemAction wf (List.mem_map_of_mem hi) ht (ha.action_of_mem hs hi)
    | none =>
      rw [Option.none_or, Option.getD_none, Demands.defaultAction]
      split
      · rename_i r hr
        exact hreduce r hr
      · exact Offers.error

theorem length_actions_of_resolveState (wf : g.WellFormed) (ha : Canonical g a) {s : State}
    (hs : s ∈ a.states) {x : SettledState} (h : resolveState g s = .ok x) :
    x.rows.actions.length = g.terminals.length := by
  obtain ⟨d, hd, hactions, -, -⟩ := resolveState_ok wf ha hs h
  rw [← hd.length_actions]
  refine le_antisymm ?_ ?_
  -- The row of demands and the settled one have cells at the same places.
  · rw [← List.getElem?_eq_none_iff, hactions, List.getElem?_eq_none le_rfl, Option.map_none]
  · rw [← List.getElem?_eq_none_iff]
    have hnone := hactions x.rows.actions.length
    rw [List.getElem?_eq_none le_rfl, eq_comm, Option.map_eq_none_iff] at hnone
    exact hnone

theorem length_gotos_of_resolveState (wf : g.WellFormed) (ha : Canonical g a) {s : State}
    (hs : s ∈ a.states) {x : SettledState} (h : resolveState g s = .ok x) :
    x.rows.gotos.length = g.nonterminals.length := by
  obtain ⟨d, hd, -, hgotos, -⟩ := resolveState_ok wf ha hs h
  rw [hgotos, List.length_map, hd.length_gotos]

theorem lt_of_goto (wf : g.WellFormed) (ha : Canonical g a) {s : State} (hs : s ∈ a.states)
    {x : SettledState} (h : resolveState g s = .ok x) {b : Nat} {action : Action}
    (hcell : x.rows.gotos[b]? = some action) :
    action = .error ∨ ∃ q, action = .goto q ∧ q < a.states.length := by
  obtain ⟨d, hd, -, hgotos, -⟩ := resolveState_ok wf ha hs h
  rw [hgotos, List.getElem?_map, Option.map_eq_some_iff] at hcell
  obtain ⟨cell, hcell, rfl⟩ := hcell
  cases cell with
  | none => exact Or.inl rfl
  | some action =>
    obtain ⟨i, hi, hb⟩ := (hd.gotos b action).mp hcell
    cases ha.action_of_mem hs hi with
    | @enter symbol q s' hsymbol _ hs' =>
      obtain rfl := Option.some.inj (hsymbol.symm.trans hb)
      exact Or.inr ⟨q, rfl, (List.getElem?_eq_some_iff.mp hs').1⟩
    | accept haccepts => simp [haccepts.symbol?_eq wf, Symbol.eof] at hb
    | reduce hcompleted => simp [hcompleted.symbol?_eq] at hb

theorem goto_of_resolveState (wf : g.WellFormed) (ha : Canonical g a) {s : State}
    (hs : s ∈ a.states) {x : SettledState} (h : resolveState g s = .ok x) {i : Item} {b : Nat}
    (hi : i ∈ s.itemSet) (hb : i.symbol? g = some (.nonterminal b)) :
    ∃ q s', x.rows.gotos[b]? = some (.goto q) ∧ Edge g a s (.nonterminal b) q s' := by
  obtain ⟨d, hd, -, hgotos, -⟩ := resolveState_ok wf ha hs h
  obtain ⟨action, hentry, hitem⟩ := ha.exists_action hs hi
  have hcell := (hd.gotos b action).mpr ⟨i, hentry, hb⟩
  have hgoto : x.rows.gotos[b]? = some action := by
    rw [hgotos, List.getElem?_map, hcell]
    rfl
  cases hitem with
  | @enter symbol q s' hsymbol hnot hs' hkernel heq =>
    obtain rfl := Option.some.inj (hsymbol.symm.trans hb)
    exact ⟨q, s', hgoto, ⟨i, hi, hb, hnot⟩, hs', heq⟩
  | accept haccepts => simp [haccepts.symbol?_eq wf, Symbol.eof] at hb
  | reduce hcompleted => simp [hcompleted.symbol?_eq] at hb

/-! ## States without conflicts -/

section NoConflicts

variable {s : State} {x : SettledState}

theorem shifts_eq_nil {d : Demands} {r : Nat} (hr : d.reduction = some r)
    (h : (d.reduction.map fun rule ↦ d.shifts.map (conflictOf g s.id rule)).getD [] = []) :
    d.shifts = [] := by
  rw [hr, Option.map_some, Option.getD_some] at h
  exact List.map_eq_nil_iff.mp h

theorem override?_eq_none {d : Demands}
    (h : (d.reduction.map fun rule ↦ d.shifts.map (conflictOf g s.id rule)).getD [] = [])
    (t : Nat) : d.override? g t = none := by
  rw [Demands.override?]
  cases hr : d.reduction with
  | none => rfl
  | some r =>
    rw [shifts_eq_nil hr h]
    rfl

/-- Where nothing had to be settled, every item that reads a terminal has its way. -/
theorem action_of_reads (wf : g.WellFormed) (ha : Canonical g a) (hs : s ∈ a.states)
    (h : resolveState g s = .ok x) (hnone : x.conflicts = []) {i : Item} {t : Nat}
    {action : Action} (hi : i ∈ s.itemSet) (ht : i.symbol? g = some (.terminal t))
    (hitem : ItemAction g a (itemsOf s.itemSet) i action) :
    x.rows.actions[t]? = some action := by
  obtain ⟨d, hd, hactions, -, hconflicts⟩ := resolveState_ok wf ha hs h
  obtain ⟨action', hentry, hitem'⟩ := ha.exists_action hs hi
  obtain rfl := ha.action_unique wf hs hi hi hitem hitem' rfl
  have hcell := (hd.actions t action).mpr ⟨i, hentry, ht⟩
  rw [hactions, hcell, override?_eq_none (hconflicts.symm.trans hnone)]
  rfl

/-- Where nothing had to be settled, a rule that has been read is reduced on every terminal, except
that on the end of input an accept item comes first. -/
theorem action_of_completed (wf : g.WellFormed) (ha : Canonical g a) (hs : s ∈ a.states)
    (h : resolveState g s = .ok x) (hnone : x.conflicts = []) {i : Item} {t : Nat}
    (hi : i ∈ s.itemSet) (hcompleted : i.Completed g) (ht : t < g.terminals.length) :
    x.rows.actions[t]? = some (.reduce i.rule) ∨
      ∃ j ∈ s.itemSet, j.Accepts g ∧ t = 0 ∧ x.rows.actions[t]? = some (.accept j.rule) := by
  obtain ⟨d, hd, hactions, -, hconflicts⟩ := resolveState_ok wf ha hs h
  have hempty := hconflicts.symm.trans hnone
  obtain ⟨action, hentry, hitem⟩ := ha.exists_action hs hi
  obtain rfl := ha.action_unique wf hs hi hi hitem (ItemAction.reduce hcompleted) rfl
  have hr : d.reduction = some i.rule := (hd.reduction_iff _).mpr ⟨i, hentry⟩
  have hlt : t < d.actions.length := hd.length_actions ▸ ht
  rw [hactions, override?_eq_none hempty, List.getElem?_eq_getElem hlt]
  cases hcell : d.actions[t] with
  | none =>
    rw [Option.map_some, Option.none_or, Option.getD_none, Demands.defaultAction, hr]
    exact Or.inl rfl
  | some action =>
    obtain ⟨j, hj, hread⟩ := (hd.actions t action).mp (by rw [List.getElem?_eq_getElem hlt, hcell])
    rw [Option.map_some, Option.none_or, Option.getD_some]
    cases ha.action_of_mem hs hj with
    | @enter symbol q s' hsymbol =>
      -- A shift would have been settled against the reduction.
      obtain rfl := Option.some.inj (hsymbol.symm.trans hread)
      have hshift : (j, t) ∈ d.shifts := by
        rw [hd.shifts_eq, List.mem_filterMap]
        exact ⟨_, hj, by simp [shiftOf?, Automaton.enter, hread]⟩
      rw [shifts_eq_nil hr hempty] at hshift
      simp at hshift
    | accept haccepts =>
      have heof := (haccepts.symbol?_eq wf).symm.trans hread
      exact Or.inr ⟨j, List.mem_map_of_mem hj, haccepts,
        (Symbol.terminal.inj (Option.some.inj heof)).symm, rfl⟩
    | reduce hcompleted' => simp [hcompleted'.symbol?_eq] at hread

end NoConflicts

/-! ## All states -/

theorem resolveStates_ok {states states' : List State} {r : Resolved}
    (h : resolveStates g states = (states', .ok r)) :
    r.rows.length = states.length ∧ ∀ (n : Nat) (s : State), states[n]? = some s →
      ∃ x, resolveState g s = .ok x ∧ r.rows[n]? = some x.rows ∧ x.conflicts ⊆ r.conflicts := by
  induction states generalizing states' r with
  | nil =>
    obtain ⟨-, hr⟩ := Prod.mk.inj h
    obtain rfl := Except.ok.inj hr
    simp
  | cons s states ih =>
    rw [resolveStates] at h
    split at h
    · simp at h
    · rename_i x hx
      cases hrest : resolveStates g states with
      | mk rest result =>
        rw [hrest] at h
        obtain ⟨-, hr⟩ := Prod.mk.inj h
        cases result with
        | error e => simp [Except.map] at hr
        | ok r' =>
          obtain rfl := Except.ok.inj hr
          obtain ⟨hlength, hstates⟩ := ih hrest
          refine ⟨by rw [List.length_cons, List.length_cons, hlength], fun n s' hn ↦ ?_⟩
          cases n with
          | zero =>
            obtain rfl := Option.some.inj hn
            exact ⟨x, hx, rfl, List.subset_append_left _ _⟩
          | succ n =>
            obtain ⟨x', hx', hrow, hsub⟩ := hstates n s' hn
            exact ⟨x', hx', hrow, List.subset_append_of_subset_right _ hsub⟩

/-- No rule is found missing in the end if the rows of each state complete none but rules that there
are. -/
theorem find?_usedRules_eq_none {states states' : List State} {r : Resolved}
    (h : resolveStates g states = (states', .ok r))
    (hknown : ∀ s ∈ states, ∀ x, resolveState g s = .ok x → ∀ action ∈ x.rows.actions, ∀ rule,
      completedRule? action = some rule → (g.rule? rule).isSome) :
    (usedRules r.rows).find? (fun rule ↦ g.rule? rule = none) = none := by
  rw [List.find?_eq_none]
  intro rule hrule
  obtain ⟨row, hrow, hused⟩ := List.mem_flatMap.mp hrule
  obtain ⟨action, haction, hcompleted⟩ := List.mem_filterMap.mp hused
  obtain ⟨hlength, hstates⟩ := resolveStates_ok h
  obtain ⟨n, hn⟩ := List.mem_iff_getElem?.mp hrow
  have hlt : n < states.length := hlength ▸ (List.getElem?_eq_some_iff.mp hn).1
  obtain ⟨x, hx, hrow', -⟩ := hstates n _ (List.getElem?_eq_getElem hlt)
  obtain rfl := Option.some.inj (hrow'.symm.trans hn)
  have hsome := hknown _ (List.getElem_mem hlt) x hx action haction rule hcompleted
  simpa using Option.isSome_iff_ne_none.mp hsome

/-- Every state of a settled automaton has its rows, and no conflict is forgotten. -/
theorem resolve_ok {r : Resolved} (h : (resolve g a).2 = .ok r) :
    r.rows.length = a.states.length ∧ ∀ (n : Nat) (s : State), a.states[n]? = some s →
      ∃ x, resolveState g s = .ok x ∧ r.rows[n]? = some x.rows ∧ x.conflicts ⊆ r.conflicts := by
  rw [resolve] at h
  obtain ⟨r', hr', hmatch⟩ := bind_eq_ok.mp h
  split at hmatch
  · simp at hmatch
  · obtain rfl := Except.ok.inj hmatch
    exact resolveStates_ok (Prod.ext rfl hr')

theorem exists_state_of_mem_rows {r : Resolved} (h : (resolve g a).2 = .ok r) {row : Rows}
    (hrow : row ∈ r.rows) : ∃ s ∈ a.states, ∃ x, resolveState g s = .ok x ∧ x.rows = row := by
  obtain ⟨hlength, hstates⟩ := resolve_ok h
  obtain ⟨n, hn⟩ := List.mem_iff_getElem?.mp hrow
  have hlt : n < a.states.length := hlength ▸ (List.getElem?_eq_some_iff.mp hn).1
  obtain ⟨x, hx, hrow', -⟩ := hstates n _ (List.getElem?_eq_getElem hlt)
  exact ⟨_, List.getElem_mem hlt, x, hx, Option.some.inj (hrow'.symm.trans hn)⟩

end ShiftReduce.Conflict
