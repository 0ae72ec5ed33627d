import ShiftReduce.Conflict.Report
import ShiftReduce.Proofs.Conflict.Cells

/-!
# Settling is local

What settling an automaton leaves behind can be said without following the loops. A state has at
most one rule to reduce by (`State.reduction?`) and a list of items that shift (`State.shifts`). If
it has a rule, each shift is compared with it: the comparisons are the conflicts of the state
(`State.conflicts`), and the items whose shift lost carry another action afterwards
(`State.settled`). Nothing else changes, and no action is passed over because it does not fit its
item.

## The loops

Settling goes through the shifts of a state one after another and changes the state as it goes, but
each shift changes the action of its own item only. So what an item carries after some of the shifts
can be read off those shifts (`carry`), and one shift more is one `carry_append_singleton`. Over the
states there is nothing to carry: each is settled by itself (`exists_resolve_eq`).

## The result

`settling_local` says it of whole automata: items, numbers of states and all actions but those of
losing items are kept, and an item that lost carries the recorded outcome.
-/

namespace ShiftReduce

open Automaton (Canonical ItemAction)

variable {g : Grammar} {a : Automaton} {s : State}

/-! ## What a state has to settle -/

namespace Item

instance (g : Grammar) (i : Item) : Decidable (i.Completed g) :=
  decidable_of_iff
    ((g.rule? i.rule).any (fun rule ↦ !rule.accept && i.position = rule.rhs.length) = true)
    (by simp [Completed, Option.any_eq_true])

instance (g : Grammar) (i : Item) : Decidable (i.Accepts g) :=
  decidable_of_iff
    ((g.rule? i.rule).any (fun rule ↦ rule.accept && i.position + 1 = rule.rhs.length) = true)
    (by simp [Accepts, Option.any_eq_true])

/-- The terminal that an item shifts, if it shifts one. -/
def shifted? (g : Grammar) (i : Item) : Option Nat :=
  match i.symbol? g with
  | some (.terminal t) => if i.Accepts g then none else some t
  | _ => none

theorem shifted?_eq_some {i : Item} {t : Nat} :
    i.shifted? g = some t ↔ i.symbol? g = some (.terminal t) ∧ ¬i.Accepts g := by
  rw [shifted?]
  split
  · rename_i t' hread
    by_cases haccepts : i.Accepts g <;> simp [hread, haccepts]
  · rename_i hread
    refine ⟨nofun, fun h ↦ absurd h.1 (hread t)⟩

end Item

namespace State

/-- The rule that a state has read to its end, if there is one. -/
def reduction? (g : Grammar) (s : State) : Option Nat :=
  (s.itemSet.find? fun i ↦ i.Completed g).map Item.rule

/-- The items of a state that shift, in order, with their terminals. -/
def shifts (g : Grammar) (s : State) : List (Item × Nat) :=
  s.itemSet.filterMap fun i ↦ (i.shifted? g).map (i, ·)

/-- The comparisons made in a state: one for each shift, if there is a rule to reduce by. -/
def conflicts (g : Grammar) (s : State) : List Conflict :=
  match s.reduction? g with
  | none => []
  | some rule => (s.shifts g).map (Conflict.conflictOf g s.id rule)

/-- An entry after `shifts` have been settled against a rule: an item among them that lost carries
the action that won. -/
def carry (g : Grammar) (rule : Nat) (shifts : List (Item × Nat)) (e : Item × Option Action) :
    Item × Option Action :=
  (e.1, if shifts.any (·.1 = e.1) then (Conflict.override? g rule e.1).or e.2 else e.2)

/-- A state all of whose shifts have been settled. -/
def settled (g : Grammar) (s : State) : State :=
  match s.reduction? g with
  | none => s
  | some rule => ⟨s.id, s.items.map (carry g rule (s.shifts g))⟩

theorem mem_shifts {i : Item} {t : Nat} :
    (i, t) ∈ s.shifts g ↔ i ∈ s.itemSet ∧ i.symbol? g = some (.terminal t) ∧ ¬i.Accepts g := by
  rw [shifts, List.mem_filterMap]
  constructor
  · rintro ⟨j, hj, hshifted⟩
    obtain ⟨t', ht', heq⟩ := Option.map_eq_some_iff.mp hshifted
    obtain ⟨rfl, rfl⟩ := Prod.mk.inj heq
    exact ⟨hj, Item.shifted?_eq_some.mp ht'⟩
  · rintro ⟨hi, hread⟩
    exact ⟨i, hi, by rw [Item.shifted?_eq_some.mpr hread, Option.map_some]⟩

theorem exists_completed_of_reduction? {r : Nat} (h : s.reduction? g = some r) :
    ∃ i ∈ s.itemSet, i.Completed g ∧ i.rule = r := by
  obtain ⟨i, hi, hrule⟩ := Option.map_eq_some_iff.mp h
  exact ⟨i, List.mem_of_find?_eq_some hi, by simpa using List.find?_some hi, hrule⟩

theorem not_completed_of_reduction? (h : s.reduction? g = none) :
    ∀ i ∈ s.itemSet, ¬i.Completed g := by
  rw [reduction?, Option.map_eq_none_iff, List.find?_eq_none] at h
  simpa using h

end State

namespace Conflict

/-! ## The demands of a state, by its items -/

section Gathered

variable {d : Demands}

theorem Demands.Gathered.reduction_eq (wf : g.WellFormed) (ha : Canonical g a)
    (hs : s ∈ a.states) (hd : d.Gathered g s.items) : d.reduction = s.reduction? g := by
  cases hr : s.reduction? g with
  | none => exact hd.reduction_eq_none ha hs (State.not_completed_of_reduction? hr)
  | some r =>
    obtain ⟨i, hi, hcompleted, rfl⟩ := State.exists_completed_of_reduction? hr
    exact hd.reduction_eq_some wf ha hs hi hcompleted

/-- An item carries a shift exactly if it reads a terminal and does not accept. -/
theorem shiftOf?_eq (wf : g.WellFormed) (ha : Canonical g a) (hs : s ∈ a.states)
    {e : Item × Option Action} (he : e ∈ s.items) :
    shiftOf? g e = (e.1.shifted? g).map (e.1, ·) := by
  obtain ⟨i, o⟩ := e
  obtain ⟨action, rfl, hitem⟩ := ha.action s hs i o he
  cases hitem with
  | @enter symbol q s' hread hnot =>
    cases symbol with
    | terminal t => simp [shiftOf?, Item.shifted?, Automaton.enter, hread, hnot]
    | nonterminal b => simp [shiftOf?, Item.shifted?, Automaton.enter, hread]
  | accept haccepts =>
    have hread := haccepts.symbol?_eq wf
    rw [Symbol.eof] at hread
    simp [shiftOf?, Item.shifted?, hread, haccepts]
  | reduce hcompleted => simp [shiftOf?, Item.shifted?, hcompleted.symbol?_eq]

theorem Demands.Gathered.shifts_eq_shifts (wf : g.WellFormed) (ha : Canonical g a)
    (hs : s ∈ a.states) (hd : d.Gathered g s.items) : d.shifts = s.shifts g := by
  rw [hd.shifts_eq, State.shifts, State.itemSet, List.filterMap_map]
  exact List.filterMap_congr fun e he ↦ shiftOf?_eq wf ha hs he

end Gathered

/-! ## The state left behind -/

private theorem state_settleShift (rule : Nat) (x : Settlement) (p : Item × Nat) :
    (settleShift g rule x p).state
      = match Conflict.override? g rule p.1 with
        | some action => x.state.setAction p.1 action
        | none => x.state := by
  rw [settleShift, Conflict.override?]
  split <;> simp_all

/-- With one shift more, the action of that item is the only one that can change. -/
theorem carry_append_singleton (rule : Nat) (shifts : List (Item × Nat)) (p : Item × Nat)
    (e : Item × Option Action) :
    State.carry g rule (shifts ++ [p]) e
      = (e.1, if p.1 = e.1 then (Conflict.override? g rule e.1).or e.2
          else (State.carry g rule shifts e).2) := by
  rw [State.carry, State.carry, List.any_append]
  by_cases hep : p.1 = e.1
  · rw [if_pos (by simp [hep]), if_pos hep]
  · rw [if_neg hep, List.any_cons, decide_eq_false hep, List.any_nil, Bool.or_self, Bool.or_false]

private theorem setAction_eq (s : State) (i : Item) (action : Action) : s.setAction i action
    = ⟨s.id, s.items.map fun e ↦ (e.1, if e.1 = i then some action else e.2)⟩ := by
  refine congrArg (State.mk _) (List.map_congr_left fun e _ ↦ ?_)
  show (if e.1 = i then _ else _) = _
  split <;> rfl

/-- The shifts settled in turn: an item that is among them and loses carries what won. -/
theorem state_foldl_settleShift (rule : Nat) (x : Settlement) (shifts : List (Item × Nat)) :
    (shifts.foldl (settleShift g rule) x).state
      = ⟨x.state.id, x.state.items.map (State.carry g rule shifts)⟩ := by
  -- It does not matter how often an item is in the list: settled again, it comes to the same.
  induction shifts using List.reverseRecOn with
  | nil =>
    have hid : State.carry g rule [] = id := rfl
    rw [hid, List.map_id]
    rfl
  | append_singleton shifts p ih =>
    rw [List.foldl_append, List.foldl_cons, List.foldl_nil, state_settleShift, ih]
    cases hover : Conflict.override? g rule p.1 with
    | none =>
      refine congrArg (State.mk _) (List.map_congr_left fun e _ ↦ ?_)
      rw [carry_append_singleton]
      by_cases hep : p.1 = e.1
      · rw [if_pos hep, State.carry, ← hep, hover, Option.none_or, ite_self]
      · rw [if_neg hep]
        rfl
    | some action =>
      show State.setAction _ _ _ = _
      rw [setAction_eq, List.map_map]
      refine congrArg (State.mk _) (List.map_congr_left fun e _ ↦ ?_)
      rw [carry_append_singleton]
      show (e.1, if e.1 = p.1 then some action else (State.carry g rule shifts e).2) = _
      by_cases hep : p.1 = e.1
      · rw [if_pos hep.symm, if_pos hep, ← hep, hover, Option.some_or]
      · rw [if_neg (Ne.symm hep), if_neg hep]

private theorem settleAll_state (s : State) (d : Demands) (hr : d.reduction = s.reduction? g)
    (hshifts : d.shifts = s.shifts g) : (settleAll g s d).state = s.settled g := by
  rw [settleAll, State.settled, hr, hshifts]
  cases s.reduction? g with
  | none => rfl
  | some rule => exact state_foldl_settleShift _ _ _

private theorem exists_resolveState_eq (wf : g.WellFormed) (ha : Canonical g a)
    (hs : s ∈ a.states) :
    ∃ rows, resolveState g s = .ok ⟨s.settled g, rows, s.conflicts g⟩ := by
  obtain ⟨x, hx⟩ := exists_resolveState_eq_ok wf ha hs
  suffices hparts : x.state = s.settled g ∧ x.conflicts = s.conflicts g by
    exact ⟨x.rows, by rw [hx, ← hparts.1, ← hparts.2]⟩
  obtain ⟨d, hd, rfl⟩ := exists_demands_of_resolveState hx
  have hgathered := gathered_demands wf ha hs hd
  have hr := hgathered.reduction_eq wf ha hs
  have hshifts := hgathered.shifts_eq_shifts wf ha hs
  refine ⟨settleAll_state s d hr hshifts, ?_⟩
  show (settleAll g s d).conflicts = _
  rw [settleAll_conflicts, State.conflicts, hr, hshifts]
  cases s.reduction? g <;> rfl

/-! ## All states -/

private theorem exists_resolveStates_eq {states : List State}
    (h : ∀ s ∈ states, ∃ rows, resolveState g s = .ok ⟨s.settled g, rows, s.conflicts g⟩) :
    ∃ rows, resolveStates g states
      = (states.map (State.settled g), .ok ⟨rows, states.flatMap (State.conflicts g)⟩) := by
  induction states with
  | nil => exact ⟨[], rfl⟩
  | cons s states ih =>
    obtain ⟨row, hrow⟩ := h s List.mem_cons_self
    obtain ⟨rows, hrows⟩ := ih fun s' hs' ↦ h s' (List.mem_cons_of_mem _ hs')
    refine ⟨row :: rows, ?_⟩
    simp only [resolveStates, hrow, hrows, Except.map, List.map_cons, List.flatMap_cons]

/-- Every state is settled by itself, and the conflicts are those of the states, in order. -/
theorem exists_resolve_eq (wf : g.WellFormed) (ha : Canonical g a) :
    ∃ rows, resolve g a = (⟨a.states.map (State.settled g)⟩,
      .ok ⟨rows, a.states.flatMap (State.conflicts g)⟩) := by
  obtain ⟨rows, hrows⟩ := exists_resolveStates_eq fun s hs ↦ exists_resolveState_eq wf ha hs
  obtain ⟨r, hr⟩ := exists_resolve_eq_ok wf ha
  refine ⟨rows, ?_⟩
  -- All rules in sight are known, so the result is that of the states.
  rw [resolve, hrows] at hr ⊢
  obtain ⟨r', hr', hmatch⟩ := bind_eq_ok.mp hr
  obtain rfl := Except.ok.inj hr'
  split at hmatch
  · simp at hmatch
  · rename_i hfind
    show (_, Except.bind _ _) = _
    simp only [Except.bind, hfind]

/-! ## Items passed over -/

/-- An item of a state carries an action of the kind that its symbol calls for. -/
theorem fits_of_mem (wf : g.WellFormed) (ha : Canonical g a) (hs : s ∈ a.states)
    {e : Item × Option Action} (he : e ∈ s.items) :
    ∃ action, e.2 = some action ∧ fits action (e.1.symbol? g) = true := by
  obtain ⟨action, haction, hitem⟩ := ha.action s hs e.1 e.2 he
  refine ⟨action, haction, ?_⟩
  cases hitem with
  | @enter symbol q s' hread =>
    rw [hread]
    cases symbol <;> rfl
  | accept haccepts =>
    rw [haccepts.symbol?_eq wf]
    rfl
  | reduce => simp [fits]

private theorem passedOver_eq_nil {entries : List (Item × Option Action)}
    (h : ∀ e ∈ entries, ∃ action, e.2 = some action ∧ fits action (e.1.symbol? g) = true)
    (d : Demands) : passedOver g s entries d = [] := by
  induction entries generalizing d with
  | nil => rfl
  | cons e entries ih =>
    obtain ⟨i, o⟩ := e
    obtain ⟨action, haction, hfits⟩ := h (i, o) List.mem_cons_self
    simp only at haction hfits
    subst haction
    rw [passedOver]
    split
    · rfl
    · simp only [hfits, if_true, List.nil_append]
      exact ih (fun e he ↦ h e (List.mem_cons_of_mem _ he)) _

/-! ## Items that lost -/

/-- The conflict is that between the shift of an item and the rule that its state reduces by. -/
structure Concerns (g : Grammar) (s : State) (i : Item) (c : Conflict) : Prop where
  state_eq : c.state = s.id
  shifts : (i, c.terminal) ∈ s.shifts g
  shiftRule_eq : c.shiftRule = i.rule
  reduction?_eq : s.reduction? g = some c.reduceRule

end Conflict

namespace State

variable {i : Item} {rule t : Nat}

theorem itemSet_settled (g : Grammar) (s : State) : (s.settled g).itemSet = s.itemSet := by
  rw [settled]
  split
  · rfl
  · rw [itemSet, itemSet, List.map_map]
    rfl

private theorem id_settled (g : Grammar) (s : State) : (s.settled g).id = s.id := by
  rw [settled]
  split <;> rfl

theorem action?_settled (hr : s.reduction? g = some rule) (hi : i ∈ s.itemSet) :
    (s.settled g).action? i
      = if (s.shifts g).any (·.1 = i) then (Conflict.override? g rule i).or (s.action? i)
        else s.action? i := by
  have hfind : (s.items.map (carry g rule (s.shifts g))).find? (·.1 = i)
      = (s.items.find? (·.1 = i)).map (carry g rule (s.shifts g)) := List.find?_map
  obtain ⟨e, he, rfl⟩ := List.mem_map.mp hi
  obtain ⟨e', he'⟩ : ∃ e', s.items.find? (·.1 = e.1) = some e' := by
    rw [← Option.isSome_iff_exists, List.find?_isSome]
    exact ⟨e, he, by simp⟩
  have heq : e'.1 = e.1 := by simpa using List.find?_some he'
  rw [settled, hr, action?, action?, hfind, he', Option.map_some, Option.map_some, Option.map_some,
    Option.join_some, Option.join_some, carry, heq]

theorem action?_eq_none (hi : i ∉ s.itemSet) : s.action? i = none := by
  have hfind : s.items.find? (·.1 = i) = none := by
    rw [List.find?_eq_none]
    intro e he heq
    exact hi (List.mem_map.mpr ⟨e, he, of_decide_eq_true heq⟩)
  rw [action?, hfind]
  rfl

/-- What settling does to a state, given the conflicts found: it keeps the items, and an item has
another action only if it lost a conflict. -/
structure AltersLosers (g : Grammar) (conflicts : List Conflict) (s s' : State) : Prop where
  id_eq : s'.id = s.id
  itemSet_eq : s'.itemSet = s.itemSet
  /-- An action that is another than before is that of an item that lost. -/
  lost : ∀ i, s'.action? i ≠ s.action? i →
    ∃ c ∈ conflicts, c.Concerns g s i ∧ (c.resolution = .reduce ∨ c.resolution = .error)
  /-- An item that lost to the rule reduces by it. -/
  reduce : ∀ c ∈ conflicts, ∀ i, c.Concerns g s i → c.resolution = .reduce →
    s'.action? i = some (.reduce c.reduceRule)
  /-- An item on a level that does not group is an error. -/
  error : ∀ c ∈ conflicts, ∀ i, c.Concerns g s i → c.resolution = .error →
    s'.action? i = some .error

end State

namespace Conflict

theorem override?_eq_some_iff {rule : Nat} {i : Item} {action : Action} :
    override? g rule i = some action ↔
      (settle g i.rule rule = .reduce ∧ action = .reduce rule) ∨
        (settle g i.rule rule = .error ∧ action = .error) := by
  rw [override?]
  cases settle g i.rule rule <;> simp [eq_comm]

/-- A recorded conflict has been settled by precedence. -/
theorem resolution_of_mem {c : Conflict} (hc : c ∈ a.states.flatMap (State.conflicts g)) :
    c.resolution = settle g c.shiftRule c.reduceRule := by
  obtain ⟨s, -, hc⟩ := List.mem_flatMap.mp hc
  rw [State.conflicts] at hc
  split at hc
  · simp at hc
  · obtain ⟨p, -, rfl⟩ := List.mem_map.mp hc
    rfl

/-- A shift in a state with a rule to reduce by has its conflict on record. -/
theorem exists_concerns (hs : s ∈ a.states) {i : Item} {rule t : Nat}
    (hr : s.reduction? g = some rule) (hi : (i, t) ∈ s.shifts g) :
    ∃ c ∈ a.states.flatMap (State.conflicts g), c.Concerns g s i ∧
      c.resolution = settle g i.rule rule := by
  refine ⟨conflictOf g s.id rule (i, t), List.mem_flatMap.mpr ⟨s, hs, ?_⟩, ⟨rfl, hi, rfl, hr⟩, rfl⟩
  rw [State.conflicts, hr]
  exact List.mem_map_of_mem hi

theorem action?_of_concerns {c : Conflict} {i : Item} (h : c.Concerns g s i) {action : Action}
    (hover : override? g c.reduceRule i = some action) :
    (s.settled g).action? i = some action := by
  have hi : i ∈ s.itemSet := (State.mem_shifts.mp h.shifts).1
  rw [State.action?_settled h.reduction?_eq hi,
    if_pos (List.any_eq_true.mpr ⟨_, h.shifts, by simp⟩), hover, Option.some_or]

private theorem altersLosers_settled (hs : s ∈ a.states) :
    State.AltersLosers g (a.states.flatMap (State.conflicts g)) s (s.settled g) where
  id_eq := State.id_settled g s
  itemSet_eq := State.itemSet_settled g s
  lost := by
    intro i hne
    have hi : i ∈ s.itemSet := by
      by_contra hi
      have hi' : i ∉ (s.settled g).itemSet := by rwa [State.itemSet_settled]
      exact hne (by rw [State.action?_eq_none hi, State.action?_eq_none hi'])
    -- Only an item that shifts, and lost to the rule that the state reduces by, is left.
    cases hr : s.reduction? g with
    | none =>
      rw [State.settled, hr] at hne
      exact absurd rfl hne
    | some rule =>
      rw [State.action?_settled hr hi] at hne
      by_cases hshift : (s.shifts g).any (·.1 = i)
      · obtain ⟨⟨j, t⟩, hp, heq⟩ := List.any_eq_true.mp hshift
        obtain rfl : j = i := of_decide_eq_true heq
        obtain ⟨c, hc, hconcerns, hresolution⟩ := exists_concerns hs hr hp
        refine ⟨c, hc, hconcerns, ?_⟩
        rw [if_pos hshift] at hne
        cases hover : override? g rule j with
        | none =>
          rw [hover, Option.none_or] at hne
          exact absurd rfl hne
        | some action =>
          rw [hresolution]
          exact (override?_eq_some_iff.mp hover).imp And.left And.left
      · rw [if_neg hshift] at hne
        exact absurd rfl hne
  reduce := by
    intro c hc i h hresolution
    rw [resolution_of_mem hc, h.shiftRule_eq] at hresolution
    exact action?_of_concerns h (override?_eq_some_iff.mpr (Or.inl ⟨hresolution, rfl⟩))
  error := by
    intro c hc i h hresolution
    rw [resolution_of_mem hc, h.shiftRule_eq] at hresolution
    exact action?_of_concerns h (override?_eq_some_iff.mpr (Or.inr ⟨hresolution, rfl⟩))

/-- **Settling is total and local.** A built automaton is settled without an error; every item
carries an action that fits its symbol, so that none is passed over; and the states that are left
behind differ from those before only in the actions of items that lost a recorded conflict. -/
theorem settling_local {d : Declarations} (hd : d.build = .ok g)
    (hbuild : Automaton.build g = .ok a) :
    ∃ a' r, resolve g a = (a', .ok r) ∧
      (∀ s ∈ a.states, (∀ e ∈ s.items, ∃ action, e.2 = some action ∧
        fits action (e.1.symbol? g) = true) ∧ passedOver g s s.items (.empty g) = []) ∧
      List.Forall₂ (State.AltersLosers g r.conflicts) a.states a'.states := by
  have wf := Declarations.wellFormed_of_build hd
  have ha := Automaton.canonical_of_build wf hbuild
  obtain ⟨rows, hresolve⟩ := exists_resolve_eq wf ha
  refine ⟨_, _, hresolve, fun s hs ↦ ?_, ?_⟩
  · have hfits := fun e he ↦ fits_of_mem wf ha hs (e := e) he
    exact ⟨hfits, passedOver_eq_nil hfits _⟩
  · rw [List.forall₂_map_right_iff, List.forall₂_same]
    exact fun s hs ↦ altersLosers_settled hs

/-- Differences, which group to the left, and comparisons, which do not group. -/
def comparisons : Declarations where
  terminals := ["n", "<", "-"].map fun name ↦ { name, pattern := none, code := none }
  precedence := [⟨"nonassoc", ["<"]⟩, ⟨"left", ["-"]⟩]
  rules :=
    [{ lhs := "S", rhs := ["E", "EOF"] }, { lhs := "E", rhs := ["E", "<", "E"] },
      { lhs := "E", rhs := ["E", "-", "E"] }, { lhs := "E", rhs := ["n"] }]
  accepts := ["S"]

def comparisonsGrammar : Grammar :=
  okValue comparisons.build (by decide +kernel)

def comparisonsAutomaton : Automaton :=
  okValue (Automaton.build comparisonsGrammar) (by decide +kernel)

theorem settling_local_comparisons :
    comparisons.build = .ok comparisonsGrammar ∧
    Automaton.build comparisonsGrammar = .ok comparisonsAutomaton ∧
    ∃ a' r, resolve comparisonsGrammar comparisonsAutomaton = (a', .ok r) ∧
      a' ≠ comparisonsAutomaton ∧
      r.conflicts.map (·.resolution) = [.error, .shift, .reduce, .reduce] ∧
      List.Forall₂ (State.AltersLosers comparisonsGrammar r.conflicts)
        comparisonsAutomaton.states a'.states := by
  have hg : comparisons.build = .ok comparisonsGrammar := eq_ok_okValue _
  have ha : Automaton.build comparisonsGrammar = .ok comparisonsAutomaton := eq_ok_okValue _
  obtain ⟨a', r, hresolve, -, hstates⟩ := settling_local hg ha
  have hne : (resolve comparisonsGrammar comparisonsAutomaton).1 ≠ comparisonsAutomaton := by
    decide +kernel
  have hconflicts : (resolve comparisonsGrammar comparisonsAutomaton).2.map
      (·.conflicts.map (·.resolution)) = .ok [.error, .shift, .reduce, .reduce] := by
    decide +kernel
  rw [hresolve] at hne hconflicts
  exact ⟨hg, ha, a', r, hresolve, hne, Except.ok.inj hconflicts, hstates⟩

end Conflict

end ShiftReduce
