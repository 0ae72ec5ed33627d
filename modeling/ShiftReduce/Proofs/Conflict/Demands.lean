import ShiftReduce.Conflict.Basic
import ShiftReduce.Proofs.Automaton.Collection

/-!
# What the items of a state ask for

In a state of the canonical automaton, items that read the same symbol ask for the same action
(`Automaton.Canonical.action_unique`), so it does not matter in which order the items are taken up:
a cell holds an action exactly when some item that reads its symbol asks for it.

## The invariant

`Demands.Gathered` describes the demands of the items treated so far: both rows, the rule that the
state reduces by, and the items that shift. A row is described column by column (`Asked`), and
taking up an item touches one column at most. If an item before has filled that column, it was with
the same action, so that nothing is lost (`Asked.set`).

## One item

There is a lemma for each kind of item, by what it reads: a terminal, a non-terminal, or nothing.
`gathered_demand` puts them together, and `gathered_demands` is what all items of a state ask for.
-/

namespace ShiftReduce

namespace Automaton

variable {g : Grammar} {a : Automaton}

theorem Canonical.action_of_mem (ha : Canonical g a) {s : State} (hs : s ∈ a.states) {i : Item}
    {action : Action} (hi : (i, some action) ∈ s.items) :
    ItemAction g a (itemsOf s.itemSet) i action := by
  obtain ⟨action', haction, h⟩ := ha.action s hs i _ hi
  obtain rfl := Option.some.inj haction
  exact h

theorem Canonical.exists_action (ha : Canonical g a) {s : State} (hs : s ∈ a.states) {i : Item}
    (hi : i ∈ s.itemSet) :
    ∃ action, (i, some action) ∈ s.items ∧ ItemAction g a (itemsOf s.itemSet) i action := by
  obtain ⟨⟨_, o⟩, hentry, rfl⟩ := List.mem_map.mp hi
  obtain ⟨action, rfl, h⟩ := ha.action s hs _ o hentry
  exact ⟨action, hentry, h⟩

theorem Canonical.eq_of_symbol?_eq (wf : g.WellFormed) (ha : Canonical g a) {s : State}
    (hs : s ∈ a.states) {i j : Item} (hi : i ∈ s.itemSet) (hj : j ∈ s.itemSet)
    (hsymbol : i.symbol? g = j.symbol? g) (h : i.Accepts g ∨ i.symbol? g = none) : i = j := by
  have hreachable := (ha.mem_iff _).mp ⟨s, hs, rfl⟩
  have hunambiguous := ha.unambiguous s hs
  by_contra hne
  rcases h with haccepts | hnone
  · exact hunambiguous (Or.inr ⟨i, hi, j, hj, hne, haccepts, hsymbol ▸ haccepts.symbol?_eq wf⟩)
  · have hi' := (hreachable.placed wf i hi).completed hnone
    have hj' := (hreachable.placed wf j hj).completed (hsymbol ▸ hnone)
    exact hunambiguous (Or.inl ⟨i, hi, j, hj, hne, hi', hj'⟩)

/-- What an item of a state asks for depends only on the symbol that it reads. -/
theorem Canonical.action_unique (wf : g.WellFormed) (ha : Canonical g a) {s : State}
    (hs : s ∈ a.states) {i j : Item} {action action' : Action} (hi : i ∈ s.itemSet)
    (hj : j ∈ s.itemSet) (h : ItemAction g a (itemsOf s.itemSet) i action)
    (h' : ItemAction g a (itemsOf s.itemSet) j action')
    (hsymbol : i.symbol? g = j.symbol? g) : action = action' := by
  -- Only items that enter a state share their symbol with others.
  cases h with
  | enter hi' hnot ht _ heq =>
    cases h' with
    | enter hj' _ ht' _ heq' =>
      obtain rfl := Option.some.inj (hi'.symm.trans (hsymbol.trans hj'))
      rw [ha.injective _ _ _ _ ht ht' (heq.trans heq'.symm)]
    | accept haccepts =>
      obtain rfl := ha.eq_of_symbol?_eq wf hs hj hi hsymbol.symm (Or.inl haccepts)
      exact absurd haccepts hnot
    | reduce hcompleted =>
      rw [hi', hcompleted.symbol?_eq] at hsymbol
      simp at hsymbol
  | accept haccepts =>
    obtain rfl := ha.eq_of_symbol?_eq wf hs hi hj hsymbol (Or.inl haccepts)
    cases h' with
    | enter _ hnot => exact absurd haccepts hnot
    | accept => rfl
    | reduce hcompleted => exact absurd haccepts (hcompleted.not_accepts wf)
  | reduce hcompleted =>
    obtain rfl := ha.eq_of_symbol?_eq wf hs hi hj hsymbol (Or.inr hcompleted.symbol?_eq)
    cases h' with
    | enter hj' => simp [hcompleted.symbol?_eq] at hj'
    | accept haccepts => exact absurd haccepts (hcompleted.not_accepts wf)
    | reduce => rfl

end Automaton

namespace Conflict

open Automaton (Canonical ItemAction)

variable {g : Grammar} {a : Automaton}

/-! ## Rows being filled -/

/-- A row that holds, in each column, the action of the items treated so far that read the column's
symbol. -/
def Asked (reads : Item → Nat → Prop) (done : List (Item × Option Action))
    (row : List (Option Action)) : Prop :=
  ∀ k action, row[k]? = some (some action) ↔ ∃ i, (i, some action) ∈ done ∧ reads i k

section Asked

variable {reads : Item → Nat → Prop} {done : List (Item × Option Action)}
  {row : List (Option Action)} {i : Item} {action : Action}

theorem asked_replicate (n : Nat) : Asked reads [] (List.replicate n none) := by
  intro k action
  simp [List.getElem?_replicate]

theorem exists_mem_append_singleton {P : Item → Prop} {action' : Action} :
    (∃ j, (j, some action') ∈ done ++ [(i, some action)] ∧ P j) ↔
      (∃ j, (j, some action') ∈ done ∧ P j) ∨ (action' = action ∧ P i) := by
  constructor
  · rintro ⟨j, hj, hP⟩
    rcases List.mem_append.mp hj with hj | hj
    · exact Or.inl ⟨j, hj, hP⟩
    · obtain ⟨rfl, heq⟩ := Prod.mk.inj (List.mem_singleton.mp hj)
      exact Or.inr ⟨Option.some.inj heq, hP⟩
  · rintro (⟨j, hj, hP⟩ | ⟨rfl, hP⟩)
    · exact ⟨j, List.mem_append_left _ hj, hP⟩
    · exact ⟨i, List.mem_append_right _ List.mem_cons_self, hP⟩

theorem Asked.skip (h : Asked reads done row) (hskip : ∀ k, ¬reads i k) :
    Asked reads (done ++ [(i, some action)]) row := by
  intro k action'
  rw [h k action', exists_mem_append_singleton]
  simp [hskip k]

/-- An item fills the column it reads, which the items before it, if they read it, have filled with
the same action. -/
theorem Asked.set (h : Asked reads done row) {k : Nat} (hk : k < row.length)
    (hreads : ∀ l, reads i l ↔ l = k)
    (hsame : ∀ j action', (j, some action') ∈ done → reads j k → action' = action) :
    Asked reads (done ++ [(i, some action)]) (row.set k (some action)) := by
  intro l action'
  rw [exists_mem_append_singleton, hreads l, List.getElem?_set]
  by_cases hkl : k = l
  · subst hkl
    rw [if_pos rfl, if_pos hk]
    constructor
    · intro heq
      exact Or.inr ⟨(Option.some.inj (Option.some.inj heq)).symm, rfl⟩
    · rintro (⟨j, hj, hread⟩ | ⟨rfl, -⟩)
      · rw [hsame j action' hj hread]
      · rfl
  · rw [if_neg hkl, h l action']
    constructor
    · exact Or.inl
    · rintro (hdone | ⟨-, rfl⟩)
      · exact hdone
      · exact absurd rfl hkl

/-- A column that no item reads is left empty. -/
theorem Asked.getElem?_of_unread (h : Asked reads done row) {k : Nat} (hk : k < row.length)
    (hunread : ∀ j action', (j, some action') ∈ done → ¬reads j k) : row[k]? = some none := by
  rw [List.getElem?_eq_getElem hk]
  cases hcell : row[k] with
  | none => rfl
  | some action' =>
    obtain ⟨j, hj, hread⟩ := (h k action').mp (by rw [List.getElem?_eq_getElem hk, hcell])
    exact absurd hread (hunread j action' hj)

end Asked

/-! ## The demands of a state -/

def shiftOf? (g : Grammar) : Item × Option Action → Option (Item × Nat)
  | (i, some (.shift _)) =>
    match i.symbol? g with
    | some (.terminal t) => some (i, t)
    | _ => none
  | _ => none

/-- What the items treated so far ask for. -/
structure Demands.Gathered (g : Grammar) (done : List (Item × Option Action)) (d : Demands) :
    Prop where
  length_actions : d.actions.length = g.terminals.length
  length_gotos : d.gotos.length = g.nonterminals.length
  actions : Asked (fun i t ↦ i.symbol? g = some (.terminal t)) done d.actions
  gotos : Asked (fun i b ↦ i.symbol? g = some (.nonterminal b)) done d.gotos
  reduction_iff : ∀ r, d.reduction = some r ↔ ∃ i, (i, some (.reduce r)) ∈ done
  shifts_eq : d.shifts = done.filterMap (shiftOf? g)

theorem gathered_empty (g : Grammar) : (Demands.empty g).Gathered g [] where
  length_actions := List.length_replicate
  length_gotos := List.length_replicate
  actions := asked_replicate _
  gotos := asked_replicate _
  reduction_iff := by simp [Demands.empty]
  shifts_eq := rfl

section Gathered

variable {done : List (Item × Option Action)} {d : Demands} {i : Item} {action : Action}

theorem Demands.Gathered.reduction_iff_append (hd : d.Gathered g done)
    (haction : ∀ r, action ≠ .reduce r) (r : Nat) :
    d.reduction = some r ↔ ∃ j, (j, some (.reduce r)) ∈ done ++ [(i, some action)] := by
  rw [hd.reduction_iff r]
  constructor
  · rintro ⟨j, hj⟩
    exact ⟨j, List.mem_append_left _ hj⟩
  · rintro ⟨j, hj⟩
    rcases List.mem_append.mp hj with hj | hj
    · exact ⟨j, hj⟩
    · obtain ⟨-, heq⟩ := Prod.mk.inj (List.mem_singleton.mp hj)
      exact absurd (Option.some.inj heq).symm (haction r)

theorem Demands.Gathered.terminal (wf : g.WellFormed) (hd : d.Gathered g done) {t : Nat}
    (hsymbol : i.symbol? g = some (.terminal t)) (haction : ∀ r, action ≠ .reduce r)
    (hsame : ∀ j action', (j, some action') ∈ done → j.symbol? g = i.symbol? g →
      action' = action) :
    Demands.Gathered g (done ++ [(i, some action)]) { d with
      actions := d.actions.set t (some action)
      shifts := d.shifts ++ (shiftOf? g (i, some action)).toList } := by
  refine ⟨?_, hd.length_gotos, ?_, ?_, hd.reduction_iff_append haction, ?_⟩
  · rw [List.length_set]
    exact hd.length_actions
  · refine hd.actions.set (hd.length_actions ▸ Item.terminal_lt wf hsymbol) ?_ ?_
    · simp [hsymbol, eq_comm]
    · intro j action' hj hread
      exact hsame j action' hj (hread.trans hsymbol.symm)
  · exact hd.gotos.skip (by simp [hsymbol])
  · rw [List.filterMap_append, ← hd.shifts_eq]
    cases h : shiftOf? g (i, some action) <;> simp [h]

theorem Demands.Gathered.nonterminal (wf : g.WellFormed) (hd : d.Gathered g done) {b : Nat}
    (hsymbol : i.symbol? g = some (.nonterminal b)) (haction : ∀ r, action ≠ .reduce r)
    (hsame : ∀ j action', (j, some action') ∈ done → j.symbol? g = i.symbol? g →
      action' = action) :
    Demands.Gathered g (done ++ [(i, some action)])
      { d with gotos := d.gotos.set b (some action) } := by
  refine ⟨hd.length_actions, ?_, ?_, ?_, hd.reduction_iff_append haction, ?_⟩
  · rw [List.length_set]
    exact hd.length_gotos
  · exact hd.actions.skip (by simp [hsymbol])
  · refine hd.gotos.set (hd.length_gotos ▸ Item.nonterminal_lt wf hsymbol) ?_ ?_
    · simp [hsymbol, eq_comm]
    · intro j action' hj hread
      exact hsame j action' hj (hread.trans hsymbol.symm)
  · have hnone : shiftOf? g (i, some action) = none := by
      cases action <;> simp [shiftOf?, hsymbol]
    rw [List.filterMap_append, ← hd.shifts_eq]
    simp [hnone]

theorem Demands.Gathered.reduce (hd : d.Gathered g done) (hsymbol : i.symbol? g = none) {r : Nat}
    (hall : ∀ r', d.reduction = some r' → r' = r) :
    Demands.Gathered g (done ++ [(i, some (.reduce r))]) { d with reduction := some r } := by
  refine ⟨hd.length_actions, hd.length_gotos, ?_, ?_, fun r' ↦ ?_, ?_⟩
  · exact hd.actions.skip (by simp [hsymbol])
  · exact hd.gotos.skip (by simp [hsymbol])
  · constructor
    · intro hr
      obtain rfl := Option.some.inj hr
      exact ⟨i, List.mem_append_right _ List.mem_cons_self⟩
    · rintro ⟨j, hj⟩
      rcases List.mem_append.mp hj with hj | hj
      · rw [hall r' ((hd.reduction_iff r').mpr ⟨j, hj⟩)]
      · obtain ⟨-, heq⟩ := Prod.mk.inj (List.mem_singleton.mp hj)
        rw [Action.reduce.inj (Option.some.inj heq)]
  · rw [List.filterMap_append, ← hd.shifts_eq]
    simp [shiftOf?]

/-- Taking up an item of a state. What the items before it have put in its column is the action it
asks for itself. -/
theorem gathered_demand (wf : g.WellFormed) (ha : Canonical g a) {s : State} (hs : s ∈ a.states)
    {x : Item × Option Action} {d' : Demands} (hdone : done ++ [x] ⊆ s.items)
    (hd : d.Gathered g done) (h : demand g s d x = .ok d') : d'.Gathered g (done ++ [x]) := by
  obtain ⟨i, o⟩ := x
  have hentry : (i, o) ∈ s.items := hdone (by simp)
  obtain ⟨action, rfl, hitem⟩ := ha.action s hs i o hentry
  have himem : i ∈ s.itemSet := List.mem_map_of_mem hentry
  have hsame : ∀ j action', (j, some action') ∈ done → j.symbol? g = i.symbol? g →
      action' = action := by
    intro j action' hj hsymbol
    have hj' : (j, some action') ∈ s.items := hdone (List.mem_append_left _ hj)
    exact ha.action_unique wf hs (List.mem_map_of_mem hj') himem (ha.action_of_mem hs hj') hitem
      hsymbol
  cases hitem with
  | @enter symbol q t hsymbol =>
    cases symbol with
    | terminal t =>
      simp only [Automaton.enter, demand, hsymbol] at h
      obtain rfl := Except.ok.inj h
      simpa [shiftOf?, Automaton.enter, hsymbol] using
        hd.terminal wf hsymbol (by simp [Automaton.enter]) hsame
    | nonterminal b =>
      simp only [Automaton.enter, demand, hsymbol] at h
      obtain rfl := Except.ok.inj h
      exact hd.nonterminal wf hsymbol (by simp [Automaton.enter]) hsame
  | accept haccepts =>
    have hsymbol := haccepts.symbol?_eq wf
    rw [Symbol.eof] at hsymbol
    simp only [demand, hsymbol] at h
    obtain rfl := Except.ok.inj h
    simpa [shiftOf?] using hd.terminal wf hsymbol (by simp) hsame
  | reduce hcompleted =>
    simp only [demand] at h
    split at h
    · rename_i hall
      obtain rfl := Except.ok.inj h
      refine hd.reduce hcompleted.symbol?_eq fun r hr ↦ ?_
      rw [hr] at hall
      simpa using hall
    · simp at h

end Gathered

theorem gathered_demands (wf : g.WellFormed) (ha : Canonical g a) {s : State}
    (hs : s ∈ a.states) {d : Demands} (h : demands g s = .ok d) : d.Gathered g s.items := by
  refine foldlM_ok (P := fun done d ↦ done ⊆ s.items → d.Gathered g done) h
    (fun _ ↦ gathered_empty g) ?_ (List.Subset.refl _)
  intro done x d d' hd hstep hdone
  exact gathered_demand wf ha hs hdone (hd (List.append_subset.mp hdone).1) hstep

end Conflict

end ShiftReduce
