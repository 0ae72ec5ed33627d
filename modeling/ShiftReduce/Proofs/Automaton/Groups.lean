import ShiftReduce.Automaton.Build
import ShiftReduce.Proofs.Automaton.Reachable

/-!
# Giving the groups of a state their actions

A group of items that read one symbol is known by its items alone: a group that occurs in two states
gets one action. What makes this sound is an invariant of the search.

## The invariant

`Frontier.Sound` says that the groups met so far are all different, that each of them is the part of
some reachable set that reads a symbol, and that the `k`-th of them (from 0) was promised state
`k + 1`. The kernels of all states, visited or not, can then be read off the groups met (`kernels`),
and the pending ones are those behind the states visited.

## One visit

`groupAction?_ok` is the step: a group gets the action that `Decides` allows, and the frontier stays
sound. That an action is right is said relative to the groups met, and stays so as more are met
(`Decides.mono`). A group without an action makes its set ambiguous (`ambiguous_of_groupAction?`).
What a visit comes to as a whole follows in the module on the search.
-/

namespace ShiftReduce

/-! ## Groups of a state -/

namespace State

variable {g : Grammar} {items : List Item} {key : GroupKey} {i : Item}

theorem ofItem_eq_symbol {s : Symbol} :
    GroupKey.ofItem g i = .symbol s ↔ i.symbol? g = some s := by
  rw [GroupKey.ofItem]
  split <;> simp_all

theorem ofItem_eq_completed : GroupKey.ofItem g i = .completed ↔ i.symbol? g = none := by
  rw [GroupKey.ofItem]
  split <;> simp_all

theorem mem_groupItems : i ∈ groupItems g items key ↔ i ∈ items ∧ GroupKey.ofItem g i = key := by
  rw [groupItems, List.mem_filter, decide_eq_true_iff]

theorem groupHasMore_iff {group : List Item} :
    groupHasMore g group = true ↔ ∀ i ∈ group, i.hasMore g = true := by
  rw [groupHasMore, List.all_eq_true]

theorem mem_groupKeys (wf : g.WellFormed) (i : Item) : GroupKey.ofItem g i ∈ groupKeys g := by
  simp only [groupKeys, List.mem_append, List.mem_map, List.mem_range, List.mem_singleton]
  cases hs : i.symbol? g with
  | none => exact Or.inr (ofItem_eq_completed.mpr hs)
  | some s =>
    rw [ofItem_eq_symbol.mpr hs]
    cases s with
    | terminal t => exact Or.inl (Or.inl ⟨t, Item.terminal_lt wf hs, rfl⟩)
    | nonterminal a => exact Or.inl (Or.inr ⟨a, Item.nonterminal_lt wf hs, rfl⟩)

theorem mem_groups {s : State} {group : List Item} :
    (key, group) ∈ s.groups g ↔
      key ∈ groupKeys g ∧ group = groupItems g s.itemSet key ∧ group ≠ [] := by
  simp only [groups, List.mem_filter, List.mem_map, Prod.mk.injEq, decide_eq_true_iff]
  constructor
  · rintro ⟨⟨k, hk, rfl, rfl⟩, hne⟩
    exact ⟨hk, rfl, hne⟩
  · rintro ⟨hk, rfl, hne⟩
    exact ⟨⟨key, hk, rfl, rfl⟩, hne⟩

theorem foldl_setAction (s : State) (group : List Item) (action : Action) :
    group.foldl (fun s item ↦ s.setAction item action) s
      = { s with items := s.items.map fun p ↦ if p.1 ∈ group then (p.1, some action) else p } := by
  induction group generalizing s with
  | nil => simp
  | cons i group ih =>
    rw [List.foldl_cons, ih, setAction, State.mk.injEq, List.map_map]
    refine ⟨rfl, List.map_congr_left fun p _ ↦ ?_⟩
    by_cases hpi : p.1 = i <;> simp [hpi]

end State

namespace Automaton

open State (GroupKey groupItems groupHasMore)

variable {g : Grammar}

/-! ## What is known -/

/-- A group of items that read `s` and have more to read. -/
structure Reads (g : Grammar) (s : Symbol) (group : List Item) : Prop where
  ne_nil : group ≠ []
  ascending : AscendingItems group
  placed : ∀ i ∈ group, i.Placed g
  symbol?_eq : ∀ i ∈ group, i.symbol? g = some s
  hasMore : ∀ i ∈ group, i.hasMore g = true

/-- The kernels of all states, in the order of their numbers: the first, and one for each group
met. The latest group stands first. -/
def kernels (g : Grammar) (known : List (List Item × Action)) : List (List Item) :=
  startKernel g :: known.reverse.map fun p ↦ p.1.map Item.advance

/-- The frontier after `n` states have been visited, or the last of them is being visited. -/
structure Frontier.Sound (g : Grammar) (n : Nat) (f : Frontier) : Prop where
  le_length : n ≤ (kernels g f.known).length
  pending_eq : f.pending = (kernels g f.known).drop n
  nodup : (f.known.map Prod.fst).Nodup
  entry : ∀ k group action, f.known.reverse[k]? = some (group, action) → ∃ s I,
    Reads g s group ∧ Item.Reachable g I ∧
      itemsOf (group.map Item.advance) = Item.advanced g I s ∧ action = enter (k + 1) s

/-- The right action of a group, given the groups met. -/
inductive Decides (g : Grammar) (known : List (List Item × Action)) (key : GroupKey)
    (group : List Item) (action : Action) : Prop
  /-- The group reads a symbol and enters a state. -/
  | enter {s : Symbol} : Reads g s group → key = .symbol s → (group, action) ∈ known →
      Decides g known key group action
  /-- The group is a single item with nothing left to read. -/
  | finish {i : Item} {rule : Rule} : group = [i] → ¬i.hasMore g = true →
      g.rule? i.rule = some rule →
      action = (if rule.accept then .accept rule.number else .reduce rule.number) →
      Decides g known key group action

theorem Decides.mono {known known' : List (List Item × Action)} {key : GroupKey}
    {group : List Item} {action : Action} (h : Decides g known key group action)
    (hle : known <:+ known') : Decides g known' key group action := by
  cases h with
  | enter hreads hkey hmem => exact Decides.enter hreads hkey (hle.subset hmem)
  | finish hgroup hmore hrule haction => exact Decides.finish hgroup hmore hrule haction

theorem length_kernels (known : List (List Item × Action)) :
    (kernels g known).length = known.length + 1 := by
  simp [kernels]

theorem kernels_cons (p : List Item × Action) (known : List (List Item × Action)) :
    kernels g (p :: known) = kernels g known ++ [p.1.map Item.advance] := by
  simp [kernels]

theorem getElem?_kernels_mono {known known' : List (List Item × Action)} (hle : known <:+ known')
    {k : Nat} {kernel : List Item} (h : (kernels g known)[k]? = some kernel) :
    (kernels g known')[k]? = some kernel := by
  obtain ⟨later, rfl⟩ := hle
  have hlt := (List.getElem?_eq_some_iff.mp h).1
  have happend : kernels g (later ++ known)
      = kernels g known ++ later.reverse.map fun p ↦ p.1.map Item.advance := by
    simp [kernels]
  rw [happend, List.getElem?_append_left hlt, h]

theorem kernels_succ (known : List (List Item × Action)) (k : Nat) :
    (kernels g known)[k + 1]? = known.reverse[k]?.map fun p ↦ p.1.map Item.advance := by
  rw [kernels, List.getElem?_cons_succ, List.getElem?_map]

theorem Frontier.Sound.entry_of_mem {n : Nat} {f : Frontier} (hf : f.Sound g n)
    {group : List Item} {action : Action} (h : (group, action) ∈ f.known) :
    ∃ k s I, f.known.reverse[k]? = some (group, action) ∧ Reads g s group ∧ Item.Reachable g I ∧
      itemsOf (group.map Item.advance) = Item.advanced g I s ∧
      action = Automaton.enter (k + 1) s := by
  obtain ⟨k, hk⟩ := List.mem_iff_getElem?.mp (List.mem_reverse.mpr h)
  obtain ⟨s, I, hentry⟩ := hf.entry k group action hk
  exact ⟨k, s, I, hk, hentry⟩

/-! ## One group -/

/-- The items that a visit works on: an ascending list whose set is reachable. -/
structure Visitable (g : Grammar) (items : List Item) : Prop where
  ascending : AscendingItems items
  reachable : Item.Reachable g (itemsOf items)
  placed : ∀ i ∈ items, i.Placed g

section Group

variable {items group : List Item} {key : GroupKey} {f f' : Frontier} {n : Nat} {action : Action}

theorem Visitable.reads {s : Symbol} (hv : Visitable g items)
    (hne : groupItems g items (.symbol s) ≠ [])
    (hmore : groupHasMore g (groupItems g items (.symbol s)) = true) :
    Reads g s (groupItems g items (.symbol s)) where
  ne_nil := hne
  ascending := hv.ascending.filter _
  placed := fun i hi ↦ hv.placed i (State.mem_groupItems.mp hi).1
  symbol?_eq := fun _ hi ↦ State.ofItem_eq_symbol.mp (State.mem_groupItems.mp hi).2
  hasMore := State.groupHasMore_iff.mp hmore

/-- A group that can read its symbol, advanced, is what the set leads to on that symbol. -/
theorem itemsOf_map_advance {s : Symbol}
    (hmore : groupHasMore g (groupItems g items (.symbol s)) = true) :
    itemsOf ((groupItems g items (.symbol s)).map Item.advance)
      = Item.advanced g (itemsOf items) s := by
  ext j
  rw [mem_itemsOf, List.mem_map]
  constructor
  · rintro ⟨i, hi, rfl⟩
    obtain ⟨hmem, hkey⟩ := State.mem_groupItems.mp hi
    have hs := State.ofItem_eq_symbol.mp hkey
    refine Item.mem_advanced hmem hs ((Item.hasMore_iff_not_accepts hs).mp ?_)
    exact State.groupHasMore_iff.mp hmore i hi
  · rintro ⟨i, hi, hs, -, rfl⟩
    exact ⟨i, State.mem_groupItems.mpr ⟨hi, State.ofItem_eq_symbol.mpr hs⟩, rfl⟩

private theorem completedAction?_eq_some (h : completedAction? g group = some action) :
    ∃ i rule, group = [i] ∧ g.rule? i.rule = some rule ∧
      action = (if rule.accept then .accept rule.number else .reduce rule.number) := by
  unfold completedAction? at h
  split at h
  · rename_i i
    obtain ⟨rule, hrule, haction⟩ := Option.map_eq_some_iff.mp h
    exact ⟨i, rule, rfl, hrule, haction.symm⟩
  · simp at h

theorem Frontier.Sound.meet {s : Symbol} (hf : f.Sound g n) (hv : Visitable g items)
    (hne : groupItems g items (.symbol s) ≠ [])
    (hmore : groupHasMore g (groupItems g items (.symbol s)) = true)
    (hnew : f.known.lookup (groupItems g items (.symbol s)) = none) :
    Frontier.Sound g n
      { pending := f.pending ++ [(groupItems g items (.symbol s)).map Item.advance]
        known := (groupItems g items (.symbol s), Automaton.enter (n + f.pending.length) s)
          :: f.known } where
  le_length := by
    rw [kernels_cons, List.length_append]
    exact Nat.le_add_right_of_le hf.le_length
  pending_eq := by
    rw [kernels_cons, List.drop_append_of_le_length hf.le_length, hf.pending_eq]
  nodup := by
    rw [List.map_cons, List.nodup_cons]
    refine ⟨fun hmem ↦ ?_, hf.nodup⟩
    obtain ⟨p, hp, heq⟩ := List.mem_map.mp hmem
    have hdiff := List.lookup_eq_none_iff.mp hnew p hp
    rw [heq] at hdiff
    simp at hdiff
  entry := by
    intro k group action hk
    rw [List.reverse_cons] at hk
    rcases Nat.lt_or_ge k f.known.reverse.length with hlt | hge
    · rw [List.getElem?_append_left hlt] at hk
      exact hf.entry k group action hk
    · rw [List.getElem?_append_right hge, List.getElem?_singleton] at hk
      split at hk
      · rename_i hzero
        obtain ⟨rfl, rfl⟩ := Prod.mk.inj (Option.some.inj hk)
        refine ⟨s, itemsOf items, hv.reads hne hmore, hv.reachable, itemsOf_map_advance hmore, ?_⟩
        have hlen := hf.le_length
        rw [length_kernels] at hlen
        rw [List.length_reverse] at hge hzero
        rw [hf.pending_eq, List.length_drop, length_kernels,
          show n + (f.known.length + 1 - n) = k + 1 by omega]
      · simp at hk

/-- A group gets an action that is right for it, and the frontier stays sound. -/
theorem groupAction?_ok (hf : f.Sound g (n + 1)) (hv : Visitable g items)
    (hne : groupItems g items key ≠ [])
    (h : groupAction? g n f key (groupItems g items key) = some (action, f')) :
    f'.Sound g (n + 1) ∧ f.known <:+ f'.known ∧
      Decides g f'.known key (groupItems g items key) action := by
  obtain ⟨i, hi⟩ := List.exists_mem_of_ne_nil _ hne
  obtain ⟨himem, hikey⟩ := State.mem_groupItems.mp hi
  have hfinish : ∀ f'', ¬groupHasMore g (groupItems g items key) = true →
      (completedAction? g (groupItems g items key)).map (·, f'') = some (action, f') →
        f'' = f' ∧ Decides g f'.known key (groupItems g items key) action := by
    intro f'' hmore hmap
    obtain ⟨action', hcompleted, heq⟩ := Option.map_eq_some_iff.mp hmap
    obtain ⟨rfl, rfl⟩ := Prod.mk.inj heq
    obtain ⟨j, rule, hgroup, hrule, haction⟩ := completedAction?_eq_some hcompleted
    refine ⟨rfl, Decides.finish hgroup (fun hj ↦ hmore ?_) hrule haction⟩
    rw [State.groupHasMore_iff, hgroup]
    simpa using hj
  -- The group has been met before, or it is new and has its symbol to read, or nothing to read.
  unfold groupAction? at h
  split at h
  · rename_i action' hlookup
    obtain ⟨rfl, rfl⟩ := Prod.mk.inj (Option.some.inj h)
    obtain ⟨l, l', hknown, -⟩ := List.lookup_eq_some_iff.mp hlookup
    have hmem : (groupItems g items key, action') ∈ f.known := hknown ▸ by simp
    obtain ⟨k, s, I, -, hreads, -⟩ := hf.entry_of_mem hmem
    refine ⟨hf, List.suffix_refl _, Decides.enter hreads ?_ hmem⟩
    rw [← hikey, State.ofItem_eq_symbol.mpr (hreads.symbol?_eq i hi)]
  · rename_i hlookup
    split at h
    · rename_i s
      split at h
      · rename_i hmore
        obtain ⟨rfl, rfl⟩ := Prod.mk.inj (Option.some.inj h)
        exact ⟨hf.meet hv hne hmore hlookup, List.suffix_cons _ _,
          Decides.enter (hv.reads hne hmore) rfl List.mem_cons_self⟩
      · rename_i hmore
        obtain ⟨rfl, hdecides⟩ := hfinish f hmore h
        exact ⟨hf, List.suffix_refl _, hdecides⟩
    · have hnone := State.ofItem_eq_completed.mp hikey
      have hmore := ((hv.placed i himem).completed hnone).not_hasMore
      obtain ⟨rfl, hdecides⟩ := hfinish f (fun hall ↦ hmore (State.groupHasMore_iff.mp hall i hi)) h
      exact ⟨hf, List.suffix_refl _, hdecides⟩

/-- Only a lone item whose rule is known has an action when there is nothing to read. -/
theorem exists_ne_of_completedAction?_eq_none (hne : group ≠ [])
    (hknown : ∀ i ∈ group, ∃ rule, g.rule? i.rule = some rule)
    (h : completedAction? g group = none) {i : Item} (hi : i ∈ group) (hnodup : group.Nodup) :
    ∃ j ∈ group, i ≠ j := by
  match group, hne with
  | [j], _ =>
    obtain ⟨rule, hrule⟩ := hknown j List.mem_cons_self
    simp [completedAction?, hrule] at h
  | j :: k :: rest, _ =>
    have hjk : j ≠ k := fun heq ↦ (List.nodup_cons.mp hnodup).1 (heq ▸ List.mem_cons_self)
    by_cases hij : i = j
    · exact ⟨k, by simp, hij ▸ hjk⟩
    · exact ⟨j, List.mem_cons_self, hij⟩

theorem ambiguous_of_groupAction? (wf : g.WellFormed) (hv : Visitable g items)
    (hne : groupItems g items key ≠ [])
    (h : groupAction? g n f key (groupItems g items key) = none) :
    Item.Ambiguous g (itemsOf items) := by
  have hplaced : ∀ i ∈ groupItems g items key, i.Placed g :=
    fun i hi ↦ hv.placed i (State.mem_groupItems.mp hi).1
  have hother : ∀ i ∈ groupItems g items key, completedAction? g (groupItems g items key) = none →
      ∃ j ∈ groupItems g items key, i ≠ j := by
    intro i hi hnone
    refine exists_ne_of_completedAction?_eq_none hne (fun j hj ↦ ?_) hnone hi
      (hv.ascending.filter _).nodup
    obtain ⟨rule, hrule, -⟩ := hplaced j hj
    exact ⟨rule, hrule⟩
  unfold groupAction? at h
  split at h
  · simp at h
  · rename_i hlookup
    split at h
    · rename_i s
      split at h
      · simp at h
      · rename_i hmore
        -- Some item of the group is an accept item before the end of input, and it is not alone.
        rw [Option.map_eq_none_iff] at h
        rw [State.groupHasMore_iff] at hmore
        push Not at hmore
        obtain ⟨i, hi, hmore⟩ := hmore
        obtain ⟨j, hj, hij⟩ := hother i hi h
        obtain ⟨hmem, hkey⟩ := State.mem_groupItems.mp hi
        obtain ⟨hmem', hkey'⟩ := State.mem_groupItems.mp hj
        have hs := State.ofItem_eq_symbol.mp hkey
        have haccepts : i.Accepts g := by
          by_contra hnot
          exact hmore ((Item.hasMore_iff_not_accepts hs).mpr hnot)
        have heof : s = .eof := Option.some.inj (hs.symm.trans (haccepts.symbol?_eq wf))
        exact Or.inr ⟨i, hmem, j, hmem', hij, haccepts, heof ▸ State.ofItem_eq_symbol.mp hkey'⟩
    · -- Two rules have been read to their ends.
      rw [Option.map_eq_none_iff] at h
      obtain ⟨i, hi⟩ := List.exists_mem_of_ne_nil _ hne
      obtain ⟨j, hj, hij⟩ := hother i hi h
      obtain ⟨hmem, hkey⟩ := State.mem_groupItems.mp hi
      obtain ⟨hmem', hkey'⟩ := State.mem_groupItems.mp hj
      exact Or.inl ⟨i, hmem, j, hmem', hij,
        (hplaced i hi).completed (State.ofItem_eq_completed.mp hkey),
        (hplaced j hj).completed (State.ofItem_eq_completed.mp hkey')⟩

end Group

end Automaton

end ShiftReduce
