import Mathlib.Data.Finset.Powerset
import ShiftReduce.Proofs.Automaton.Groups

/-!
# The search for states

The search is a loop that visits pending kernels until none is left or a visit gets stuck.
`Explores` is that loop without a bound: a derivation of it is a run that has come to its end, with
a result of every closure that was asked for on the way.

## The bound

The search as it is executed carries a bound, and `exists_construct` says that the bound is never
what stops it. The reason is that the states are one more than the groups met, the groups met are
different nonempty sets of items, and there are only `2 ^ itemCount g - 1` of those.

## The invariant

What a run establishes is `Progress`: the states visited are the closures of the first kernels, and
each of their items has the action that is right given the groups met. One visit keeps it
(`Progress.visit`), and so does a run (`Explores.progress`), which ends with nothing pending or at
an ambiguous set. Every kernel is made of items that stand within rules of the grammar, so closing
it never looks up anything in vain (`Progress.exists_close`).
-/

namespace ShiftReduce.Automaton

open Bits
open State (GroupKey groupItems)

variable {g : Grammar}

/-! ## One visit -/

/-- The actions of a state, right given the groups met. -/
def Settled (g : Grammar) (known : List (List Item × Action)) (s : State) : Prop :=
  ∀ i a, (i, a) ∈ s.items → ∃ action, a = some action ∧
    Decides g known (GroupKey.ofItem g i) (groupItems g s.itemSet (GroupKey.ofItem g i)) action

theorem Settled.mono {known known' : List (List Item × Action)} {s : State}
    (h : Settled g known s) (hle : known <:+ known') : Settled g known' s := by
  intro i a hi
  obtain ⟨action, ha, hdecides⟩ := h i a hi
  exact ⟨action, ha, hdecides.mono hle⟩

theorem itemSet_setActions (s : State) (group : List Item) (action : Action) :
    (group.foldl (fun s item ↦ s.setAction item action) s).itemSet = s.itemSet := by
  rw [State.foldl_setAction, State.itemSet, State.itemSet, List.map_map]
  refine List.map_congr_left fun p _ ↦ ?_
  by_cases h : p.1 ∈ group <;> simp [h]

/-- Groups of the items of a visit, each with its key. -/
def AreGroups (g : Grammar) (items : List Item) (groups : List (GroupKey × List Item)) : Prop :=
  ∀ p ∈ groups, p.2 = groupItems g items p.1 ∧ p.2 ≠ []

/-- Every item of the groups treated has its action, and the other items have what they had. -/
theorem assignGroups_ok {s s' : State} {f f' : Frontier} {groups : List (GroupKey × List Item)}
    (hf : f.Sound g (s.id + 1)) (hv : Visitable g s.itemSet)
    (hgroups : AreGroups g s.itemSet groups) (h : assignGroups g s f groups = (s', some f')) :
    f'.Sound g (s.id + 1) ∧ f.known <:+ f'.known ∧ s'.id = s.id ∧
      s'.itemSet = s.itemSet ∧ ∀ i a, (i, a) ∈ s'.items →
        (∃ action, a = some action ∧ Decides g f'.known (GroupKey.ofItem g i)
          (groupItems g s.itemSet (GroupKey.ofItem g i)) action) ∨
        (GroupKey.ofItem g i ∉ groups.map Prod.fst ∧ (i, a) ∈ s.items) := by
  induction groups generalizing s f with
  | nil =>
    obtain ⟨rfl, hsome⟩ := Prod.mk.inj h
    obtain rfl := Option.some.inj hsome
    exact ⟨hf, List.suffix_refl _, rfl, rfl, fun i a hi ↦ Or.inr ⟨by simp, hi⟩⟩
  | cons p groups ih =>
    obtain ⟨key, group⟩ := p
    obtain ⟨hgroup, hne⟩ := hgroups _ List.mem_cons_self
    simp only at hgroup hne
    subst hgroup
    rw [assignGroups] at h
    split at h
    · simp at h
    · rename_i action f₁ hdecided
      obtain ⟨hf₁, hle₁, hdecides⟩ := groupAction?_ok hf hv hne hdecided
      have hitems := itemSet_setActions s (groupItems g s.itemSet key) action
      obtain ⟨hf', hle', hid, hset, hentries⟩ := ih (s := _) (f := f₁)
        (by rw [State.foldl_setAction]; exact hf₁) (by rw [hitems]; exact hv)
        (by rw [hitems]; exact fun q hq ↦ hgroups q (List.mem_cons_of_mem _ hq)) h
      rw [hitems] at hset hentries
      refine ⟨?_, hle₁.trans hle', ?_, hset, fun i a hi ↦ ?_⟩
      · rw [State.foldl_setAction] at hf'
        exact hf'
      · rw [hid, State.foldl_setAction]
      · rcases hentries i a hi with hdone | ⟨hkey, hi⟩
        · exact Or.inl hdone
        · -- The groups after this one leave the item alone: it is of this one, or as it was.
          rw [State.foldl_setAction, List.mem_map] at hi
          obtain ⟨q, hq, heq⟩ := hi
          split at heq
          · rename_i hmem
            obtain ⟨rfl, rfl⟩ := Prod.mk.inj heq
            obtain ⟨-, hkey'⟩ := State.mem_groupItems.mp hmem
            exact Or.inl ⟨action, rfl, hkey'.symm ▸ hdecides.mono hle'⟩
          · rename_i hmem
            subst heq
            refine Or.inr ⟨fun hcons ↦ ?_, hq⟩
            rcases List.mem_cons.mp hcons with hkey' | hrest
            · exact hmem (State.mem_groupItems.mpr ⟨List.mem_map_of_mem hq, hkey'⟩)
            · exact hkey hrest

/-- A visit that gets stuck does so at an ambiguous set, and leaves the items as they are. -/
theorem ambiguous_of_assignGroups (wf : g.WellFormed) {s s' : State} {f : Frontier}
    {groups : List (GroupKey × List Item)} (hf : f.Sound g (s.id + 1))
    (hv : Visitable g s.itemSet) (hgroups : AreGroups g s.itemSet groups)
    (h : assignGroups g s f groups = (s', none)) :
    s'.itemSet = s.itemSet ∧ Item.Ambiguous g (itemsOf s.itemSet) := by
  induction groups generalizing s f with
  | nil => simp [assignGroups] at h
  | cons p groups ih =>
    obtain ⟨key, group⟩ := p
    obtain ⟨hgroup, hne⟩ := hgroups _ List.mem_cons_self
    simp only at hgroup hne
    subst hgroup
    rw [assignGroups] at h
    split at h
    · rename_i hnone
      obtain ⟨rfl, -⟩ := Prod.mk.inj h
      exact ⟨rfl, ambiguous_of_groupAction? wf hv hne hnone⟩
    · rename_i action f₁ hdecided
      have hitems := itemSet_setActions s (groupItems g s.itemSet key) action
      obtain ⟨hset, hambiguous⟩ := ih (s := _) (f := f₁)
        (by rw [State.foldl_setAction]; exact (groupAction?_ok hf hv hne hdecided).1)
        (by rw [hitems]; exact hv)
        (by rw [hitems]; exact fun q hq ↦ hgroups q (List.mem_cons_of_mem _ hq)) h
      rw [hitems] at hset hambiguous
      exact ⟨hset, hambiguous⟩

/-! ## The loop -/

/-- The runs of the search that have come to an end, and what they found. -/
inductive Explores (g : Grammar) (starts : Closure.Starts g) :
    Mask g.rules.length → List State → Frontier → Construction → Prop
  /-- No kernel is pending. -/
  | done {scratch : Mask g.rules.length} {visited : List State} {f : Frontier} :
      f.pending = [] → Explores g starts scratch visited f { visited, stuck := none }
  /-- A group of the next state has no action. -/
  | stuck {scratch scratch' : Mask g.rules.length} {visited : List State} {f : Frontier}
      {kernel items : List Item} {pending : List (List Item)} {s : State} :
      f.pending = kernel :: pending →
      Closure.close g starts scratch kernel = .ok (items, scratch') →
      assignGroups g (State.ofItems visited.length items) { f with pending }
        ((State.ofItems visited.length items).groups g) = (s, none) →
      Explores g starts scratch visited f { visited, stuck := some s }
  /-- The next state is visited, and the search goes on. -/
  | visit {scratch scratch' : Mask g.rules.length} {visited : List State} {f f' : Frontier}
      {kernel items : List Item} {pending : List (List Item)} {s : State} {c : Construction} :
      f.pending = kernel :: pending →
      Closure.close g starts scratch kernel = .ok (items, scratch') →
      assignGroups g (State.ofItems visited.length items) { f with pending }
        ((State.ofItems visited.length items).groups g) = (s, some f') →
      Explores g starts scratch' (visited ++ [s]) f' c →
      Explores g starts scratch visited f c

/-- How far the loop has come: the states visited and the groups met. -/
structure Progress (g : Grammar) (visited : List State) (f : Frontier) : Prop where
  sound : f.Sound g visited.length
  id_eq : ∀ (n : Nat) (s : State), visited[n]? = some s → s.id = n
  ascending : ∀ s : State, s ∈ visited → AscendingItems s.itemSet
  itemsOf_eq : ∀ (n : Nat) (s : State), visited[n]? = some s → ∃ kernel,
    (kernels g f.known)[n]? = some kernel ∧ itemsOf s.itemSet = Item.closure g (itemsOf kernel)
  settled : ∀ s : State, s ∈ visited → Settled g f.known s

private theorem mem_startKernel (wf : g.WellFormed) {i : Item} :
    i ∈ startKernel g ↔ i ∈ Item.startItems g := by
  simp only [startKernel, Grammar.acceptRules, List.mem_map, List.mem_filter]
  constructor
  · rintro ⟨rule, ⟨hrule, haccept⟩, rfl⟩
    exact ⟨rule.number, rule, wf.rule?_number hrule, haccept, rfl⟩
  · rintro ⟨r, rule, hrule, haccept, rfl⟩
    exact ⟨rule, ⟨Grammar.mem_of_rule? hrule, haccept⟩, by rw [wf.number_eq hrule]⟩

private theorem ascending_startKernel (wf : g.WellFormed) : AscendingItems (startKernel g) := by
  have hnumbers : g.rules.Pairwise fun a b ↦ a.number < b.number := by
    rw [List.pairwise_iff_getElem]
    intro i j hi hj hij
    rw [wf.number_eq (List.getElem?_eq_getElem hi), wf.number_eq (List.getElem?_eq_getElem hj)]
    exact hij
  rw [startKernel, Grammar.acceptRules, AscendingItems, List.pairwise_map]
  exact (hnumbers.filter _).imp fun hlt ↦ Item.lt_iff.mpr (Or.inl hlt)

theorem Frontier.Sound.group_of_kernel {n k : Nat} {f : Frontier} (hf : f.Sound g n)
    {kernel : List Item} (h : (kernels g f.known)[k + 1]? = some kernel) :
    ∃ group action s I, f.known.reverse[k]? = some (group, action) ∧
      kernel = group.map Item.advance ∧ Reads g s group ∧ Item.Reachable g I ∧
      itemsOf kernel = Item.advanced g I s := by
  rw [kernels_succ, Option.map_eq_some_iff] at h
  obtain ⟨⟨group, action⟩, hk, rfl⟩ := h
  obtain ⟨s, I, hreads, hI, hadvanced, -⟩ := hf.entry k group action hk
  exact ⟨group, action, s, I, hk, rfl, hreads, hI, hadvanced⟩

theorem itemsOf_startKernel (wf : g.WellFormed) : itemsOf (startKernel g) = Item.startItems g :=
  Set.ext fun _ ↦ mem_startKernel wf

theorem Reads.nonempty_advanced {s : Symbol} {group : List Item} (h : Reads g s group) :
    (itemsOf (group.map Item.advance)).Nonempty := by
  obtain ⟨i, hi⟩ := List.exists_mem_of_ne_nil _ h.ne_nil
  exact ⟨i.advance, List.mem_map_of_mem hi⟩

theorem Frontier.Sound.reachable (wf : g.WellFormed) {n k : Nat} {f : Frontier}
    (hf : f.Sound g n) {kernel : List Item} (h : (kernels g f.known)[k]? = some kernel) :
    AscendingItems kernel ∧ Item.Reachable g (Item.closure g (itemsOf kernel)) := by
  cases k with
  | zero =>
    obtain rfl := Option.some.inj h
    exact ⟨ascending_startKernel wf, itemsOf_startKernel wf ▸ Item.Reachable.start⟩
  | succ k =>
    obtain ⟨group, action, s, I, -, rfl, hreads, hI, hadvanced⟩ := hf.group_of_kernel h
    have hne := hreads.nonempty_advanced
    refine ⟨hreads.ascending.map_advance, ?_⟩
    rw [hadvanced] at hne ⊢
    exact Item.Reachable.advance hI hne

@[simp] theorem itemSet_ofItems (id : Nat) (items : List Item) :
    (State.ofItems id items).itemSet = items := by
  simp [State.ofItems, State.itemSet, Function.comp_def]

/-- What the next visit starts from. The kernel can be closed, and what it closes to is visitable.
-/
theorem Progress.exists_close (wf : g.WellFormed) {starts : Closure.Starts g}
    (hstarts : starts.Exact) {visited : List State} {f : Frontier} (hp : Progress g visited f)
    {kernel : List Item} {pending : List (List Item)} (hpending : f.pending = kernel :: pending)
    (scratch : Mask g.rules.length) :
    ∃ items scratch', Closure.close g starts scratch kernel = .ok (items, scratch') ∧
      (kernels g f.known)[visited.length]? = some kernel ∧
      Frontier.Sound g (visited.length + 1) { f with pending } ∧ Visitable g items ∧
      itemsOf items = Item.closure g (itemsOf kernel) := by
  have hdrop : (kernels g f.known).drop visited.length = kernel :: pending := by
    rw [← hp.sound.pending_eq, hpending]
  have hget : (kernels g f.known)[visited.length]? = some kernel := by
    rw [← Nat.add_zero visited.length, ← List.getElem?_drop, hdrop, List.getElem?_cons_zero]
  obtain ⟨hascending, hreachable⟩ := hp.sound.reachable wf hget
  have hrules : ∀ i ∈ kernel, i.rule < g.rules.length := by
    intro i hi
    obtain ⟨rule, hrule, -⟩ := hreachable.placed wf i (Item.Closes.kernel (mem_itemsOf.mpr hi))
    exact (List.getElem?_eq_some_iff.mp hrule).1
  obtain ⟨items, scratch', hclose, hitems, hclosure⟩ :=
    Closure.exists_close wf hstarts scratch hrules
  refine ⟨items, scratch', hclose, hget, ⟨?_, ?_, hp.sound.nodup, hp.sound.entry⟩, ?_, hclosure⟩
  · exact (List.getElem?_eq_some_iff.mp hget).1
  · rw [← List.drop_drop, hdrop, List.drop_one, List.tail_cons]
  · rw [← hclosure] at hreachable
    exact ⟨hitems hascending, hreachable, hreachable.placed wf⟩

theorem Progress.of_close (wf : g.WellFormed) {starts : Closure.Starts g}
    (hstarts : starts.Exact) {visited : List State} {f : Frontier} (hp : Progress g visited f)
    {kernel items : List Item} {pending : List (List Item)}
    (hpending : f.pending = kernel :: pending) {scratch scratch' : Mask g.rules.length}
    (hclose : Closure.close g starts scratch kernel = .ok (items, scratch')) :
    (kernels g f.known)[visited.length]? = some kernel ∧
      Frontier.Sound g (visited.length + 1) { f with pending } ∧ Visitable g items ∧
      itemsOf items = Item.closure g (itemsOf kernel) := by
  obtain ⟨items', _, hclose', hrest⟩ := hp.exists_close wf hstarts hpending scratch
  obtain ⟨rfl, -⟩ := Prod.mk.inj (Except.ok.inj (hclose.symm.trans hclose'))
  exact hrest

theorem areGroups_groups (s : State) : AreGroups g s.itemSet (s.groups g) :=
  fun _ hp ↦ (State.mem_groups.mp hp).2

private theorem ofItem_mem_groups (wf : g.WellFormed) {s : State} {i : Item} (hi : i ∈ s.itemSet) :
    GroupKey.ofItem g i ∈ (s.groups g).map Prod.fst := by
  have hmem : i ∈ groupItems g s.itemSet (GroupKey.ofItem g i) :=
    State.mem_groupItems.mpr ⟨hi, rfl⟩
  exact List.mem_map_of_mem
    (State.mem_groups.mpr ⟨State.mem_groupKeys wf i, rfl, List.ne_nil_of_mem hmem⟩)

/-- One visit keeps the invariant. -/
theorem Progress.visit (wf : g.WellFormed) {starts : Closure.Starts g} (hstarts : starts.Exact)
    {visited : List State} {f f' : Frontier} (hp : Progress g visited f)
    {kernel items : List Item} {pending : List (List Item)}
    (hpending : f.pending = kernel :: pending) {scratch scratch' : Mask g.rules.length} {s : State}
    (hclose : Closure.close g starts scratch kernel = .ok (items, scratch'))
    (h : assignGroups g (State.ofItems visited.length items) { f with pending }
      ((State.ofItems visited.length items).groups g) = (s, some f')) :
    Progress g (visited ++ [s]) f' := by
  obtain ⟨hget, hsound, hv, hclosure⟩ := hp.of_close wf hstarts hpending hclose
  obtain ⟨hsound', hle, hid, hset, hentries⟩ :=
    assignGroups_ok hsound (by rwa [itemSet_ofItems]) (areGroups_groups _) h
  rw [itemSet_ofItems] at hset hentries
  refine ⟨?_, fun n t hn ↦ ?_, fun t ht ↦ ?_, fun n t hn ↦ ?_, fun t ht ↦ ?_⟩
  · rw [List.length_append, List.length_singleton]
    exact hsound'
  · rcases getElem?_append_singleton_eq_some hn with hn | ⟨rfl, rfl⟩
    · exact hp.id_eq n t hn
    · exact hid
  · rcases List.mem_append.mp ht with ht | ht
    · exact hp.ascending t ht
    · rw [List.mem_singleton.mp ht, hset]
      exact hv.ascending
  · rcases getElem?_append_singleton_eq_some hn with hn | ⟨rfl, rfl⟩
    · obtain ⟨kernel', hkernel', heq⟩ := hp.itemsOf_eq n t hn
      exact ⟨kernel', getElem?_kernels_mono hle hkernel', heq⟩
    · exact ⟨kernel, getElem?_kernels_mono hle hget, hset ▸ hclosure⟩
  · rcases List.mem_append.mp ht with ht | ht
    · exact (hp.settled t ht).mono hle
    · obtain rfl := List.mem_singleton.mp ht
      intro i a hi
      have hmem : i ∈ t.itemSet := List.mem_map_of_mem hi
      rcases hentries i a hi with hdone | ⟨hkey, -⟩
      · rw [hset]
        exact hdone
      · rw [hset, ← itemSet_ofItems visited.length items] at hmem
        exact absurd (ofItem_mem_groups wf hmem) hkey

theorem progress_start (g : Grammar) : Progress g [] { pending := [startKernel g] } where
  sound := ⟨Nat.zero_le _, rfl, List.nodup_nil, by simp⟩
  id_eq := by simp
  ascending := by simp
  itemsOf_eq := by simp
  settled := by simp

/-- A run keeps the invariant: it ends with nothing pending, or at an ambiguous set. -/
theorem Explores.progress (wf : g.WellFormed) {starts : Closure.Starts g} (hstarts : starts.Exact)
    {scratch : Mask g.rules.length} {visited : List State} {f : Frontier} {c : Construction}
    (h : Explores g starts scratch visited f c) (hp : Progress g visited f) :
    (c.stuck = none ∧ ∃ f', f'.pending = [] ∧ Progress g c.visited f') ∨
      ∃ s, c.stuck = some s ∧ Item.Reachable g (itemsOf s.itemSet) ∧
        Item.Ambiguous g (itemsOf s.itemSet) := by
  induction h with
  | done hpending => exact Or.inl ⟨rfl, _, hpending, hp⟩
  | stuck hpending hclose hassign =>
    obtain ⟨-, hsound, hv, -⟩ := hp.of_close wf hstarts hpending hclose
    obtain ⟨hset, hambiguous⟩ := ambiguous_of_assignGroups wf hsound (by rwa [itemSet_ofItems])
      (areGroups_groups _) hassign
    rw [itemSet_ofItems] at hset hambiguous
    exact Or.inr ⟨_, rfl, hset ▸ hv.reachable, hset ▸ hambiguous⟩
  | visit hpending hclose hassign _ ih => exact ih (hp.visit wf hstarts hpending hclose hassign)

/-! ## The bound -/

/-- All items of a grammar that stand within their rules. -/
def allItems (g : Grammar) : List Item :=
  g.rules.flatMap fun rule ↦ (List.range (rule.rhs.length + 1)).map fun p ↦ ⟨rule.number, p⟩

private theorem length_allItems (g : Grammar) : (allItems g).length = itemCount g := by
  rw [allItems, itemCount]
  induction g.rules with
  | nil => rfl
  | cons rule rules ih =>
    rw [List.flatMap_cons, List.length_append, List.length_map, List.length_range, ih,
      List.foldr_cons]

private theorem mem_allItems (wf : g.WellFormed) {i : Item} (h : i.Placed g) : i ∈ allItems g := by
  obtain ⟨rule, hrule, hle, -⟩ := h
  refine List.mem_flatMap.mpr ⟨rule, Grammar.mem_of_rule? hrule, ?_⟩
  refine List.mem_map.mpr ⟨i.position, ?_, ?_⟩
  · exact List.mem_range.mpr (Nat.lt_succ_of_le hle)
  · rw [wf.number_eq hrule]

/-- There are fewer groups than sets of items, since no group is empty. -/
theorem Frontier.Sound.length_kernels_le (wf : g.WellFormed) {n : Nat} {f : Frontier}
    (hf : f.Sound g n) : (kernels g f.known).length ≤ 2 ^ itemCount g := by
  have hgroup : ∀ group ∈ f.known.map Prod.fst, group ≠ [] ∧ AscendingItems group ∧
      ∀ i ∈ group, i.Placed g := by
    intro group hgroup
    obtain ⟨⟨_, action⟩, hmem, rfl⟩ := List.mem_map.mp hgroup
    obtain ⟨_, _, _, _, hreads, -⟩ := hf.entry_of_mem hmem
    exact ⟨hreads.ne_nil, hreads.ascending, hreads.placed⟩
  -- Ascending lists with the same elements are the same, so groups can be counted as sets.
  have hnodup : ((f.known.map Prod.fst).map List.toFinset).Nodup :=
    hf.nodup.map_on fun a ha b hb ↦
      AscendingItems.toFinset_inj (hgroup a ha).2.1 (hgroup b hb).2.1
  have hsubset : ((f.known.map Prod.fst).map List.toFinset).toFinset
      ⊆ (allItems g).toFinset.powerset.erase ∅ := by
    intro set hset
    obtain ⟨group, hmem, rfl⟩ := List.mem_map.mp (List.mem_toFinset.mp hset)
    obtain ⟨hne, -, hplaced⟩ := hgroup group hmem
    rw [Finset.mem_erase, Finset.mem_powerset]
    refine ⟨fun hempty ↦ hne ((List.toFinset_eq_empty_iff _).mp hempty), fun i hi ↦ ?_⟩
    exact List.mem_toFinset.mpr (mem_allItems wf (hplaced i (List.mem_toFinset.mp hi)))
  have hcard := Finset.card_le_card hsubset
  rw [List.toFinset_card_of_nodup hnodup, List.length_map, List.length_map,
    Finset.card_erase_of_mem (Finset.empty_mem_powerset _), Finset.card_powerset] at hcard
  have hitems : (allItems g).toFinset.card ≤ itemCount g :=
    (List.toFinset_card_le _).trans (length_allItems g).le
  have hpow : 2 ^ (allItems g).toFinset.card ≤ 2 ^ itemCount g :=
    Nat.pow_le_pow_right Nat.two_pos hitems
  have hpos : 0 < 2 ^ (allItems g).toFinset.card := Nat.two_pow_pos _
  rw [length_kernels]
  omega

/-- With as many visits left as there can be states, the bound does not end the search. -/
theorem exists_explore (wf : g.WellFormed) {starts : Closure.Starts g} (hstarts : starts.Exact)
    {limit : Nat} {scratch : Mask g.rules.length} {visited : List State} {f : Frontier}
    (hp : Progress g visited f) (hlimit : limit + visited.length = 2 ^ itemCount g) :
    ∃ c, explore g starts limit scratch visited f = .ok c ∧
      Explores g starts scratch visited f c := by
  induction limit generalizing scratch visited f with
  | zero =>
    -- As many states have been visited as there can be kernels, so none is pending.
    refine ⟨_, rfl, Explores.done ?_⟩
    have hle := hp.sound.length_kernels_le wf
    rw [hp.sound.pending_eq, List.drop_eq_nil_of_le (by omega)]
  | succ limit ih =>
    rw [explore]
    split
    · rename_i hpending
      exact ⟨_, rfl, Explores.done hpending⟩
    · rename_i kernel pending hpending
      obtain ⟨items, scratch', hclose, -⟩ := hp.exists_close wf hstarts hpending scratch
      simp only [hclose, bind, Except.bind]
      split
      · rename_i s hassign
        exact ⟨_, rfl, Explores.stuck hpending hclose hassign⟩
      · rename_i s f' hassign
        have hlength : limit + (visited ++ [s]).length = 2 ^ itemCount g := by
          rw [List.length_append, List.length_singleton]
          omega
        obtain ⟨c, hc, hexplores⟩ :
            ∃ c, explore g starts limit scratch' (visited ++ [s]) f' = .ok c ∧
              Explores g starts scratch' (visited ++ [s]) f' c :=
          ih (hp.visit wf hstarts hpending hclose hassign) hlength
        exact ⟨c, hc, Explores.visit hpending hclose hassign hexplores⟩

/-- **The search ends by itself.** No look-up fails on the way, and the bound of the search is never
what stops it. -/
theorem exists_construct (wf : g.WellFormed) :
    ∃ starts c, Closure.starts g (Closure.derives g) = .ok starts ∧ starts.Exact ∧
      construct g = .ok c ∧
      Explores g starts (.fill _ false) [] { pending := [startKernel g] } c := by
  obtain ⟨starts, hstarts, hexact⟩ := Closure.exists_starts wf
  obtain ⟨c, hc, hexplores⟩ : ∃ c, explore g starts (1 <<< itemCount g) (.fill _ false) []
      { pending := [startKernel g] } = .ok c ∧
        Explores g starts (.fill _ false) [] { pending := [startKernel g] } c :=
    exists_explore wf hexact (progress_start g) (Nat.one_shiftLeft _)
  exact ⟨starts, c, hstarts, hexact, bind_eq_ok.mpr ⟨starts, hstarts, hc⟩, hexplores⟩

end ShiftReduce.Automaton
