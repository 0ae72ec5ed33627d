import ShiftReduce.Proofs.Automaton.Search

/-!
# The automaton is the canonical collection

An automaton is canonical (`Automaton.Canonical`) if its states are the reachable item sets, each
once and the first at number 0, if none of them is ambiguous, and if every item has the action that
its state calls for (`ItemAction`).

## Both outcomes

A search that has come to its end with nothing pending has found a canonical automaton
(`Progress.canonical`), and one that gets stuck has found an ambiguous set. Since there is no third
outcome, an automaton is missing exactly when some reachable set is ambiguous
(`exists_build_eq_error_iff`).

## Every set once

States are told apart by their groups: what two different groups lead to has different kernels, and
a kernel can be read off its closure because whatever closing adds stands at its first place
(`Frontier.Sound.closure_injective`). That every reachable set is found is an induction on how it is
reached: with nothing pending, where an item of a state leads there is a state
(`Progress.exists_state`).
-/

namespace ShiftReduce

namespace Automaton

open State (GroupKey groupItems groupHasMore)

variable {g : Grammar} {a : Automaton}

/-- The action that an item of the set `I` calls for. -/
inductive ItemAction (g : Grammar) (a : Automaton) (I : Set Item) (i : Item) : Action → Prop
  /-- An item with a symbol left to read enters the state to which that symbol leads. -/
  | enter {s : Symbol} {q : Nat} {t : State} : i.symbol? g = some s → ¬i.Accepts g →
      a.states[q]? = some t → Item.kernel (itemsOf t.itemSet) = Item.advanced g I s →
      itemsOf t.itemSet = Item.closure g (Item.advanced g I s) →
      ItemAction g a I i (Automaton.enter q s)
  /-- An accept item before the end of input accepts. -/
  | accept : i.Accepts g → ItemAction g a I i (.accept i.rule)
  /-- An item that has been read to its end is reduced. -/
  | reduce : i.Completed g → ItemAction g a I i (.reduce i.rule)

/-- The automaton of the reachable item sets. -/
structure Canonical (g : Grammar) (a : Automaton) : Prop where
  /-- The first state is where parsing starts. -/
  start : ∃ s, a.states[0]? = some s ∧ itemsOf s.itemSet = Item.closure g (Item.startItems g)
  /-- States are numbered by their places. -/
  id_eq : ∀ (n : Nat) (s : State), a.states[n]? = some s → s.id = n
  /-- The items of a state are listed in order, each once. -/
  ascending : ∀ s ∈ a.states, AscendingItems s.itemSet
  /-- The states are the reachable sets. -/
  mem_iff : ∀ I, (∃ s ∈ a.states, itemsOf s.itemSet = I) ↔ Item.Reachable g I
  /-- Different states have different items. -/
  injective : ∀ (m n : Nat) (s t : State), a.states[m]? = some s → a.states[n]? = some t →
    itemsOf s.itemSet = itemsOf t.itemSet → m = n
  /-- Every item has its action. -/
  action : ∀ s ∈ a.states, ∀ i o, (i, o) ∈ s.items →
    ∃ action, o = some action ∧ ItemAction g a (itemsOf s.itemSet) i action
  /-- No state is ambiguous. -/
  unambiguous : ∀ s ∈ a.states, ¬Item.Ambiguous g (itemsOf s.itemSet)

/-! ## Searches that have come to their end -/

section Finished

variable {f : Frontier}

theorem Progress.exists_target (hp : Progress g a.states f) (hpending : f.pending = [])
    {k : Nat} {kernel : List Item} (h : (kernels g f.known)[k]? = some kernel) :
    ∃ t, a.states[k]? = some t ∧ itemsOf t.itemSet = Item.closure g (itemsOf kernel) := by
  have hle : (kernels g f.known).length ≤ a.states.length :=
    List.drop_eq_nil_iff.mp (hp.sound.pending_eq.symm.trans hpending)
  have hlt : k < a.states.length := (List.getElem?_eq_some_iff.mp h).1.trans_le hle
  have hget : a.states[k]? = some a.states[k] := List.getElem?_eq_getElem hlt
  obtain ⟨kernel', hkernel', heq⟩ := hp.itemsOf_eq k _ hget
  obtain rfl := Option.some.inj (h.symm.trans hkernel')
  exact ⟨_, hget, heq⟩

theorem Progress.visitable (wf : g.WellFormed) (hp : Progress g a.states f) {s : State}
    (hs : s ∈ a.states) : Visitable g s.itemSet := by
  obtain ⟨n, hn⟩ := List.mem_iff_getElem?.mp hs
  obtain ⟨kernel, hkernel, heq⟩ := hp.itemsOf_eq n s hn
  have hreachable := (hp.sound.reachable wf hkernel).2
  rw [← heq] at hreachable
  exact ⟨hp.ascending s hs, hreachable, hreachable.placed wf⟩

theorem Progress.itemAction (wf : g.WellFormed) (hp : Progress g a.states f)
    (hpending : f.pending = []) {s : State} (hs : s ∈ a.states) {i : Item} (hi : i ∈ s.itemSet)
    {action : Action} (h : Decides g f.known (GroupKey.ofItem g i)
      (groupItems g s.itemSet (GroupKey.ofItem g i)) action) :
    ItemAction g a (itemsOf s.itemSet) i action := by
  have hv := hp.visitable wf hs
  have hmem : i ∈ groupItems g s.itemSet (GroupKey.ofItem g i) :=
    State.mem_groupItems.mpr ⟨hi, rfl⟩
  cases h with
  | @enter symbol hreads hkey hknown =>
    rw [hkey] at hmem hreads hknown
    obtain ⟨k, symbol', I, hk, hreads', -, hadvanced, rfl⟩ := hp.sound.entry_of_mem hknown
    have hsymbol := hreads.symbol?_eq i hmem
    obtain rfl : symbol' = symbol :=
      Option.some.inj ((hreads'.symbol?_eq i hmem).symm.trans hsymbol)
    have hmore := State.groupHasMore_iff.mpr hreads.hasMore
    have hkernel : (kernels g f.known)[k + 1]?
        = some ((groupItems g s.itemSet (.symbol symbol')).map Item.advance) := by
      rw [kernels_succ, hk, Option.map_some]
    obtain ⟨t, ht, heq⟩ := hp.exists_target hpending hkernel
    rw [itemsOf_map_advance hmore] at heq
    have hnot := (Item.hasMore_iff_not_accepts hsymbol).mp (hreads.hasMore i hmem)
    refine ItemAction.enter hsymbol hnot ht ?_ heq
    rw [heq, Item.kernel_closure fun j hj ↦ Item.position_pos_of_mem_advanced hj]
  | @finish j rule hgroup hmore hrule haction =>
    rw [hgroup, List.mem_singleton] at hmem
    subst hmem
    have hnumber : rule.number = i.rule := wf.number_eq hrule
    rcases (hv.placed i hi).cases with ⟨-, -, hmore'⟩ | haccepts | hcompleted
    · exact absurd hmore' hmore
    · obtain ⟨rule', hrule', haccept, -⟩ := id haccepts
      obtain rfl := Option.some.inj (hrule'.symm.trans hrule)
      rw [haction, if_pos haccept, hnumber]
      exact ItemAction.accept haccepts
    · obtain ⟨rule', hrule', haccept, -⟩ := id hcompleted
      obtain rfl := Option.some.inj (hrule'.symm.trans hrule)
      rw [haction, if_neg (by simp [haccept]), hnumber]
      exact ItemAction.reduce hcompleted

/-- The item of a group that has nothing to read has the group to itself. -/
theorem Decides.eq_of_not_hasMore {known : List (List Item × Action)} {key : GroupKey}
    {group : List Item} {action : Action} (h : Decides g known key group action) {i j : Item}
    (hi : i ∈ group) (hj : j ∈ group) (hmore : ¬i.hasMore g = true) : i = j := by
  cases h with
  | enter hreads => exact absurd (hreads.hasMore i hi) hmore
  | finish hgroup =>
    rw [hgroup, List.mem_singleton] at hi hj
    rw [hi, hj]

theorem Progress.not_ambiguous (wf : g.WellFormed) (hp : Progress g a.states f) {s : State}
    (hs : s ∈ a.states) : ¬Item.Ambiguous g (itemsOf s.itemSet) := by
  -- Both kinds of ambiguity have two items in one group, one of them with nothing to read.
  have halone : ∀ i ∈ s.itemSet, ∀ j ∈ s.itemSet, i.symbol? g = j.symbol? g →
      ¬i.hasMore g = true → i = j := by
    intro i hi j hj hsymbol hmore
    obtain ⟨⟨_, o⟩, hentry, rfl⟩ := List.mem_map.mp hi
    obtain ⟨action, -, hdecides⟩ := hp.settled s hs _ _ hentry
    refine hdecides.eq_of_not_hasMore (State.mem_groupItems.mpr ⟨hi, rfl⟩)
      (State.mem_groupItems.mpr ⟨hj, ?_⟩) hmore
    rw [GroupKey.ofItem, GroupKey.ofItem, hsymbol]
  rintro (⟨i, hi, j, hj, hne, hci, hcj⟩ | ⟨i, hi, j, hj, hne, hai, hsj⟩)
  · exact hne (halone i hi j hj (hci.symbol?_eq.trans hcj.symbol?_eq.symm) hci.not_hasMore)
  · exact hne (halone i hi j hj ((hai.symbol?_eq wf).trans hsj.symm) hai.not_hasMore)

theorem Frontier.Sound.closure_ne_start (wf : g.WellFormed) {n k : Nat} (hf : f.Sound g n)
    {kernel : List Item} (h : (kernels g f.known)[k + 1]? = some kernel) :
    Item.closure g (itemsOf kernel) ≠ Item.closure g (itemsOf (startKernel g)) := by
  obtain ⟨group, action, s, I, -, rfl, hreads, -, hadvanced⟩ := hf.group_of_kernel h
  have hne := hreads.nonempty_advanced
  rw [hadvanced] at hne ⊢
  rw [itemsOf_startKernel wf]
  exact Item.closure_advanced_ne_start hne

/-- Groups that differ lead to different sets. -/
theorem Frontier.Sound.closure_injective {n k l : Nat} (hf : f.Sound g n)
    {kernel kernel' : List Item} (hk : (kernels g f.known)[k + 1]? = some kernel)
    (hl : (kernels g f.known)[l + 1]? = some kernel')
    (heq : Item.closure g (itemsOf kernel) = Item.closure g (itemsOf kernel')) : k = l := by
  obtain ⟨group, action, s, I, hget, rfl, hreads, -, hadvanced⟩ := hf.group_of_kernel hk
  obtain ⟨group', action', s', I', hget', rfl, hreads', -, hadvanced'⟩ := hf.group_of_kernel hl
  rw [hadvanced, hadvanced'] at heq
  have hkernel := congrArg Item.kernel heq
  rw [Item.kernel_closure fun _ ↦ Item.position_pos_of_mem_advanced,
    Item.kernel_closure fun _ ↦ Item.position_pos_of_mem_advanced, ← hadvanced, ← hadvanced',
    itemsOf_inj hreads.ascending.map_advance hreads'.ascending.map_advance] at hkernel
  obtain rfl := List.map_injective_iff.mpr Item.advance_injective hkernel
  have hgroup : (f.known.map Prod.fst).reverse[k]? = (f.known.map Prod.fst).reverse[l]? := by
    rw [← List.map_reverse, List.getElem?_map, List.getElem?_map, hget, hget']
    rfl
  have hlt := (List.getElem?_eq_some_iff.mp hget).1
  rw [← List.length_map (f := Prod.fst), List.map_reverse] at hlt
  exact (List.getElem?_inj hlt (List.nodup_reverse.mpr hf.nodup)).mp hgroup

theorem Progress.injective (wf : g.WellFormed) (hp : Progress g a.states f) {m n : Nat}
    {s t : State} (hs : a.states[m]? = some s) (ht : a.states[n]? = some t)
    (heq : itemsOf s.itemSet = itemsOf t.itemSet) : m = n := by
  obtain ⟨kernel, hkernel, hclosure⟩ := hp.itemsOf_eq m s hs
  obtain ⟨kernel', hkernel', hclosure'⟩ := hp.itemsOf_eq n t ht
  rw [hclosure, hclosure'] at heq
  cases m with
  | zero =>
    obtain rfl := Option.some.inj hkernel
    cases n with
    | zero => rfl
    | succ n => exact absurd heq.symm (hp.sound.closure_ne_start wf hkernel')
  | succ m =>
    cases n with
    | zero =>
      obtain rfl := Option.some.inj hkernel'
      exact absurd heq (hp.sound.closure_ne_start wf hkernel)
    | succ n => rw [hp.sound.closure_injective hkernel hkernel' heq]

/-- Every reachable set is a state: where an item of a state leads, there is a state. -/
theorem Progress.exists_state (wf : g.WellFormed) (hp : Progress g a.states f)
    (hpending : f.pending = []) {I : Set Item} (h : Item.Reachable g I) :
    ∃ s ∈ a.states, itemsOf s.itemSet = I := by
  induction h with
  | start =>
    have hkernel : (kernels g f.known)[0]? = some (startKernel g) := rfl
    obtain ⟨s, hs, heq⟩ := hp.exists_target hpending hkernel
    exact ⟨s, List.mem_of_getElem? hs, heq.trans (by rw [itemsOf_startKernel wf])⟩
  | @advance I symbol _ hne ih =>
    obtain ⟨s, hs, rfl⟩ := ih
    obtain ⟨j, i, hi, hsymbol, hnot, -⟩ := hne
    obtain ⟨⟨_, o⟩, hentry, rfl⟩ := List.mem_map.mp hi
    obtain ⟨action, -, hdecides⟩ := hp.settled s hs _ _ hentry
    cases hp.itemAction wf hpending hs hi hdecides with
    | enter hsymbol' _ ht _ heq =>
      obtain rfl := Option.some.inj (hsymbol.symm.trans hsymbol')
      exact ⟨_, List.mem_of_getElem? ht, heq⟩
    | accept haccepts => exact absurd haccepts hnot
    | reduce hcompleted => rw [hcompleted.symbol?_eq] at hsymbol; simp at hsymbol

/-- A search that has ended with nothing pending has found the canonical automaton. -/
theorem Progress.canonical (wf : g.WellFormed) (hp : Progress g a.states f)
    (hpending : f.pending = []) : Canonical g a where
  start := by
    have hkernel : (kernels g f.known)[0]? = some (startKernel g) := rfl
    obtain ⟨s, hs, heq⟩ := hp.exists_target hpending hkernel
    exact ⟨s, hs, heq.trans (by rw [itemsOf_startKernel wf])⟩
  id_eq := hp.id_eq
  ascending := hp.ascending
  mem_iff := by
    refine fun I ↦ ⟨?_, hp.exists_state wf hpending⟩
    rintro ⟨s, hs, rfl⟩
    exact (hp.visitable wf hs).reachable
  injective := fun _ _ _ _ ↦ hp.injective wf
  action := by
    intro s hs i o hi
    obtain ⟨action, rfl, hdecides⟩ := hp.settled s hs i o hi
    exact ⟨action, rfl, hp.itemAction wf hpending hs (List.mem_map_of_mem hi) hdecides⟩
  unambiguous := fun _ ↦ hp.not_ambiguous wf

end Finished

/-! ## The automaton of a grammar -/

theorem build_cases (wf : g.WellFormed) :
    (∃ a, Automaton.build g = .ok a ∧ Canonical g a) ∨
      ∃ s : State, Automaton.build g = .error (.ambiguousEnd s.id (s.listing g)) ∧
        Item.Reachable g (itemsOf s.itemSet) ∧ Item.Ambiguous g (itemsOf s.itemSet) := by
  obtain ⟨starts, c, -, hexact, hc, hexplores⟩ := exists_construct wf
  rw [Automaton.build, hc]
  rcases hexplores.progress wf hexact (progress_start g) with
    ⟨hstuck, f, hpending, hp⟩ | ⟨s, hstuck, hs⟩
  · refine Or.inl ⟨{ states := c.visited }, ?_, Progress.canonical wf hp hpending⟩
    simp [bind, Except.bind, hstuck, pure, Except.pure]
  · refine Or.inr ⟨s, ?_, hs⟩
    simp [bind, Except.bind, hstuck, throw, throwThe, MonadExceptOf.throw]

theorem canonical_of_build (wf : g.WellFormed) (h : Automaton.build g = .ok a) :
    Canonical g a := by
  rcases build_cases wf with ⟨a', hok, ha⟩ | ⟨s, herror, -⟩
  · obtain rfl := Except.ok.inj (h.symm.trans hok)
    exact ha
  · simp [herror] at h

/-- An automaton is missing exactly when some reachable set is ambiguous. -/
theorem exists_build_eq_error_iff (wf : g.WellFormed) :
    (∃ e, Automaton.build g = .error e) ↔ ∃ I, Item.Reachable g I ∧ Item.Ambiguous g I := by
  rcases build_cases wf with ⟨a, hok, ha⟩ | ⟨s, herror, hs⟩
  · rw [hok]
    refine ⟨by simp, ?_⟩
    rintro ⟨I, hreachable, hambiguous⟩
    obtain ⟨s, hs, rfl⟩ := (ha.mem_iff I).mpr hreachable
    exact absurd hambiguous (ha.unambiguous s hs)
  · exact ⟨fun _ ↦ ⟨_, hs⟩, fun _ ↦ ⟨_, herror⟩⟩

private theorem ambiguous_of_build (wf : g.WellFormed) {e : Error}
    (h : Automaton.build g = .error e) :
    ∃ s : State, e = .ambiguousEnd s.id (s.listing g) ∧ Item.Reachable g (itemsOf s.itemSet) ∧
      Item.Ambiguous g (itemsOf s.itemSet) := by
  rcases build_cases wf with ⟨a, hok, -⟩ | ⟨s, herror, hs⟩
  · simp [hok] at h
  · obtain rfl := Except.error.inj (h.symm.trans herror)
    exact ⟨s, rfl, hs⟩

/-- **The automaton is the canonical collection.** The search comes to its end by itself. What it
builds has the reachable sets as its states and gives every item its action, and it builds nothing
exactly when a reachable set is ambiguous; the error then names such a set. -/
theorem canonical_collection {d : Declarations} (h : d.build = .ok g) :
    (∃ starts c, Closure.starts g (Closure.derives g) = .ok starts ∧ construct g = .ok c ∧
        Explores g starts (.fill _ false) [] { pending := [startKernel g] } c) ∧
      (∀ a, Automaton.build g = .ok a → Canonical g a) ∧
      (∀ e, Automaton.build g = .error e → ∃ s : State, e = .ambiguousEnd s.id (s.listing g) ∧
        Item.Reachable g (itemsOf s.itemSet) ∧ Item.Ambiguous g (itemsOf s.itemSet)) ∧
      ((∃ e, Automaton.build g = .error e) ↔
        ∃ I, Item.Reachable g I ∧ Item.Ambiguous g I) := by
  have wf := Declarations.wellFormed_of_build h
  obtain ⟨starts, c, hstarts, -, hc, hexplores⟩ := exists_construct wf
  exact ⟨⟨starts, c, hstarts, hc, hexplores⟩, fun _ ↦ canonical_of_build wf,
    fun _ ↦ ambiguous_of_build wf, exists_build_eq_error_iff wf⟩

/-- Two starts of parsing, one of them with the end of input within its rule as well, a rule that
recurses on the left, and an empty rule. -/
def twoStarts : Declarations where
  terminals := [{ name := "a", pattern := none, code := none }]
  rules :=
    [{ lhs := "S", rhs := ["E", "EOF"] }, { lhs := "T", rhs := ["a", "EOF", "E", "EOF"] },
      { lhs := "E", rhs := [] }, { lhs := "E", rhs := ["E", "a"] }]
  accepts := ["S", "T"]

theorem canonical_collection_twoStarts :
    ∃ g a, twoStarts.build = .ok g ∧ Automaton.build g = .ok a ∧ Canonical g a := by
  have hok : (twoStarts.build >>= Automaton.build).isOk = true := by decide +kernel
  obtain ⟨g, hg, ha⟩ := bind_eq_ok.mp (eq_ok_okValue hok)
  exact ⟨g, _, hg, ha, (canonical_collection hg).2.1 _ ha⟩

end Automaton

end ShiftReduce
