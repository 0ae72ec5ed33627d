import ShiftReduce.Proofs.Conflict.Locality

/-!
# Automata that cannot be settled

An automaton need not be one that was built: its items may lack actions, carry actions that do not
fit, or ask for several reductions in one state. Of all this only two things are faults. A state
cannot be settled if one of its items has no action, or if its items reduce by different rules
(`State.Flawed`). Which of the two is reported depends on the order of the items
(`State.UnassignedFirst`).

## Taking up items

What taking up one item comes to is listed by `TakesUp`, and `Demands.Taken` is what it keeps. Both
say nothing about what items should ask for: an action that does not fit is passed over, and a cell
that is filled twice keeps what came later.

## Locality

A state is not touched before all of its items have been taken up, so the first flawed state is left
as it was, with all states behind it, while those before it are left as they would be if each were
settled by itself. `resolve_error_exact` says all of this, of any states that are numbered by their
places and refer to rules that exist.
-/

namespace ShiftReduce

variable {g : Grammar} {a : Automaton} {s : State}

/-! ## Faults -/

/-- The rules by which items reduce, in order. -/
def reductions (entries : List (Item × Option Action)) : List Nat :=
  entries.filterMap fun e ↦
    match e.2 with
    | some (.reduce rule) => some rule
    | _ => none

/-- All items that reduce do so by the same rule. -/
def AgreeOnRule (entries : List (Item × Option Action)) : Prop :=
  ∀ r ∈ reductions entries, ∀ r' ∈ reductions entries, r = r'

instance (entries : List (Item × Option Action)) : Decidable (AgreeOnRule entries) :=
  inferInstanceAs (Decidable (∀ r ∈ reductions entries, ∀ r' ∈ reductions entries, r = r'))

theorem mem_reductions {entries : List (Item × Option Action)} {r : Nat} :
    r ∈ reductions entries ↔ ∃ i, (i, some (.reduce r)) ∈ entries := by
  rw [reductions, List.mem_filterMap]
  constructor
  · rintro ⟨⟨i, o⟩, hentry, hrule⟩
    split at hrule
    · rename_i rule ho
      obtain rfl := Option.some.inj hrule
      obtain rfl : o = some (.reduce rule) := ho
      exact ⟨i, hentry⟩
    · cases hrule
  · rintro ⟨i, hentry⟩
    exact ⟨_, hentry, rfl⟩

namespace State

/-- A state that cannot be settled: an item has no action, or two items reduce by different
rules. -/
def Flawed (s : State) : Prop :=
  (∃ i, (i, none) ∈ s.items) ∨
    ∃ i j r r', (i, some (.reduce r)) ∈ s.items ∧ (j, some (.reduce r')) ∈ s.items ∧ r ≠ r'

/-- In the order of the items, one without an action comes before the first that reduces by another
rule than an item before it. -/
def UnassignedFirst (s : State) : Prop :=
  ∃ before i after, s.items = before ++ (i, none) :: after ∧ AgreeOnRule before

/-- The error that a flawed state of that number gives rise to. -/
inductive Fault (g : Grammar) (n : Nat) (s : State) : Error → Prop
  | unassigned : s.UnassignedFirst → Fault g n s (.unassignedItem n (s.listing g))
  | contradiction : ¬s.UnassignedFirst → Fault g n s (.multipleReductions n (s.listing g))

/-- The items and actions of a state refer to rules of the grammar. -/
structure RefersTo (g : Grammar) (s : State) : Prop where
  item : ∀ e ∈ s.items, (g.rule? e.1.rule).isSome
  action : ∀ e ∈ s.items, ∀ rule ∈ e.2.bind Conflict.completedRule?, (g.rule? rule).isSome

theorem flawed_iff : s.Flawed ↔ (∃ e ∈ s.items, e.2 = none) ∨ ¬AgreeOnRule s.items := by
  refine or_congr ⟨fun ⟨i, hi⟩ ↦ ⟨_, hi, rfl⟩, ?_⟩ ?_
  · rintro ⟨⟨i, o⟩, hi, rfl⟩
    exact ⟨i, hi⟩
  · constructor
    · rintro ⟨i, j, r, r', hi, hj, hne⟩ hagree
      exact hne (hagree r (mem_reductions.mpr ⟨i, hi⟩) r' (mem_reductions.mpr ⟨j, hj⟩))
    · intro hdisagree
      simp only [AgreeOnRule, not_forall] at hdisagree
      obtain ⟨r, hr, r', hr', hne⟩ := hdisagree
      obtain ⟨i, hi⟩ := mem_reductions.mp hr
      obtain ⟨j, hj⟩ := mem_reductions.mp hr'
      exact ⟨i, j, r, r', hi, hj, hne⟩

instance (s : State) : Decidable s.Flawed :=
  decidable_of_iff _ flawed_iff.symm

end State

namespace Conflict

/-! ## Taking up items -/

/-- What taking up an entry comes to. -/
inductive TakesUp (g : Grammar) (s : State) (d : Demands) :
    Item × Option Action → Except Error Demands → Prop
  | unassigned {i : Item} :
    TakesUp g s d (i, none) (.error (.unassignedItem s.id (s.listing g)))
  | contradicts {i : Item} {r r' : Nat} : d.reduction = some r' → r' ≠ r →
    TakesUp g s d (i, some (.reduce r)) (.error (.multipleReductions s.id (s.listing g)))
  | reduces {i : Item} {r : Nat} : (∀ r', d.reduction = some r' → r' = r) →
    TakesUp g s d (i, some (.reduce r)) (.ok { d with reduction := some r })
  /-- Whether the action fits its item or is passed over, the rule to reduce by stays. -/
  | asks {i : Item} {action : Action} {d' : Demands} : (∀ r, action ≠ .reduce r) →
    d'.reduction = d.reduction →
    (∀ action', some action' ∈ d'.actions → action' = action ∨ some action' ∈ d.actions) →
    TakesUp g s d (i, some action) (.ok d')

theorem takesUp_demand (g : Grammar) (s : State) (d : Demands) (x : Item × Option Action) :
    TakesUp g s d x (demand g s d x) := by
  have hset : ∀ t action action', some action' ∈ d.actions.set t (some action) →
      action' = action ∨ some action' ∈ d.actions := by
    intro t action action' hmem
    rcases List.mem_or_eq_of_mem_set hmem with hmem | heq
    · exact Or.inr hmem
    · exact Or.inl (Option.some.inj heq)
  obtain ⟨i, o⟩ := x
  cases o with
  | none => exact TakesUp.unassigned
  | some action =>
    rw [demand.eq_def]
    dsimp only
    split
    · exact TakesUp.asks (by simp) rfl fun _ ↦ Or.inr
    · exact TakesUp.asks (by simp) rfl (hset _ _)
    · exact TakesUp.asks (by simp) rfl (hset _ _)
    · rename_i rule
      by_cases hall : d.reduction.all (· = rule) = true
      · rw [if_pos hall]
        refine TakesUp.reduces fun r' hr' ↦ ?_
        rw [hr'] at hall
        simpa using hall
      · rw [if_neg hall]
        obtain ⟨r', hr', hne⟩ : ∃ r', d.reduction = some r' ∧ r' ≠ rule := by
          simpa [Option.all_eq_true] using hall
        exact TakesUp.contradicts hr' hne
    · rename_i hreduce _ _ _
      exact TakesUp.asks (fun r h ↦ hreduce r h) rfl fun _ ↦ Or.inr

/-- What holds of demands when some items have been taken up. -/
structure Demands.Taken (done : List (Item × Option Action)) (d : Demands) : Prop where
  assigned : ∀ i, (i, none) ∉ done
  reduction_iff : ∀ r, d.reduction = some r ↔ r ∈ reductions done
  asked : ∀ action, some action ∈ d.actions → ∃ i, (i, some action) ∈ done

theorem taken_empty (g : Grammar) : (Demands.empty g).Taken [] where
  assigned := fun _ ↦ List.not_mem_nil
  reduction_iff := by simp [Demands.empty, reductions]
  asked := by simp [Demands.empty, List.mem_replicate]

section Taken

variable {done : List (Item × Option Action)} {d d' : Demands}

theorem Demands.Taken.agree (hd : d.Taken done) : AgreeOnRule done := by
  intro r hr r' hr'
  have hsome := (hd.reduction_iff r).mpr hr
  exact Option.some.inj (hsome.symm.trans ((hd.reduction_iff r').mpr hr'))

theorem mem_reductions_append_singleton {i : Item} {action : Action} {r : Nat} :
    r ∈ reductions (done ++ [(i, some action)]) ↔ r ∈ reductions done ∨ action = .reduce r := by
  simp [mem_reductions, exists_or, eq_comm]

theorem Demands.Taken.step (hd : d.Taken done) {x : Item × Option Action}
    (h : TakesUp g s d x (.ok d')) : d'.Taken (done ++ [x]) := by
  have hassigned : ∀ i action j, (j, none) ∉ done ++ [(i, some action)] := by
    intro i action j hj
    simp [hd.assigned j] at hj
  cases h with
  | @reduces i r hsame =>
    refine ⟨hassigned i _, fun r' ↦ ?_, fun action haction ↦ ?_⟩
    · rw [mem_reductions_append_singleton, ← hd.reduction_iff]
      constructor
      · intro heq
        exact Or.inr (congrArg Action.reduce (Option.some.inj heq))
      · rintro (hr' | heq)
        · rw [hsame r' hr']
        · rw [Action.reduce.inj heq]
    · obtain ⟨j, hj⟩ := hd.asked action haction
      exact ⟨j, List.mem_append_left _ hj⟩
  | @asks i action _ hnot hreduction hactions =>
    refine ⟨hassigned i _, fun r ↦ ?_, fun action' haction' ↦ ?_⟩
    · rw [mem_reductions_append_singleton, hreduction, hd.reduction_iff, or_iff_left (hnot r)]
    · rcases hactions action' haction' with rfl | hold
      · exact ⟨i, by simp⟩
      · obtain ⟨j, hj⟩ := hd.asked action' hold
        exact ⟨j, List.mem_append_left _ hj⟩

theorem taken_demands (h : demands g s = .ok d) : d.Taken s.items :=
  foldlM_ok h (taken_empty g) fun _ x c _ hc hx ↦ hc.step (hx ▸ takesUp_demand g s c x)

theorem Demands.Taken.not_flawed (hd : d.Taken s.items) : ¬s.Flawed := by
  rw [State.flawed_iff]
  rintro (⟨⟨i, o⟩, hi, rfl⟩ | hdisagree)
  · exact hd.assigned i hi
  · exact hdisagree hd.agree

end Taken

/-- Taking up the items fails at the first fault that is met. -/
theorem fault_of_demands {e : Error} (h : demands g s = .error e) :
    s.Flawed ∧ s.Fault g s.id e := by
  obtain ⟨before, x, after, d, hitems, hd, hx⟩ :=
    foldlM_error h (taken_empty g) fun _ x c _ hc hx ↦ hc.step (hx ▸ takesUp_demand g s c x)
  have htakes := takesUp_demand g s d x
  rw [hx] at htakes
  cases htakes with
  | @unassigned i =>
    exact ⟨Or.inl ⟨i, by simp [hitems]⟩,
      State.Fault.unassigned ⟨before, i, after, hitems, hd.agree⟩⟩
  | @contradicts i r r' hr' hne =>
    obtain ⟨j, hj⟩ := mem_reductions.mp ((hd.reduction_iff r').mp hr')
    refine ⟨Or.inr ⟨j, i, r', r, by simp [hitems, hj], by simp [hitems], hne⟩,
      State.Fault.contradiction ?_⟩
    -- All items up to this one have actions, so an item without one has the contradiction before
    -- it.
    rintro ⟨before', i', after', hitems', hagree⟩
    rcases List.append_eq_append_iff.mp (hitems.symm.trans hitems') with
      ⟨mid, rfl, hmid⟩ | ⟨mid, rfl, hmid⟩
    · cases mid with
      | nil => simp at hmid
      | cons y mid =>
        obtain ⟨rfl, -⟩ := List.cons.inj hmid
        exact hne (hagree r' (mem_reductions.mpr ⟨j, by simp [hj]⟩) r
          (mem_reductions.mpr ⟨i, by simp⟩))
    · cases mid with
      | nil => simp at hmid
      | cons y mid =>
        obtain ⟨rfl, -⟩ := List.cons.inj hmid
        exact hd.assigned i' (by simp)

/-! ## Settling a state -/

/-- A state does nothing on a terminal that is not an error or the action of one of its items. -/
theorem error_or_asked {x : SettledState} (h : resolveState g s = .ok x) {action : Action}
    (haction : action ∈ x.rows.actions) : action = .error ∨ ∃ i, (i, some action) ∈ s.items := by
  obtain ⟨d, hd, rfl⟩ := exists_demands_of_resolveState h
  have htaken := taken_demands hd
  have hreduce : ∀ r, d.reduction = some r → ∃ i, (i, some (.reduce r)) ∈ s.items :=
    fun r hr ↦ mem_reductions.mp ((htaken.reduction_iff r).mp hr)
  obtain ⟨cell, hcell, rfl⟩ := List.mem_map.mp haction
  obtain ⟨t, ht⟩ := List.mem_iff_getElem?.mp hcell
  rw [settleAll_actions, Option.map_eq_some_iff] at ht
  obtain ⟨wanted, hwanted, rfl⟩ := ht
  cases hover : d.override? g t with
  | some won =>
    obtain ⟨r, hr, hlast⟩ := Option.bind_eq_some_iff.mp hover
    obtain ⟨p, -, hp⟩ := List.mem_filterMap.mp (List.mem_of_getLast? hlast)
    rcases override?_eq_some_iff.mp hp with ⟨-, rfl⟩ | ⟨-, rfl⟩
    · exact Or.inr (hreduce r hr)
    · exact Or.inl rfl
  | none =>
    cases wanted with
    | some action => exact Or.inr (htaken.asked action (List.mem_of_getElem? hwanted))
    | none =>
      rw [Option.none_or, Option.getD_none, Demands.defaultAction]
      split
      · rename_i r hr
        exact Or.inr (hreduce r hr)
      · exact Or.inl rfl

/-- If all rules that a state refers to exist, settling it fails only where taking up its items
does. -/
theorem resolveState_eq_map (h : s.RefersTo g) :
    resolveState g s = (demands g s).map fun d ↦ d.settledState g s := by
  have hfind : s.itemSet.find? (!·.isKnown g) = none := by
    rw [List.find?_eq_none]
    intro i hi
    obtain ⟨e, he, rfl⟩ := List.mem_map.mp hi
    simp [Item.isKnown, h.item e he]
  rw [resolveState, hfind]
  cases hd : demands g s with
  | error e => rfl
  | ok d =>
    have hcheck : checkKnown g d = .ok () := by
      rw [checkKnown]
      split
      · rename_i r hr
        obtain ⟨i, hi⟩ := mem_reductions.mp (((taken_demands hd).reduction_iff r).mp hr)
        exact if_neg fun hnone ↦ by simpa [hnone.2] using h.action _ hi r rfl
      · rfl
    show (checkKnown g d >>= _) = _
    rw [hcheck]
    rfl

theorem exists_resolveState_eq_ok_iff (h : s.RefersTo g) :
    (∃ x, resolveState g s = .ok x) ↔ ¬s.Flawed := by
  rw [resolveState_eq_map h]
  cases hd : demands g s with
  | error e => simp [Except.map, (fault_of_demands hd).1]
  | ok d => simp [Except.map, (taken_demands hd).not_flawed]

private theorem exists_resolveState_eq_error (h : s.RefersTo g) (hs : s.Flawed) :
    ∃ e, resolveState g s = .error e ∧ s.Fault g s.id e := by
  rw [resolveState_eq_map h]
  cases hd : demands g s with
  | error e => exact ⟨e, rfl, (fault_of_demands hd).2⟩
  | ok d => exact absurd hs (taken_demands hd).not_flawed

/-! ## All states -/

/-- No rule is found missing in the end, so the outcome is that of the states. -/
theorem resolve_eq_resolveStates (h : ∀ s ∈ a.states, s.RefersTo g) :
    resolve g a = (⟨(resolveStates g a.states).1⟩, (resolveStates g a.states).2) := by
  rw [resolve]
  cases hstates : resolveStates g a.states with
  | mk states result =>
    cases result with
    | error e => rfl
    | ok r =>
      have hfind := find?_usedRules_eq_none hstates fun s hs x hx action haction rule hrule ↦ by
        rcases error_or_asked hx haction with rfl | ⟨i, hi⟩
        · cases hrule
        · exact (h s hs).action _ hi rule hrule
      show (_, Except.bind _ _) = _
      simp only [Except.bind, hfind]

/-- A state, settled by itself, becomes another. -/
def SettlesTo (g : Grammar) (s s' : State) : Prop :=
  ∃ r, resolve g ⟨[s]⟩ = (⟨[s']⟩, .ok r)

private theorem settlesTo_of_resolveState (h : s.RefersTo g) {x : SettledState}
    (hx : resolveState g s = .ok x) : SettlesTo g s x.state := by
  have hone : ∀ s' ∈ [s], s'.RefersTo g := fun s' hs' ↦ List.mem_singleton.mp hs' ▸ h
  refine ⟨⟨[x.rows], x.conflicts ++ []⟩, ?_⟩
  rw [resolve_eq_resolveStates hone]
  simp only [resolveStates, hx, Except.map]

/-- The states before the first that fails are settled, the others stay. -/
theorem exists_resolveStates_eq_error {before : List State} (after : List State) {e : Error}
    (hbefore : ∀ s ∈ before, ∃ x, resolveState g s = .ok x) (hs : resolveState g s = .error e) :
    ∃ before', resolveStates g (before ++ s :: after) = (before' ++ s :: after, .error e) ∧
      List.Forall₂ (fun s s' ↦ ∃ x, resolveState g s = .ok x ∧ x.state = s') before before' := by
  induction before with
  | nil => exact ⟨[], by simp only [List.nil_append, resolveStates, hs], List.Forall₂.nil⟩
  | cons s' before ih =>
    obtain ⟨x, hx⟩ := hbefore s' List.mem_cons_self
    obtain ⟨before', heq, hall⟩ := ih fun s hs ↦ hbefore s (List.mem_cons_of_mem _ hs)
    refine ⟨x.state :: before', ?_, List.Forall₂.cons ⟨x, hx, rfl⟩ hall⟩
    simp only [List.cons_append, resolveStates, hx, heq, Except.map]

theorem exists_resolve_eq_ok_of_refersTo (hrules : ∀ s ∈ a.states, s.RefersTo g)
    (h : ∀ s ∈ a.states, ¬s.Flawed) : ∃ a' r, resolve g a = (a', .ok r) := by
  obtain ⟨r, hr⟩ := exists_resolveStates_eq_ok fun s hs ↦
    (exists_resolveState_eq_ok_iff (hrules s hs)).mpr (h s hs)
  exact ⟨_, r, by rw [resolve_eq_resolveStates hrules, hr]⟩

theorem exists_resolve_eq_error (hrules : ∀ s ∈ a.states, s.RefersTo g) {before after : List State}
    (hstates : a.states = before ++ s :: after) (hs : s.Flawed)
    (hfirst : ∀ s' ∈ before, ¬s'.Flawed) :
    ∃ before' e, resolve g a = (⟨before' ++ s :: after⟩, .error e) ∧ s.Fault g s.id e ∧
      List.Forall₂ (SettlesTo g) before before' := by
  have hmem : ∀ s' ∈ before, s' ∈ a.states := fun s' hs' ↦ by simp [hstates, hs']
  obtain ⟨e, he, hfault⟩ := exists_resolveState_eq_error (hrules s (by simp [hstates])) hs
  obtain ⟨before', hresolve, hall⟩ := exists_resolveStates_eq_error after
    (fun s' hs' ↦ (exists_resolveState_eq_ok_iff (hrules s' (hmem s' hs'))).mpr (hfirst s' hs')) he
  refine ⟨before', e, by rw [resolve_eq_resolveStates hrules, hstates, hresolve], hfault, ?_⟩
  rw [List.forall₂_iff_zip] at hall ⊢
  refine ⟨hall.1, fun {s' s''} hzip ↦ ?_⟩
  obtain ⟨x, hx, rfl⟩ := hall.2 hzip
  exact settlesTo_of_resolveState (hrules s' (hmem s' (List.of_mem_zip hzip).1)) hx

/-- **Errors of settling are exact.** An automaton of any states, as long as they are numbered by
their places and refer to rules that exist, fails to settle just if one of its states is flawed. The
error is the fault of the first such state, which is left as it was with all states behind it; the
states before it are left as settling each by itself leaves them. -/
theorem resolve_error_exact (hids : ∀ (n : Nat) (s : State), a.states[n]? = some s → s.id = n)
    (hrules : ∀ s ∈ a.states, s.RefersTo g) :
    ((∃ e, (resolve g a).2 = .error e) ↔ ∃ s ∈ a.states, s.Flawed) ∧
    ∀ a' e, resolve g a = (a', .error e) → ∃ n s, a.states[n]? = some s ∧
      s.Flawed ∧ (∀ s' ∈ a.states.take n, ¬s'.Flawed) ∧ s.Fault g n e ∧
      a'.states.drop n = a.states.drop n ∧
      List.Forall₂ (SettlesTo g) (a.states.take n) (a'.states.take n) := by
  cases hfind : a.states.find? (fun s ↦ s.Flawed) with
  | none =>
    have hnone : ∀ s ∈ a.states, ¬s.Flawed := by simpa using List.find?_eq_none.mp hfind
    obtain ⟨a', r, hr⟩ := exists_resolve_eq_ok_of_refersTo hrules hnone
    rw [hr]
    constructor
    · exact iff_of_false nofun fun ⟨s, hs, hflawed⟩ ↦ hnone s hs hflawed
    · intro a'' e he
      cases (Prod.mk.inj he).2
  | some s =>
    obtain ⟨hs, before, after, hstates, hbefore⟩ := List.find?_eq_some_iff_append.mp hfind
    have hflawed : s.Flawed := of_decide_eq_true hs
    have hfirst : ∀ s' ∈ before, ¬s'.Flawed := by simpa using hbefore
    obtain ⟨before', e, hresolve, hfault, hall⟩ :=
      exists_resolve_eq_error hrules hstates hflawed hfirst
    have hn : a.states[before.length]? = some s := by simp [hstates]
    rw [hids _ _ hn] at hfault
    rw [hresolve]
    constructor
    · exact iff_of_true ⟨e, rfl⟩ ⟨s, List.mem_of_getElem? hn, hflawed⟩
    · intro a' e' he
      obtain ⟨rfl, he'⟩ := Prod.mk.inj he
      obtain rfl := Except.error.inj he'
      refine ⟨before.length, s, hn, hflawed, ?_, hfault, ?_, ?_⟩
      · rwa [hstates, List.take_left]
      · rw [hstates, List.drop_left, hall.length_eq, List.drop_left]
      · rwa [hstates, List.take_left, hall.length_eq, List.take_left]

/-- Four states for `comparisons`: one to settle, two flawed ones and one without items. -/
def handMade : Automaton where
  states :=
    [{ id := 0, items := [(⟨1, 1⟩, some (.shift 1)), (⟨1, 3⟩, some (.reduce 1))] },
      { id := 1
        items := [(⟨1, 3⟩, some (.reduce 1)), (⟨2, 3⟩, some (.reduce 2)), (⟨3, 0⟩, none)] },
      { id := 2
        items := [(⟨1, 1⟩, some (.shift 1)), (⟨1, 3⟩, some (.reduce 1)), (⟨3, 0⟩, none)] },
      { id := 3, items := [] }]

theorem resolve_error_exact_handMade :
    (∀ (n : Nat) (s : State), handMade.states[n]? = some s → s.id = n) ∧
    (∀ s ∈ handMade.states, s.RefersTo comparisonsGrammar) ∧
    ∃ a' s, handMade.states[1]? = some s ∧ ¬s.UnassignedFirst ∧
      resolve comparisonsGrammar handMade
        = (a', .error (.multipleReductions 1 (s.listing comparisonsGrammar))) ∧
      a' ≠ handMade ∧ a'.states.drop 1 = handMade.states.drop 1 ∧
      List.Forall₂ (SettlesTo comparisonsGrammar) (handMade.states.take 1) (a'.states.take 1) := by
  have hids : ∀ (n : Nat) (s : State), handMade.states[n]? = some s → s.id = n := by
    intro n s hs
    obtain ⟨hn, rfl⟩ := List.getElem?_eq_some_iff.mp hs
    have hall : ∀ n : Fin 4, (handMade.states.get n).id = n := by decide
    exact hall ⟨n, hn⟩
  have hrules : ∀ s ∈ handMade.states, s.RefersTo comparisonsGrammar := by
    have hitems : ∀ s ∈ handMade.states, ∀ e ∈ s.items,
        (comparisonsGrammar.rule? e.1.rule).isSome := by decide +kernel
    have hactions : ∀ s ∈ handMade.states, ∀ e ∈ s.items, ∀ rule ∈ e.2.bind completedRule?,
        (comparisonsGrammar.rule? rule).isSome := by decide +kernel
    exact fun s hs ↦ ⟨hitems s hs, hactions s hs⟩
  have hne : (resolve comparisonsGrammar handMade).1 ≠ handMade := by decide +kernel
  have herror : (resolve comparisonsGrammar handMade).2
      = .error (.multipleReductions 1 (handMade.states[1].listing comparisonsGrammar)) := by
    decide +kernel
  generalize handMade.states[1].listing comparisonsGrammar = text at herror
  obtain ⟨n, s, hn, -, -, hfault, hdrop, hall⟩ :=
    (resolve_error_exact hids hrules).2 _ _ (Prod.ext rfl herror)
  cases hfault with
  | contradiction hnot =>
    exact ⟨hids, hrules, _, s, hn, hnot, Prod.ext rfl herror, hne, hdrop, hall⟩

end Conflict

end ShiftReduce
