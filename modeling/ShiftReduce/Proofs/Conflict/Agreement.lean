import ShiftReduce.Proofs.Conflict.Meaning

/-!
# Where records, items and rows agree

Comparisons are made item by item, but a terminal has one cell only. Every item ends up with the
action that its own comparison came to, and every conflict records its own comparison; the cell
holds what one of the items carries (`exists_item_of_cell`).

## Unanimity

So the three agree on a terminal exactly if all items that shift it come to the same
(`State.Unanimous`), as they do where there is only one. That is the content of
`agreement_iff_unanimous`, for each state and terminal of any automaton that was built. One
direction needs the cell to show what an item came to, which it does because no comparison puts a
shift in the place of a shift (`override?_or_inj`).

## Disagreement

Items need not come to the same: two rules that go on with the same terminal may have different
precedences. In `exists_disagreement_signs` a conflict records a shift where the cell reduces.
-/

namespace ShiftReduce

open Automaton (Canonical ItemAction)

variable {g : Grammar} {a : Automaton} {s : State} {i j : Item} {t rule : Nat}

/-! ## Agreement -/

/-- The cell of the conflict holds what the record says: the reduction, an error, or a shift. -/
def Conflict.Agrees (c : Conflict) (rows : Rows) : Prop :=
  match c.resolution with
  | .reduce => rows.actions[c.terminal]? = some (.reduce c.reduceRule)
  | .error => rows.actions[c.terminal]? = some .error
  | .shift | .shiftByDefault => ∃ q, rows.actions[c.terminal]? = some (.shift q)

/-- The comparisons of all items that shift a terminal come to the same: the shift stands, or the
same action takes its place. -/
def State.Unanimous (g : Grammar) (s : State) (t : Nat) : Prop :=
  ∀ rule, s.reduction? g = some rule → ∀ i ∈ s.shifting g t, ∀ j ∈ s.shifting g t,
    Conflict.override? g rule i = Conflict.override? g rule j

namespace Conflict

private theorem override?_ne_shift {q : Nat} : override? g rule i ≠ some (.shift q) := by
  rw [override?]
  cases settle g i.rule rule <;> simp

/-- No comparison puts a shift in place, so what an item carries tells what it came to. -/
theorem override?_or_inj {q : Nat} :
    (override? g rule i).or (some (.shift q)) = (override? g rule j).or (some (.shift q)) ↔
      override? g rule i = override? g rule j := by
  rw [override?, override?]
  cases settle g i.rule rule <;> cases settle g j.rule rule <;> simp

theorem action?_settled_of_shifting (hr : s.reduction? g = some rule) (hi : i ∈ s.shifting g t) :
    (s.settled g).action? i = (override? g rule i).or (s.action? i) := by
  have hmem := State.mem_shifting.mp hi
  have hshift : (s.shifts g).any (·.1 = i) = true :=
    List.any_eq_true.mpr ⟨(i, t), State.mem_shifts.mpr hmem, by simp⟩
  rw [State.action?_settled hr hmem.1, if_pos hshift]

theorem settled_eq (hr : s.reduction? g = none) : s.settled g = s := by
  rw [State.settled, hr]

section Settled

variable {x : SettledState} (wf : g.WellFormed) (ha : Canonical g a) (hs : s ∈ a.states)
  (hx : resolveState g s = .ok x)

include wf ha hs hx

theorem exists_shift_of_shifting :
    ∃ q, ∀ i ∈ s.shifting g t, s.action? i = some (.shift q) := by
  obtain ⟨d, hd, -⟩ := resolveState_ok wf ha hs hx
  cases hshifting : s.shifting g t with
  | nil => exact ⟨0, by simp⟩
  | cons i items =>
    obtain ⟨q, -, hcell⟩ := hd.exists_shift wf ha hs (hshifting ▸ List.mem_cons_self)
    refine ⟨q, fun j hj ↦ ?_⟩
    obtain ⟨q', haction, hcell'⟩ := hd.exists_shift wf ha hs (hshifting ▸ hj)
    rw [hcell] at hcell'
    rw [haction, Option.some.inj hcell']

/-- The cell of a terminal that is shifted holds what one of the items carries. -/
theorem exists_item_of_cell (hi : i ∈ s.shifting g t) :
    ∃ j ∈ s.shifting g t, x.rows.actions[t]? = (s.settled g).action? j := by
  cases hr : s.reduction? g with
  | none =>
    obtain ⟨q, haction, hcell⟩ := action_of_kept wf ha hs hx hi (by simp [hr])
    exact ⟨i, hi, by rw [settled_eq hr, hcell, haction]⟩
  | some rule =>
    obtain hkeep | ⟨before, j, after, hsplit, hlost, hafter⟩ :=
      State.forall_or_exists_last (p := fun i ↦ (settle g i.rule rule).Keeps) (s.shifting g t)
    · obtain ⟨q, haction, hcell⟩ := action_of_kept wf ha hs hx hi (by simpa [hr] using hkeep)
      have hover := override?_eq_none_iff.mpr (hkeep i hi)
      refine ⟨i, hi, ?_⟩
      rw [action?_settled_of_shifting hr hi, hover, hcell, haction, Option.none_or]
    · have hj : j ∈ s.shifting g t := by simp [hsplit]
      obtain ⟨action, hover⟩ := Option.ne_none_iff_exists'.mp (mt override?_eq_none_iff.mp hlost)
      refine ⟨j, hj, ?_⟩
      rw [action_of_lost wf ha hs hx hr hsplit hover hafter, action?_settled_of_shifting hr hj,
        hover, Option.some_or]

/-- Items come to the same exactly if the cell holds what each of them carries. -/
theorem unanimous_iff : s.Unanimous g t ↔
    ∀ i ∈ s.shifting g t, (s.settled g).action? i = x.rows.actions[t]? := by
  obtain ⟨q, hq⟩ := exists_shift_of_shifting (t := t) wf ha hs hx
  constructor
  · intro h i hi
    obtain ⟨j, hj, hcell⟩ := exists_item_of_cell wf ha hs hx hi
    rw [hcell]
    cases hr : s.reduction? g with
    | none => rw [settled_eq hr, hq i hi, hq j hj]
    | some rule =>
      rw [action?_settled_of_shifting hr hi, action?_settled_of_shifting hr hj, h rule hr i hi j hj,
        hq i hi, hq j hj]
  · intro h rule hr i hi j hj
    have hsame := (h i hi).trans (h j hj).symm
    rw [action?_settled_of_shifting hr hi, action?_settled_of_shifting hr hj, hq i hi, hq j hj]
      at hsame
    exact override?_or_inj.mp hsame

theorem agrees_iff (hr : s.reduction? g = some rule) (hi : i ∈ s.shifting g t) :
    (conflictOf g s.id rule (i, t)).Agrees x.rows ↔
      (s.settled g).action? i = x.rows.actions[t]? := by
  obtain ⟨q, hq⟩ := exists_shift_of_shifting (t := t) wf ha hs hx
  have hkept : (∃ q', x.rows.actions[t]? = some (.shift q')) ↔
      some (.shift q) = x.rows.actions[t]? := by
    constructor
    · rintro ⟨q', hcell⟩
      obtain ⟨j, hj, hcell'⟩ := exists_item_of_cell wf ha hs hx hi
      rw [hcell', action?_settled_of_shifting hr hj, hq j hj] at hcell ⊢
      cases hover : override? g rule j with
      | none => rfl
      | some action =>
        rw [hover, Option.some_or] at hcell
        exact absurd (hover.trans hcell) override?_ne_shift
    · exact fun hcell ↦ ⟨q, hcell.symm⟩
  rw [action?_settled_of_shifting hr hi, hq i hi, override?, Conflict.Agrees, conflictOf]
  dsimp only
  cases settle g i.rule rule with
  | reduce => exact eq_comm
  | error => exact eq_comm
  | shift => exact hkept
  | shiftByDefault => exact hkept

/-- An item before its final end of input carries what stands in the cell. -/
theorem action?_settled_of_accepts (hi : i ∈ s.itemSet) (haccepts : i.Accepts g) :
    (s.settled g).action? i = x.rows.actions[0]? := by
  have haction : s.action? i = some (.accept i.rule) := by
    obtain ⟨action, hentry, hitem⟩ := ha.exists_action hs hi
    rw [State.action?_of_mem (ha.ascending s hs) hentry]
    cases hitem with
    | enter _ hnot => exact absurd haccepts hnot
    | accept => rfl
    | reduce hcompleted => exact absurd haccepts (hcompleted.not_accepts wf)
  rw [action_of_accepts wf ha hs hx hi haccepts, ← haction]
  cases hr : s.reduction? g with
  | none => rw [settled_eq hr]
  | some rule =>
    have hnot : ¬(s.shifts g).any (·.1 = i) = true := by
      intro hany
      obtain ⟨⟨j, t⟩, hj, heq⟩ := List.any_eq_true.mp hany
      obtain rfl : j = i := of_decide_eq_true heq
      exact (State.mem_shifts.mp hj).2.2 haccepts
    rw [State.action?_settled hr hi, if_neg hnot]

/-- The items that read a terminal carry what stands in its cell exactly if those that shift it
do. -/
theorem items_agree_iff : s.Unanimous g t ↔ ∀ i ∈ (s.settled g).itemSet,
    i.symbol? g = some (.terminal t) → (s.settled g).action? i = x.rows.actions[t]? := by
  rw [unanimous_iff wf ha hs hx, State.itemSet_settled]
  constructor
  · intro h i hi hread
    by_cases haccepts : i.Accepts g
    · have hzero := (haccepts.symbol?_eq wf).symm.trans hread
      obtain rfl : 0 = t := Symbol.terminal.inj (Option.some.inj hzero)
      exact action?_settled_of_accepts wf ha hs hx hi haccepts
    · exact h i (State.mem_shifting.mpr ⟨hi, hread, haccepts⟩)
  · intro h i hi
    obtain ⟨himem, hread, -⟩ := State.mem_shifting.mp hi
    exact h i himem hread

/-- The conflicts of a state agree with the cell of a terminal exactly if its items come to the
same. -/
theorem conflicts_agree_iff : s.Unanimous g t ↔
    ∀ c ∈ s.conflicts g, c.terminal = t → c.Agrees x.rows := by
  cases hr : s.reduction? g with
  | none => simp [State.Unanimous, State.conflicts, hr]
  | some rule =>
    rw [unanimous_iff wf ha hs hx, State.conflicts, hr]
    constructor
    · intro h c hc hterminal
      obtain ⟨⟨i, t'⟩, hp, rfl⟩ := List.mem_map.mp hc
      obtain rfl : t' = t := hterminal
      have hi : i ∈ s.shifting g t' := State.mem_shifting.mpr (State.mem_shifts.mp hp)
      exact (agrees_iff wf ha hs hx hr hi).mpr (h i hi)
    · intro h i hi
      have hp : (i, t) ∈ s.shifts g := State.mem_shifts.mpr (State.mem_shifting.mp hi)
      exact (agrees_iff wf ha hs hx hr hi).mp (h _ (List.mem_map_of_mem hp) rfl)

end Settled

theorem mem_conflicts_iff (ha : Canonical g a) {n : Nat} (hn : a.states[n]? = some s)
    {c : Conflict} :
    c ∈ a.states.flatMap (State.conflicts g) ∧ c.state = n ↔ c ∈ s.conflicts g := by
  have hstate : ∀ {s : State}, c ∈ s.conflicts g → c.state = s.id := by
    intro s hc
    rw [State.conflicts] at hc
    split at hc
    · cases hc
    · obtain ⟨p, -, rfl⟩ := List.mem_map.mp hc
      rfl
  constructor
  · rintro ⟨hc, rfl⟩
    obtain ⟨s', hs', hc⟩ := List.mem_flatMap.mp hc
    obtain ⟨m, hm⟩ := List.mem_iff_getElem?.mp hs'
    have hid := (hstate hc).trans (ha.id_eq m s' hm)
    rw [hid, hm] at hn
    rwa [← Option.some.inj hn]
  · intro hc
    exact ⟨List.mem_flatMap.mpr ⟨s, List.mem_of_getElem? hn, hc⟩,
      (hstate hc).trans (ha.id_eq n s hn)⟩

/-- **When records and items agree with the rows.** What is recorded about a state and a terminal
agrees with the cell, and so does what the items that read the terminal carry, exactly if all items
that shift it come to the same. -/
theorem agreement_iff_unanimous {d : Declarations} (hd : d.build = .ok g)
    (hbuild : Automaton.build g = .ok a) :
    ∃ a' r, resolve g a = (a', .ok r) ∧ ∀ (n : Nat) (s : State), a.states[n]? = some s →
      ∃ s' rows, a'.states[n]? = some s' ∧ r.rows[n]? = some rows ∧ ∀ t,
        ((∀ c ∈ r.conflicts, c.state = n → c.terminal = t → c.Agrees rows) ↔
          s.Unanimous g t) ∧
        ((∀ i ∈ s'.itemSet, i.symbol? g = some (.terminal t) →
          s'.action? i = rows.actions[t]?) ↔ s.Unanimous g t) := by
  have wf := Declarations.wellFormed_of_build hd
  have ha := Automaton.canonical_of_build wf hbuild
  obtain ⟨rows, hresolve⟩ := exists_resolve_eq wf ha
  obtain ⟨-, hstates⟩ := resolve_ok (congrArg Prod.snd hresolve)
  refine ⟨_, _, hresolve, fun n s hn ↦ ?_⟩
  have hs : s ∈ a.states := List.mem_of_getElem? hn
  obtain ⟨x, hx, hrow, -⟩ := hstates n s hn
  refine ⟨s.settled g, x.rows, ?_, hrow, fun t ↦ ⟨?_, (items_agree_iff wf ha hs hx).symm⟩⟩
  · rw [List.getElem?_map, hn, Option.map_some]
  · rw [conflicts_agree_iff wf ha hs hx]
    constructor
    · intro h c hc
      obtain ⟨hmem, hstate⟩ := (mem_conflicts_iff ha hn).mpr hc
      exact h c hmem hstate
    · intro h c hmem hstate
      exact h c ((mem_conflicts_iff ha hn).mp ⟨hmem, hstate⟩)

theorem agreement_iff_unanimous_comparisons :
    comparisons.build = .ok comparisonsGrammar ∧
    Automaton.build comparisonsGrammar = .ok comparisonsAutomaton ∧
    ∃ a' r s s' rows, resolve comparisonsGrammar comparisonsAutomaton = (a', .ok r) ∧
      comparisonsAutomaton.states[5]? = some s ∧ a'.states[5]? = some s' ∧
      r.rows[5]? = some rows ∧
      (r.conflicts.filter (·.state = 5)).map (·.resolution) = [.error, .shift] ∧
      ∀ t, s.Unanimous comparisonsGrammar t ∧
        (∀ c ∈ r.conflicts, c.state = 5 → c.terminal = t → c.Agrees rows) ∧
        ∀ i ∈ s'.itemSet, i.symbol? comparisonsGrammar = some (.terminal t) →
          s'.action? i = rows.actions[t]? := by
  have hd : comparisons.build = .ok comparisonsGrammar := eq_ok_okValue _
  have hbuild : Automaton.build comparisonsGrammar = .ok comparisonsAutomaton := eq_ok_okValue _
  obtain ⟨s, hn⟩ : ∃ s, comparisonsAutomaton.states[5]? = some s :=
    Option.isSome_iff_exists.mp (by decide +kernel)
  have hsame : ∀ s ∈ comparisonsAutomaton.states, ∀ rule ∈ s.reduction? comparisonsGrammar,
      ∀ p ∈ s.shifts comparisonsGrammar, ∀ p' ∈ s.shifts comparisonsGrammar, p.2 = p'.2 →
        override? comparisonsGrammar rule p.1 = override? comparisonsGrammar rule p'.1 := by
    decide +kernel
  have hunanimous : ∀ t, s.Unanimous comparisonsGrammar t := by
    intro t rule hr i hi j hj
    exact hsame s (List.mem_of_getElem? hn) rule hr
      (i, t) (State.mem_shifts.mpr (State.mem_shifting.mp hi))
      (j, t) (State.mem_shifts.mpr (State.mem_shifting.mp hj)) rfl
  have hconflicts : (resolve comparisonsGrammar comparisonsAutomaton).2.map
      (fun r ↦ (r.conflicts.filter (·.state = 5)).map (·.resolution)) = .ok [.error, .shift] := by
    decide +kernel
  obtain ⟨a', r, hresolve, hstates⟩ := agreement_iff_unanimous hd hbuild
  obtain ⟨s', rows, hs', hrows, hagree⟩ := hstates 5 s hn
  rw [hresolve] at hconflicts
  exact ⟨hd, hbuild, a', r, s, s', rows, hresolve, hn, hs', hrows, Except.ok.inj hconflicts,
    fun t ↦ ⟨hunanimous t, (hagree t).1.mpr (hunanimous t), (hagree t).2.mpr (hunanimous t)⟩⟩

/-- In the state behind `E + E` a conflict records that the sign is shifted, and an item carries
that shift, but the cell of the sign holds the reduction. -/
theorem exists_disagreement_signs :
    signs.build = .ok signsGrammar ∧ Automaton.build signsGrammar = .ok signsAutomaton ∧
    ∃ a' r s' rows, resolve signsGrammar signsAutomaton = (a', .ok r) ∧
      a'.states[4]? = some s' ∧ r.rows[4]? = some rows ∧
      rows.actions[2]? = some (.reduce 1) ∧
      (∃ c ∈ r.conflicts, c.state = 4 ∧ c.terminal = 2 ∧ c.resolution = .shift ∧
        ¬c.Agrees rows) ∧
      ∃ i ∈ s'.itemSet, i.symbol? signsGrammar = some (.terminal 2) ∧
        s'.action? i = some (.shift 3) := by
  refine ⟨eq_ok_okValue _, eq_ok_okValue _, _, okValue (resolve signsGrammar signsAutomaton).2
      (by decide +kernel),
    ⟨4, [(⟨1, 1⟩, some (.reduce 1)), (⟨1, 3⟩, some (.reduce 1)), (⟨2, 1⟩, some (.shift 3))]⟩,
    ⟨[.reduce 1, .reduce 1, .reduce 1], [.error, .error]⟩, Prod.ext rfl (eq_ok_okValue _),
    by decide +kernel, by decide +kernel, rfl, ⟨⟨4, 2, 2, 1, .shift⟩, by decide +kernel, rfl, rfl,
      rfl, ?_⟩, ⟨2, 1⟩, by decide, by decide +kernel, rfl⟩
  rintro ⟨q, hq⟩
  cases hq

end Conflict

end ShiftReduce
