import ShiftReduce.Parser.Basic
import ShiftReduce.Proofs.Tables.Lossless

/-!
# Columns that rows do not have

As lists of rows, packed tables say nothing about a terminal that has no column. A parser has the
same rows one behind the other, and looks no further than whether the cell lies within all of them.

## What is found

Counted on past the end of its row, a column is one of a row further down (`getElem?_flatten_add`).
So a parser refuses such a terminal only in states whose row is among the last ones; in the others
it takes the action that another row has on another terminal. A uniform row is not stored at all,
and its state does the same on any terminal.

## The exact condition

`refuses_iff` says which states and terminals are refused, and `Tables.Refuses.push?_eq` that a
refused token leaves the parser as it was. That the others need not be refused is shown by tables
for three terminals, with which terminal 5 is shifted (`exists_shift_without_column`).
-/

namespace ShiftReduce

/-! ## Refusals -/

namespace Parser

variable {V : Type} {t : Tables} {combine : Nat → List V → V} {s c : Nat} {v : V} {p : Parser V}

/-- The tables are found malformed when the action of a state on a terminal is looked up. -/
def Tables.Refuses (t : Tables) (s c : Nat) : Prop :=
  ∃ defect, t.action s c = .error (.badTables defect)

/-- A token that the tables refuse leaves the parser alone: it neither shifts nor reduces nor
accepts. -/
theorem Tables.Refuses.push?_eq (h : t.Refuses p.state c) (haccepted : p.accepted = false)
    (limit : Nat) : ∃ defect, p.push? t combine limit c v =
      some { parser := p, answer := .error (.badTables defect), events := [] } := by
  obtain ⟨defect, hread⟩ := h
  have hstep : p.step t combine c v = { parser := p, outcome := .failed (.badTables defect) } := by
    simp only [step, hread]
  refine ⟨defect, ?_⟩
  rw [push?, haccepted, if_neg Bool.false_ne_true, run?.eq_def, hstep]

end Parser

namespace Tables

/-! ## Cells of later rows -/

section Cell

variable {stored : List (List Action)} {width k c : Nat} {defect : Parser.Defect}

/-- Counted on past the end of its row, a column is one of a later row. -/
theorem getElem?_flatten_add {α : Type} {rows : List (List α)} (hpos : 0 < width)
    (hwidth : ∀ row ∈ rows, row.length = width) (k c : Nat) :
    rows.flatten[k * width + c]? = (rows[k + c / width]?).bind (·[c % width]?) := by
  have hsplit : k * width + c = (k + c / width) * width + c % width := by
    rw [Nat.add_mul, Nat.add_assoc, Nat.div_add_mod']
  rw [hsplit]
  cases hrow : rows[k + c / width]? with
  | some row =>
    rw [getElem?_flatten_of_length hwidth hrow (Nat.mod_lt c hpos), Option.bind_some]
  | none =>
    rw [Option.bind_none, List.getElem?_eq_none_iff, length_flatten_of_length hwidth]
    have hmul := Nat.mul_le_mul_right width (List.getElem?_eq_none_iff.mp hrow)
    exact Nat.le_add_right_of_le hmul

/-- What is found at a column counted from the start of a row, whether or not the row has it. -/
inductive Finds (stored : List (List Action)) (width : Nat) (defect : Parser.Defect) (k c : Nat) :
    Except Parser.Error Int → Prop
  | cell {row : List Action} {action : Action} : stored[k + c / width]? = some row →
      row[c % width]? = some action → Finds stored width defect k c (.ok action.encode)
  | past : k * width + c < wordBound → stored.length ≤ k + c / width →
      Finds stored width defect k c (.error (.badTables defect))
  | overflow : wordBound ≤ k * width + c →
      Finds stored width defect k c (.error .addressOverflow)

private theorem finds_cell (hpos : 0 < width) (hwidth : ∀ row ∈ stored, row.length = width)
    (defect : Parser.Defect) (k c : Nat) :
    Finds stored width defect k c (Parser.Tables.cell
      (stored.map (·.map Action.encode)).flatten.toArray width defect k c) := by
  have hcodes : ∀ row ∈ stored.map (·.map Action.encode), row.length = width := by
    simpa using hwidth
  rw [Parser.Tables.cell, cellAddress]
  by_cases hfits : k * width + c < wordBound
  · simp only [if_pos hfits, List.getElem?_toArray, getElem?_flatten_add hpos hcodes,
      List.getElem?_map]
    cases hrow : stored[k + c / width]? with
    | none => exact Finds.past hfits (List.getElem?_eq_none_iff.mp hrow)
    | some row =>
      have hlength : row.length = width := hwidth row (List.mem_of_getElem? hrow)
      have hcell : row[c % width]? = some _ :=
        List.getElem?_eq_getElem (hlength.symm ▸ Nat.mod_lt c hpos)
      simp only [Option.map_some, Option.bind_some, List.getElem?_map, hcell]
      exact Finds.cell hrow hcell
  · simp only [if_neg hfits]
    exact Finds.overflow (not_lt.mp hfits)

theorem Finds.badTables_iff {result : Except Parser.Error Int}
    (h : Finds stored width defect k c result) : (∃ d, result = .error (.badTables d)) ↔
      k * width + c < wordBound ∧ stored.length ≤ k + c / width := by
  cases h with
  | cell hrow hcell =>
    have hlt := (List.getElem?_eq_some_iff.mp hrow).1
    simp
    omega
  | past hfits hpast => simp [hfits, hpast]
  | overflow hlarge =>
    simp
    omega

end Cell

/-! ## Reading packed tables -/

theorem ActionEntry.exists_decode? {stored : List (List Action)} {row : List Action} {entry : Int}
    (h : ActionEntry stored row entry) (hsmall : ∀ action ∈ row, action.Small)
    (hodd : entry % 2 = 1) : ∃ action, Action.decode? (entry / 2) = some action := by
  cases h with
  | @uniform a huniform =>
    have ha := hsmall a (mem_of_uniform? huniform)
    have hbounds := Action.encode_bounds ha
    have hhalf : (wrap32 (a.encode * 2) + 1) / 2 = a.encode := by
      rw [wrap32_of_bounds (by omega) (by omega)]
      omega
    exact ⟨a, by rw [hhalf, ha.decode?_encode]⟩
  | @stored k hk =>
    have hlow := wrap32_emod (wrap32 k * 2)
    omega

section Packed

variable {rows : List Rows} {t : Tables} {p : Parser.Tables} {n s c : Nat} {entry : Int}

theorem Packed.even_of_action?_eq_none (h : Packed rows t)
    (hsmall : ∀ row ∈ rows, ∀ action ∈ row.actions, action.Small)
    (hnone : t.action? s c = none) (hentry : t.actionIndex[s]? = some entry) : entry % 2 = 0 := by
  by_contra heven
  have hodd : entry % 2 = 1 := by omega
  have hlt := (List.getElem?_eq_some_iff.mp hentry).1
  rw [h.actions.length_index, List.length_map] at hlt
  obtain ⟨entry', hentry', hrow⟩ := h.exists_actionEntry (List.getElem?_eq_getElem hlt)
  obtain rfl := Option.some.inj (hentry.symm.trans hentry')
  obtain ⟨action, hread⟩ := hrow.exists_decode? (hsmall _ (List.getElem_mem hlt)) hodd
  rw [action?, hentry, Option.bind_eq_bind, Option.bind_some, if_pos hodd, hread] at hnone
  exact Option.some_ne_none _ hnone

/-- A terminal that has a column has an action in every state that there is. -/
theorem Packed.actionIndex_eq_none (h : Packed rows t)
    (hwidth : ∀ row ∈ rows, row.actions.length = n)
    (hsmall : ∀ row ∈ rows, ∀ action ∈ row.actions, action.Small) (hcount : rows.length < 2 ^ 30)
    (hc : c < n) (hnone : t.action? s c = none) : t.actionIndex[s]? = none := by
  rw [List.getElem?_eq_none_iff, h.actions.length_index, List.length_map, ← not_lt]
  intro hs
  have hlength : rows[s].actions.length = n := hwidth _ (List.getElem_mem hs)
  have hread := h.action?_eq hsmall hcount (List.getElem?_eq_getElem hs)
    (List.getElem?_eq_getElem (hlength.symm ▸ hc))
  exact Option.some_ne_none _ (hread.symm.trans hnone)

theorem Flattens.action_of_no_entry (hp : Flattens t p) (hentry : t.actionIndex[s]? = none) :
    p.action s c = .error (.badTables .stateOutOfRange) := by
  simp only [Parser.Tables.action, hp.actionIndex_eq, List.getElem?_toArray, hentry]

theorem Packed.finds_action (h : Packed rows t) (hp : Flattens t p) (hpos : 0 < p.terminals)
    (hwidth : ∀ row ∈ rows, row.actions.length = p.terminals)
    (hentry : t.actionIndex[s]? = some entry) (heven : entry % 2 = 0) :
    Finds t.actionRows p.terminals .actionCellOutOfRange (wrap64 (entry / 2)) c (p.action s c) := by
  have hfinds := finds_cell hpos (h.length_of_mem_actionRows hwidth) .actionCellOutOfRange
    (wrap64 (entry / 2)) c
  have hcodes : p.actionTable = (t.actionRows.map (·.map Action.encode)).flatten.toArray :=
    hp.actionTable_eq
  rw [← hcodes] at hfinds
  simp only [Parser.Tables.action, hp.actionIndex_eq, List.getElem?_toArray, hentry]
  rwa [if_neg (by omega)]

end Packed

/-- **Which missing actions a parser notices.** Where the packed tables, read as lists, have no
action, a parser that has them finds them malformed if and only if the column, counted on from the
start of the state's row, lies past the last row. Otherwise it takes the action of another row for
that of the state, unless there is no word for the place at all. Terminals that have a column are
noticed always, and a token that is noticed leaves the parser alone. -/
theorem refuses_iff {rows : List Rows} {p : Parser.Tables} {n s c : Nat} {V : Type}
    (combine : Nat → List V → V) (hpos : 0 < n) (hactions : ∀ row ∈ rows, row.actions.length = n)
    (hsmall : ∀ row ∈ rows, ∀ action ∈ row.actions, action.Small)
    (hflattens : (compress rows).Flattens p) (hterminals : p.terminals = n)
    (hnone : (compress rows).action? s c = none) :
    (p.Refuses s c ↔ ∀ entry, (compress rows).actionIndex[s]? = some entry →
      wrap64 (entry / 2) * n + c < wordBound ∧
        (compress rows).actionRows.length ≤ wrap64 (entry / 2) + c / n) ∧
    (¬p.Refuses s c → p.action s c = .error .addressOverflow ∨
      ∃ row ∈ rows, ∃ action, row.actions[c % n]? = some action ∧
        p.action s c = .ok action.encode) ∧
    (rows.length < 2 ^ 30 → c < n → p.Refuses s c) ∧
    (p.Refuses s c → ∀ q : Parser V, q.state = s → q.accepted = false → ∀ limit v,
      ∃ defect, q.push? p combine limit c v =
        some { parser := q, answer := .error (.badTables defect), events := [] }) := by
  subst hterminals
  have hpacked := packed_compress rows
  have hmissing : (compress rows).actionIndex[s]? = none → p.Refuses s c :=
    fun hentry ↦ ⟨_, hflattens.action_of_no_entry hentry⟩
  have hfinds : ∀ entry, (compress rows).actionIndex[s]? = some entry →
      Finds (compress rows).actionRows p.terminals .actionCellOutOfRange (wrap64 (entry / 2)) c
        (p.action s c) := fun entry hentry ↦
    hpacked.finds_action hflattens hpos hactions hentry
      (hpacked.even_of_action?_eq_none hsmall hnone hentry)
  refine ⟨?_, fun hrefuses ↦ ?_, fun hcount hc ↦ ?_, fun hrefuses q hstate haccepted limit v ↦ ?_⟩
  · cases hentry : (compress rows).actionIndex[s]? with
    | none => simp [hmissing hentry]
    | some entry => simpa [Parser.Tables.Refuses] using (hfinds entry hentry).badTables_iff
  · cases hentry : (compress rows).actionIndex[s]? with
    | none => exact absurd (hmissing hentry) hrefuses
    | some entry =>
      have hfound := hfinds entry hentry
      generalize hresult : p.action s c = result at hfound ⊢
      cases hfound with
      | @cell row action hrow hcell =>
        obtain ⟨row', hrow', rfl⟩ :=
          List.mem_map.mp (hpacked.actions.mem_stored _ (List.mem_of_getElem? hrow))
        exact Or.inr ⟨row', hrow', action, hcell, rfl⟩
      | past => exact absurd ⟨_, hresult⟩ hrefuses
      | overflow => exact Or.inl rfl
  · exact hmissing (hpacked.actionIndex_eq_none hactions hsmall hcount hc hnone)
  · subst hstate
    exact hrefuses.push?_eq haccepted limit

/-- The rows of a grammar whose only word has two letters. -/
def pairRows : List Rows :=
  [⟨[.error, .shift 1, .error], [.error, .goto 2]⟩, ⟨[.error, .error, .shift 3], [.error, .error]⟩,
    ⟨[.accept 0, .error, .error], [.error, .error]⟩,
    ⟨[.reduce 1, .reduce 1, .reduce 1], [.error, .error]⟩]

/-- The packed `pairRows` as a parser carries them. -/
def pairTables : Parser.Tables where
  actionTable := (compress pairRows).encodedActionRows.flatten.toArray
  actionIndex := (compress pairRows).actionIndex.toArray
  gotoTable := (compress pairRows).encodedGotoRows.flatten.toArray
  gotoIndex := (compress pairRows).gotoIndex.toArray
  terminals := 3
  nonterminals := 2
  ruleLhs := #[0, 1]
  ruleLength := #[1, 2]

theorem small_pairRows : ∀ row ∈ pairRows, ∀ action ∈ row.actions, action.Small := by
  simp only [pairRows, List.forall_mem_cons, Action.Small, Action.number?]
  simp

theorem flattens_pairTables : (compress pairRows).Flattens pairTables :=
  ⟨rfl, rfl, rfl, rfl⟩

theorem refuses_iff_pairTables :
    (compress pairRows).action? 2 3 = none ∧ pairTables.Refuses 2 3 ∧
      ∃ defect, ({ states := [2, 0], values := [()] } : Parser Unit).push? pairTables
        (fun _ _ ↦ ()) 0 3 () = some
          { parser := { states := [2, 0], values := [()] }
            answer := .error (.badTables defect), events := [] } := by
  have hnone : (compress pairRows).action? 2 3 = none := by decide
  obtain ⟨hiff, -, -, hpush⟩ := refuses_iff (n := 3) (V := Unit) (fun _ _ ↦ ()) (by decide)
    (by decide) small_pairRows flattens_pairTables rfl hnone
  have hrefuses : pairTables.Refuses 2 3 := by
    refine hiff.mpr fun entry hentry ↦ ?_
    have hindex : (compress pairRows).actionIndex[2]? = some 4 := by decide
    obtain rfl := Option.some.inj (hindex.symm.trans hentry)
    have hword : wrap64 (4 / 2) = 2 := by decide
    have hstored : (compress pairRows).actionRows.length = 3 := by decide
    rw [hword, hstored, wordBound]
    omega
  exact ⟨hnone, hrefuses, hpush hrefuses _ rfl rfl 0 ()⟩

/-- A terminal that has no column can be shifted. -/
theorem exists_shift_without_column :
    (∀ row ∈ pairRows, row.actions.length = 3) ∧
    (∀ row ∈ pairRows, ∀ action ∈ row.actions, action.Small) ∧
    (compress pairRows).Flattens pairTables ∧ pairTables.terminals = 3 ∧
    (compress pairRows).action? 0 5 = none ∧ ¬pairTables.Refuses 0 5 ∧
    (({} : Parser Unit).push? pairTables (fun _ _ ↦ ()) 0 5 ()).map (·.answer)
      = some (.ok .shifted) := by
  have hread : pairTables.action 0 5 = .ok 25 := by decide
  refine ⟨by decide, small_pairRows, flattens_pairTables, rfl, by decide, ?_, by decide +kernel⟩
  rintro ⟨defect, hrefuses⟩
  rw [hread] at hrefuses
  cases hrefuses

end Tables

end ShiftReduce
