import Mathlib
import ShiftReduce.Lexer.Scanner
import ShiftReduce.Proofs.Lexer.Runs
import ShiftReduce.Proofs.Tables.Lookup

/-!
# Lexer tables step like their machine

A lexer looks events up in one list of ranges, where the machine has a list for each event; the
first range that holds a character is of the first event that does (`Lexer.classify_ofMachine`). A
character outside all ranges gets the number of the ranges, which is no event if every event has
ranges.

## Rows one behind the other

The scanner keeps the rows one behind the other. It finds the cell that the lexer does, if the
address fits a word, even where there is no such row or column (`Lexer.next_toScanTables`). Nothing
is asked of the events in the list of ranges: one that is past the last column must not be read as
the start of the next row, and the scanner checks for that before it looks anything up
(`Lexer.toScanTables_steps_iff`).

## Regular machines

For a machine as it is compiled all of this comes together: lexer and scanner step like the machine,
from every state and on every character. These are the facts from which tokens are found to be the
longest matches of their patterns.
-/

namespace ShiftReduce.Lexer

variable {l : Lexer} {terminals : List Terminal} {m : Machine} {state : Nat} {c : Char}

/-! ## Events -/

private theorem find?_zipIdx (events : List (List CharRange)) (n : Nat) :
    (((events.zipIdx n).flatMap fun (ranges, event) ↦ ranges.map (·, event)).find?
        fun (range, _) ↦ range.contains c).map Prod.snd
      = (events.findIdx? (·.any (·.contains c))).map (· + n) := by
  induction events generalizing n with
  | nil => rfl
  | cons ranges events ih =>
    rw [List.zipIdx_cons, List.flatMap_cons, List.find?_append, List.find?_map, List.findIdx?_cons]
    cases hany : ranges.any (·.contains c) with
    | false =>
      have hnone : ranges.find? (·.contains c) = none := by
        rw [List.find?_eq_none]
        intro r hr
        rw [List.any_eq_false] at hany
        exact hany r hr
      have hfound : ranges.find? ((fun x : CharRange × Nat ↦ x.1.contains c) ∘ (·, n)) = none :=
        hnone
      rw [hfound, Option.map_none, Option.none_or, ih, if_neg Bool.false_ne_true, Option.map_map]
      congr 1
      funext i
      show i + (n + 1) = i + 1 + n
      omega
    | true =>
      obtain ⟨r, hr⟩ : ∃ r, ranges.find? (·.contains c) = some r := by
        rw [← Option.isSome_iff_exists, List.find?_isSome]
        exact List.any_eq_true.mp hany
      have hfound : ranges.find? ((fun x : CharRange × Nat ↦ x.1.contains c) ∘ (·, n)) = some r :=
        hr
      rw [hfound, Option.map_some, Option.some_or, if_pos rfl, Option.map_some, Option.map_some,
        Nat.zero_add]

/-- How many ranges the events have together. -/
def Machine.rangeCount (m : Machine) : Nat :=
  (m.events.map List.length).sum

theorem length_ranges_ofMachine : (ofMachine terminals m).ranges.length = m.rangeCount := by
  rw [ofMachine, List.length_flatMap]
  simp only [List.length_map]
  have hfirst := congrArg (List.map List.length) (List.zipIdx_map_fst 0 m.events)
  rw [List.map_map] at hfirst
  exact congrArg List.sum hfirst

/-- A character gets the first event it belongs to, and otherwise the number of the ranges. -/
theorem classify_ofMachine :
    (ofMachine terminals m).classify c = (m.event? c).getD m.rangeCount := by
  rw [classify, defaultEvent, length_ranges_ofMachine]
  show ((((m.events.zipIdx).flatMap fun (ranges, event) ↦ ranges.map (·, event)).find?
    fun (range, _) ↦ range.contains c).map Prod.snd).getD _ = _
  rw [find?_zipIdx, Machine.event?]
  simp

/-! ## Steps -/

/-- The rows have one width, and their targets fit a table code. -/
structure Flat (l : Lexer) : Prop where
  width : ∀ row ∈ l.transitions, row.length = l.eventCount
  small : ∀ row ∈ l.transitions, ∀ s, some s ∈ row → s < 2 ^ 31

/-- A cell as it is stored: the next state, or -1. -/
def storedCell (cell : Option Nat) : Int :=
  (cell.map fun s ↦ wrap32 s).getD (-1)

/-- The rows one behind the other hold the cell of each state and event, and nothing for a state
past the last. -/
theorem getElem?_encodedTransitions (hl : l.Flat) {event : Nat} (hevent : event < l.eventCount) :
    l.encodedTransitions.flatten[state * l.eventCount + event]?
      = (l.transitions[state]?.bind (·[event]?)).map storedCell := by
  have hwidth : ∀ row ∈ l.encodedTransitions, row.length = l.eventCount := by
    intro row hrow
    obtain ⟨row', hrow', rfl⟩ := List.mem_map.mp hrow
    rw [List.length_map]
    exact hl.width row' hrow'
  have hstored : l.encodedTransitions[state]?
      = (l.transitions[state]?).map (·.map storedCell) :=
    List.getElem?_map
  cases hrow : l.transitions[state]? with
  | none =>
    rw [Option.bind_none, Option.map_none, List.getElem?_eq_none_iff,
      Tables.length_flatten_of_length hwidth, encodedTransitions, List.length_map]
    have hle := List.getElem?_eq_none_iff.mp hrow
    exact (Nat.mul_le_mul_right _ hle).trans (Nat.le_add_right _ _)
  | some row =>
    rw [hrow] at hstored
    rw [Tables.getElem?_flatten_of_length hwidth hstored hevent, List.getElem?_map,
      Option.bind_some]

/-- The scanner's tables step like the lexer they are made from. No cell is looked up for an event
past the last column, so that its address need not fit. -/
theorem next_toScanTables (hl : l.Flat)
    (haddress : l.classify c < l.eventCount →
      state * l.eventCount + l.classify c < wordBound) :
    l.toScanTables.next state c = .ok (l.next? state c) := by
  have hclassify : l.toScanTables.classify c = l.classify c := rfl
  have hcount : l.toScanTables.eventCount = l.eventCount := rfl
  have hcells : l.toScanTables.transitions = l.encodedTransitions.flatten.toArray := rfl
  rw [ScanTables.next, next?, hclassify, hcount, hcells]
  by_cases hevent : l.classify c < l.eventCount
  · rw [if_neg (not_le.mpr hevent), cellAddress, if_pos (haddress hevent)]
    dsimp only
    rw [List.getElem?_toArray, getElem?_encodedTransitions hl hevent]
    cases hcell : l.transitions[state]?.bind (·[l.classify c]?) with
    | none => rfl
    | some cell =>
      cases cell with
      | none => rfl
      | some s =>
        obtain ⟨row, hrow, hs⟩ := Option.bind_eq_some_iff.mp hcell
        have hsmall := hl.small row (List.mem_of_getElem? hrow) s (List.mem_of_getElem? hs)
        have hword : wrap32 s = s := wrap32_of_bounds (by omega) (by omega)
        simp [storedCell, hword]
  · rw [if_pos (not_lt.mp hevent)]
    cases hrow : l.transitions[state]? with
    | none => rfl
    | some row =>
      have hnone : row[l.classify c]? = none := by
        rw [List.getElem?_eq_none_iff, hl.width row (List.mem_of_getElem? hrow)]
        exact not_lt.mp hevent
      rw [Option.bind_some, hnone]
      rfl

/-- Otherwise the scanner says that there is no such address. -/
theorem next_toScanTables_of_overflow (hevent : l.classify c < l.eventCount)
    (haddress : wordBound ≤ state * l.eventCount + l.classify c) :
    l.toScanTables.next state c = .error {} := by
  have hclassify : l.toScanTables.classify c = l.classify c := rfl
  have hcount : l.toScanTables.eventCount = l.eventCount := rfl
  rw [ScanTables.next, hclassify, hcount, if_neg (not_le.mpr hevent), cellAddress,
    if_neg (not_lt.mpr haddress)]

private theorem flat_of_width {n : Nat} (hwidth : ∀ row ∈ l.transitions, row.length = n)
    (hsmall : ∀ row ∈ l.transitions, ∀ s, some s ∈ row → s < 2 ^ 31) : l.Flat where
  width := by
    intro row hrow
    obtain ⟨first, rest, hrows⟩ := List.exists_cons_of_ne_nil (List.ne_nil_of_mem hrow)
    have hfirst := hwidth first (hrows ▸ List.mem_cons_self)
    rw [hwidth row hrow, eventCount, hrows, List.head?_cons, Option.map_some, Option.getD_some,
      hfirst]
  small := hsmall

/-- **The scanner steps like the lexer.** Where the rows have one width and the targets fit a table
code, the scanner and the lexer agree on every state, be there such a state or not, and on every
character, just if the address of the cell fits a word or no cell is looked up. -/
theorem toScanTables_steps_iff {n : Nat} (hwidth : ∀ row ∈ l.transitions, row.length = n)
    (hsmall : ∀ row ∈ l.transitions, ∀ s, some s ∈ row → s < 2 ^ 31) :
    l.toScanTables.next state c = .ok (l.next? state c) ↔
      (l.classify c < l.eventCount → state * l.eventCount + l.classify c < wordBound) := by
  constructor
  · intro hnext hevent
    by_contra haddress
    rw [next_toScanTables_of_overflow hevent (not_lt.mp haddress)] at hnext
    cases hnext
  · exact next_toScanTables (flat_of_width hwidth hsmall)

/-- Two states and two events, and a character of a third. Read as an address, that event of the
first state is the first of the second. -/
def threeEvents : Lexer where
  initial := 0
  tokens := [none, none]
  ranges := [(.single 'a', 0), (.single 'b', 1), (.single 'c', 2)]
  transitions := [[some 1, none], [some 0, some 1]]
  actions := []
  collisions := []

theorem toScanTables_steps_threeEvents :
    (∀ row ∈ threeEvents.transitions, row.length = 2) ∧
      threeEvents.toScanTables.next 1 'b' = .ok (some 1) ∧
      threeEvents.toScanTables.next 0 'c' = .ok none ∧
      threeEvents.toScanTables.next 7 'a' = .ok none := by
  have hwidth : ∀ row ∈ threeEvents.transitions, row.length = 2 := by decide
  have hsmall : ∀ row ∈ threeEvents.transitions, ∀ s, some s ∈ row → s < 2 ^ 31 := by
    simp [threeEvents]
  exact ⟨hwidth, (toScanTables_steps_iff hwidth hsmall).mpr (by decide),
    (toScanTables_steps_iff hwidth hsmall).mpr (by decide),
    (toScanTables_steps_iff hwidth hsmall).mpr (by decide)⟩

/-! ## Tables of machines -/

namespace Machine.Regular

theorem eventCount (h : m.Regular) : (ofMachine terminals m).eventCount = m.events.length := by
  have hlt := h.initial_lt
  cases hrows : m.transitions with
  | nil =>
    rw [hrows] at hlt
    exact absurd hlt (Nat.not_lt_zero _)
  | cons row rows =>
    have hwidth := h.width row (hrows ▸ List.mem_cons_self)
    show ((m.transitions.head?.map List.length).getD 0) = _
    rw [hrows, List.head?_cons, Option.map_some, Option.getD_some, hwidth]

private theorem rangeCount_eq (h : m.Regular) : m.rangeCount = m.events.length := by
  rw [Machine.rangeCount, List.map_congr_left h.single, List.map_const', List.sum_replicate_nat,
    Nat.mul_one]

theorem classify (h : m.Regular) :
    (ofMachine terminals m).classify c = (m.event? c).getD m.events.length := by
  rw [classify_ofMachine, h.rangeCount_eq]

theorem flat (h : m.Regular) (hsmall : m.transitions.length < 2 ^ 31) :
    (ofMachine terminals m).Flat where
  width := by
    intro row hrow
    rw [h.eventCount]
    exact h.width row hrow
  small := fun row hrow s hs ↦ Nat.lt_trans (h.target_lt row hrow s hs) hsmall

private theorem next?_eq (h : m.Regular) :
    (ofMachine terminals m).next? state c = m.next? state c := by
  rw [Lexer.next?, h.classify, Machine.next?]
  cases m.event? c with
  | some event => rfl
  | none =>
    show (m.transitions[state]?.bind (·[m.events.length]?)).join = none
    cases hrow : m.transitions[state]? with
    | none => rfl
    | some row =>
      rw [Option.bind_some, List.getElem?_eq_none (h.width row (List.mem_of_getElem? hrow)).le]
      rfl

theorem lt_of_next? (h : m.Regular) {state' : Nat} (hnext : m.next? state c = some state') :
    state' < m.transitions.length := by
  rw [Machine.next?, Option.bind_eq_some_iff] at hnext
  obtain ⟨event, -, hnext⟩ := hnext
  rw [Option.join_eq_some_iff, Option.bind_eq_some_iff] at hnext
  obtain ⟨row, hrow, hcell⟩ := hnext
  exact h.target_lt row (List.mem_of_getElem? hrow) state' (List.mem_of_getElem? hcell)

theorem lt_of_run? (h : m.Regular) {state' : Nat} {text : List Char}
    (hstate : state < m.transitions.length) (hrun : m.run? state text = some state') :
    state' < m.transitions.length := by
  induction text generalizing state with
  | nil =>
    obtain rfl := Option.some.inj hrun
    exact hstate
  | cons c text ih =>
    rw [run?, Option.bind_eq_some_iff] at hrun
    obtain ⟨next, hnext, hrest⟩ := hrun
    exact ih (h.lt_of_next? hnext) hrest

/-- So does the scanner, from every state: the addresses are far from the greatest word. -/
theorem next_eq (h : m.Regular) (hsmall : m.transitions.length < 2 ^ 31)
    (hstate : state < m.transitions.length) :
    (ofMachine terminals m).toScanTables.next state c = .ok (m.next? state c) := by
  have hstep : (ofMachine terminals m).next? state c = m.next? state c := h.next?_eq
  rw [← hstep]
  refine next_toScanTables (h.flat hsmall) fun _ ↦ ?_
  rw [h.eventCount, h.classify]
  have hevents := h.events_le
  have hevent : (m.event? c).getD m.events.length ≤ m.events.length := by
    cases hfound : m.event? c with
    | none => rfl
    | some event =>
      obtain ⟨hlt, -⟩ := List.findIdx?_eq_some_iff_getElem.mp hfound
      exact hlt.le
  have hproduct : state * m.events.length ≤ 2 ^ 31 * 0x110000 :=
    Nat.mul_le_mul (hstate.trans hsmall).le hevents
  rw [wordBound]
  omega

theorem token?_eq : (ofMachine terminals m).toScanTables.token? state
    = (m.tagAt? state).bind (tagName? terminals) := by
  show ((m.finalTags.map (·.bind (tagName? terminals))).toArray[state]?).join = _
  rw [List.getElem?_toArray, List.getElem?_map, Machine.tagAt?]
  cases m.finalTags[state]? <;> rfl

end Machine.Regular

end ShiftReduce.Lexer
