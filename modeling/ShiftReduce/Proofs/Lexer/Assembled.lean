import ShiftReduce.Proofs.Lexer.Tables

/-!
# What assembled lexers do with a machine

Whatever the compiler, an assembled lexer reads the machine in one way: a character belongs to the
first event that has it, and one that no event has gets the number of all ranges for its event
(`Lexer.next?_ofMachine`).

## The last event

That this number is past the last column of the machine takes as many ranges as there are events.
With fewer it is a column like any other, and the lexer follows the machine only if that column is
empty (`Lexer.assemble_follows_iff`). A compiler that hands over an event without ranges makes such
a machine: `exists_assemble_not_follows` has one.

## What it means to follow

`Follows` says what is expected of a lexer without reference to its tables: the first event of a
character decides, characters of no event lead nowhere, and so does the event that such characters
get. The machine may be of any shape, as long as its rows are as wide as it has events
(`Rectangular`).
-/

namespace ShiftReduce.Lexer

variable {M : Type} {compiler : Compiler M} {terminals : List Terminal} {machines : List M}
  {m : Machine} {state event : Nat} {c : Char}

/-- The target of a state on an event, in a matrix of targets. -/
def target? (transitions : List (List (Option Nat))) (state event : Nat) : Option Nat :=
  (transitions[state]?.bind (·[event]?)).join

namespace Machine

def Rectangular (m : Machine) : Prop :=
  ∀ row ∈ m.transitions, row.length = m.events.length

private theorem event?_eq_none_iff :
    m.event? c = none ↔ ∀ ranges ∈ m.events, ∀ r ∈ ranges, r.contains c = false := by
  simp [event?]

theorem Rectangular.target?_eq_none_iff (h : m.Rectangular) :
    (∀ state, target? m.transitions state event = none) ↔
      m.events.length ≤ event ∨ ∀ row ∈ m.transitions, row[event]? = some none := by
  constructor
  · intro hnone
    refine or_iff_not_imp_left.mpr fun hlt row hrow ↦ ?_
    obtain ⟨state, hstate⟩ := List.mem_iff_getElem?.mp hrow
    have hcell : event < row.length := by
      rw [h row hrow]
      omega
    have htarget := hnone state
    rw [target?, hstate, Option.bind_some, List.getElem?_eq_getElem hcell, Option.join_some]
      at htarget
    rw [List.getElem?_eq_getElem hcell, htarget]
  · intro hempty state
    rw [target?]
    cases hrow : m.transitions[state]? with
    | none => rfl
    | some row =>
      have hmem := List.mem_of_getElem? hrow
      rw [Option.bind_some]
      rcases hempty with hpast | hempty
      · rw [List.getElem?_eq_none ((h row hmem).trans_le hpast), Option.join_none]
      · rw [hempty row hmem, Option.join_some]

end Machine

/-- The lexer of a machine looks up the first event of a character, or the number of the ranges. -/
theorem next?_ofMachine : (ofMachine terminals m).next? state c
    = target? m.transitions state ((m.event? c).getD m.rangeCount) := by
  rw [next?, classify_ofMachine]
  rfl

/-- What it takes to follow a machine: the first event of a character decides, characters of no
event lead nowhere, and so does the event that such characters get. -/
structure Follows (l : Lexer) (m : Machine) : Prop where
  next?_of_event? : ∀ state c event, m.event? c = some event →
    l.next? state c = target? m.transitions state event
  next?_of_uncovered : ∀ state c,
    (∀ ranges ∈ m.events, ∀ r ∈ ranges, r.contains c = false) → l.next? state c = none
  target?_defaultEvent : ∀ state, target? l.transitions state l.defaultEvent = none

theorem next?_ofMachine_of_event? (h : m.event? c = some event) :
    (ofMachine terminals m).next? state c = target? m.transitions state event := by
  rw [next?_ofMachine, h, Option.getD_some]

theorem defaultEvent_ofMachine : (ofMachine terminals m).defaultEvent = m.rangeCount :=
  length_ranges_ofMachine

private theorem follows_ofMachine_iff (h : m.Rectangular) : (ofMachine terminals m).Follows m ↔
    m.events.length ≤ m.rangeCount ∨ ∀ row ∈ m.transitions, row[m.rangeCount]? = some none := by
  rw [← h.target?_eq_none_iff]
  constructor
  · intro hfollows state
    have hnone := hfollows.target?_defaultEvent state
    rwa [defaultEvent_ofMachine] at hnone
  · intro hnone
    refine ⟨fun _ _ _ ↦ next?_ofMachine_of_event?, ?_, ?_⟩
    · intro state c huncovered
      rw [next?_ofMachine, Machine.event?_eq_none_iff.mpr huncovered, Option.getD_none, hnone]
    · intro state
      rw [defaultEvent_ofMachine]
      exact hnone state

/-- **What a lexer does with any machine.** Assembled from the machine of whatever compiler, it
takes a character by the first event that has it. In all else it follows the machine just if there
are as many ranges as events, or no state has a transition on the event whose number is that of the
ranges. -/
theorem assemble_follows_iff
    (hcompiled : (sources terminals).mapM (compileSource compiler) = .ok machines)
    (hcombined : compiler.combine machines = m) (hm : m.Rectangular) :
    ∃ l, assemble compiler terminals = .ok l ∧
      (∀ state c event, m.event? c = some event →
        l.next? state c = target? m.transitions state event) ∧
      (l.Follows m ↔
        m.events.length ≤ m.rangeCount ∨
          ∀ row ∈ m.transitions, row[m.rangeCount]? = some none) := by
  have hassembled : assemble compiler terminals = .ok (ofMachine terminals m) := by
    rw [assemble, hcompiled, ← hcombined]
    rfl
  exact ⟨_, hassembled, fun _ _ _ ↦ next?_ofMachine_of_event?, follows_ofMachine_iff hm⟩

/-- Terminals with one pattern among them. -/
def letterTerminals : List Terminal :=
  [{ name := eofName, number := 0 }, { name := "LETTER", number := 1, pattern := some "[a-z]" }]

def signs : Machine where
  initial := 0
  events := [[⟨'0', '9'⟩], [.single '+', .single '-']]
  transitions := [[some 1, some 2], [some 1, none], [none, none]]
  finalTags := [none, some 1, none]
  collisions := []

theorem assemble_follows_signs :
    signs.Rectangular ∧ ∃ l, assemble (.constant signs) letterTerminals = .ok l ∧
      l.next? 0 '-' = some 2 ∧ l.Follows signs := by
  have hrectangular : signs.Rectangular := by
    simp [Machine.Rectangular, signs]
  have hcompiled : (sources letterTerminals).mapM (compileSource (.constant signs)) = .ok [()] := by
    cbv
  obtain ⟨l, hl, hevent, hfollows⟩ := assemble_follows_iff hcompiled rfl hrectangular
  have hsign : signs.event? '-' = some 1 := by decide
  exact ⟨hrectangular, l, hl, hevent 0 '-' 1 hsign, hfollows.mpr (Or.inl (by decide))⟩

/-- Two events with one range: the first has none. -/
def hollow : Machine where
  initial := 0
  events := [[], [.single 'a']]
  transitions := [[none, some 1], [none, none]]
  finalTags := [none, some 1]
  collisions := []

/-- With fewer ranges than events, a character that no range has may lead on: its event is that of
the last column. -/
theorem exists_assemble_not_follows :
    hollow.Rectangular ∧ (∀ ranges ∈ hollow.events, ∀ r ∈ ranges, r.contains 'b' = false) ∧
      ∃ l, assemble (.constant hollow) letterTerminals = .ok l ∧ l.next? 0 'b' = some 1 ∧
        target? l.transitions 0 l.defaultEvent = some 1 := by
  have hassembled : assemble (.constant hollow) letterTerminals
      = .ok (ofMachine letterTerminals hollow) := by
    cbv
  refine ⟨by simp [Machine.Rectangular, hollow], by decide, _, hassembled, ?_, ?_⟩
  · decide
  · decide

end ShiftReduce.Lexer
