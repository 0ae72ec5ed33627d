import ShiftReduce.Proofs.Regex.Reads
import ShiftReduce.Regex.Subsets

/-!
# Machines joined into one

A machine that is added to others keeps its states to itself: the only way in is the jump from state
0, there is no way out, and nothing leads back to 0 (`Union.reads_add`). So a text is accepted for a
terminal by the joined machine exactly if one of the machines for that terminal matches it
(`Union.accepts_ofList`).

## Steps

Moves and jumps are tables of lists, filled one entry at a time. `mem_step_add` reads off what is in
them: a step of the joined machine with one more machine is a step of the old one, the jump to the
new machine, or a step of that one. What is read along several steps follows by induction, once from
the new machine and once from what was there.
-/

namespace ShiftReduce.Regex.Union

/-- What a joined machine does in one step. -/
def step (u : Union) (s : Nat) : Option Char → Set Nat
  | none => {t | t ∈ (u.jumps[s]?).getD []}
  | some c => {t | ∃ r : CharRange, (r, t) ∈ (u.moves[s]?).getD [] ∧ r.contains c = true}

/-- The joined machine reads the text up to a state that accepts for the terminal. -/
def Accepts (u : Union) (w : List Char) (tag : Nat) : Prop :=
  ∃ s, (s, tag) ∈ u.accepts ∧ Reads u.step 0 w s

/-- All states are states of the machine, and none leads to state 0. -/
structure WellFormed (u : Union) : Prop where
  size_pos : 0 < u.size
  size_jumps : u.jumps.size = u.size
  step : ∀ s o, ∀ t ∈ u.step s o, 0 < t ∧ t < u.size
  accepts : ∀ a ∈ u.accepts, a.1 < u.size

variable {u : Union} {m : Nfa} {s t : Nat} {w : List Char} {tag : Nat}

theorem WellFormed.lt (h : u.WellFormed) (hreads : Reads u.step s w t) (hs : s < u.size) :
    t < u.size := by
  induction hreads with
  | nil => exact hs
  | jump hjump _ ih => exact ih (h.step _ _ _ hjump).2
  | move hmove _ ih => exact ih (h.step _ _ _ hmove).2

theorem WellFormed.source_lt (h : u.WellFormed) {o : Option Char} (ht : t ∈ u.step s o) :
    s < u.size := by
  by_contra hs
  have hsize := h.size_jumps
  cases o with
  | none =>
    have hnone : u.jumps[s]? = none := Array.getElem?_eq_none (by omega)
    have ht : t ∈ (u.jumps[s]?).getD [] := ht
    rw [hnone] at ht
    simp at ht
  | some c =>
    have hnone : u.moves[s]? = none := Array.getElem?_eq_none (not_lt.mp hs)
    obtain ⟨r, ht, -⟩ := ht
    rw [hnone] at ht
    simp at ht

/-! ## Adding a machine -/

section Tables

variable {α β : Type}

theorem mem_modify {table : Array (List β)} {i s : Nat} {x y : β} :
    x ∈ ((table.modify i (y :: ·))[s]?).getD [] ↔
      x ∈ (table[s]?).getD [] ∨ (s < table.size ∧ i = s ∧ y = x) := by
  rw [Array.getElem?_modify]
  by_cases hi : i = s
  · by_cases hs : s < table.size
    · rw [if_pos hi, Array.getElem?_eq_getElem hs, Option.map_some, Option.getD_some,
        Option.getD_some, List.mem_cons, or_comm]
      simp [hi, hs, eq_comm]
    · rw [if_pos hi, Array.getElem?_eq_none (not_lt.mp hs)]
      simp [hs]
  · rw [if_neg hi]
    simp [hi]

theorem mem_foldl_modify {table : Array (List β)} {xs : List α} {key : α → Nat} {entry : α → β}
    {s : Nat} {x : β} :
    x ∈ ((xs.foldl (fun table y ↦ table.modify (key y) (entry y :: ·)) table)[s]?).getD [] ↔
      x ∈ (table[s]?).getD [] ∨ (s < table.size ∧ ∃ y ∈ xs, key y = s ∧ entry y = x) := by
  induction xs generalizing table with
  | nil => simp
  | cons y xs ih =>
    rw [List.foldl_cons, ih, mem_modify, Array.size_modify, List.exists_mem_cons_iff]
    tauto

theorem size_foldl_modify {table : Array (List β)} {xs : List α} {key : α → Nat}
    {entry : α → β} :
    (xs.foldl (fun table y ↦ table.modify (key y) (entry y :: ·)) table).size = table.size := by
  induction xs generalizing table with
  | nil => rfl
  | cons y xs ih => rw [List.foldl_cons, ih, Array.size_modify]

theorem getD_append_replicate {table : Array (List β)} {n s : Nat} :
    ((table ++ Array.replicate n [])[s]?).getD [] = (table[s]?).getD [] := by
  rw [Array.getElem?_append]
  by_cases hs : s < table.size
  · rw [if_pos hs]
  · rw [if_neg hs, Array.getElem?_eq_none (not_lt.mp hs), Array.getElem?_replicate]
    split <;> rfl

end Tables

theorem size_add : (u.add m).size = u.size + m.size := by
  rw [add, size, size_foldl_modify, Array.size_append, Array.size_replicate, size]

section Add

variable (hu : u.WellFormed) (hm : m.WellFormed)

include hm in
theorem mem_moves_add {r : CharRange} : (r, t) ∈ (((u.add m).moves)[s]?).getD [] ↔
    (r, t) ∈ (u.moves[s]?).getD [] ∨
      ∃ s' t', s = u.size + s' ∧ t = u.size + t' ∧ (⟨s', r, t'⟩ : Move) ∈ m.moves := by
  rw [add]
  dsimp only
  rw [mem_foldl_modify, getD_append_replicate, Array.size_append, Array.size_replicate]
  refine or_congr Iff.rfl ?_
  constructor
  · rintro ⟨-, x, hx, rfl, heq⟩
    obtain ⟨rfl, rfl⟩ := Prod.mk.inj heq
    exact ⟨x.source, x.target, rfl, rfl, hx⟩
  · rintro ⟨s', t', rfl, rfl, hmove⟩
    have hlt : s' < m.size := (hm.bounded.moves _ hmove).1
    exact ⟨Nat.add_lt_add_left hlt _, ⟨s', r, t'⟩, hmove, rfl, rfl⟩

include hu hm

private theorem mem_jumps_add : t ∈ (((u.add m).jumps)[s]?).getD [] ↔
    t ∈ (u.jumps[s]?).getD [] ∨ (s = 0 ∧ t = u.size + m.start) ∨
      ∃ s' t', s = u.size + s' ∧ t = u.size + t' ∧ (⟨s', t'⟩ : Jump) ∈ m.jumps := by
  have hpos := hu.size_pos
  rw [add]
  dsimp only
  rw [mem_foldl_modify, mem_modify, getD_append_replicate, Array.size_modify, Array.size_append,
    Array.size_replicate, hu.size_jumps, or_assoc]
  refine or_congr Iff.rfl (or_congr ?_ ?_)
  · constructor
    · rintro ⟨-, rfl, rfl⟩
      exact ⟨rfl, rfl⟩
    · rintro ⟨rfl, rfl⟩
      exact ⟨by omega, rfl, rfl⟩
  · constructor
    · rintro ⟨-, j, hj, rfl, rfl⟩
      exact ⟨j.source, j.target, rfl, rfl, hj⟩
    · rintro ⟨s', t', rfl, rfl, hjump⟩
      have hlt : s' < m.size := (hm.bounded.jumps _ hjump).1
      exact ⟨by omega, ⟨s', t'⟩, hjump, rfl, rfl⟩

/-- A step of the joined machine with one more machine: a step of the old one, the jump to the new
machine, or a step of that one. -/
theorem mem_step_add {o : Option Char} :
    t ∈ (u.add m).step s o ↔ t ∈ u.step s o ∨ (s = 0 ∧ o = none ∧ t = u.size + m.start) ∨
      ∃ s' t', s = u.size + s' ∧ t = u.size + t' ∧ t' ∈ m.draft.step s' o := by
  cases o with
  | none =>
    refine (mem_jumps_add hu hm).trans (or_congr Iff.rfl (or_congr ?_ Iff.rfl))
    rw [eq_self, true_and]
  | some c =>
    constructor
    · rintro ⟨r, hr, hc⟩
      rcases (mem_moves_add hm).mp hr with hold | ⟨s', t', hs, ht, hmove⟩
      · exact Or.inl ⟨r, hold, hc⟩
      · exact Or.inr (Or.inr ⟨s', t', hs, ht, r, hmove, hc⟩)
    · rintro (⟨r, hold, hc⟩ | ⟨-, h, -⟩ | ⟨s', t', hs, ht, r, hmove, hc⟩)
      · exact ⟨r, (mem_moves_add hm).mpr (Or.inl hold), hc⟩
      · simp at h
      · exact ⟨r, (mem_moves_add hm).mpr (Or.inr ⟨s', t', hs, ht, hmove⟩), hc⟩

end Add

theorem wellFormed_single : single.WellFormed where
  size_pos := Nat.one_pos
  size_jumps := rfl
  step := by
    have hnil : ∀ (β : Type) (s : Nat) (x : β), x ∉ ((#[([] : List β)])[s]?).getD [] := by
      intro β s x
      cases s with
      | zero => exact List.not_mem_nil
      | succ s => exact List.not_mem_nil
    rintro s (_ | c) t ht
    · exact absurd ht (hnil Nat s t)
    · obtain ⟨r, hr, -⟩ := ht
      exact absurd hr (hnil (CharRange × Nat) s (r, t))
  accepts := by simp [single]

theorem WellFormed.add (hu : u.WellFormed) (hm : m.WellFormed) : (u.add m).WellFormed where
  size_pos := by
    rw [size_add]
    exact Nat.add_pos_left hu.size_pos _
  size_jumps := by
    rw [size_add, Union.add, size_foldl_modify, Array.size_modify, Array.size_append,
      Array.size_replicate, hu.size_jumps]
  step := by
    have hpos := hu.size_pos
    intro s o t ht
    rw [size_add]
    rcases (mem_step_add hu hm).mp ht with hold | ⟨-, -, rfl⟩ | ⟨s', t', -, rfl, hstep⟩
    · have hlt := hu.step s o t hold
      omega
    · have hlt := hm.start_lt
      omega
    · have hlt := hm.bounded.lt_of_mem_step hstep
      have hsize : m.draft.size = m.size := rfl
      omega
  accepts := by
    intro a ha
    rw [size_add]
    rcases List.mem_append.mp ha with ha | ha
    · exact Nat.lt_add_right _ (hu.accepts a ha)
    · rw [List.mem_singleton.mp ha]
      exact Nat.add_lt_add_left hm.accept_lt _

/-! ## What is read -/

/-- From a state of the machine that was added, the joined machine reads what that one does. -/
theorem reads_added (hu : u.WellFormed) (hm : m.WellFormed) {s' : Nat} :
    Reads (u.add m).step (u.size + s') w t ↔
      ∃ t', t = u.size + t' ∧ Reads m.draft.step s' w t' := by
  -- Steps of the old machine start below its size, and the jump to the new one at 0.
  have hstep : ∀ {s' t : Nat} {o : Option Char}, t ∈ (u.add m).step (u.size + s') o →
      ∃ t', t = u.size + t' ∧ t' ∈ m.draft.step s' o := by
    intro s' t o ht
    have hpos := hu.size_pos
    rcases (mem_step_add hu hm).mp ht with hold | ⟨hzero, -, -⟩ | ⟨s'', t', hs, rfl, hstep⟩
    · have hlt := hu.source_lt hold
      omega
    · omega
    · obtain rfl : s' = s'' := by omega
      exact ⟨t', rfl, hstep⟩
  constructor
  · intro h
    generalize hs : u.size + s' = s at h
    induction h generalizing s' with
    | nil s => exact ⟨s', hs.symm, Reads.nil s'⟩
    | jump hjump _ ih =>
      subst hs
      obtain ⟨t', rfl, hinner⟩ := hstep hjump
      obtain ⟨u', rfl, hrest⟩ := ih rfl
      exact ⟨u', rfl, Reads.jump hinner hrest⟩
    | move hmove _ ih =>
      subst hs
      obtain ⟨t', rfl, hinner⟩ := hstep hmove
      obtain ⟨u', rfl, hrest⟩ := ih rfl
      exact ⟨u', rfl, Reads.move hinner hrest⟩
  · rintro ⟨t', rfl, h⟩
    induction h with
    | nil s => exact Reads.nil _
    | jump hjump _ ih =>
      exact Reads.jump ((mem_step_add hu hm).mpr (Or.inr (Or.inr ⟨_, _, rfl, rfl, hjump⟩))) ih
    | move hmove _ ih =>
      exact Reads.move ((mem_step_add hu hm).mpr (Or.inr (Or.inr ⟨_, _, rfl, rfl, hmove⟩))) ih

/-- Behind its first step the old machine reads as before: neither the start nor the new machine can
be reached. -/
theorem reads_of_add (hu : u.WellFormed) (hm : m.WellFormed) (h : Reads (u.add m).step s w t)
    (hpos : 0 < s) (hlt : s < u.size) : Reads u.step s w t := by
  have hstep : ∀ {s t : Nat} {o : Option Char}, 0 < s → s < u.size → t ∈ (u.add m).step s o →
      t ∈ u.step s o := by
    intro s t o hpos hlt ht
    rcases (mem_step_add hu hm).mp ht with hold | ⟨rfl, -, -⟩ | ⟨s', -, rfl, -, -⟩
    · exact hold
    · omega
    · omega
  induction h with
  | nil s => exact Reads.nil s
  | jump hjump _ ih =>
    have hold := hstep hpos hlt hjump
    obtain ⟨hpos', hlt'⟩ := hu.step _ _ _ hold
    exact Reads.jump hold (ih hpos' hlt')
  | move hmove _ ih =>
    have hold := hstep hpos hlt hmove
    obtain ⟨hpos', hlt'⟩ := hu.step _ _ _ hold
    exact Reads.move hold (ih hpos' hlt')

/-- What the joined machine reads from its start: what it did before, or what the new machine reads
from its own. -/
theorem reads_add (hu : u.WellFormed) (hm : m.WellFormed) :
    Reads (u.add m).step 0 w t ↔
      Reads u.step 0 w t ∨ ∃ t', t = u.size + t' ∧ Reads m.draft.step m.start w t' := by
  have hpos := hu.size_pos
  constructor
  · intro h
    cases h with
    | nil => exact Or.inl (Reads.nil 0)
    | jump hjump hrest =>
      rcases (mem_step_add hu hm).mp hjump with hold | ⟨-, -, rfl⟩ | ⟨s', -, hzero, -, -⟩
      · obtain ⟨hpos', hlt'⟩ := hu.step _ _ _ hold
        exact Or.inl (Reads.jump hold (reads_of_add hu hm hrest hpos' hlt'))
      · exact Or.inr ((reads_added hu hm).mp hrest)
      · omega
    | move hmove hrest =>
      rcases (mem_step_add hu hm).mp hmove with hold | ⟨-, h, -⟩ | ⟨s', -, hzero, -, -⟩
      · obtain ⟨hpos', hlt'⟩ := hu.step _ _ _ hold
        exact Or.inl (Reads.move hold (reads_of_add hu hm hrest hpos' hlt'))
      · simp at h
      · omega
  · rintro (h | h)
    · exact h.mono fun s o t ht ↦ (mem_step_add hu hm).mpr (Or.inl ht)
    · exact Reads.jump ((mem_step_add hu hm).mpr (Or.inr (Or.inl ⟨rfl, rfl, rfl⟩)))
        ((reads_added hu hm).mpr h)

theorem accepts_add (hu : u.WellFormed) (hm : m.WellFormed) :
    (u.add m).Accepts w tag ↔ u.Accepts w tag ∨ (m.tag = tag ∧ w ∈ m.language) := by
  rw [Nfa.mem_language_iff]
  constructor
  · rintro ⟨s, hs, hreads⟩
    rcases List.mem_append.mp hs with hs | hs
    · rcases (reads_add hu hm).mp hreads with hreads | ⟨s', rfl, -⟩
      · exact Or.inl ⟨s, hs, hreads⟩
      · have hlt := hu.accepts _ hs
        exact absurd hlt (by simp)
    · obtain ⟨rfl, rfl⟩ := Prod.mk.inj (List.mem_singleton.mp hs)
      rcases (reads_add hu hm).mp hreads with hreads | ⟨s', hs', hreads⟩
      · have hlt := hu.lt hreads hu.size_pos
        omega
      · obtain rfl : s' = m.accept := by omega
        exact Or.inr ⟨rfl, hreads⟩
  · rintro (⟨s, hs, hreads⟩ | ⟨rfl, hreads⟩)
    · exact ⟨s, List.mem_append_left _ hs, (reads_add hu hm).mpr (Or.inl hreads)⟩
    · exact ⟨_, List.mem_append_right _ (List.mem_singleton_self _),
        (reads_add hu hm).mpr (Or.inr ⟨_, rfl, hreads⟩)⟩

/-! ## All machines -/

theorem wellFormed_ofList {machines : List Nfa} (hm : ∀ m ∈ machines, m.WellFormed) :
    (ofList machines).WellFormed := by
  induction machines using List.reverseRecOn with
  | nil => exact wellFormed_single
  | append_singleton machines m ih =>
    rw [ofList, List.foldl_append]
    exact (ih fun m' h ↦ hm m' (List.mem_append_left _ h)).add
      (hm m (List.mem_append_right _ (List.mem_singleton_self m)))

/-- The joined machine accepts for a terminal what the machines for that terminal match. -/
theorem accepts_ofList {machines : List Nfa} (hm : ∀ m ∈ machines, m.WellFormed) :
    (ofList machines).Accepts w tag ↔ ∃ m ∈ machines, m.tag = tag ∧ w ∈ m.language := by
  induction machines using List.reverseRecOn with
  | nil => simp [ofList, Accepts, single]
  | append_singleton machines m ih =>
    have hmachines : ∀ m' ∈ machines, m'.WellFormed := fun m' h ↦ hm m' (List.mem_append_left _ h)
    have hlast := hm m (List.mem_append_right _ (List.mem_singleton_self m))
    have hadd : ofList (machines ++ [m]) = (ofList machines).add m := by
      rw [ofList, List.foldl_append]
      rfl
    rw [hadd, accepts_add (wellFormed_ofList hmachines) hlast, ih hmachines]
    simp only [List.mem_append, List.mem_singleton, or_and_right, exists_or, exists_eq_left]

end ShiftReduce.Regex.Union
