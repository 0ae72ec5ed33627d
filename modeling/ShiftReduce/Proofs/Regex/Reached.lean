import ShiftReduce.Proofs.Regex.Joined

/-!
# States reached together

Along a text several machines reach states of their own. Where the machines are joined, each keeps
its states in a block behind those of the machines before it (`Union.place`), so that the joined
machine reads a text up to the places of the states reached (`Union.reads_ofList`), and different
states keep different places (`Union.eq_of_place_eq`).

Two texts therefore reach the same states of the machines exactly if they do so in the joined
machine (`reads_congr_iff`). That makes it possible to describe the states of the deterministic
machine by the machines it was made of, without a word about how they were joined.
-/

namespace ShiftReduce.Regex

/-- The states that several machines reach along a text: those of each machine, by its place among
them, and the state in front of all from which each is entered. -/
inductive Reached (machines : List Nfa) (w : List Char) : Option (Nat × Nat) → Prop
  | front : w = [] → Reached machines w none
  | inner {k s : Nat} {m : Nfa} : machines[k]? = some m → s ∈ m.automaton.eval w →
      Reached machines w (some (k, s))

/-- The tags of the machines that match a text. -/
def matched (machines : List Nfa) (w : List Char) : Set Nat :=
  {tag | ∃ m ∈ machines, m.tag = tag ∧ w ∈ m.language}

variable {machines : List Nfa} {m : Nfa} {w v : List Char} {x y : Option (Nat × Nat)}

theorem mem_eval_iff {s : Nat} : s ∈ m.automaton.eval w ↔ Reads m.draft.step m.start w s :=
  (reads_iff_mem_evalFrom m.automaton).symm

theorem Nfa.WellFormed.lt_of_reads (h : m.WellFormed) {s t : Nat} (hs : s < m.size)
    (hreads : Reads m.draft.step s w t) : t < m.size := by
  induction hreads with
  | nil => exact hs
  | jump hjump _ ih => exact ih (h.bounded.lt_of_mem_step hjump)
  | move hmove _ ih => exact ih (h.bounded.lt_of_mem_step hmove)

private theorem reached_append_singleton : Reached (machines ++ [m]) w x ↔
    Reached machines w x ∨ ∃ s, x = some (machines.length, s) ∧ s ∈ m.automaton.eval w := by
  constructor
  · rintro (hw | @⟨k, s, m', hm', hs⟩)
    · exact Or.inl (Reached.front hw)
    · rw [List.getElem?_append] at hm'
      split at hm'
      · exact Or.inl (Reached.inner hm' hs)
      · obtain ⟨hk, hlast⟩ := List.getElem?_eq_some_iff.mp hm'
        rw [List.length_singleton] at hk
        obtain rfl : k = machines.length := by omega
        rw [List.getElem_singleton] at hlast
        exact Or.inr ⟨s, rfl, hlast ▸ hs⟩
  · rintro ((hw | ⟨hm', hs⟩) | ⟨s, rfl, hs⟩)
    · exact Reached.front hw
    · obtain ⟨hlt, -⟩ := List.getElem?_eq_some_iff.mp hm'
      exact Reached.inner ((List.getElem?_append_left hlt).trans hm') hs
    · exact Reached.inner List.getElem?_concat_length hs

namespace Union

/-- The number of a state in the joined machine. -/
def place (machines : List Nfa) : Option (Nat × Nat) → Nat
  | none => 0
  | some (k, s) => (ofList (machines.take k)).size + s

theorem ofList_append_singleton (machines : List Nfa) (m : Nfa) :
    ofList (machines ++ [m]) = (ofList machines).add m := by
  rw [ofList, List.foldl_append]
  rfl

theorem place_append (hx : Reached machines w x) :
    place (machines ++ [m]) x = place machines x := by
  cases hx with
  | front => rfl
  | inner hm' =>
    obtain ⟨hlt, -⟩ := List.getElem?_eq_some_iff.mp hm'
    rw [place, place, List.take_append_of_le_length hlt.le]

/-- The joined machine reads a text up to the states that the machines reach. -/
theorem reads_ofList (hm : ∀ m ∈ machines, m.WellFormed) {s : Nat} :
    Reads (ofList machines).step 0 w s ↔ ∃ x, Reached machines w x ∧ place machines x = s := by
  induction machines using List.reverseRecOn generalizing s with
  | nil =>
    -- The state in front has no step, as none could lead below the size of 1.
    have hstep : ∀ {s t : Nat} {o : Option Char}, t ∉ single.step s o := by
      intro s t o ht
      obtain ⟨hpos, hlt⟩ := wellFormed_single.step s o t ht
      exact absurd hlt (Nat.not_lt.mpr hpos)
    constructor
    · intro h
      cases h with
      | nil => exact ⟨none, Reached.front rfl, rfl⟩
      | jump hjump => exact absurd hjump hstep
      | move hmove => exact absurd hmove hstep
    · rintro ⟨x, rfl | hnone, rfl⟩
      · exact Reads.nil 0
      · simp at hnone
  | append_singleton machines m ih =>
    have hmachines : ∀ m' ∈ machines, m'.WellFormed := fun m' h ↦ hm m' (List.mem_append_left _ h)
    have hlast := hm m (List.mem_append_right _ (List.mem_singleton_self m))
    rw [ofList_append_singleton, reads_add (wellFormed_ofList hmachines) hlast, ih hmachines]
    simp only [reached_append_singleton]
    constructor
    · rintro (⟨x, hx, rfl⟩ | ⟨t, rfl, ht⟩)
      · exact ⟨x, Or.inl hx, place_append hx⟩
      · refine ⟨_, Or.inr ⟨t, rfl, mem_eval_iff.mpr ht⟩, ?_⟩
        rw [place, List.take_left]
    · rintro ⟨x, hx | ⟨t, rfl, ht⟩, rfl⟩
      · exact Or.inl ⟨x, hx, (place_append hx).symm⟩
      · refine Or.inr ⟨t, ?_, mem_eval_iff.mp ht⟩
        rw [place, List.take_left]

theorem size_take_succ {k : Nat} (hk : machines[k]? = some m) :
    (ofList (machines.take (k + 1))).size = (ofList (machines.take k)).size + m.size := by
  rw [List.take_add_one, hk, Option.toList_some, ofList_append_singleton, size_add]

private theorem size_take_mono (machines : List Nfa) {k l : Nat} (h : k ≤ l) :
    (ofList (machines.take k)).size ≤ (ofList (machines.take l)).size := by
  induction l, h using Nat.le_induction with
  | base => exact le_rfl
  | succ l _ ih =>
    refine ih.trans ?_
    cases hl : machines[l]? with
    | none => rw [List.take_add_one, hl, Option.toList_none, List.append_nil]
    | some m =>
      rw [size_take_succ hl]
      exact Nat.le_add_right _ _

private theorem lt_of_reached (hm : ∀ m ∈ machines, m.WellFormed) {k s : Nat}
    (h : Reached machines w (some (k, s))) :
    place machines (some (k, s)) < (ofList (machines.take (k + 1))).size := by
  cases h with
  | @inner _ _ m hk hs =>
    have hwell := hm m (List.mem_of_getElem? hk)
    rw [place, size_take_succ hk]
    exact Nat.add_lt_add_left (hwell.lt_of_reads hwell.start_lt (mem_eval_iff.mp hs)) _

/-- The states that machines reach keep apart in the joined machine. -/
theorem eq_of_place_eq (hm : ∀ m ∈ machines, m.WellFormed) (hx : Reached machines w x)
    (hy : Reached machines v y) (h : place machines x = place machines y) : x = y := by
  have hpos : ∀ k, 0 < (ofList (machines.take k)).size := fun k ↦
    (wellFormed_ofList fun m hmem ↦ hm m (List.mem_of_mem_take hmem)).size_pos
  -- A state of an earlier machine has a lower number.
  have hbelow : ∀ {w k l s t}, Reached machines w (some (k, s)) → k < l →
      place machines (some (k, s)) ≠ place machines (some (l, t)) := by
    intro w k l s t hs hkl
    refine ((lt_of_reached hm hs).trans_le ?_).ne
    exact (size_take_mono machines hkl).trans (Nat.le_add_right _ _)
  match x, y with
  | none, none => rfl
  | none, some (l, t) =>
    have hl := hpos l
    rw [place, place] at h
    omega
  | some (k, s), none =>
    have hk := hpos k
    rw [place, place] at h
    omega
  | some (k, s), some (l, t) =>
    rcases Nat.lt_trichotomy k l with hkl | rfl | hlk
    · exact absurd h (hbelow hx hkl)
    · rw [place, place] at h
      rw [Nat.add_left_cancel h]
    · exact absurd h.symm (hbelow hy hlk)

/-- Two texts reach the same states of the machines if they do so in the joined machine. -/
theorem reads_congr_iff (hm : ∀ m ∈ machines, m.WellFormed) :
    (∀ s, Reads (ofList machines).step 0 w s ↔ Reads (ofList machines).step 0 v s) ↔
      ∀ x, Reached machines w x ↔ Reached machines v x := by
  simp only [reads_ofList hm]
  have himp : ∀ {w v : List Char},
      (∀ s, (∃ x, Reached machines w x ∧ place machines x = s) →
        ∃ x, Reached machines v x ∧ place machines x = s) →
      ∀ x, Reached machines w x → Reached machines v x := by
    intro w v h x hx
    obtain ⟨y, hy, heq⟩ := h _ ⟨x, hx, rfl⟩
    rwa [eq_of_place_eq hm hx hy heq.symm]
  constructor
  · intro h x
    exact ⟨himp (fun s ↦ (h s).mp) x, himp (fun s ↦ (h s).mpr) x⟩
  · intro h s
    simp only [h]

end Union

end ShiftReduce.Regex
