import ShiftReduce.Proofs.Regex.Joined

/-!
# Closing a set of states under jumps

The search keeps what is marked reachable, and only states on the stack may have jumps that have not
been followed (`Spreading`).

## The bound

Each round takes a state off the stack, and a state enters it when it is marked, so the unmarked
states and those on the stack together become fewer: the bound is large enough, and in the end no
state is left on the stack. What is marked then is all that can be reached without reading
(`Union.mem_close`).

## Reading on

The states that a set leads to on a character, closed, are those that can be reached by reading one
more character (`Union.stands_next`). A list of states stands for a text if it holds just the states
that can be reached along it (`Union.Stands`), and this is how sets are known from here on.
-/

namespace ShiftReduce.Regex.Union

variable {u : Union} {xs states stack : List Nat} {marks : Array Bool} {s t : Nat}

/-! ## Marking -/

/-- The states on the stack and those not marked. -/
def pending (stack : List Nat) (marks : Array Bool) : Nat :=
  stack.length + marks.count false

/-- The states of `xs` are marked, and those that were not are put on the stack. -/
structure Marks (xs stack : List Nat) (marks : Array Bool) (r : List Nat × Array Bool) : Prop where
  size_eq : r.2.size = marks.size
  marked_iff : ∀ s, r.2[s]? = some true ↔ marks[s]? = some true ∨ (s ∈ xs ∧ s < marks.size)
  mem_stack : ∀ s, s ∈ r.1 ↔ s ∈ stack ∨ (s ∈ xs ∧ marks[s]? = some false)
  pending_eq : pending r.1 r.2 = pending stack marks

section Step

variable {r : List Nat × Array Bool} {x : Nat}

theorem Marks.mark (hx : marks[x]? = some false)
    (h : Marks xs (x :: stack) (marks.setIfInBounds x true) r) : Marks (x :: xs) stack marks r := by
  obtain ⟨hlt, hvalue⟩ := Array.getElem?_eq_some_iff.mp hx
  obtain ⟨hsize, hmarked, hstack, hpending⟩ := h
  rw [Array.size_setIfInBounds] at hsize
  simp only [Array.getElem?_setIfInBounds, Array.size_setIfInBounds] at hmarked hstack
  refine ⟨hsize, fun s ↦ ?_, fun s ↦ ?_, ?_⟩
  · rw [hmarked, List.mem_cons]
    by_cases hs : x = s
    · subst hs
      simp [hlt]
    · simp [hs, Ne.symm hs]
  · rw [hstack, List.mem_cons, List.mem_cons]
    by_cases hs : x = s
    · subst hs
      simp [hx]
    · simp [hs, Ne.symm hs]
  · have hpos : 0 < marks.count false :=
      Array.count_pos_iff.mpr (hvalue ▸ Array.getElem_mem hlt)
    rw [hpending, pending, pending, Array.setIfInBounds, dif_pos hlt, Array.count_set, hvalue,
      List.length_cons]
    simp only [beq_self_eq_true, if_true, Bool.true_beq, Bool.false_eq_true, if_false]
    omega

theorem Marks.pass (hx : marks[x]? ≠ some false) (h : Marks xs stack marks r) :
    Marks (x :: xs) stack marks r := by
  obtain ⟨hsize, hmarked, hstack, hpending⟩ := h
  refine ⟨hsize, fun s ↦ ?_, fun s ↦ ?_, hpending⟩
  · rw [hmarked, List.mem_cons]
    by_cases hs : s = x
    · subst hs
      have hold : s < marks.size → marks[s]? = some true := by
        intro hlt
        rw [Array.getElem?_eq_getElem hlt] at hx ⊢
        simpa using hx
      tauto
    · simp [hs]
  · rw [hstack, List.mem_cons]
    by_cases hs : s = x
    · subst hs
      simp [hx]
    · simp [hs]

end Step

theorem marks_markAll (xs stack : List Nat) (marks : Array Bool) :
    Marks xs stack marks (markAll xs stack marks) := by
  induction xs generalizing stack marks with
  | nil => exact ⟨rfl, by simp [markAll], by simp [markAll], rfl⟩
  | cons x xs ih =>
    rw [markAll]
    by_cases hx : marks[x]? = some false
    · rw [if_pos hx]
      exact (ih _ _).mark hx
    · rw [if_neg hx]
      exact (ih _ _).pass hx

/-! ## Spreading -/

/-- What has been marked so far, from some states on: only what they can jump to, and the jumps of
all that is not on the stack any more. -/
structure Spreading (u : Union) (states stack : List Nat) (marks : Array Bool) : Prop where
  size_eq : marks.size = u.size
  sound : ∀ s, marks[s]? = some true → ∃ s₀ ∈ states, Reads u.step s₀ [] s
  started : ∀ s ∈ states, marks[s]? = some true
  stacked : ∀ s ∈ stack, marks[s]? = some true
  followed : ∀ s, marks[s]? = some true → s ∈ stack ∨ ∀ t ∈ u.step s none, marks[t]? = some true

private theorem spreading_start (hstates : ∀ s ∈ states, s < u.size) :
    Spreading u states (markAll states [] (Array.replicate u.size false)).1
      (markAll states [] (Array.replicate u.size false)).2 := by
  obtain ⟨hsize, hmarked, hstack, -⟩ := marks_markAll states [] (Array.replicate u.size false)
  rw [Array.size_replicate] at hsize
  have hmarked : ∀ s, (markAll states [] (Array.replicate u.size false)).2[s]? = some true ↔
      s ∈ states := by
    intro s
    rw [hmarked, Array.getElem?_replicate, Array.size_replicate]
    constructor
    · rintro (h | h)
      · split at h <;> simp at h
      · exact h.1
    · exact fun h ↦ Or.inr ⟨h, hstates s h⟩
  have hstack : ∀ s, s ∈ (markAll states [] (Array.replicate u.size false)).1 ↔ s ∈ states := by
    intro s
    rw [hstack, Array.getElem?_replicate]
    constructor
    · rintro (h | h)
      · simp at h
      · exact h.1
    · exact fun h ↦ Or.inr ⟨h, if_pos (hstates s h)⟩
  refine ⟨hsize, ?_, ?_, ?_, ?_⟩
  · exact fun s hs ↦ ⟨s, (hmarked s).mp hs, Reads.nil s⟩
  · exact fun s hs ↦ (hmarked s).mpr hs
  · exact fun s hs ↦ (hmarked s).mpr ((hstack s).mp hs)
  · exact fun s hs ↦ Or.inl ((hstack s).mpr ((hmarked s).mp hs))

theorem Spreading.follow (hu : u.WellFormed) (h : Spreading u states (s :: stack) marks) :
    Spreading u states (markAll ((u.jumps[s]?).getD []) stack marks).1
      (markAll ((u.jumps[s]?).getD []) stack marks).2 := by
  obtain ⟨hsize, hmarked, hstack, -⟩ := marks_markAll ((u.jumps[s]?).getD []) stack marks
  have hs := h.stacked s List.mem_cons_self
  have hkept : ∀ {t}, marks[t]? = some true →
      (markAll ((u.jumps[s]?).getD []) stack marks).2[t]? = some true :=
    fun ht ↦ (hmarked _).mpr (Or.inl ht)
  have hlt : ∀ t ∈ (u.jumps[s]?).getD [], t < marks.size := by
    intro t ht
    rw [h.size_eq]
    exact (hu.step s none t ht).2
  refine ⟨hsize.trans h.size_eq, ?_, fun t ht ↦ hkept (h.started t ht), ?_, ?_⟩
  · intro t ht
    rcases (hmarked t).mp ht with ht | ⟨ht, -⟩
    · exact h.sound t ht
    · obtain ⟨s₀, hs₀, hreads⟩ := h.sound s hs
      exact ⟨s₀, hs₀, hreads.append (reads_jump ht)⟩
  · intro t ht
    rcases (hstack t).mp ht with ht | ⟨ht, -⟩
    · exact hkept (h.stacked t (List.mem_cons_of_mem s ht))
    · exact (hmarked t).mpr (Or.inr ⟨ht, hlt t ht⟩)
  · intro t ht
    by_cases hts : t = s
    · subst hts
      exact Or.inr fun v hv ↦ (hmarked v).mpr (Or.inr ⟨hv, hlt v hv⟩)
    by_cases hold : marks[t]? = some true
    · rcases h.followed t hold with hmem | hall
      · refine Or.inl ((hstack t).mpr (Or.inl ?_))
        exact (List.mem_cons.mp hmem).resolve_left hts
      · exact Or.inr fun v hv ↦ hkept (hall v hv)
    · rcases (hmarked t).mp ht with ht | ⟨hjump, hlt⟩
      · exact absurd ht hold
      · refine Or.inl ((hstack t).mpr (Or.inr ⟨hjump, ?_⟩))
        rw [Array.getElem?_eq_getElem hlt] at hold ⊢
        simpa using hold

theorem Spreading.spread (hu : u.WellFormed) {bound : Nat} (h : Spreading u states stack marks)
    (hbound : pending stack marks ≤ bound) :
    Spreading u states [] (u.spread bound stack marks) := by
  induction bound generalizing stack marks with
  | zero =>
    have hnil : stack = [] := List.length_eq_zero_iff.mp (by rw [pending] at hbound; omega)
    rw [Union.spread, ← hnil]
    exact h
  | succ bound ih =>
    cases stack with
    | nil => exact h
    | cons s stack =>
      rw [Union.spread]
      refine ih (h.follow hu) ?_
      rw [(marks_markAll _ _ _).pending_eq]
      rw [pending, List.length_cons] at hbound
      rw [pending]
      omega

/-- What is marked in the end is all that can be reached without reading. -/
theorem Spreading.marked_iff (h : Spreading u states [] marks) :
    marks[s]? = some true ↔ ∃ s₀ ∈ states, Reads u.step s₀ [] s := by
  refine ⟨h.sound s, ?_⟩
  rintro ⟨s₀, hs₀, hreads⟩
  have hmarked := h.started s₀ hs₀
  clear hs₀
  generalize hw : ([] : List Char) = w at hreads
  induction hreads with
  | nil => exact hmarked
  | @jump s t _ _ hjump _ ih =>
    have hall := (h.followed s hmarked).resolve_left List.not_mem_nil
    exact ih (hall t hjump) hw
  | move => cases hw

theorem mem_close (hu : u.WellFormed) (hstates : ∀ s ∈ states, s < u.size) :
    s ∈ u.close states ↔ ∃ s₀ ∈ states, Reads u.step s₀ [] s := by
  have hstart := spreading_start hstates
  have hpending : pending (markAll states [] (Array.replicate u.size false)).1
      (markAll states [] (Array.replicate u.size false)).2 ≤ u.size + 1 := by
    rw [(marks_markAll _ _ _).pending_eq, pending, Array.count_replicate]
    simp
  have hend := hstart.spread hu hpending
  show s ∈ (List.range u.size).filter (fun s ↦ ((u.spread (u.size + 1)
    (markAll states [] (Array.replicate u.size false)).1
    (markAll states [] (Array.replicate u.size false)).2)[s]?).getD false) ↔ _
  generalize u.spread _ _ _ = marks at hend ⊢
  rw [← hend.marked_iff, List.mem_filter, List.mem_range, ← hend.size_eq]
  constructor
  · rintro ⟨hlt, hs⟩
    rw [Array.getElem?_eq_getElem hlt] at hs ⊢
    exact congrArg some hs
  · intro hs
    refine ⟨(Array.getElem?_eq_some_iff.mp hs).1, ?_⟩
    rw [hs, Option.getD_some]

theorem close_sublist (u : Union) (states : List Nat) :
    (u.close states).Sublist (List.range u.size) :=
  List.filter_sublist

/-! ## Reading on -/

/-- The list is that of the states that can be reached along the text. -/
def Stands (u : Union) (set : List Nat) (w : List Char) : Prop :=
  ∀ s, s ∈ set ↔ Reads u.step 0 w s

theorem stands_start (hu : u.WellFormed) : u.Stands (u.close [0]) [] := by
  intro s
  rw [mem_close hu (by simpa using hu.size_pos)]
  simp

theorem mem_targets {set : List Nat} {c : Char} :
    t ∈ u.targets set c ↔ ∃ s ∈ set, t ∈ u.step s (some c) := by
  rw [targets, List.mem_flatMap]
  refine exists_congr fun s ↦ and_congr_right fun _ ↦ ?_
  rw [List.mem_filterMap]
  constructor
  · rintro ⟨⟨r, t'⟩, hmem, h⟩
    simp only at h
    split at h
    · rename_i hc
      obtain rfl := Option.some.inj h
      exact ⟨r, hmem, hc⟩
    · simp at h
  · rintro ⟨r, hmem, hc⟩
    exact ⟨(r, t), hmem, if_pos hc⟩

/-- The targets of a set, closed, are those that one more character leads to. -/
theorem stands_next (hu : u.WellFormed) {set : List Nat} {w : List Char} (h : u.Stands set w)
    (c : Char) : u.Stands (u.close (u.targets set c)) (w ++ [c]) := by
  have htargets : ∀ t ∈ u.targets set c, t < u.size := by
    intro t ht
    obtain ⟨s, -, hstep⟩ := mem_targets.mp ht
    exact (hu.step _ _ _ hstep).2
  intro t
  rw [mem_close hu htargets, reads_append_singleton]
  constructor
  · rintro ⟨v, hv, hrest⟩
    obtain ⟨s, hs, hstep⟩ := mem_targets.mp hv
    exact ⟨s, v, (h s).mp hs, hstep, hrest⟩
  · rintro ⟨s, v, hreads, hstep, hrest⟩
    exact ⟨v, mem_targets.mpr ⟨s, (h s).mpr hreads, hstep⟩, hrest⟩

end ShiftReduce.Regex.Union
