import Mathlib.Data.List.Sublists
import ShiftReduce.Proofs.Lexer.Runs
import ShiftReduce.Proofs.Regex.Closed
import ShiftReduce.Proofs.Regex.Events

/-!
# The deterministic machine

Every set that the search meets stands for a text: it holds the states that can be reached along it
(`Met`).

## The search

The sets are lists without repetition of ascending states, so there are at most as many as the bound
of the search, and when it ends every set has its row (`Union.searched_rows`). A set keeps the
number it was given, so that rows written early stay right (`Extends`, `Leads.mono`).

## Runs

A character is read by way of its event. The labels do not tell the characters of an event apart, so
the first of them can stand for all (`targets_congr`). So the machine's run on a text ends at the
set of the states that can be reached along it, and is undefined if there are none
(`Union.run?_toMachine`). The tag of a text is the only terminal that some accepting state in that
set is for (`Union.tag?_toMachine`).
-/

namespace ShiftReduce.Regex.Union

variable {u : Union} {set : List Nat} {sets sets' : Array (List Nat)} {events : List CharRange}
  {w : List Char}

/-! ## Sets that are met -/

/-- A set that the search can meet. -/
structure Met (u : Union) (set : List Nat) : Prop where
  sublist : set.Sublist (List.range u.size)
  ne_nil : set ≠ []
  stands : ∃ w, u.Stands set w

private theorem met_start (hu : u.WellFormed) : u.Met (u.close [0]) where
  sublist := close_sublist u [0]
  ne_nil := List.ne_nil_of_mem ((stands_start hu 0).mpr (Reads.nil 0))
  stands := ⟨[], stands_start hu⟩

theorem Met.next (hu : u.WellFormed) (h : u.Met set) {c : Char} (hne : u.targets set c ≠ []) :
    u.Met (u.close (u.targets set c)) := by
  obtain ⟨w, hw⟩ := h.stands
  have hnext := stands_next hu hw c
  refine ⟨close_sublist u _, ?_, w ++ [c], hnext⟩
  obtain ⟨t, ht⟩ := List.exists_mem_of_ne_nil _ hne
  obtain ⟨s, hs, hstep⟩ := mem_targets.mp ht
  exact List.ne_nil_of_mem
    ((hnext t).mpr (reads_append_singleton.mpr ⟨s, t, (hw s).mp hs, hstep, Reads.nil t⟩))

/-- The sets met so far. -/
structure Found (u : Union) (sets : Array (List Nat)) : Prop where
  nodup : sets.toList.Nodup
  met : ∀ set ∈ sets, u.Met set

/-- There are no more sets than subsets of the states. -/
theorem Found.size_le (h : u.Found sets) : sets.size ≤ 2 ^ u.size := by
  have hsubset : sets.toList ⊆ (List.range u.size).sublists := by
    intro set hset
    exact List.mem_sublists.mpr (h.met set (Array.mem_toList_iff.mp hset)).sublist
  have hle := (h.nodup.subperm hsubset).length_le
  rwa [List.length_sublists, List.length_range, Array.length_toList] at hle

/-- Sets keep their numbers. -/
def Extends (sets sets' : Array (List Nat)) : Prop :=
  ∀ (i : Nat) (set : List Nat), sets[i]? = some set → sets'[i]? = some set

private theorem found_number (h : u.Found sets) (hset : u.Met set) :
    u.Found (number sets set).2 ∧ Extends sets (number sets set).2 ∧
      (number sets set).2[(number sets set).1]? = some set := by
  rw [number]
  split
  · rename_i i hi
    obtain ⟨hlt, heq, -⟩ := Array.findIdx?_eq_some_iff_getElem.mp hi
    refine ⟨h, fun _ _ hold ↦ hold, ?_⟩
    rw [Array.getElem?_eq_getElem hlt, of_decide_eq_true heq]
  · rename_i hnone
    have hnew : set ∉ sets := by
      intro hmem
      have hne := Array.findIdx?_eq_none_iff.mp hnone set hmem
      simp at hne
    refine ⟨⟨?_, ?_⟩, ?_, Array.getElem?_push_size⟩
    · rw [Array.toList_push, List.nodup_append]
      refine ⟨h.nodup, List.nodup_singleton set, ?_⟩
      intro a ha b hb
      rw [List.mem_singleton.mp hb]
      rintro rfl
      exact hnew (Array.mem_toList_iff.mp ha)
    · intro set' hset'
      rcases Array.mem_push.mp hset' with hold | rfl
      · exact h.met set' hold
      · exact hset
    · intro i set' hold
      obtain ⟨hlt, -⟩ := Array.getElem?_eq_some_iff.mp hold
      rw [Array.getElem?_push_lt hlt, ← hold, Array.getElem?_eq_getElem hlt]

/-! ## Rows -/

/-- Where a set leads to on an event. -/
inductive Leads (u : Union) (sets : Array (List Nat)) (set : List Nat) (event : CharRange) :
    Option Nat → Prop
  | nowhere : u.targets set event.first = [] → Leads u sets set event none
  | set {i : Nat} : u.targets set event.first ≠ [] →
      sets[i]? = some (u.close (u.targets set event.first)) → Leads u sets set event (some i)

theorem Leads.mono {event : CharRange} {cell : Option Nat} (h : u.Leads sets set event cell)
    (hsets : Extends sets sets') : u.Leads sets' set event cell := by
  cases h with
  | nowhere hnil => exact Leads.nowhere hnil
  | set hne hi => exact Leads.set hne (hsets _ _ hi)

private theorem found_row (hu : u.WellFormed) (h : u.Found sets) (hset : u.Met set)
    (events : List CharRange) :
    u.Found (u.row set events sets).2 ∧ Extends sets (u.row set events sets).2 ∧
      List.Forall₂ (u.Leads (u.row set events sets).2 set) events (u.row set events sets).1 := by
  induction events generalizing sets with
  | nil => exact ⟨h, fun _ _ hold ↦ hold, List.Forall₂.nil⟩
  | cons event events ih =>
    rw [row]
    split
    · rename_i hnil
      obtain ⟨hfound, hextends, hcells⟩ := ih h
      exact ⟨hfound, hextends, List.Forall₂.cons (Leads.nowhere hnil) hcells⟩
    · rename_i hne
      have hne : u.targets set event.first ≠ [] := hne
      obtain ⟨hfound, hnumber, hi⟩ := found_number h (hset.next hu hne)
      obtain ⟨hfound, hextends, hcells⟩ := ih hfound
      exact ⟨hfound, fun i set' hold ↦ hextends i set' (hnumber i set' hold),
        List.Forall₂.cons (Leads.set hne (hextends _ _ hi)) hcells⟩

/-- The sets met so far, and the rows of the first of them. -/
structure Searched (u : Union) (events : List CharRange) (sets : Array (List Nat))
    (done : Array (List (Option Nat))) : Prop where
  found : u.Found sets
  start : sets[0]? = some (u.close [0])
  size_le : done.size ≤ sets.size
  rows : ∀ (i : Nat) (set : List Nat) (cells : List (Option Nat)), sets[i]? = some set →
    done[i]? = some cells → List.Forall₂ (u.Leads sets set) events cells

variable {done : Array (List (Option Nat))}

private theorem searched_start (hu : u.WellFormed) : u.Searched events #[u.close [0]] #[] where
  found := ⟨List.nodup_singleton _, by simpa using met_start hu⟩
  start := rfl
  size_le := Nat.zero_le _
  rows := by simp

theorem Searched.visit (hu : u.WellFormed) (h : u.Searched events sets done)
    (hset : sets[done.size]? = some set) :
    u.Searched events (u.row set events sets).2 (done.push (u.row set events sets).1) := by
  have hmet := h.found.met set (Array.mem_of_getElem? hset)
  obtain ⟨hfound, hextends, hcells⟩ := found_row hu h.found hmet events
  have hset' := hextends _ _ hset
  refine ⟨hfound, hextends _ _ h.start, ?_, ?_⟩
  · rw [Array.size_push]
    exact (Array.getElem?_eq_some_iff.mp hset').1
  · intro i set' cells hi hcell
    rw [Array.getElem?_push] at hcell
    split at hcell
    · rename_i hlast
      rw [hlast, hset'] at hi
      obtain rfl := Option.some.inj hi
      obtain rfl := Option.some.inj hcell
      exact hcells
    · obtain ⟨hlt, -⟩ := Array.getElem?_eq_some_iff.mp hcell
      have hold : sets[i]? = some set' := by
        have hget := Array.getElem?_eq_getElem (lt_of_lt_of_le hlt h.size_le)
        rw [← hi, hextends _ _ hget, hget]
      exact (h.rows i set' cells hold hcell).imp fun _ _ hleads ↦ hleads.mono hextends

theorem searched_rows (hu : u.WellFormed) {bound : Nat} (h : u.Searched events sets done)
    (hbound : 2 ^ u.size ≤ bound + done.size) :
    u.Searched events (u.rows events bound sets done).1 (u.rows events bound sets done).2 ∧
      (u.rows events bound sets done).2.size = (u.rows events bound sets done).1.size := by
  induction bound generalizing sets done with
  | zero =>
    have hle := h.found.size_le
    have hsize := h.size_le
    have hfull : done.size = sets.size := by omega
    exact ⟨h, hfull⟩
  | succ bound ih =>
    rw [Union.rows]
    split
    · rename_i hnone
      exact ⟨h, le_antisymm h.size_le (Array.getElem?_eq_none_iff.mp hnone)⟩
    · rename_i set hset
      refine ih (h.visit hu hset) ?_
      rw [Array.size_push]
      omega

/-! ## The machine -/

/-- The sets that the search meets, each at its number. -/
def metSets (u : Union) : Array (List Nat) :=
  (u.rows (disjointRanges u.labels) (1 <<< u.size) #[u.close [0]] #[]).1

def metRows (u : Union) : Array (List (Option Nat)) :=
  (u.rows (disjointRanges u.labels) (1 <<< u.size) #[u.close [0]] #[]).2

theorem transitions_toMachine (u : Union) : u.toMachine.transitions = u.metRows.toList :=
  rfl

theorem finalTags_toMachine (u : Union) :
    u.toMachine.finalTags = (u.metSets.toList.map u.tags).map onlyTag? :=
  rfl

theorem events_toMachine (u : Union) :
    u.toMachine.events = (disjointRanges u.labels).map ([·]) :=
  rfl

theorem searched_met (hu : u.WellFormed) :
    u.Searched (disjointRanges u.labels) u.metSets u.metRows ∧
      u.metRows.size = u.metSets.size :=
  searched_rows hu (searched_start hu) (Nat.one_shiftLeft u.size).ge

private theorem exists_metRow (hu : u.WellFormed) {i : Nat} (hset : u.metSets[i]? = some set) :
    ∃ cells, u.metRows[i]? = some cells ∧
      List.Forall₂ (u.Leads u.metSets set) (disjointRanges u.labels) cells := by
  obtain ⟨hsearched, hsize⟩ := searched_met hu
  have hlt : i < u.metRows.size := by
    rw [hsize]
    exact (Array.getElem?_eq_some_iff.mp hset).1
  exact ⟨_, Array.getElem?_eq_getElem hlt,
    hsearched.rows i set _ hset (Array.getElem?_eq_getElem hlt)⟩

/-- Every state of the machine has a row as wide as there are events. -/
theorem regular_toMachine (hu : u.WellFormed) : u.toMachine.Regular := by
  obtain ⟨hsearched, hsize⟩ := searched_met hu
  have hrows : u.toMachine.transitions.length = u.metSets.size := by
    rw [transitions_toMachine, Array.length_toList, hsize]
  have hevents : u.toMachine.events.length = (disjointRanges u.labels).length := by
    rw [events_toMachine, List.length_map]
  -- The row of a set, from its place among the rows.
  have hleads : ∀ row ∈ u.toMachine.transitions,
      ∃ set, List.Forall₂ (u.Leads u.metSets set) (disjointRanges u.labels) row := by
    intro row hrow
    obtain ⟨i, hlt, rfl⟩ := List.getElem_of_mem hrow
    have hi : i < u.metSets.size := hrows ▸ hlt
    refine ⟨_, hsearched.rows i _ _ (Array.getElem?_eq_getElem hi) ?_⟩
    rw [← Array.getElem?_toList]
    exact List.getElem?_eq_getElem hlt
  refine ⟨?_, ?_, ?_, ?_, ?_⟩
  · rw [events_toMachine]
    intro ranges hranges
    obtain ⟨r, -, rfl⟩ := List.mem_map.mp hranges
    rfl
  · intro row hrow
    obtain ⟨set, hrow⟩ := hleads row hrow
    rw [hevents, hrow.length_eq]
  · rw [hevents]
    exact (cut_disjointRanges u.labels).length_le
  · rw [hrows]
    exact (Array.getElem?_eq_some_iff.mp hsearched.start).1
  · intro row hrow s hs
    obtain ⟨set, hrow⟩ := hleads row hrow
    obtain ⟨j, hj, heq⟩ := List.getElem_of_mem hs
    have hcell := hrow.get (hrow.length_eq ▸ hj) hj
    rw [List.get_eq_getElem, List.get_eq_getElem, heq] at hcell
    rw [hrows]
    cases hcell with
    | set hne hi => exact (Array.getElem?_eq_some_iff.mp hi).1

theorem mem_labels {s t : Nat} {r : CharRange} (h : (r, t) ∈ (u.moves[s]?).getD []) :
    r ∈ u.labels := by
  cases hs : u.moves[s]? with
  | none => simp [hs] at h
  | some all =>
    rw [hs, Option.getD_some] at h
    exact mem_labels_iff.mpr ⟨all, Array.mem_of_getElem? hs, t, h⟩

/-- Characters that the labels do not tell apart lead to the same states. -/
theorem targets_congr {c c' : Char}
    (h : ∀ l ∈ u.labels, (l.contains c = true ↔ l.contains c' = true)) :
    u.targets set c = u.targets set c' := by
  rw [targets, targets]
  refine List.flatMap_congr fun s _ ↦ List.filterMap_congr ?_
  rintro ⟨r, t⟩ hmem
  dsimp only
  rw [Bool.eq_iff_iff.mpr (h r (mem_labels hmem))]

private theorem next?_toMachine (hu : u.WellFormed) {i : Nat} (hset : u.metSets[i]? = some set)
    (c : Char) :
    (u.targets set c = [] ∧ u.toMachine.next? i c = none) ∨ ∃ j, u.toMachine.next? i c = some j ∧
      u.metSets[j]? = some (u.close (u.targets set c)) := by
  have hcut := cut_disjointRanges u.labels
  have hevent : u.toMachine.event? c = (disjointRanges u.labels).findIdx? (·.contains c) := by
    rw [Lexer.Machine.event?, events_toMachine, List.findIdx?_map]
    congr 1
    funext r
    simp
  cases hfound : (disjointRanges u.labels).findIdx? (·.contains c) with
  | none =>
    left
    constructor
    · rw [List.eq_nil_iff_forall_not_mem]
      intro t ht
      obtain ⟨s, -, r, hmem, hc⟩ := mem_targets.mp ht
      obtain ⟨e, he, hce⟩ := (hcut.exists_iff c).mpr ⟨r, mem_labels hmem, hc⟩
      rw [List.findIdx?_eq_none_iff] at hfound
      exact absurd hce (by simp [hfound e he])
    · rw [Lexer.Machine.next?, hevent, hfound, Option.bind_none]
  | some j =>
    obtain ⟨hlt, hc, -⟩ := List.findIdx?_eq_some_iff_getElem.mp hfound
    have hmem := List.getElem_mem hlt
    have htargets : u.targets set c = u.targets set (disjointRanges u.labels)[j].first :=
      targets_congr (hcut.contains_iff _ hmem c hc)
    obtain ⟨cells, hcells, hrow⟩ := exists_metRow hu hset
    have hj : j < cells.length := hrow.length_eq ▸ hlt
    have hnext : u.toMachine.next? i c = cells[j] := by
      rw [Lexer.Machine.next?, hevent, hfound, Option.bind_some, transitions_toMachine,
        Array.getElem?_toList, hcells, Option.bind_some, List.getElem?_eq_getElem hj,
        Option.join_some]
    have hleads := hrow.get hlt hj
    rw [List.get_eq_getElem, List.get_eq_getElem] at hleads
    rw [htargets, hnext]
    generalize cells[j] = cell at hleads
    cases hleads with
    | nowhere hnil => exact Or.inl ⟨hnil, rfl⟩
    | @set k hne hk => exact Or.inr ⟨k, rfl, hk⟩

/-- The run on a text ends at the set of the states that can be reached along it, and is undefined
if there are none. -/
theorem run?_toMachine (hu : u.WellFormed) (w : List Char) :
    (u.toMachine.run? 0 w = none ∧ ∀ s, ¬Reads u.step 0 w s) ∨
      ∃ i set, u.toMachine.run? 0 w = some i ∧ u.metSets[i]? = some set ∧ u.Stands set w := by
  induction w using List.reverseRecOn with
  | nil =>
    exact Or.inr ⟨0, _, rfl, (searched_met hu).1.start, stands_start hu⟩
  | append_singleton w c ih =>
    rw [Lexer.Machine.run?_append_singleton]
    rcases ih with ⟨hrun, hnone⟩ | ⟨i, set, hrun, hset, hstands⟩
    · left
      rw [hrun]
      refine ⟨rfl, fun t ht ↦ ?_⟩
      obtain ⟨s, -, hreads, -⟩ := reads_append_singleton.mp ht
      exact hnone s hreads
    · rw [hrun, Option.bind_some]
      rcases next?_toMachine hu hset c with ⟨hnil, hnext⟩ | ⟨j, hnext, hj⟩
      · left
        refine ⟨hnext, fun t ht ↦ ?_⟩
        obtain ⟨s, v, hreads, hstep, -⟩ := reads_append_singleton.mp ht
        have hv := mem_targets.mpr ⟨s, (hstands s).mpr hreads, hstep⟩
        rw [hnil] at hv
        exact List.not_mem_nil hv
      · exact Or.inr ⟨j, _, hnext, hj, stands_next hu hstands c⟩

/-! ## Tags -/

theorem mem_tags {tag : Nat} (h : u.Stands set w) : tag ∈ u.tags set ↔ u.Accepts w tag := by
  rw [tags, mem_numbers, List.mem_filterMap]
  constructor
  · rintro ⟨⟨s, tag'⟩, hmem, htag⟩
    simp only at htag
    split at htag
    · rename_i hs
      obtain rfl := Option.some.inj htag
      exact ⟨s, hmem, (h s).mp (List.contains_iff_mem.mp hs)⟩
    · simp at htag
  · rintro ⟨s, hmem, hreads⟩
    exact ⟨(s, tag), hmem, if_pos (List.contains_iff_mem.mpr ((h s).mpr hreads))⟩

private theorem onlyTag?_tags (u : Union) (set : List Nat) {tag : Nat} :
    onlyTag? (u.tags set) = some tag ↔ ∀ tag', tag' ∈ u.tags set ↔ tag' = tag := by
  have hascending : (u.tags set).Pairwise (· < ·) := ascending_numbers _
  generalize u.tags set = tags at hascending
  constructor
  · intro h
    rw [onlyTag?.eq_def] at h
    split at h
    · obtain rfl := Option.some.inj h
      simp
    · simp at h
  · intro h
    match tags, hascending, h with
    | [], _, h => exact absurd ((h tag).mpr rfl) List.not_mem_nil
    | [tag'], _, h => rw [onlyTag?, (h tag').mp (List.mem_singleton_self tag')]
    | a :: b :: rest, hascending, h =>
      have ha := (h a).mp List.mem_cons_self
      have hb := (h b).mp (List.mem_cons_of_mem a List.mem_cons_self)
      have hlt : a < b := List.rel_of_pairwise_cons hascending List.mem_cons_self
      omega

/-- A text has a tag exactly if it is accepted for the terminal of that number and for no other. -/
theorem tag?_toMachine (hu : u.WellFormed) {tag : Nat} :
    u.toMachine.tag? w = some tag ↔ ∀ tag', u.Accepts w tag' ↔ tag' = tag := by
  rw [Lexer.Machine.tag?]
  show (u.toMachine.run? 0 w).bind _ = _ ↔ _
  rcases run?_toMachine hu w with ⟨hrun, hnone⟩ | ⟨i, set, hrun, hset, hstands⟩
  · rw [hrun]
    constructor
    · intro h
      simp at h
    · intro h
      obtain ⟨s, -, hreads⟩ := (h tag).mpr rfl
      exact absurd hreads (hnone s)
  · have htag : u.toMachine.tagAt? i = onlyTag? (u.tags set) := by
      rw [Lexer.Machine.tagAt?, finalTags_toMachine, List.getElem?_map, List.getElem?_map,
        Array.getElem?_toList, hset]
      rfl
    rw [hrun, Option.bind_some, htag, onlyTag?_tags]
    exact forall_congr' fun tag' ↦ by rw [mem_tags hstands]

end ShiftReduce.Regex.Union
