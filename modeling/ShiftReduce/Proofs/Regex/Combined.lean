import ShiftReduce.Proofs.Regex.Determinized
import ShiftReduce.Proofs.Regex.Reached
import ShiftReduce.Proofs.Regex.Thompson
import ShiftReduce.Regex.Compiler

/-!
# The deterministic machine of several machines

What is asked of the machine that stands for several at once is `Determinizes`: its states are the
sets of states that the machines reach along one text or another, each once; a run on a text ends in
the set of that text; and its tags and collisions are those of the machines that match.

## Which machines

The search meets the demand for all machines that keep to their own states
(`Union.determinizes_toMachine`), and every machine that was compiled does. A repetition that asks
for more copies than it allows has no meaning as an expression, but it has a machine: it is built
like one that allows as many as it asks for (`Nfa.build_allowing`). So nothing is asked of the
expressions in `combine_determinizes`.

## Collisions

Texts that several terminals match have no tag. The state in which they end is on record as a
collision, once, with the terminals in order (`exists_mem_collisions_iff`).
-/

namespace ShiftReduce.Regex

/-! ## Machines that were compiled -/

namespace Expr

mutual

/-- The expression in which every repetition allows at least the copies that it asks for. -/
def allowing : Expr → Expr
  | .repetition min max greedy sub => .repetition min (max.map (Max.max min)) greedy sub.allowing
  | .capture index name sub => .capture index name sub.allowing
  | .concat subs => .concat (allowingAll subs)
  | .alternation subs => .alternation (allowingAll subs)
  | h => h

/-- The expressions in which every repetition allows at least the copies that it asks for. -/
def allowingAll : List Expr → List Expr
  | [] => []
  | h :: rest => h.allowing :: allowingAll rest

end

mutual

theorem ordered_allowing (h : Expr) : h.allowing.Ordered := by
  cases h with
  | repetition min max greedy sub =>
    refine ⟨?_, ordered_allowing sub⟩
    intro m hm
    obtain ⟨n, -, rfl⟩ := Option.map_eq_some_iff.mp hm
    exact le_max_left min n
  | capture index name sub => exact ordered_allowing sub
  | concat subs => exact allOrdered_allowingAll subs
  | alternation subs => exact allOrdered_allowingAll subs
  | empty | literal | chars | bytes | look => trivial

theorem allOrdered_allowingAll (hs : List Expr) : AllOrdered (allowingAll hs) := by
  cases hs with
  | nil => trivial
  | cons h rest => exact ⟨ordered_allowing h, allOrdered_allowingAll rest⟩

end

end Expr

namespace Nfa

mutual

/-- Where more copies are asked for than allowed, none is added to those asked for. -/
theorem build_allowing (h : Expr) : build h.allowing = build h := by
  funext d
  cases h with
  | repetition min max greedy sub =>
    have hextra : (max.map (Max.max min)).map (· - min) = max.map (· - min) := by
      rw [Option.map_map]
      congr 1
      funext n
      show Max.max min n - min = n - min
      omega
    rw [Expr.allowing, build, build, build_allowing sub, hextra]
  | capture index name sub =>
    rw [Expr.allowing, build, build, build_allowing sub]
  | concat subs =>
    simp only [Expr.allowing, build, buildSequence_allowingAll subs]
  | alternation subs =>
    simp only [Expr.allowing, build, buildBranches_allowingAll subs]
  | empty | literal | chars | bytes | look => rfl

theorem buildSequence_allowingAll (hs : List Expr) (current : Nat) (d : Draft) :
    buildSequence (Expr.allowingAll hs) current d = buildSequence hs current d := by
  cases hs with
  | nil => rfl
  | cons h rest =>
    rw [Expr.allowingAll, buildSequence, buildSequence, build_allowing h]
    cases build h d with
    | error e => rfl
    | ok p => exact buildSequence_allowingAll rest _ _

theorem buildBranches_allowingAll (hs : List Expr) (start stop : Nat) (d : Draft) :
    buildBranches (Expr.allowingAll hs) start stop d = buildBranches hs start stop d := by
  cases hs with
  | nil => rfl
  | cons h rest =>
    rw [Expr.allowingAll, buildBranches, buildBranches, build_allowing h]
    cases build h d with
    | error e => rfl
    | ok p => exact buildBranches_allowingAll rest _ _ _

end

/-- The machine of any expression is well-formed, whatever its repetitions ask for. -/
theorem wellFormed_of_compileExpr {h : Expr} {tag : Nat} {m : Nfa}
    (hm : compileExpr h tag = .ok m) : m.WellFormed := by
  have hbuilt : ofExpr h.allowing tag = .ok m := by
    rw [compileExpr] at hm
    split at hm
    · rename_i m' hm'
      obtain rfl := Except.ok.inj hm
      rw [← hm', ofExpr, ofExpr, build_allowing]
    · simp at hm
  exact wellFormed_ofExpr h.ordered_allowing hbuilt

end Nfa

variable {machines : List Nfa} {w v : List Char}

namespace Union

variable {u : Union} {set set' : List Nat} {i j : Nat}

/-! ## States of the deterministic machine -/

theorem Met.eq_iff (hset : u.Met set) (hset' : u.Met set') (hw : u.Stands set w)
    (hv : u.Stands set' v) :
    set = set' ↔ ∀ s, Reads u.step 0 w s ↔ Reads u.step 0 v s := by
  constructor
  · rintro rfl s
    exact (hw s).symm.trans (hv s)
  · intro h
    exact (List.pairwise_lt_range.sublist hset.sublist).eq_of_mem_iff
      (List.pairwise_lt_range.sublist hset'.sublist)
      fun {s} ↦ (hw s).trans ((h s).trans (hv s).symm)

theorem exists_metSet (hu : u.WellFormed) (hi : u.toMachine.run? 0 w = some i) :
    ∃ set, u.metSets[i]? = some set ∧ u.Met set ∧ u.Stands set w := by
  rcases run?_toMachine hu w with ⟨hnone, -⟩ | ⟨j, set, hj, hset, hstands⟩
  · rw [hnone] at hi
    cases hi
  · obtain rfl : i = j := Option.some.inj (hi.symm.trans hj)
    exact ⟨set, hset, (searched_met hu).1.found.met set (Array.mem_of_getElem? hset), hstands⟩

/-- No two states of the machine have one set. -/
theorem metSets_inj (hu : u.WellFormed) (hi : u.metSets[i]? = some set)
    (hj : u.metSets[j]? = some set) : i = j := by
  rw [← Array.getElem?_toList] at hi hj
  obtain ⟨hlt, -⟩ := List.getElem?_eq_some_iff.mp hi
  exact (List.getElem?_inj hlt (searched_met hu).1.found.nodup).mp (hi.trans hj.symm)

theorem exists_run (hu : u.WellFormed) (hi : u.metSets[i]? = some set) :
    ∃ w, u.toMachine.run? 0 w = some i := by
  have hmet := (searched_met hu).1.found.met set (Array.mem_of_getElem? hi)
  obtain ⟨w, hw⟩ := hmet.stands
  refine ⟨w, ?_⟩
  rcases run?_toMachine hu w with ⟨-, hnone⟩ | ⟨j, set', hj, hset', hw'⟩
  · obtain ⟨s, hs⟩ := List.exists_mem_of_ne_nil _ hmet.ne_nil
    exact absurd ((hw s).mp hs) (hnone s)
  · have hmet' := (searched_met hu).1.found.met set' (Array.mem_of_getElem? hset')
    obtain rfl := (hmet.eq_iff hmet' hw hw').mpr fun _ ↦ Iff.rfl
    rw [hj, metSets_inj hu hi hset']

/-! ## Collisions -/

theorem collisions_toMachine (u : Union) : u.toMachine.collisions
    = (u.metSets.toList.map u.tags).zipIdx.filterMap fun (tags, i) ↦
        if tags.length > 1 then some (i, tags) else none :=
  rfl

theorem mem_collisions {tags : List Nat} : (i, tags) ∈ u.toMachine.collisions ↔
    ∃ set, u.metSets[i]? = some set ∧ u.tags set = tags ∧ 1 < tags.length := by
  rw [collisions_toMachine, List.mem_filterMap]
  constructor
  · rintro ⟨⟨tags', j⟩, hmem, h⟩
    simp only at h
    split at h
    · rename_i hmany
      obtain ⟨rfl, rfl⟩ := Prod.mk.inj (Option.some.inj h)
      have hget := List.mk_mem_zipIdx_iff_getElem?.mp hmem
      rw [List.getElem?_map, Array.getElem?_toList] at hget
      obtain ⟨set, hset, htags⟩ := Option.map_eq_some_iff.mp hget
      exact ⟨set, hset, htags, hmany⟩
    · cases h
  · rintro ⟨set, hset, rfl, hmany⟩
    refine ⟨(u.tags set, i), List.mk_mem_zipIdx_iff_getElem?.mpr ?_, if_pos hmany⟩
    rw [List.getElem?_map, Array.getElem?_toList, hset, Option.map_some]

theorem nodup_collisions (u : Union) : (u.toMachine.collisions.map Prod.fst).Nodup := by
  have hnumbers : (u.metSets.toList.map u.tags).zipIdx.Pairwise fun p q ↦ p.2 ≠ q.2 := by
    rw [← List.pairwise_map, List.zipIdx_map_snd]
    exact List.nodup_range'
  rw [collisions_toMachine]
  refine List.pairwise_map.mpr (List.Pairwise.filterMap _ ?_ hnumbers)
  rintro ⟨tags, i⟩ ⟨tags', i'⟩ hne p hp q hq
  simp only at hp hq hne
  split at hp
  · split at hq
    · obtain rfl := Option.some.inj hp
      obtain rfl := Option.some.inj hq
      exact hne
    · cases hq
  · cases hp

private theorem nontrivial_iff_of_ascending {ns : List Nat} (h : ns.Pairwise (· < ·)) :
    {n | n ∈ ns}.Nontrivial ↔ 1 < ns.length := by
  have hnodup : ns.Nodup := h.imp fun hlt ↦ hlt.ne
  rw [← List.toFinset_card_of_nodup hnodup, Finset.one_lt_card_iff_nontrivial,
    Finset.Nontrivial, List.coe_toFinset]

end Union

/-! ## The specification -/

/-- The deterministic machine of several machines. Its states are the sets of states that the
machines reach together along some text, each once; a run on a text ends in the set of the states
reached along it, and is undefined if there are none. -/
structure Determinizes (machines : List Nfa) (d : Lexer.Machine) : Prop where
  /-- Every state has a row and a place for its tag. -/
  length_eq : d.finalTags.length = d.transitions.length
  initial_lt : d.initial < d.transitions.length
  /-- Every row has a cell for each event. -/
  width : ∀ row ∈ d.transitions, row.length = d.events.length
  target_lt : ∀ row ∈ d.transitions, ∀ i, some i ∈ row → i < d.transitions.length
  /-- A character belongs to one event at most. -/
  event_unique : ∀ (c : Char) (j k : Nat) (ranges ranges' : List CharRange),
    d.events[j]? = some ranges → d.events[k]? = some ranges' →
    (∃ r ∈ ranges, r.contains c = true) → (∃ r ∈ ranges', r.contains c = true) → j = k
  /-- A run is defined as long as the machines reach a state. -/
  defined_iff : ∀ w, (∃ i, d.run? d.initial w = some i) ↔ ∃ x, Reached machines w x
  /-- Runs end in one state if the machines reach the same states. -/
  eq_iff : ∀ w v i j, d.run? d.initial w = some i → d.run? d.initial v = some j →
    (i = j ↔ ∀ x, Reached machines w x ↔ Reached machines v x)
  /-- Every state is that in which some run ends. -/
  exists_run : ∀ i < d.transitions.length, ∃ w, d.run? d.initial w = some i
  /-- A state has the tag of the machines that match, if that is one. -/
  tag_iff : ∀ w i, d.run? d.initial w = some i → ∀ tag,
    d.finalTags[i]? = some (some tag) ↔ matched machines w = {tag}
  /-- A state collides if machines of several tags match. -/
  collides_iff : ∀ w i, d.run? d.initial w = some i →
    ((∃ tags, (i, tags) ∈ d.collisions) ↔ (matched machines w).Nontrivial)
  /-- What is recorded with it: the tags of the machines that match, in ascending order. -/
  collision : ∀ w i, d.run? d.initial w = some i → ∀ tags, (i, tags) ∈ d.collisions →
    tags.Pairwise (· < ·) ∧ ∀ tag, tag ∈ tags ↔ tag ∈ matched machines w
  /-- Only states collide, and none does so twice. -/
  collision_lt : ∀ p ∈ d.collisions, p.1 < d.transitions.length
  nodup_collisions : (d.collisions.map Prod.fst).Nodup

namespace Union

variable {u : Union} {set : List Nat} {i j : Nat}

theorem length_transitions (hu : u.WellFormed) :
    u.toMachine.transitions.length = u.metSets.size := by
  rw [transitions_toMachine, Array.length_toList, (searched_met hu).2]

theorem event_unique (u : Union) (c : Char) {k : Nat} {ranges ranges' : List CharRange}
    (hj : u.toMachine.events[j]? = some ranges) (hk : u.toMachine.events[k]? = some ranges')
    (hc : ∃ r ∈ ranges, r.contains c = true) (hc' : ∃ r ∈ ranges', r.contains c = true) :
    j = k := by
  have hevent : ∀ {j : Nat} {ranges : List CharRange}, u.toMachine.events[j]? = some ranges →
      (∃ r ∈ ranges, r.contains c = true) →
      ∃ e, (disjointRanges u.labels)[j]? = some e ∧ e.contains c = true := by
    intro j ranges hj hc
    rw [events_toMachine, List.getElem?_map] at hj
    obtain ⟨e, he, rfl⟩ := Option.map_eq_some_iff.mp hj
    obtain ⟨r, hr, hc⟩ := hc
    obtain rfl := List.mem_singleton.mp hr
    exact ⟨r, he, hc⟩
  -- Events in order are apart.
  have hapart : ∀ {j k : Nat} {e e' : CharRange}, (disjointRanges u.labels)[j]? = some e →
      (disjointRanges u.labels)[k]? = some e' → j < k → e.contains c = true →
      e'.contains c ≠ true := by
    intro j k e e' hj hk hjk hc hc'
    obtain ⟨hjlt, rfl⟩ := List.getElem?_eq_some_iff.mp hj
    obtain ⟨hklt, rfl⟩ := List.getElem?_eq_some_iff.mp hk
    have hlt := List.pairwise_iff_getElem.mp (cut_disjointRanges u.labels).apart j k hjlt hklt hjk
    have hle := (contains_iff.mp hc).2
    have hge := (contains_iff.mp hc').1
    omega
  obtain ⟨e, he, hc⟩ := hevent hj hc
  obtain ⟨e', he', hc'⟩ := hevent hk hc'
  rcases Nat.lt_trichotomy j k with hjk | hjk | hkj
  · exact absurd hc' (hapart he he' hjk hc)
  · exact hjk
  · exact absurd hc (hapart he' he hkj hc')

section OfList

variable (hm : ∀ m ∈ machines, m.WellFormed)

include hm

private theorem exists_run?_iff (w : List Char) :
    (∃ i, (ofList machines).toMachine.run? 0 w = some i) ↔ ∃ x, Reached machines w x := by
  have hu := wellFormed_ofList hm
  constructor
  · rintro ⟨i, hi⟩
    obtain ⟨set, -, hmet, hstands⟩ := exists_metSet hu hi
    obtain ⟨s, hs⟩ := List.exists_mem_of_ne_nil _ hmet.ne_nil
    obtain ⟨x, hx, -⟩ := (reads_ofList hm).mp ((hstands s).mp hs)
    exact ⟨x, hx⟩
  · rintro ⟨x, hx⟩
    rcases run?_toMachine hu w with ⟨-, hnone⟩ | ⟨i, set, hi, -, -⟩
    · exact absurd ((reads_ofList hm).mpr ⟨x, hx, rfl⟩) (hnone _)
    · exact ⟨i, hi⟩

private theorem run?_eq_iff (hi : (ofList machines).toMachine.run? 0 w = some i)
    (hj : (ofList machines).toMachine.run? 0 v = some j) :
    i = j ↔ ∀ x, Reached machines w x ↔ Reached machines v x := by
  have hu := wellFormed_ofList hm
  obtain ⟨set, hset, hmet, hw⟩ := exists_metSet hu hi
  obtain ⟨set', hset', hmet', hv⟩ := exists_metSet hu hj
  rw [← reads_congr_iff hm, ← hmet.eq_iff hmet' hw hv]
  constructor
  · rintro rfl
    exact Option.some.inj (hset.symm.trans hset')
  · rintro rfl
    exact metSets_inj hu hset hset'

private theorem finalTags_iff (hi : (ofList machines).toMachine.run? 0 w = some i) (tag : Nat) :
    (ofList machines).toMachine.finalTags[i]? = some (some tag) ↔
      matched machines w = {tag} := by
  have htag : (ofList machines).toMachine.tag? w
      = ((ofList machines).toMachine.finalTags[i]?).join := by
    rw [Lexer.Machine.tag?]
    show ((ofList machines).toMachine.run? 0 w).bind _ = _
    rw [hi]
    rfl
  rw [← Option.join_eq_some_iff, ← htag, tag?_toMachine (wellFormed_ofList hm), Set.ext_iff]
  exact forall_congr' fun tag' ↦ by rw [accepts_ofList hm]; rfl

/-- The tags of a set that stands for a text are those of the machines that match it. -/
theorem mem_tags_ofList (h : (ofList machines).Stands set w) (tag : Nat) :
    tag ∈ (ofList machines).tags set ↔ tag ∈ matched machines w :=
  (mem_tags h).trans (accepts_ofList hm)

theorem exists_mem_collisions_iff (hi : (ofList machines).toMachine.run? 0 w = some i) :
    ∃ all : List Nat, all.Pairwise (· < ·) ∧ (∀ tag, tag ∈ all ↔ tag ∈ matched machines w) ∧
      ∀ tags, (i, tags) ∈ (ofList machines).toMachine.collisions ↔
        (matched machines w).Nontrivial ∧ tags = all := by
  obtain ⟨set, hset, -, hstands⟩ := exists_metSet (wellFormed_ofList hm) hi
  have hascending : ((ofList machines).tags set).Pairwise (· < ·) := ascending_numbers _
  have hmem := mem_tags_ofList hm hstands
  refine ⟨_, hascending, hmem, fun tags ↦ ?_⟩
  have hmatched : {tag | tag ∈ (ofList machines).tags set} = matched machines w := Set.ext hmem
  rw [mem_collisions, ← hmatched, nontrivial_iff_of_ascending hascending]
  constructor
  · rintro ⟨set', hset', rfl, hmany⟩
    obtain rfl := Option.some.inj (hset.symm.trans hset')
    exact ⟨hmany, rfl⟩
  · rintro ⟨hmany, rfl⟩
    exact ⟨set, hset, rfl, hmany⟩

/-- The search makes the deterministic machine of well-formed machines. -/
theorem determinizes_toMachine : Determinizes machines (ofList machines).toMachine where
  length_eq := by
    rw [length_transitions (wellFormed_ofList hm), finalTags_toMachine, List.length_map,
      List.length_map, Array.length_toList]
  initial_lt := (regular_toMachine (wellFormed_ofList hm)).initial_lt
  width := (regular_toMachine (wellFormed_ofList hm)).width
  target_lt := (regular_toMachine (wellFormed_ofList hm)).target_lt
  event_unique := fun c _ _ _ _ ↦ event_unique _ c
  defined_iff := exists_run?_iff hm
  eq_iff := fun _ _ _ _ ↦ run?_eq_iff hm
  exists_run := by
    intro i hi
    rw [length_transitions (wellFormed_ofList hm)] at hi
    exact exists_run (wellFormed_ofList hm) (Array.getElem?_eq_getElem hi)
  tag_iff := fun _ _ ↦ finalTags_iff hm
  collides_iff := by
    intro w i hi
    obtain ⟨all, -, -, hall⟩ := exists_mem_collisions_iff hm hi
    simp only [hall, exists_and_left, exists_eq, and_true]
  collision := by
    intro w i hi tags hmem
    obtain ⟨all, hascending, hmatched, hall⟩ := exists_mem_collisions_iff hm hi
    obtain ⟨-, rfl⟩ := (hall tags).mp hmem
    exact ⟨hascending, hmatched⟩
  collision_lt := by
    rintro ⟨i, tags⟩ hmem
    obtain ⟨set, hset, -⟩ := mem_collisions.mp hmem
    rw [length_transitions (wellFormed_ofList hm)]
    exact (Array.getElem?_eq_some_iff.mp hset).1
  nodup_collisions := nodup_collisions _

end OfList

end Union

/-! ## Combining -/

/-- **The deterministic machine of compiled machines.** Whatever expressions they were compiled from
and for whatever terminals, the machine made of them is defined on the texts along which one of them
still reaches a state; it recognises a terminal where all machines that match are for that one, and
records a collision where they are for several. -/
theorem combine_determinizes {machines : List Nfa}
    (hm : ∀ m ∈ machines, ∃ h tag, compileExpr h tag = .ok m) :
    Determinizes machines (combine machines) := by
  refine Union.determinizes_toMachine fun m hmem ↦ ?_
  obtain ⟨h, tag, hcompile⟩ := hm m hmem
  exact Nfa.wellFormed_of_compileExpr hcompile

def letterWord : Expr :=
  .repetition 0 none true (.chars [⟨'a', 'c'⟩])

/-- Two machines for one terminal and one for another, with texts in common. -/
theorem combine_determinizes_overlapping :
    ∃ letters letter later, compileExpr letterWord 1 = .ok letters ∧
      compileExpr (.chars [⟨'b', 'b'⟩]) 0 = .ok letter ∧
      compileExpr (.chars [⟨'b', 'd'⟩]) 1 = .ok later ∧
      Determinizes [letters, letter, later] (combine [letters, letter, later]) ∧
      (combine [letters, letter, later]).run? 0 ['b'] = some 2 ∧
      (combine [letters, letter, later]).collisions = [(2, [0, 1])] := by
  refine ⟨_, _, _, rfl, rfl, rfl, combine_determinizes ?_, by decide +kernel, by decide +kernel⟩
  simp only [List.forall_mem_cons]
  exact ⟨⟨letterWord, 1, rfl⟩, ⟨.chars [⟨'b', 'b'⟩], 0, rfl⟩, ⟨.chars [⟨'b', 'd'⟩], 1, rfl⟩,
    by simp⟩

end ShiftReduce.Regex
