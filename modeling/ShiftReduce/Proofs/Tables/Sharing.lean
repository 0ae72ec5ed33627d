import Mathlib.Data.List.Nodup
import ShiftReduce.Proofs.Tables.Lossless

/-!
# Every row is stored once

Packing adds a row to those stored only if it is not among them, and never a row of actions that
fits its index entry (`Tables.Distinct`).

## Telling rows apart

So rows can be told apart by their index entries (`ActionEntry.eq_iff`, `GotoEntry.eq_iff`). For
actions two kinds of entries share the integers: one that holds an action is odd, one that holds the
number of a row is even, and codes of actions with small numbers differ.

## The result

`compress_storesOnce` puts this together with the fact that no row is stored without a state that
needs it: the tables are as small as tables of this kind can be.
-/

namespace ShiftReduce.Tables

variable {stored : List (List Action)} {row row' : List Action} {e e' : Int} {k k' : Nat}

/-! ## Uniform rows -/

private theorem exists_ne_of_uniform?_eq_none (hrow : row ≠ []) (h : uniform? row = none)
    (a : Action) :
    ∃ b ∈ row, b ≠ a := by
  by_contra hall
  push Not at hall
  cases row with
  | nil => exact hrow rfl
  | cons first rest =>
    have hfirst : first = a := hall first List.mem_cons_self
    have hrest : rest.all (· = first) := by
      rw [List.all_eq_true]
      intro b hb
      rw [decide_eq_true_eq, hfirst, hall b (List.mem_cons_of_mem _ hb)]
    rw [uniform?, if_pos hrest] at h
    exact Option.some_ne_none _ h

private theorem eq_of_uniform?_eq_some {a : Action} (hlength : row.length = row'.length)
    (h : uniform? row = some a) (h' : uniform? row' = some a) : row = row' := by
  have hfills : row = List.replicate row.length a :=
    List.eq_replicate_of_mem fun _ ↦ eq_of_uniform? h
  have hfills' : row' = List.replicate row'.length a :=
    List.eq_replicate_of_mem fun _ ↦ eq_of_uniform? h'
  rw [hfills, hfills', hlength]

/-! ## Storing rows once -/

theorem nodup_storeRow (h : stored.Nodup) (row : List Action) : (storeRow stored row).2.Nodup := by
  rw [storeRow]
  split
  · exact h
  · rename_i hnone
    rw [List.findIdx?_eq_none_iff] at hnone
    refine h.append (List.nodup_singleton _) ?_
    rw [List.disjoint_singleton]
    intro hmem
    simpa using hnone row hmem

/-- What packed tables never hold: a row twice, or a row of actions that fits its index entry. -/
structure Distinct (t : Tables) : Prop where
  nodup_actionRows : t.actionRows.Nodup
  nodup_gotoRows : t.gotoRows.Nodup
  not_uniform : ∀ row ∈ t.actionRows, uniform? row = none

theorem Distinct.push {t : Tables} (h : t.Distinct) (rows : Rows) : (t.push rows).Distinct := by
  have hgotos := nodup_storeRow h.nodup_gotoRows rows.gotos
  rw [Tables.push]
  dsimp only
  split
  · exact ⟨h.nodup_actionRows, hgotos, h.not_uniform⟩
  · rename_i hnone
    refine ⟨nodup_storeRow h.nodup_actionRows rows.actions, hgotos, ?_⟩
    intro row hrow
    rcases mem_storeRow hrow with hrow | rfl
    · exact h.not_uniform row hrow
    · exact hnone

theorem distinct_compress (rows : List Rows) : (compress rows).Distinct := by
  induction rows using List.reverseRecOn with
  | nil => constructor <;> simp [compress]
  | append_singleton rows row ih =>
    rw [compress_append_singleton]
    exact ih.push row

/-! ## Entries and rows -/

theorem number_eq_iff (hnodup : stored.Nodup) (hk : stored[k]? = some row)
    (hk' : stored[k']? = some row') : k = k' ↔ row = row' := by
  obtain ⟨hlt, rfl⟩ := List.getElem?_eq_some_iff.mp hk
  obtain ⟨hlt', rfl⟩ := List.getElem?_eq_some_iff.mp hk'
  exact hnodup.getElem_inj_iff.symm

theorem ne_of_uniform? {a : Action} (hnone : ∀ r ∈ stored, uniform? r = none)
    (ha : uniform? row = some a) (hk : stored[k]? = some row') : row ≠ row' := by
  rintro rfl
  rw [hnone row (List.mem_of_getElem? hk)] at ha
  exact Option.some_ne_none a ha.symm

/-- The entry of a row of gotos is its number, as long as that fits its word. -/
theorem GotoEntry.exists_eq (h : GotoEntry stored row e) (hcount : stored.length ≤ 2 ^ 30) :
    ∃ k : Nat, stored[k]? = some row ∧ e = k := by
  cases h with
  | @stored k hk =>
    have hlt := (List.getElem?_eq_some_iff.mp hk).1
    exact ⟨k, hk, wrap32_of_bounds (by omega) (by omega)⟩

theorem GotoEntry.eq_iff (hnodup : stored.Nodup) (hcount : stored.length ≤ 2 ^ 30)
    (h : GotoEntry stored row e) (h' : GotoEntry stored row' e') : e = e' ↔ row = row' := by
  obtain ⟨k, hk, rfl⟩ := h.exists_eq hcount
  obtain ⟨k', hk', rfl⟩ := h'.exists_eq hcount
  rw [Nat.cast_inj, number_eq_iff hnodup hk hk']

theorem GotoEntry.eq_number (hnodup : stored.Nodup) (hcount : stored.length ≤ 2 ^ 30)
    (h : GotoEntry stored row e) (hk : stored[k]? = some row) : e = k := by
  obtain ⟨k', hk', rfl⟩ := h.exists_eq hcount
  rw [(number_eq_iff hnodup hk' hk).mpr rfl]

theorem ActionEntry.eq_iff (hnodup : stored.Nodup) (hcount : stored.length ≤ 2 ^ 30)
    (hnone : ∀ r ∈ stored, uniform? r = none) (hlength : row.length = row'.length)
    (hsmall : ∀ action ∈ row, action.Small) (hsmall' : ∀ action ∈ row', action.Small)
    (h : ActionEntry stored row e) (h' : ActionEntry stored row' e') : e = e' ↔ row = row' := by
  -- Entries of different kinds differ in the low bit. Their rows differ too: only one is uniform.
  rcases h.marked hsmall hcount with ⟨a, ha, hodd, hhalf⟩ | ⟨k, hk, -, heven, hhalf⟩
  · rcases h'.marked hsmall' hcount with ⟨a', ha', hodd', hhalf'⟩ | ⟨k', hk', -, heven', -⟩
    · constructor
      · intro he
        have hcodes : a.encode = a'.encode := by rw [← hhalf, ← hhalf', he]
        have hactions : a = a' := (hsmall a (mem_of_uniform? ha)).encode_inj
          (hsmall' a' (mem_of_uniform? ha')) hcodes
        exact eq_of_uniform?_eq_some hlength ha (hactions ▸ ha')
      · rintro rfl
        obtain rfl := Option.some.inj (ha.symm.trans ha')
        omega
    · exact iff_of_false (by omega) (ne_of_uniform? hnone ha hk')
  · rcases h'.marked hsmall' hcount with ⟨a', ha', hodd', -⟩ | ⟨k', hk', -, heven', hhalf'⟩
    · exact iff_of_false (by omega) (ne_of_uniform? hnone ha' hk).symm
    · rw [← number_eq_iff hnodup hk hk']
      omega

theorem ActionEntry.eq_number (hnodup : stored.Nodup) (hcount : stored.length ≤ 2 ^ 30)
    (hnone : ∀ r ∈ stored, uniform? r = none) (hsmall : ∀ action ∈ row, action.Small)
    (h : ActionEntry stored row e) (hk : stored[k]? = some row) : e = 2 * k := by
  rcases h.marked hsmall hcount with ⟨a, ha, -, -⟩ | ⟨k', hk', -, heven, hhalf⟩
  · exact absurd rfl (ne_of_uniform? hnone ha hk)
  · have hnumber : k' = k := (number_eq_iff hnodup hk' hk).mpr rfl
    omega

/-! ## Indices -/

/-- An index has entries for the rows of all states, equal where the rows are and only there. -/
def TellsApart (cells : List (List Action)) (index : List Int) : Prop :=
  ∀ (s s' : Nat) (row row' : List Action), cells[s]? = some row → cells[s']? = some row' →
    ∃ e e', index[s]? = some e ∧ index[s']? = some e' ∧ (e = e' ↔ row = row')

section Indexed

variable {entryOf : List (List Action) → List Action → Int → Prop} {cells : List (List Action)}
  {index : List Int}

theorem Indexed.tellsApart (h : Indexed entryOf cells stored index)
    (hentries : ∀ row ∈ cells, ∀ row' ∈ cells, ∀ e e', entryOf stored row e →
      entryOf stored row' e' → (e = e' ↔ row = row')) : TellsApart cells index := by
  intro s s' row row' hs hs'
  obtain ⟨e, he, hentry⟩ := h.entry s row hs
  obtain ⟨e', he', hentry'⟩ := h.entry s' row' hs'
  exact ⟨e, e', he, he', hentries row (List.mem_of_getElem? hs) row' (List.mem_of_getElem? hs')
    e e' hentry hentry'⟩

/-- Every row that is stored is the row of some state, whose entry is the one for that row. -/
theorem Indexed.exists_selecting (h : Indexed entryOf cells stored index)
    (hk : stored[k]? = some row) (hentry : row ∈ cells → ∀ e', entryOf stored row e' → e' = e) :
    ∃ s < cells.length, index[s]? = some e := by
  have hmem := h.mem_stored row (List.mem_of_getElem? hk)
  obtain ⟨s, hs⟩ := List.mem_iff_getElem?.mp hmem
  obtain ⟨e', he', hrow⟩ := h.entry s row hs
  refine ⟨s, (List.getElem?_eq_some_iff.mp hs).1, ?_⟩
  rw [he', hentry hmem e' hrow]

end Indexed

/-! ## Packed tables -/

/-- Tables that store every row of the states once. A uniform row of actions is not stored at all,
and the index entries tell apart the rows of the states. -/
structure StoresOnce (rows : List Rows) (t : Tables) : Prop where
  nodup_actionRows : t.actionRows.Nodup
  not_uniform : ∀ row ∈ t.actionRows, ∀ a, ∃ b ∈ row, b ≠ a
  nodup_gotoRows : t.gotoRows.Nodup
  actionRow_used : ∀ k < t.actionRows.length, ∃ s < rows.length,
    t.actionIndex[s]? = some (2 * k : Int)
  gotoRow_used : ∀ k < t.gotoRows.length, ∃ s < rows.length, t.gotoIndex[s]? = some (k : Int)
  actionIndex_tellsApart : TellsApart (rows.map (·.actions)) t.actionIndex
  gotoIndex_tellsApart : TellsApart (rows.map (·.gotos)) t.gotoIndex

/-- Packing stores every row once, where the rows of actions have one width and the numbers in them
are small. -/
theorem compress_storesOnce {rows : List Rows} {n : Nat} (hn : 0 < n)
    (hwidth : ∀ row ∈ rows, row.actions.length = n)
    (hsmall : ∀ row ∈ rows, ∀ action ∈ row.actions, action.Small)
    (hcount : rows.length < 2 ^ 30) : StoresOnce rows (compress rows) := by
  have hpacked := packed_compress rows
  have hdistinct := distinct_compress rows
  have hactionCount := hpacked.length_actionRows_le.trans hcount.le
  have hgotoCount := hpacked.length_gotoRows_le.trans hcount.le
  have hcellWidth : ∀ row ∈ rows.map (·.actions), row.length = n := List.forall_mem_map.mpr hwidth
  have hcellSmall : ∀ row ∈ rows.map (·.actions), ∀ action ∈ row, action.Small :=
    List.forall_mem_map.mpr hsmall
  refine ⟨hdistinct.nodup_actionRows, ?_, hdistinct.nodup_gotoRows, ?_, ?_, ?_, ?_⟩
  · intro row hrow
    have hlength := hcellWidth row (hpacked.actions.mem_stored row hrow)
    have hfilled : row ≠ [] := List.ne_nil_of_length_pos (hlength ▸ hn)
    exact exists_ne_of_uniform?_eq_none hfilled (hdistinct.not_uniform row hrow)
  · intro k hk
    have hrow := List.getElem?_eq_getElem hk
    have hused := hpacked.actions.exists_selecting hrow fun hmem _ hentry ↦
      hentry.eq_number hdistinct.nodup_actionRows hactionCount hdistinct.not_uniform
        (hcellSmall _ hmem) hrow
    rwa [List.length_map] at hused
  · intro k hk
    have hrow := List.getElem?_eq_getElem hk
    have hused := hpacked.gotos.exists_selecting hrow fun _ _ hentry ↦
      hentry.eq_number hdistinct.nodup_gotoRows hgotoCount hrow
    rwa [List.length_map] at hused
  · refine hpacked.actions.tellsApart fun row hrow row' hrow' e e' hentry hentry' ↦ ?_
    exact hentry.eq_iff hdistinct.nodup_actionRows hactionCount hdistinct.not_uniform
      ((hcellWidth row hrow).trans (hcellWidth row' hrow').symm) (hcellSmall row hrow)
      (hcellSmall row' hrow') hentry'
  · refine hpacked.gotos.tellsApart fun row _ row' _ e e' hentry hentry' ↦ ?_
    exact hentry.eq_iff hdistinct.nodup_gotoRows hgotoCount hentry'

theorem compress_storesOnce_sharedRows :
    (∀ row ∈ sharedRows, row.actions.length = 2) ∧ StoresOnce sharedRows (compress sharedRows) ∧
      (compress sharedRows).actionIndex = [0, 21, 0, -15] ∧
      (compress sharedRows).gotoIndex = [0, 1, 1, 0] := by
  have hwidth : ∀ row ∈ sharedRows, row.actions.length = 2 := by decide
  have hsmall : ∀ row ∈ sharedRows, ∀ action ∈ row.actions, action.Small := by
    simp only [sharedRows, List.forall_mem_cons, Action.Small, Action.number?]
    simp
  exact ⟨hwidth, compress_storesOnce (by decide) hwidth hsmall (by decide), by decide, by decide⟩

end ShiftReduce.Tables
