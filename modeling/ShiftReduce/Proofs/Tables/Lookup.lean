import Mathlib.Data.List.Induction
import ShiftReduce.Parser.Tables
import ShiftReduce.Proofs.Grammar.WellFormed
import ShiftReduce.Proofs.Tables.Codes
import ShiftReduce.Tables.Basic

/-!
# Packing loses nothing

`Tables.Packed` says what packed tables hold for each state: the action of a uniform row in the
index entry itself, and the number of a stored row otherwise. It is kept as rows are added, since
stored rows stay at their places (`packed_compress`).

## Both halves

Actions and gotos are packed alike except for uniform rows. `Indexed` is what is common: a list of
stored rows, an index, and a relation between a row and its entry that is not disturbed when more
rows are stored. So the induction over the states is made once.

## Reading cells

The parser reads the same tables as flat arrays of codes. `Packed.readsCell_action` and
`Packed.readsCell_goto` say that it finds the code of the cell, or that the tables are so large that
an address may not fit a word.
-/

namespace ShiftReduce.Tables

/-! ## Storing rows -/

private theorem storeRow_prefix (rows : List (List Action)) (row : List Action) :
    rows <+: (storeRow rows row).2 := by
  rw [storeRow]
  split
  · exact List.prefix_refl _
  · exact List.prefix_append _ _

theorem getElem?_storeRow (rows : List (List Action)) (row : List Action) :
    (storeRow rows row).2[(storeRow rows row).1]? = some row := by
  rw [storeRow]
  split
  · rename_i i hi
    obtain ⟨hlt, heq, -⟩ := List.findIdx?_eq_some_iff_getElem.mp hi
    rw [List.getElem?_eq_getElem hlt]
    simpa using heq
  · exact List.getElem?_concat_length

theorem mem_storeRow {rows : List (List Action)} {row r : List Action}
    (h : r ∈ (storeRow rows row).2) : r ∈ rows ∨ r = row := by
  rw [storeRow] at h
  split at h
  · exact Or.inl h
  · rwa [List.mem_append, List.mem_singleton] at h

theorem length_storeRow_le (rows : List (List Action)) (row : List Action) :
    (storeRow rows row).2.length ≤ rows.length + 1 := by
  rw [storeRow]
  split
  · exact Nat.le_succ _
  · exact Nat.le_of_eq List.length_append

theorem getElem?_storeRow_of_some {rows : List (List Action)} {row r : List Action} {k : Nat}
    (h : rows[k]? = some r) : (storeRow rows row).2[k]? = some r := by
  obtain ⟨more, hmore⟩ := storeRow_prefix rows row
  rw [← hmore, List.getElem?_append_left (List.getElem?_eq_some_iff.mp h).1, h]

theorem eq_of_uniform? {row : List Action} {a b : Action} (h : uniform? row = some a)
    (hb : b ∈ row) : b = a := by
  unfold uniform? at h
  split at h
  · simp at h
  · rename_i c rest
    split at h
    · rename_i hall
      obtain rfl := Option.some.inj h
      rcases List.mem_cons.mp hb with rfl | hb
      · rfl
      · simpa using List.all_eq_true.mp hall b hb
    · simp at h

/-! ## Packed tables -/

/-- The index entry of a row of actions, given the rows stored. -/
inductive ActionEntry (stored : List (List Action)) (row : List Action) : Int → Prop
  | uniform {a : Action} : uniform? row = some a →
      ActionEntry stored row (wrap32 (a.encode * 2) + 1)
  | stored {k : Nat} : stored[k]? = some row → ActionEntry stored row (wrap32 (wrap32 k * 2))

/-- The index entry of a row of gotos, given the rows stored. -/
inductive GotoEntry (stored : List (List Action)) (row : List Action) : Int → Prop
  | stored {k : Nat} : stored[k]? = some row → GotoEntry stored row (wrap32 k)

/-- What half of the packed tables holds: `cells` are the rows of all states, and an index entry
leads from a state to its row. -/
structure Indexed (entryOf : List (List Action) → List Action → Int → Prop)
    (cells stored : List (List Action)) (index : List Int) : Prop where
  length_index : index.length = cells.length
  entry : ∀ (s : Nat) (row : List Action), cells[s]? = some row →
    ∃ entry, index[s]? = some entry ∧ entryOf stored row entry
  mem_stored : ∀ row ∈ stored, row ∈ cells
  length_stored : stored.length ≤ cells.length

/-- The next row and its index entry, where no row stored before is lost. -/
theorem Indexed.append {entryOf : List (List Action) → List Action → Int → Prop}
    {cells stored stored' : List (List Action)} {index : List Int} {row : List Action} {e : Int}
    (h : Indexed entryOf cells stored index) (he : entryOf stored' row e)
    (hmono : ∀ r e, entryOf stored r e → entryOf stored' r e)
    (hmem : ∀ r ∈ stored', r ∈ stored ∨ r = row) (hlength : stored'.length ≤ stored.length + 1) :
    Indexed entryOf (cells ++ [row]) stored' (index ++ [e]) where
  length_index := by
    rw [List.length_append, List.length_append, h.length_index, List.length_singleton,
      List.length_singleton]
  entry := by
    intro s r hr
    rcases getElem?_append_singleton_eq_some hr with hr | ⟨rfl, rfl⟩
    · obtain ⟨entry, hentry, hrow⟩ := h.entry s r hr
      have hlt := (List.getElem?_eq_some_iff.mp hentry).1
      exact ⟨entry, by rw [List.getElem?_append_left hlt, hentry], hmono r entry hrow⟩
    · exact ⟨e, by rw [← h.length_index, List.getElem?_concat_length], he⟩
  mem_stored := by
    intro r hr
    rcases hmem r hr with hr | rfl
    · exact List.mem_append_left _ (h.mem_stored r hr)
    · exact List.mem_append_right _ List.mem_cons_self
  length_stored := by
    have hle := h.length_stored
    rw [List.length_append, List.length_singleton]
    omega

theorem ActionEntry.storeRow {stored : List (List Action)} {r row : List Action} {e : Int}
    (h : ActionEntry stored r e) : ActionEntry (storeRow stored row).2 r e := by
  cases h with
  | uniform ha => exact ActionEntry.uniform ha
  | stored hk => exact ActionEntry.stored (getElem?_storeRow_of_some hk)

theorem GotoEntry.storeRow {stored : List (List Action)} {r row : List Action} {e : Int}
    (h : GotoEntry stored r e) : GotoEntry (storeRow stored row).2 r e := by
  cases h with
  | stored hk => exact GotoEntry.stored (getElem?_storeRow_of_some hk)

/-- What packed tables hold for each state. -/
structure Packed (rows : List Rows) (t : Tables) : Prop where
  actions : Indexed ActionEntry (rows.map (·.actions)) t.actionRows t.actionIndex
  gotos : Indexed GotoEntry (rows.map (·.gotos)) t.gotoRows t.gotoIndex

theorem Packed.push {rows : List Rows} {t : Tables} (h : Packed rows t) (row : Rows) :
    Packed (rows ++ [row]) (t.push row) := by
  have hgotos : Indexed GotoEntry ((rows ++ [row]).map (·.gotos))
      (storeRow t.gotoRows row.gotos).2
      (t.gotoIndex ++ [wrap32 (storeRow t.gotoRows row.gotos).1]) := by
    rw [List.map_append, List.map_singleton]
    exact h.gotos.append (GotoEntry.stored (getElem?_storeRow _ _))
      (fun _ _ ↦ GotoEntry.storeRow) (fun _ ↦ mem_storeRow) (length_storeRow_le _ _)
  rw [Tables.push]
  dsimp only
  split
  · rename_i a huniform
    refine ⟨?_, hgotos⟩
    rw [List.map_append, List.map_singleton]
    exact h.actions.append (ActionEntry.uniform huniform) (fun _ _ h ↦ h) (fun _ ↦ Or.inl)
      (Nat.le_succ _)
  · refine ⟨?_, hgotos⟩
    rw [List.map_append, List.map_singleton]
    exact h.actions.append (ActionEntry.stored (getElem?_storeRow _ _))
      (fun _ _ ↦ ActionEntry.storeRow) (fun _ ↦ mem_storeRow) (length_storeRow_le _ _)

theorem compress_append_singleton (rows : List Rows) (row : Rows) :
    compress (rows ++ [row]) = (compress rows).push row := by
  rw [compress, List.foldl_append, List.foldl_cons, List.foldl_nil, compress]

/-- Packing keeps the rows of every state. -/
theorem packed_compress (rows : List Rows) : Packed rows (compress rows) := by
  induction rows using List.reverseRecOn with
  | nil => constructor <;> constructor <;> simp [compress]
  | append_singleton rows row ih =>
    rw [compress_append_singleton]
    exact ih.push row

/-! ## The tables as a parser reads them -/

/-- The tables of a parser are the packed ones, written out row by row as codes. -/
structure Flattens (t : Tables) (p : Parser.Tables) : Prop where
  actionTable_eq : p.actionTable = t.encodedActionRows.flatten.toArray
  actionIndex_eq : p.actionIndex = t.actionIndex.toArray
  gotoTable_eq : p.gotoTable = t.encodedGotoRows.flatten.toArray
  gotoIndex_eq : p.gotoIndex = t.gotoIndex.toArray

/-- What reading a cell comes to: its code, unless the table has more cells than there are words. -/
inductive ReadsCell (action : Action) (table : Array Int) : Except Parser.Error Int → Prop
  | code : ReadsCell action table (.ok action.encode)
  | overflow : wordBound < table.size → ReadsCell action table (.error .addressOverflow)

theorem ReadsCell.eq_ok {action : Action} {table : Array Int} {result : Except Parser.Error Int}
    (h : ReadsCell action table result) (hsize : table.size ≤ wordBound) :
    result = .ok action.encode := by
  cases h with
  | code => rfl
  | overflow hlarge => omega

theorem getElem?_flatten_of_length {α : Type} {rows : List (List α)} {width : Nat}
    (hwidth : ∀ row ∈ rows, row.length = width) {k c : Nat} {row : List α}
    (hk : rows[k]? = some row) (hc : c < width) :
    rows.flatten[k * width + c]? = row[c]? := by
  induction rows generalizing k with
  | nil => simp at hk
  | cons first rows ih =>
    have hfirst : first.length = width := hwidth first List.mem_cons_self
    rw [List.flatten_cons]
    cases k with
    | zero =>
      obtain rfl := Option.some.inj hk
      rw [Nat.zero_mul, Nat.zero_add, List.getElem?_append_left (hfirst ▸ hc)]
    | succ k =>
      have hsplit : (k + 1) * width + c = first.length + (k * width + c) := by
        rw [hfirst, Nat.succ_mul]
        omega
      rw [hsplit, List.getElem?_append_right (Nat.le_add_right _ _), Nat.add_sub_cancel_left]
      exact ih (fun row hrow ↦ hwidth row (List.mem_cons_of_mem _ hrow)) hk

theorem length_flatten_of_length {α : Type} {rows : List (List α)} {width : Nat}
    (hwidth : ∀ row ∈ rows, row.length = width) : rows.flatten.length = rows.length * width := by
  induction rows with
  | nil => simp
  | cons first rows ih =>
    rw [List.flatten_cons, List.length_append, hwidth first List.mem_cons_self, List.length_cons,
      ih fun row hrow ↦ hwidth row (List.mem_cons_of_mem _ hrow), Nat.succ_mul, Nat.add_comm]

theorem readsCell_of_getElem? {stored : List (List Action)} {width : Nat}
    (hwidth : ∀ row ∈ stored, row.length = width) {k c : Nat} {row : List Action}
    (hk : stored[k]? = some row) {action : Action} (hc : row[c]? = some action)
    (defect : Parser.Defect) :
    ReadsCell action (stored.map (·.map Action.encode)).flatten.toArray
      (Parser.Tables.cell (stored.map (·.map Action.encode)).flatten.toArray width defect k c) := by
  have hlength : row.length = width := hwidth row (List.mem_of_getElem? hk)
  have hcw : c < width := hlength ▸ (List.getElem?_eq_some_iff.mp hc).1
  have hwidth' : ∀ r ∈ stored.map (·.map Action.encode), r.length = width := by
    intro r hr
    obtain ⟨r', hr', rfl⟩ := List.mem_map.mp hr
    rw [List.length_map, hwidth r' hr']
  rw [Parser.Tables.cell, cellAddress]
  by_cases hfits : k * width + c < wordBound
  · have hcodes : (stored.map (·.map Action.encode))[k]? = some (row.map Action.encode) := by
      rw [List.getElem?_map, hk, Option.map_some]
    have hread : (stored.map (·.map Action.encode)).flatten[k * width + c]?
        = some action.encode := by
      rw [getElem?_flatten_of_length hwidth' hcodes hcw, List.getElem?_map, hc, Option.map_some]
    simp only [if_pos hfits, List.getElem?_toArray, hread]
    exact ReadsCell.code
  · simp only [if_neg hfits]
    refine ReadsCell.overflow ?_
    rw [List.size_toArray, length_flatten_of_length hwidth', List.length_map]
    -- The rows up to this one alone have more cells than there are words.
    have hlt : k + 1 ≤ stored.length := (List.getElem?_eq_some_iff.mp hk).1
    have hmul := Nat.mul_le_mul_right width hlt
    rw [Nat.succ_mul] at hmul
    omega

private theorem wrap64_wrap32 {k : Nat} (hk : k < 2 ^ 30) : wrap64 (wrap32 k) = k := by
  rw [wrap32_of_bounds (by omega) (by omega), wrap64_natCast]
  rw [wordBound]
  omega

theorem mem_of_uniform? {row : List Action} {a : Action} (h : uniform? row = some a) : a ∈ row := by
  unfold uniform? at h
  split at h
  · simp at h
  · split at h
    · obtain rfl := Option.some.inj h
      exact List.mem_cons_self
    · simp at h

/-- An index entry that fits its word shows by its low bit what it holds, above that bit. -/
theorem ActionEntry.marked {stored : List (List Action)} {row : List Action} {e : Int}
    (h : ActionEntry stored row e) (hsmall : ∀ action ∈ row, action.Small)
    (hcount : stored.length ≤ 2 ^ 30) :
    (∃ a, uniform? row = some a ∧ e % 2 = 1 ∧ e / 2 = a.encode) ∨
      ∃ k : Nat, stored[k]? = some row ∧ k < 2 ^ 30 ∧ e % 2 = 0 ∧ e / 2 = k := by
  cases h with
  | @uniform a huniform =>
    have hbounds := Action.encode_bounds (hsmall a (mem_of_uniform? huniform))
    rw [wrap32_of_bounds (by omega) (by omega)]
    exact Or.inl ⟨a, huniform, by omega, by omega⟩
  | @stored k hk =>
    have hlt := (List.getElem?_eq_some_iff.mp hk).1
    have hwrap : wrap32 (k : Int) = k := wrap32_of_bounds (by omega) (by omega)
    rw [hwrap, wrap32_of_bounds (by omega) (by omega)]
    exact Or.inr ⟨k, hk, by omega, by omega, by omega⟩

section Packed

variable {rows : List Rows} {t : Tables} {p : Parser.Tables}

theorem Packed.length_actionRows_le (h : Packed rows t) : t.actionRows.length ≤ rows.length := by
  have hlength := h.actions.length_stored
  rwa [List.length_map] at hlength

theorem Packed.length_gotoRows_le (h : Packed rows t) : t.gotoRows.length ≤ rows.length := by
  have hlength := h.gotos.length_stored
  rwa [List.length_map] at hlength

theorem Packed.exists_actionEntry (h : Packed rows t) {s : Nat} {row : Rows}
    (hs : rows[s]? = some row) :
    ∃ e, t.actionIndex[s]? = some e ∧ ActionEntry t.actionRows row.actions e := by
  refine h.actions.entry s _ ?_
  rw [List.getElem?_map, hs, Option.map_some]

theorem Packed.exists_gotoEntry (h : Packed rows t) {s : Nat} {row : Rows}
    (hs : rows[s]? = some row) :
    ∃ e, t.gotoIndex[s]? = some e ∧ GotoEntry t.gotoRows row.gotos e := by
  refine h.gotos.entry s _ ?_
  rw [List.getElem?_map, hs, Option.map_some]

/-- The rows of actions that are stored have the width of those that were packed. -/
theorem Packed.length_of_mem_actionRows (h : Packed rows t) {n : Nat}
    (hwidth : ∀ row ∈ rows, row.actions.length = n) : ∀ row ∈ t.actionRows, row.length = n := by
  intro row hrow
  obtain ⟨row', hrow', rfl⟩ := List.mem_map.mp (h.actions.mem_stored row hrow)
  exact hwidth row' hrow'

/-- The action of a state on a terminal is the one in its row. -/
theorem Packed.readsCell_action (h : Packed rows t) (hp : Flattens t p)
    (hwidth : ∀ row ∈ rows, row.actions.length = p.terminals)
    (hsmall : ∀ row ∈ rows, ∀ action ∈ row.actions, action.Small) (hcount : rows.length < 2 ^ 30)
    {s c : Nat} {row : Rows} {action : Action} (hs : rows[s]? = some row)
    (hc : row.actions[c]? = some action) :
    ReadsCell action p.actionTable (p.action s c) := by
  obtain ⟨entry, hentry, hrow⟩ := h.exists_actionEntry hs
  have hstored : t.actionRows.length ≤ 2 ^ 30 :=
    Nat.le_trans h.length_actionRows_le (Nat.le_of_lt hcount)
  simp only [Parser.Tables.action, hp.actionIndex_eq, List.getElem?_toArray, hentry]
  rcases hrow.marked (hsmall row (List.mem_of_getElem? hs)) hstored with
    ⟨a, huniform, hodd, hhalf⟩ | ⟨k, hk, hklt, heven, hhalf⟩
  · obtain rfl := eq_of_uniform? huniform (List.mem_of_getElem? hc)
    rw [if_pos hodd, hhalf]
    exact ReadsCell.code
  · have hword : wrap64 (k : Int) = k := wrap64_natCast (by rw [wordBound]; omega)
    rw [if_neg (by omega), hhalf, hword, hp.actionTable_eq]
    exact readsCell_of_getElem? (h.length_of_mem_actionRows hwidth) hk hc _

/-- The goto of a state on a non-terminal is the one in its row. -/
theorem Packed.readsCell_goto (h : Packed rows t) (hp : Flattens t p)
    (hwidth : ∀ row ∈ rows, row.gotos.length = p.nonterminals) (hcount : rows.length < 2 ^ 30)
    {s c : Nat} {row : Rows} {action : Action} (hs : rows[s]? = some row)
    (hc : row.gotos[c]? = some action) :
    ReadsCell action p.gotoTable (p.goto s c) := by
  obtain ⟨entry, hentry, hrow⟩ := h.exists_gotoEntry hs
  simp only [Parser.Tables.goto, hp.gotoIndex_eq, List.getElem?_toArray, hentry]
  cases hrow with
  | @stored k hk =>
    have hlength := h.length_gotoRows_le
    have hlt := (List.getElem?_eq_some_iff.mp hk).1
    have hklt : k < 2 ^ 30 := by omega
    rw [wrap64_wrap32 hklt, hp.gotoTable_eq]
    have hstored : ∀ r ∈ t.gotoRows, r.length = p.nonterminals := by
      intro r hr
      obtain ⟨row', hrow', rfl⟩ := List.mem_map.mp (h.gotos.mem_stored r hr)
      exact hwidth row' hrow'
    exact readsCell_of_getElem? hstored hk hc _

end Packed

end ShiftReduce.Tables
