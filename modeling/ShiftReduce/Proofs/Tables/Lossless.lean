import ShiftReduce.Proofs.Parser.Moves
import ShiftReduce.Proofs.Tables.Lookup

/-!
# Both readers find every cell

Packed tables are read in two ways: as lists of actions, where an index entry that holds an action
is decoded, and as the flat arrays of codes that a parser carries. `compress_lossless` says that
both come back with the rows that were packed, cell by cell.

The rows may be any, with or without repetitions, as long as they have one width each way and hold
small numbers. The flat reader may also find that an address does not fit a word, which tables that
are in memory never bring about.
-/

namespace ShiftReduce.Tables

@[simp] theorem entryAt?_natCast {α : Type} (l : List α) (k : Nat) :
    entryAt? l (k : Int) = l[k]? := by
  rw [entryAt?, if_neg (by omega), Int.toNat_natCast]

section Packed

variable {rows : List Rows} {t : Tables} {p : Parser.Tables} {s c : Nat} {row : Rows}
  {action : Action}

/-- Read as a list, the action of a state on a terminal is the one in its row. -/
theorem Packed.action?_eq (h : Packed rows t)
    (hsmall : ∀ row ∈ rows, ∀ action ∈ row.actions, action.Small) (hcount : rows.length < 2 ^ 30)
    (hs : rows[s]? = some row) (hc : row.actions[c]? = some action) :
    t.action? s c = some action := by
  obtain ⟨entry, hentry, hrow⟩ := h.exists_actionEntry hs
  have hrowSmall := hsmall row (List.mem_of_getElem? hs)
  have hstored : t.actionRows.length ≤ 2 ^ 30 :=
    Nat.le_trans h.length_actionRows_le (Nat.le_of_lt hcount)
  rw [action?, hentry, Option.bind_eq_bind, Option.bind_some]
  rcases hrow.marked hrowSmall hstored with
    ⟨a, huniform, hodd, hhalf⟩ | ⟨k, hk, -, heven, hhalf⟩
  · have hmem := List.mem_of_getElem? hc
    obtain rfl := eq_of_uniform? huniform hmem
    rw [if_pos hodd, hhalf, (hrowSmall action hmem).decode?_encode]
  · rw [if_neg (by omega), hhalf, entryAt?_natCast, hk, Option.bind_eq_bind, Option.bind_some, hc]

/-- Read as a list, the goto of a state on a non-terminal is the one in its row. -/
theorem Packed.goto?_eq (h : Packed rows t) (hcount : rows.length < 2 ^ 30)
    (hs : rows[s]? = some row) (hc : row.gotos[c]? = some action) :
    t.goto? s c = some action := by
  obtain ⟨entry, hentry, hrow⟩ := h.exists_gotoEntry hs
  cases hrow with
  | @stored k hk =>
    have hlength := h.length_gotoRows_le
    have hlt := (List.getElem?_eq_some_iff.mp hk).1
    have hwrap : wrap32 (k : Int) = k := wrap32_of_bounds (by omega) (by omega)
    simp only [goto?, hentry, Option.bind_eq_bind, Option.bind_some, hwrap, entryAt?_natCast, hk,
      hc]

end Packed

/-- Where the rows have one width each way and the numbers in them are small, both readers of the
packed tables find in every cell what the row of the state holds there. The parser finds it as a
code; its arrays have to be such that their cells have addresses. -/
theorem compress_lossless {rows : List Rows} {p : Parser.Tables} {n m : Nat}
    (hactions : ∀ row ∈ rows, row.actions.length = n) (hgotos : ∀ row ∈ rows, row.gotos.length = m)
    (hsmall : ∀ row ∈ rows, ∀ action ∈ row.actions ++ row.gotos, action.Small)
    (hcount : rows.length < 2 ^ 30) (hflattens : (compress rows).Flattens p)
    (hterminals : p.terminals = n) (hnonterminals : p.nonterminals = m)
    (haddress : p.Addressable) {s : Nat} {row : Rows} (hs : rows[s]? = some row) :
    (∀ k < n, ∃ action, row.actions[k]? = some action ∧
      (compress rows).action? s k = some action ∧ p.action s k = .ok action.encode) ∧
    ∀ b < m, ∃ action, row.gotos[b]? = some action ∧
      (compress rows).goto? s b = some action ∧ p.goto s b = .ok action.encode := by
  subst hterminals hnonterminals
  have hpacked := packed_compress rows
  have hmem := List.mem_of_getElem? hs
  have hactionsSmall : ∀ row ∈ rows, ∀ action ∈ row.actions, action.Small :=
    fun row hrow action haction ↦ hsmall row hrow action (List.mem_append_left _ haction)
  refine ⟨fun k hk ↦ ?_, fun b hb ↦ ?_⟩
  · rw [← hactions row hmem] at hk
    have hcell := List.getElem?_eq_getElem hk
    refine ⟨_, hcell, hpacked.action?_eq hactionsSmall hcount hs hcell, ?_⟩
    exact (hpacked.readsCell_action hflattens hactions hactionsSmall hcount hs hcell).eq_ok
      haddress.1
  · rw [← hgotos row hmem] at hb
    have hcell := List.getElem?_eq_getElem hb
    refine ⟨_, hcell, hpacked.goto?_eq hcount hs hcell, ?_⟩
    exact (hpacked.readsCell_goto hflattens hgotos hcount hs hcell).eq_ok haddress.2

/-- Rows with an action repeated throughout, an empty one, and a row that two states share. -/
def sharedRows : List Rows :=
  [⟨[.shift 1, .error], [.goto 2]⟩, ⟨[.reduce 1, .reduce 1], [.error]⟩,
    ⟨[.shift 1, .error], [.error]⟩, ⟨[.error, .error], [.goto 2]⟩]

/-- The packed `sharedRows` as a parser carries them. -/
def sharedTables : Parser.Tables where
  actionTable := (compress sharedRows).encodedActionRows.flatten.toArray
  actionIndex := (compress sharedRows).actionIndex.toArray
  gotoTable := (compress sharedRows).encodedGotoRows.flatten.toArray
  gotoIndex := (compress sharedRows).gotoIndex.toArray
  terminals := 2
  nonterminals := 1
  ruleLhs := #[0, 0]
  ruleLength := #[1, 1]

theorem compress_lossless_sharedRows :
    sharedTables.actionTable.size = 2 ∧ sharedTables.Addressable ∧
      (compress sharedRows).action? 3 1 = some .error ∧ sharedTables.action 3 1 = .ok (-8) := by
  have haddress : sharedTables.Addressable := by
    rw [Parser.Tables.Addressable]
    decide
  have hsmall : ∀ row ∈ sharedRows, ∀ action ∈ row.actions ++ row.gotos, action.Small := by
    simp only [sharedRows, List.forall_mem_cons, List.cons_append, List.nil_append, Action.Small,
      Action.number?]
    simp
  have hflattens : (compress sharedRows).Flattens sharedTables := ⟨rfl, rfl, rfl, rfl⟩
  have hs : sharedRows[3]? = some ⟨[.error, .error], [.goto 2]⟩ := rfl
  have hread := compress_lossless (n := 2) (m := 1) (by decide) (by decide) hsmall (by decide)
    hflattens rfl rfl haddress hs
  obtain ⟨action, hcell, hlist, hcode⟩ := hread.1 1 (by decide)
  obtain rfl := Option.some.inj hcell
  exact ⟨by decide, haddress, hlist, hcode⟩

end ShiftReduce.Tables
