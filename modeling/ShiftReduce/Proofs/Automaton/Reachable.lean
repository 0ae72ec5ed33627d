import ShiftReduce.Proofs.Closure.Least

/-!
# The canonical collection of item sets

The item sets that an automaton without lookahead should have, described without any search: the
closure of the accept rules at their first places, and from a set on each symbol the closure of its
items advanced over that symbol (`Item.Reachable`). An accept item with only the end of input left
is not advanced, so the end of an accept rule is never read.

## Ends of rules

An item that stands within its rule has something left to read, or accepts, or is completed
(`Placed.cases`), and it is in one of these cases only. A set is ambiguous if it cannot tell by
which rule to reduce, or whether to accept: two rules have been read to their ends, or an accept
item is not alone in reading the end of input (`Item.Ambiguous`).

## Kernels

Closing adds items at their first places and nothing else, and advancing leaves none there. So what
was advanced can be read off the closure (`kernel_closure`), and no symbol leads back to where
parsing starts (`closure_advanced_ne_start`).
-/

namespace ShiftReduce.Item

variable {g : Grammar} {I K : Set Item}

/-! ## Where an item stands -/

/-- An accept item with only the end of input left. -/
def Accepts (g : Grammar) (i : Item) : Prop :=
  ∃ rule, g.rule? i.rule = some rule ∧ rule.accept = true ∧ i.position + 1 = rule.rhs.length

/-- An item of a rule that is no accept rule, read to its end. -/
def Completed (g : Grammar) (i : Item) : Prop :=
  ∃ rule, g.rule? i.rule = some rule ∧ rule.accept = false ∧ i.position = rule.rhs.length

/-- An item that stands within its rule, and within an accept rule before its last symbol. -/
def Placed (g : Grammar) (i : Item) : Prop :=
  ∃ rule, g.rule? i.rule = some rule ∧ i.position ≤ rule.rhs.length ∧
    (rule.accept = true → i.position < rule.rhs.length)

theorem hasMore_iff {i : Item} {rule : Rule} (h : g.rule? i.rule = some rule) :
    i.hasMore g = true ↔
      if rule.accept = true then i.position + 1 < rule.rhs.length
      else i.position < rule.rhs.length := by
  simp only [hasMore, h]
  split <;> simp

theorem symbol?_eq_none {i : Item} {rule : Rule} (h : g.rule? i.rule = some rule) :
    i.symbol? g = none ↔ rule.rhs.length ≤ i.position := by
  simp [symbol?, h]

theorem Accepts.symbol?_eq (wf : g.WellFormed) {i : Item} (h : i.Accepts g) :
    i.symbol? g = some .eof := by
  obtain ⟨rule, hrule, haccept, hpos⟩ := h
  have hlast := wf.getLast?_rhs rule (Grammar.mem_of_rule? hrule) haccept
  rw [List.getLast?_eq_getElem?, ← hpos, Nat.add_sub_cancel] at hlast
  exact symbol?_eq_some.mpr ⟨rule, hrule, hlast⟩

theorem Completed.symbol?_eq {i : Item} (h : i.Completed g) : i.symbol? g = none := by
  obtain ⟨rule, hrule, -, hpos⟩ := h
  exact (symbol?_eq_none hrule).mpr (le_of_eq hpos.symm)

theorem Accepts.not_hasMore {i : Item} (h : i.Accepts g) : ¬i.hasMore g = true := by
  obtain ⟨rule, hrule, haccept, hpos⟩ := h
  rw [hasMore_iff hrule, if_pos haccept]
  omega

theorem Completed.not_hasMore {i : Item} (h : i.Completed g) : ¬i.hasMore g = true := by
  obtain ⟨rule, hrule, haccept, hpos⟩ := h
  rw [hasMore_iff hrule, if_neg (by simp [haccept])]
  omega

theorem Completed.not_accepts (wf : g.WellFormed) {i : Item} (h : i.Completed g) :
    ¬i.Accepts g := by
  intro haccepts
  have heof := haccepts.symbol?_eq wf
  rw [h.symbol?_eq] at heof
  simp at heof

theorem hasMore_iff_not_accepts {i : Item} {s : Symbol} (h : i.symbol? g = some s) :
    i.hasMore g = true ↔ ¬i.Accepts g := by
  refine ⟨fun hmore haccepts ↦ haccepts.not_hasMore hmore, fun hnot ↦ ?_⟩
  obtain ⟨rule, hrule, hsymbol⟩ := symbol?_eq_some.mp h
  have hlt := (List.getElem?_eq_some_iff.mp hsymbol).1
  rw [hasMore_iff hrule]
  split
  · rename_i haccept
    have hne : i.position + 1 ≠ rule.rhs.length := fun hpos ↦ hnot ⟨rule, hrule, haccept, hpos⟩
    omega
  · exact hlt

/-- An item within its rule that reads nothing has been read to its end. -/
theorem Placed.completed {i : Item} (h : i.Placed g) (hnone : i.symbol? g = none) :
    i.Completed g := by
  obtain ⟨rule, hrule, hle, hlt⟩ := h
  have hge := (symbol?_eq_none hrule).mp hnone
  refine ⟨rule, hrule, Bool.eq_false_iff.mpr fun haccept ↦ ?_, le_antisymm hle hge⟩
  exact absurd (hlt haccept) (Nat.not_lt.mpr hge)

/-- Every item within its rule has something left to read, accepts, or is completed. -/
theorem Placed.cases {i : Item} (h : i.Placed g) :
    (∃ s, i.symbol? g = some s ∧ i.hasMore g = true) ∨ i.Accepts g ∨ i.Completed g := by
  cases hs : i.symbol? g with
  | none => exact Or.inr (Or.inr (h.completed hs))
  | some s =>
    by_cases haccepts : i.Accepts g
    · exact Or.inr (Or.inl haccepts)
    · exact Or.inl ⟨s, rfl, (hasMore_iff_not_accepts hs).mpr haccepts⟩

theorem placed_start (wf : g.WellFormed) {r : Nat} {rule : Rule} (h : g.rule? r = some rule) :
    (⟨r, 0⟩ : Item).Placed g := by
  refine ⟨rule, h, Nat.zero_le _, fun haccept ↦ ?_⟩
  have hlast := wf.getLast?_rhs rule (Grammar.mem_of_rule? h) haccept
  refine List.length_pos_of_ne_nil fun hnil ↦ ?_
  rw [hnil] at hlast
  simp at hlast

theorem Placed.advance {i : Item} (h : i.Placed g) (hmore : i.hasMore g = true) :
    i.advance.Placed g := by
  obtain ⟨rule, hrule, -, -⟩ := h
  rw [hasMore_iff hrule] at hmore
  refine ⟨rule, hrule, ?_, fun haccept ↦ ?_⟩
  · show i.position + 1 ≤ rule.rhs.length
    split at hmore <;> omega
  · rw [if_pos haccept] at hmore
    exact hmore

/-! ## Advancing -/

/-- The accept rules at their first places. -/
def startItems (g : Grammar) : Set Item :=
  {i | ∃ r rule, g.rule? r = some rule ∧ rule.accept = true ∧ i = ⟨r, 0⟩}

/-- The items that read `s`, one place further. -/
def advanced (g : Grammar) (I : Set Item) (s : Symbol) : Set Item :=
  {j | ∃ i ∈ I, i.symbol? g = some s ∧ ¬i.Accepts g ∧ j = i.advance}

theorem mem_advanced {i : Item} {s : Symbol} (hi : i ∈ I) (hs : i.symbol? g = some s)
    (hnot : ¬i.Accepts g) : i.advance ∈ advanced g I s :=
  ⟨i, hi, hs, hnot, rfl⟩

theorem position_pos_of_mem_advanced {j : Item} {s : Symbol} (h : j ∈ advanced g I s) :
    0 < j.position := by
  obtain ⟨i, -, -, -, rfl⟩ := h
  exact Nat.succ_pos _

/-- The item sets of a grammar's automaton. -/
inductive Reachable (g : Grammar) : Set Item → Prop
  /-- Where parsing starts. -/
  | start : Reachable g (closure g (startItems g))
  /-- Where a symbol leads. -/
  | advance {I : Set Item} {s : Symbol} :
      Reachable g I → (advanced g I s).Nonempty → Reachable g (closure g (advanced g I s))

/-- The set does not determine what to do with a rule that has been read. -/
def Ambiguous (g : Grammar) (I : Set Item) : Prop :=
  (∃ i ∈ I, ∃ j ∈ I, i ≠ j ∧ i.Completed g ∧ j.Completed g) ∨
    ∃ i ∈ I, ∃ j ∈ I, i ≠ j ∧ i.Accepts g ∧ j.symbol? g = some .eof

/-! ## Closures -/

theorem Closes.placed (wf : g.WellFormed) (hK : ∀ i ∈ K, i.Placed g) {i : Item}
    (h : Closes g K i) : i.Placed g := by
  induction h with
  | kernel hi => exact hK _ hi
  | start _ _ hrule _ _ => exact placed_start wf hrule

theorem Reachable.placed (wf : g.WellFormed) (h : Reachable g I) : ∀ i ∈ I, i.Placed g := by
  induction h with
  | start =>
    refine fun i hi ↦ Closes.placed wf ?_ hi
    rintro j ⟨r, rule, hrule, -, rfl⟩
    exact placed_start wf hrule
  | advance _ _ ih =>
    refine fun i hi ↦ Closes.placed wf ?_ hi
    rintro j ⟨l, hl, hs, hnot, rfl⟩
    exact (ih l hl).advance ((hasMore_iff_not_accepts hs).mpr hnot)

theorem Closes.mem_of_pos {i : Item} (h : Closes g K i) (hpos : 0 < i.position) : i ∈ K := by
  cases h with
  | kernel hi => exact hi
  | start => exact absurd hpos (Nat.lt_irrefl 0)

/-- Where a non-terminal is read, its rules begin. -/
theorem Reachable.closed (h : Reachable g I) {i : Item} (hi : i ∈ I) {r : Nat} {rule : Rule}
    (hrule : g.rule? r = some rule) (hread : i.symbol? g = some (.nonterminal rule.lhs)) :
    (⟨r, 0⟩ : Item) ∈ I := by
  cases h with
  | start => exact Closes.start hi hread hrule rfl
  | advance => exact Closes.start hi hread hrule rfl

theorem Reachable.nonempty (wf : g.WellFormed) (hg : ∃ rule ∈ g.rules, rule.accept = true)
    (h : Reachable g I) : I.Nonempty := by
  cases h with
  | start =>
    obtain ⟨rule, hrule, haccept⟩ := hg
    exact ⟨⟨rule.number, 0⟩, Closes.kernel ⟨_, rule, wf.rule?_number hrule, haccept, rfl⟩⟩
  | advance _ hadvanced =>
    obtain ⟨j, hj⟩ := hadvanced
    exact ⟨j, Closes.kernel hj⟩

/-- A rule that is no start of parsing begins where its non-terminal is read. -/
theorem Reachable.exists_expecting (h : Reachable g I) {r : Nat} {rule : Rule}
    (hmem : (⟨r, 0⟩ : Item) ∈ I) (hrule : g.rule? r = some rule) (haccept : rule.accept = false) :
    ∃ i ∈ I, i.symbol? g = some (.nonterminal rule.lhs) := by
  have hstarted : ∀ K, (⟨r, 0⟩ : Item) ∉ K → (⟨r, 0⟩ : Item) ∈ closure g K →
      ∃ i ∈ closure g K, i.symbol? g = some (.nonterminal rule.lhs) := by
    intro K hnot hi
    cases hi with
    | kernel hi => exact absurd hi hnot
    | @start i b r rule' hi hb hrule' hlhs =>
      obtain rfl := Option.some.inj (hrule'.symm.trans hrule)
      exact ⟨i, hi, hlhs ▸ hb⟩
  cases h with
  | start =>
    refine hstarted _ ?_ hmem
    rintro ⟨r', rule', hrule', haccept', heq⟩
    obtain rfl : r = r' := congrArg Item.rule heq
    obtain rfl := Option.some.inj (hrule'.symm.trans hrule)
    simp [haccept] at haccept'
  | advance =>
    refine hstarted _ (fun hadvanced ↦ ?_) hmem
    exact absurd (position_pos_of_mem_advanced hadvanced) (Nat.lt_irrefl 0)

/-- The items of a set that do not stand at the first place of their rules. -/
def kernel (I : Set Item) : Set Item :=
  {i ∈ I | 0 < i.position}

/-- A kernel that has been advanced can be read off its closure. -/
theorem kernel_closure (hK : ∀ i ∈ K, 0 < i.position) : kernel (closure g K) = K := by
  ext i
  constructor
  · rintro ⟨hi, hpos⟩
    exact Closes.mem_of_pos hi hpos
  · intro hi
    exact ⟨Closes.kernel hi, hK i hi⟩

theorem position_eq_zero_of_mem_start {i : Item} (h : i ∈ closure g (startItems g)) :
    i.position = 0 := by
  cases h with
  | kernel hi =>
    obtain ⟨r, rule, -, -, rfl⟩ := hi
    rfl
  | start => rfl

/-- No symbol leads back to where parsing starts. -/
theorem closure_advanced_ne_start {s : Symbol} (h : (advanced g I s).Nonempty) :
    closure g (advanced g I s) ≠ closure g (startItems g) := by
  intro heq
  obtain ⟨j, hj⟩ := h
  have hmem : j ∈ closure g (startItems g) := by
    rw [← heq]
    exact Closes.kernel hj
  have hzero := position_eq_zero_of_mem_start hmem
  exact absurd (position_pos_of_mem_advanced hj) (by omega)

end ShiftReduce.Item
