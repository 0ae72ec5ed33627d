import ShiftReduce.Proofs.Parser.Balance

/-!
# Cells without an address

An index leads to a row by its number, and a cell is looked up at the number of its row times the
width of a row, plus its column. That the place lies outside the table is noticed, and the tables
are reported as malformed. But the place is computed first, and numbers of rows are signed words. A
negative one stands for a word so great that the product does not fit a word, unless rows have just
one column, or none (`Beyond`). Then there is no answer at all.

## The exact condition

`overflow_iff_strays` says that this is the only way in which tables can take a parser down, and
that it needs a negative number in an index. It is about any tables of words and any tokens: an
action on the token looks for a cell without an address (`Strays`), which may be that of the action
itself or that of the state to enter after a reduction.

A push is a row of actions, and only its last one can overflow; so the condition is about the parser
before that action, wherever in a history it stands (`History.answer_eq_overflow_iff`).
-/

namespace ShiftReduce.Parser

variable {V : Type} {t : Tables} {combine : Nat → List V → V} {k : Nat} {v : V} {p : Parser V}

/-! ## Addresses -/

/-- A cell whose address does not fit a word: its row has a negative number. With rows of one column
the address fits nevertheless, as long as the column does not make up for the sign. -/
def Beyond (width : Nat) (row : Int) (column : Nat) : Prop :=
  row < 0 ∧ (2 ≤ width ∨ width = 1 ∧ -row ≤ column)

section Address

variable {row : Int} {width column : Nat}

private theorem wrap64_of_neg (hlow : -2 ^ 31 ≤ row) (hneg : row < 0) :
    (wrap64 row : Int) = wordBound + row := by
  rw [wrap64, wordBound]
  omega

private theorem fits_of_nonneg (hrow : 0 ≤ row) (hhigh : row < 2 ^ 31) (hwidth : width < 2 ^ 31)
    (hcolumn : column < 2 ^ 31) : wrap64 row * width + column < wordBound := by
  obtain ⟨n, rfl⟩ := Int.eq_ofNat_of_zero_le hrow
  have hn : n ≤ 2 ^ 31 - 1 := by omega
  have hmul : n * width ≤ (2 ^ 31 - 1) * (2 ^ 31 - 1) := Nat.mul_le_mul hn (by omega)
  rw [wrap64_natCast (by rw [wordBound]; omega), wordBound]
  omega

private theorem fits_iff_of_neg (hlow : -2 ^ 31 ≤ row) (hneg : row < 0)
    (hcolumn : column < 2 ^ 31) :
    wrap64 row * width + column < wordBound ↔ ¬(2 ≤ width ∨ width = 1 ∧ -row ≤ column) := by
  have hword := wrap64_of_neg hlow hneg
  rw [wordBound] at hword ⊢
  obtain rfl | rfl | hwide : width = 0 ∨ width = 1 ∨ 2 ≤ width := by omega
  · omega
  · omega
  · have hmul : wrap64 row * 2 ≤ wrap64 row * width := Nat.mul_le_mul_left _ hwide
    omega

theorem cellAddress_eq_error_iff {e : AddressOverflow} (hlow : -2 ^ 31 ≤ row)
    (hhigh : row < 2 ^ 31) (hwidth : width < 2 ^ 31) (hcolumn : column < 2 ^ 31) :
    cellAddress (wrap64 row) width column = .error e ↔ Beyond width row column := by
  have hfits : cellAddress (wrap64 row) width column = .error e ↔
      ¬wrap64 row * width + column < wordBound := by
    rw [cellAddress]
    split <;> simp_all
  rw [hfits, Beyond]
  by_cases hneg : row < 0
  · rw [fits_iff_of_neg hlow hneg hcolumn, not_not]
    exact (and_iff_right hneg).symm
  · have hfit := fits_of_nonneg (not_lt.mp hneg) hhigh hwidth hcolumn
    exact iff_of_false (not_not.mpr hfit) fun h ↦ hneg h.1

end Address

/-! ## Reading the tables -/

/-- Tables of 32-bit words, with less than 2^31 symbols of either kind. -/
structure Tables.Words (t : Tables) : Prop where
  actionIndex : ∀ entry ∈ t.actionIndex, -2 ^ 31 ≤ entry ∧ entry < 2 ^ 31
  gotoIndex : ∀ row ∈ t.gotoIndex, -2 ^ 31 ≤ row ∧ row < 2 ^ 31
  terminals : t.terminals < 2 ^ 31
  nonterminals : t.nonterminals < 2 ^ 31
  ruleLhs : ∀ lhs ∈ t.ruleLhs, lhs < 2 ^ 31

section Tables

variable {table : Array Int} {row column width : Nat} {state : Nat} {defect : Defect}

theorem Tables.cell_eq_overflow_iff : Tables.cell table width defect row column
    = .error .addressOverflow ↔ cellAddress row width column = .error {} := by
  rw [Tables.cell]
  split
  · rename_i h
    simp [h]
  · rename_i h
    split <;> simp [h]

theorem Tables.Words.action_eq_overflow_iff (ht : t.Words) (hk : k < 2 ^ 31) :
    t.action state k = .error .addressOverflow ↔
      ∃ entry, t.actionIndex[state]? = some entry ∧ entry % 2 = 0 ∧
        Beyond t.terminals (entry / 2) k := by
  rw [Tables.action]
  cases hentry : t.actionIndex[state]? with
  | none => simp
  | some entry =>
    obtain ⟨hlow, hhigh⟩ := ht.actionIndex entry (Array.mem_of_getElem? hentry)
    have haddress : cellAddress (wrap64 (entry / 2)) t.terminals k = .error {} ↔
        Beyond t.terminals (entry / 2) k :=
      cellAddress_eq_error_iff (by omega) (by omega) ht.terminals hk
    simp only [Option.some.injEq, exists_eq_left']
    split
    · simp
      omega
    · rw [Tables.cell_eq_overflow_iff, haddress]
      exact (and_iff_right (by omega)).symm

theorem Tables.Words.goto_eq_overflow_iff (ht : t.Words) {lhs : Nat} (hlhs : lhs < 2 ^ 31) :
    t.goto state lhs = .error .addressOverflow ↔
      ∃ row, t.gotoIndex[state]? = some row ∧ Beyond t.nonterminals row lhs := by
  rw [Tables.goto]
  cases hrow : t.gotoIndex[state]? with
  | none => simp
  | some row =>
    obtain ⟨hlow, hhigh⟩ := ht.gotoIndex row (Array.mem_of_getElem? hrow)
    have haddress := cellAddress_eq_error_iff (e := {}) hlow hhigh ht.nonterminals hlhs
    simp only [Option.some.injEq, exists_eq_left', Tables.cell_eq_overflow_iff, haddress]

end Tables

/-! ## Where a parser goes astray -/

/-- An action on a token looks for a cell that has no address: that of the action itself, or that of
the state to enter after a reduction. -/
inductive Strays (t : Tables) (k : Nat) (p : Parser V) : Prop
  | action {entry : Int} : t.actionIndex[p.state]? = some entry → entry % 2 = 0 →
      Beyond t.terminals (entry / 2) k → Strays t k p
  | goto {code row : Int} {n lhs : Nat} : t.action p.state k = .ok code → code % 8 = 2 →
      p.Pops t (wrap64 (code / 8)) n → t.ruleLhs[wrap64 (code / 8)]? = some lhs →
      t.gotoIndex[(p.below n).state]? = some row → Beyond t.nonterminals row lhs →
      Strays t k p

theorem Tables.Words.target_eq_overflow_iff (ht : t.Words) {r : Nat} :
    p.target t r = .error .addressOverflow ↔
      ∃ lhs row, t.ruleLhs[r]? = some lhs ∧ t.gotoIndex[p.state]? = some row ∧
        Beyond t.nonterminals row lhs := by
  rw [target]
  cases hlhs : t.ruleLhs[r]? with
  | none => simp
  | some lhs =>
    have hgoto : t.goto p.state lhs = .error .addressOverflow ↔
        ∃ row, t.gotoIndex[p.state]? = some row ∧ Beyond t.nonterminals row lhs :=
      ht.goto_eq_overflow_iff (ht.ruleLhs lhs (Array.mem_of_getElem? hlhs))
    simp only [Option.some.injEq, exists_and_left, exists_eq_left']
    rw [← hgoto]
    cases hread : t.goto p.state lhs with
    | error e => simp
    | ok code =>
      dsimp only
      split <;> simp

theorem Does.strays_of_overflow {s : Step V} (h : Does t combine k v p s) (ht : t.Words)
    (hk : k < 2 ^ 31) (houtcome : s.outcome = .failed .addressOverflow) : Strays t k p := by
  cases h with
  | shift | reduce | accept | short | refuse | misplaced => simp at houtcome
  | unread hread =>
    obtain rfl := Outcome.failed.inj houtcome
    obtain ⟨entry, hentry, heven, hbeyond⟩ := (ht.action_eq_overflow_iff hk).mp hread
    exact Strays.action hentry heven hbeyond
  | strand hread htag hpops htarget =>
    obtain rfl := Outcome.failed.inj houtcome
    obtain ⟨lhs, row, hlhs, hrow, hbeyond⟩ := ht.target_eq_overflow_iff.mp htarget
    exact Strays.goto hread htag hpops hlhs hrow hbeyond

theorem Strays.outcome_step (h : Strays t k p) (ht : t.Words) (hk : k < 2 ^ 31) :
    (p.step t combine k v).outcome = .failed .addressOverflow := by
  cases h with
  | action hentry heven hbeyond =>
    have hover := (ht.action_eq_overflow_iff hk).mpr ⟨_, hentry, heven, hbeyond⟩
    simp only [step, hover]
  | goto hread htag hpops hlhs hrow hbeyond =>
    have hover := ht.target_eq_overflow_iff.mpr ⟨_, _, hlhs, hrow, hbeyond⟩
    simp [step, hread, htag, reduceBy, hpops.pop_eq, hover]

theorem Course.answer_eq_overflow_iff {steps : List (Parser V × Step V)} {x : Pushed V}
    (h : Course t k v p steps x) : x.answer = .error .addressOverflow ↔
      ∃ y ∈ steps, y.2.outcome = .failed .addressOverflow := by
  induction h with
  | @last p combine x hgives _ _ =>
    simp only [List.mem_singleton, exists_eq_left]
    generalize (p.step t combine k v).outcome = outcome at hgives
    generalize x.answer = answer at hgives
    cases hgives <;> simp
  | next houtcome _ ih =>
    simp only [List.mem_cons, exists_eq_or_imp, houtcome, reduceCtorEq, false_or]
    exact ih

theorem History.answer_eq_overflow_iff {turns : List (Turn V)} {o : Option (Parser V)}
    (h : History t turns o) :
    ∀ turn ∈ turns, turn.answer = .error .addressOverflow ↔
      ∃ y ∈ turn.steps, y.2.outcome = .failed .addressOverflow := by
  induction h with
  | start => simp
  | closed _ _ ih =>
    refine List.forall_mem_append.mpr ⟨ih, ?_⟩
    rw [List.forall_mem_singleton]
    simp
  | push _ _ hcourse ih =>
    refine List.forall_mem_append.mpr ⟨ih, ?_⟩
    rw [List.forall_mem_singleton]
    exact hcourse.answer_eq_overflow_iff

/-- Without negative numbers in the indices every cell has an address. -/
theorem not_strays (hactions : ∀ entry ∈ t.actionIndex, entry % 2 = 0 → 0 ≤ entry)
    (hgotos : ∀ row ∈ t.gotoIndex, 0 ≤ row) : ¬Strays t k p := by
  rintro (⟨hentry, heven, hneg, -⟩ | ⟨-, -, -, -, hrow, hneg, -⟩)
  · have hnonneg := hactions _ (Array.mem_of_getElem? hentry) heven
    omega
  · have hnonneg := hgotos _ (Array.mem_of_getElem? hrow)
    omega

/-- **When tables take a parser down.** With any tables of words and any tokens, a push ends without
an answer if and only if an action on the token looks for a cell that has no address. With indices
that hold no negative numbers of rows, every push is answered: the token is taken, or refused, or
the tables are reported as malformed. -/
theorem overflow_iff_strays (ht : t.Words) {turns : List (Turn V)} {o : Option (Parser V)}
    (h : History t turns o) (hk : ∀ turn ∈ turns, turn.terminal < 2 ^ 31) :
    (∀ turn ∈ turns, turn.answer = .error .addressOverflow ↔
      ∃ y ∈ turn.steps, Strays t turn.terminal y.1) ∧
    ((∀ entry ∈ t.actionIndex, entry % 2 = 0 → 0 ≤ entry) → (∀ row ∈ t.gotoIndex, 0 ≤ row) →
      ∀ turn ∈ turns, turn.answer ≠ .error .addressOverflow) := by
  have hiff : ∀ turn ∈ turns, turn.answer = .error .addressOverflow ↔
      ∃ y ∈ turn.steps, Strays t turn.terminal y.1 := by
    intro turn hturn
    rw [h.answer_eq_overflow_iff turn hturn]
    refine exists_congr fun y ↦ and_congr_right fun hy ↦ ?_
    obtain ⟨-, hsteps⟩ := h.forall_steps (P := fun _ ↦ True) trivial (fun _ _ _ _ _ ↦ trivial)
    obtain ⟨-, combine, hstep⟩ := hsteps turn hturn y hy
    rw [hstep]
    exact ⟨(does_step t combine _ _ _).strays_of_overflow ht (hk turn hturn),
      fun hstrays ↦ hstrays.outcome_step ht (hk turn hturn)⟩
  refine ⟨hiff, fun hactions hgotos turn hturn hover ↦ ?_⟩
  obtain ⟨y, -, hstrays⟩ := (hiff turn hturn).mp hover
  exact not_strays hactions hgotos hstrays

/-- Tables whose second state has a row with a negative number. -/
def negativeRow : Tables where
  actionTable := #[9, -8]
  actionIndex := #[0, -2]
  gotoTable := #[]
  gotoIndex := #[]
  terminals := 2
  nonterminals := 0
  ruleLhs := #[]
  ruleLength := #[]

theorem words_negativeRow : negativeRow.Words := by
  constructor <;> simp [negativeRow]

theorem overflow_iff_strays_negativeRow :
    ∃ turns : List (Turn Unit), negativeRow.Words ∧
      History negativeRow turns none ∧ (∀ turn ∈ turns, turn.terminal < 2 ^ 31) ∧
      turns.map (fun turn ↦ (turn.call.terminal, turn.call.answer)) =
        [(1, .error (.syntaxError 0 1)), (0, .ok .shifted), (0, .error .addressOverflow)] ∧
      ∃ turn ∈ turns, ∃ y ∈ turn.steps, Strays negativeRow turn.terminal y.1 := by
  have hanswers : (pushAll? negativeRow (fun _ _ ↦ ()) 0 [(1, ()), (0, ()), (0, ())] {}).map
      (fun run ↦ (run.1.map fun c ↦ (c.terminal, c.answer), run.2.isNone))
      = some ([(1, .error (.syntaxError 0 1)), (0, .ok .shifted), (0, .error .addressOverflow)],
        true) := by
    decide +kernel
  obtain ⟨⟨calls, o⟩, hrun, hends⟩ := Option.map_eq_some_iff.mp hanswers
  obtain ⟨hcalls, hnone⟩ := Prod.mk.inj hends
  obtain rfl := Option.isNone_iff_eq_none.mp hnone
  obtain ⟨turns, hturns, rfl⟩ :=
    (session_of_pushAll? Session.start (by decide) hrun).exists_history
  rw [List.map_map] at hcalls
  have hk : ∀ turn ∈ turns, turn.terminal < 2 ^ 31 := by
    intro turn hturn
    have hmem := List.mem_map_of_mem hturn (f := (fun c ↦ (c.terminal, c.answer)) ∘ Turn.call)
    rw [hcalls] at hmem
    have hle : turn.terminal ≤ 1 := by
      simp [Turn.call] at hmem
      omega
    omega
  have hlast : (0, .error .addressOverflow) ∈
      turns.map ((fun c ↦ (c.terminal, c.answer)) ∘ Turn.call) := by
    rw [hcalls]
    simp
  obtain ⟨turn, hturn, heq⟩ := List.mem_map.mp hlast
  have hanswer : turn.answer = .error .addressOverflow := congrArg Prod.snd heq
  obtain ⟨hiff, -⟩ := overflow_iff_strays words_negativeRow hturns hk
  exact ⟨turns, words_negativeRow, hturns, hk, hcalls, turn, hturn, (hiff turn hturn).mp hanswer⟩

/-- Malformed tables need not be reported. -/
theorem exists_session_overflowing :
    negativeRow.Words ∧ ∃ calls : List (Call Unit),
      Session negativeRow (fun _ _ ↦ ()) calls none ∧
      calls.map (·.answer) = [.ok .shifted, .error .addressOverflow] := by
  have hanswers : (pushAll? negativeRow (fun _ _ ↦ ()) 0 [(0, ()), (0, ())] {}).map
      (fun run ↦ (run.1.map (·.answer), run.2.isNone))
      = some ([.ok .shifted, .error .addressOverflow], true) := by
    decide +kernel
  obtain ⟨⟨calls, o⟩, hrun, hends⟩ := Option.map_eq_some_iff.mp hanswers
  obtain ⟨hcalls, hnone⟩ := Prod.mk.inj hends
  obtain rfl := Option.isNone_iff_eq_none.mp hnone
  have hsession := session_of_pushAll? Session.start (by decide) hrun
  exact ⟨words_negativeRow, calls, hsession, hcalls⟩

end ShiftReduce.Parser
