import ShiftReduce.Proofs.Operators.States
import ShiftReduce.Proofs.Parser.Runs

/-!
# A parser of an operator grammar climbs

Over the tables of an operator grammar the stack of a parser is a stack of waiting operators, each
over its left operand, and above them what was read last (`Stands`).

## One action

What was read last decides the kind of the top state, and with it the action: numbers are reduced
whatever comes next, an operator that comes next is compared with the topmost one that waits, and
the end of input completes all. There is a lemma for each kind of state and token; the comparison is
the one that was settled when the tables were made (`Shape.exists_settled`).

## Runs

So one push of an operator is one `advance` (`Stands.advances`), the push of the end of input is
`complete` (`Stands.completes`), and a run over a chain is `climb`: `Stands.run` where it comes to
an expression, `Stands.run_refused` where it does not. The second needs that tokens before the
refused one are shifted, so it follows the climb up to where that fails.
-/

namespace ShiftReduce.Operators

open ShiftReduce.Automaton (Canonical)
open ShiftReduce.Conflict (Edge resolveState)
open ShiftReduce.Parser

variable {V : Type} {g : Grammar} {a : Automaton} {conflicts : List Conflict} {t : Parser.Tables}
  {combine : Nat → List V → V} {O : Type} (sh : Shape g O)

/-! ## Values and stacks -/

/-- The value of an expression, where `number` is the rule of numbers and `rule` that of an
operator. -/
def Expression.value (combine : Nat → List V → V) (number : Nat) (rule : O → Nat) :
    Expression O V → V
  | .number v => combine number [v]
  | .apply left o u right =>
    combine (rule o) [left.value combine number rule, u, right.value combine number rule]

/-- A token with its terminal, where `number` is that of numbers and `code` that of an operator. -/
def Token.coded (number : Nat) (code : O → Nat) : Token O V → Nat × V
  | .number v => (number, v)
  | .operator o u => (code o, u)

namespace Shape

/-- The value of an expression by the rules of the grammar. -/
def value (combine : Nat → List V → V) (e : Expression O V) : V :=
  e.value combine sh.numberRule sh.ruleOf

def operand (combine : Nat → List V → V) (e : Expression O V) : Symbol × V :=
  (.nonterminal sh.expression, sh.value combine e)

/-- Waiting operators over their left operands, the last one first. -/
def waiting (combine : Nat → List V → V) (stack : List (Waiting O V)) : List (Symbol × V) :=
  stack.flatMap fun w ↦ [(.terminal (sh.code w.operator), w.value), sh.operand combine w.left]

/-- A token of a chain as the parser takes it. -/
def token : Token O V → Nat × V :=
  Token.coded sh.number sh.code

end Shape

/-- A parser that has not accepted, with these symbols and their values on its stack. -/
structure Stands (g : Grammar) (a : Automaton) (p : Parser V) (entries : List (Symbol × V)) :
    Prop where
  not_accepted : p.accepted = false
  stacked : Stacked g a p.states (entries.map Prod.fst)
  values_eq : p.values = entries.map Prod.snd

theorem stands_start : Stands g a ({} : Parser V) [] :=
  ⟨rfl, Stacked.start, rfl⟩

/-! ## The kind of the top state -/

namespace Shape

variable {sh} {symbols : List Symbol} {k k' : Kind O} {o : O}

theorem Leads.eq_number (h : sh.Leads k (.terminal sh.number) k') : k' = .number := by
  generalize hX : Symbol.terminal sh.number = X at h
  cases h with
  | start_number | operator_number => rfl
  | start_expression | operator_expression => simp at hX
  | whole_operator o => exact absurd (Symbol.terminal.inj hX).symm (sh.code_ne o).2
  | operand_operator _ o => exact absurd (Symbol.terminal.inj hX).symm (sh.code_ne o).2

theorem Leads.eq_operator (h : sh.Leads k (.terminal (sh.code o)) k') : k' = .operator o := by
  generalize hX : Symbol.terminal (sh.code o) = X at h
  cases h with
  | start_number | operator_number => exact absurd (Symbol.terminal.inj hX) (sh.code_ne o).2
  | start_expression | operator_expression => simp at hX
  | whole_operator | operand_operator => rw [sh.code_injective (Symbol.terminal.inj hX)]

theorem Reads.eq_number (h : sh.Reads (.terminal sh.number :: symbols) k) : k = .number := by
  cases h with
  | push _ hleads => exact hleads.eq_number

/-- The kind of state on top of waiting operators. -/
def expecting : List (Waiting O V) → Kind O
  | [] => .start
  | w :: _ => .operator w.operator

/-- The kind of state on top of an expression over waiting operators. -/
def holding : List (Waiting O V) → Kind O
  | [] => .whole
  | w :: _ => .operand w.operator

theorem Reads.eq_expecting {stack : List (Waiting O V)}
    (h : sh.Reads ((sh.waiting combine stack).map Prod.fst) k) : k = expecting stack := by
  cases stack with
  | nil =>
    cases h
    rfl
  | cons w stack =>
    cases h with
    | push _ hleads => exact hleads.eq_operator

theorem Reads.eq_holding {stack : List (Waiting O V)} {e : Expression O V}
    (h : sh.Reads ((sh.operand combine e :: sh.waiting combine stack).map Prod.fst) k) :
    k = holding stack := by
  generalize hsymbols : (sh.operand combine e :: sh.waiting combine stack).map Prod.fst
    = symbols at h
  cases h with
  | start => simp at hsymbols
  | @push symbols k _ X hbelow hleads =>
    obtain ⟨hX, rfl⟩ := List.cons.inj hsymbols
    have hk := hbelow.eq_expecting
    cases hleads with
    | start_expression =>
      cases stack with
      | nil => rfl
      | cons w stack => simp [expecting] at hk
    | operator_expression =>
      cases stack with
      | nil => simp [expecting] at hk
      | cons w stack => rw [Kind.operator.inj hk]; rfl
    | start_number | whole_operator | operator_number | operand_operator =>
      simp [operand] at hX

end Shape

/-! ## Actions of the kinds of states -/

section Cells

variable (wf : g.WellFormed) (ha : Canonical g a) {s : State} (hs : s ∈ a.states)
  {x : Conflict.SettledState} (hx : resolveState g s = .ok x)

include wf ha hs hx

theorem Shape.action_number (hitems : itemsOf s.itemSet = sh.items .number) {k : Nat}
    (hk : k < g.terminals.length) : x.rows.actions[k]? = some (.reduce sh.numberRule) := by
  have hmem : ∀ i, i ∈ s.itemSet ↔ i = ⟨sh.numberRule, 1⟩ := fun i ↦ Set.ext_iff.mp hitems i
  have hcompleted : Item.Completed g ⟨sh.numberRule, 1⟩ := sh.completed_iff.mpr (Or.inl rfl)
  have hunread : ∀ i ∈ s.itemSet, i.symbol? g ≠ some (.terminal k) := by
    intro i hi
    rw [(hmem i).mp hi, hcompleted.symbol?_eq]
    simp
  exact (Conflict.action_of_unread wf ha hs hx hk hunread).2 _ ((hmem _).mpr rfl) hcompleted

/-- Where one item alone reads a terminal and nothing is completed, the terminal is shifted. -/
theorem Shape.exists_shift {kind : Kind O} (hitems : itemsOf s.itemSet = sh.items kind) {k : Nat}
    {i : Item} (hi : i ∈ sh.items kind)
    (hiff : ∀ j : Item, j.symbol? g = some (.terminal k) ↔ j = i)
    (hne : i ≠ ⟨sh.startRule, 1⟩) (hnumber : kind ≠ .number) (hoperand : ∀ o, kind ≠ .operand o) :
    ∃ q, x.rows.actions[k]? = some (.shift q) := by
  have hnot : ¬i.Accepts g := fun haccepts ↦ hne (sh.accepts_iff.mp haccepts)
  have hmem : i ∈ itemsOf s.itemSet := hitems ▸ hi
  obtain ⟨q, -, -, hshift, -⟩ := Conflict.action_of_alone wf ha hs hx hmem ((hiff i).mpr rfl) hnot
    fun j _ hj ↦ (hiff j).mp hj
  refine ⟨q, hshift fun c hc hcompleted ↦ ?_⟩
  have hkind : c ∈ sh.items kind := hitems ▸ hc
  rcases (sh.completed_mem_iff hkind).mp hcompleted with ⟨rfl, -⟩ | ⟨o, rfl, -⟩
  · exact hnumber rfl
  · exact hoperand o rfl

theorem Shape.exists_shift_number {stack : List (Waiting O V)}
    (hitems : itemsOf s.itemSet = sh.items (expecting stack)) :
    ∃ q, x.rows.actions[sh.number]? = some (.shift q) := by
  refine sh.exists_shift wf ha hs hx hitems (i := ⟨sh.numberRule, 0⟩) ?_
    (fun _ ↦ sh.reads_number_iff) ?_ ?_ ?_
  · cases stack with
    | nil => exact Or.inr (Or.inl rfl)
    | cons w stack => exact Or.inr (Or.inl rfl)
  · simp
  · cases stack <;> simp [expecting]
  · cases stack <;> simp [expecting]

theorem Shape.exists_shift_operator (hitems : itemsOf s.itemSet = sh.items .whole) (o : O) :
    ∃ q, x.rows.actions[sh.code o]? = some (.shift q) :=
  sh.exists_shift wf ha hs hx hitems (Or.inr ⟨o, rfl⟩) (fun _ ↦ sh.reads_code_iff)
    (fun heq ↦ sh.startRule_ne_ruleOf o (Item.mk.inj heq).1.symm) nofun nofun

/-- After an operand an operator is compared with the one before the operand. -/
theorem Shape.exists_settled {o : O} (hitems : itemsOf s.itemSet = sh.items (.operand o)) (o' : O) :
    ∃ q, x.rows.actions[sh.code o']? = some (match sh.levels.settle o o' with
      | .reduce => .reduce (sh.ruleOf o)
      | .error => .error
      | .shift | .shiftByDefault => .shift q) := by
  have hmem : ∀ i, i ∈ s.itemSet ↔ i ∈ sh.items (.operand o) := Set.ext_iff.mp hitems
  obtain ⟨q, -, -, -, hsettled⟩ := Conflict.action_of_alone wf ha hs hx
    ((hmem _).mpr (Or.inr ⟨o', rfl⟩)) (sh.reads_code_iff.mpr rfl) (sh.not_accepts_ruleOf o' 1)
    fun j _ hj ↦ sh.reads_code_iff.mp hj
  refine ⟨q, ?_⟩
  rw [hsettled _ ((hmem _).mpr (Or.inl rfl)) (sh.completed_iff.mpr (Or.inr ⟨o, rfl⟩)),
    Conflict.override?, sh.settle_eq]
  cases sh.levels.settle o o' <;> rfl

theorem Shape.action_eof_whole (hitems : itemsOf s.itemSet = sh.items .whole) :
    x.rows.actions[0]? = some (.accept sh.startRule) := by
  have hmem : ⟨sh.startRule, 1⟩ ∈ itemsOf s.itemSet := hitems ▸ Or.inl rfl
  exact Conflict.action_of_accepts wf ha hs hx hmem (sh.accepts_iff.mpr rfl)

theorem Shape.action_eof_operand {o : O} (hitems : itemsOf s.itemSet = sh.items (.operand o)) :
    x.rows.actions[0]? = some (.reduce (sh.ruleOf o)) := by
  have hmem : ∀ i, i ∈ s.itemSet ↔ i ∈ sh.items (.operand o) := Set.ext_iff.mp hitems
  have hlt : 0 < g.terminals.length :=
    Item.terminal_lt wf (sh.reads_eof_iff.mpr rfl)
  have hunread : ∀ i ∈ s.itemSet, i.symbol? g ≠ some (.terminal 0) := by
    intro i hi hread
    obtain rfl := sh.reads_eof_iff.mp hread
    rcases (hmem _).mp hi with heq | ⟨o', heq⟩
    · exact sh.startRule_ne_ruleOf o (Item.mk.inj heq).1
    · exact sh.startRule_ne_ruleOf o' (Item.mk.inj heq).1
  exact (Conflict.action_of_unread wf ha hs hx hlt hunread).2 _ ((hmem _).mpr (Or.inl rfl))
    (sh.completed_iff.mpr (Or.inr ⟨o, rfl⟩))

end Cells

/-! ## Steps -/

section Steps

variable {p : Parser V} {k : Nat} {v : V} {entries : List (Symbol × V)}

/-- The row from which the next step is taken, and the kind of its state. -/
theorem Stands.acts (combine : Nat → List V → V) (v : V) (wf : g.WellFormed)
    (ht : t.Serves g a conflicts) (h : Stands g a p entries) (hk : k < g.terminals.length) :
    ∃ kind s x action, sh.Reads (entries.map Prod.fst) kind ∧ s ∈ a.states ∧
      itemsOf s.itemSet = sh.items kind ∧ resolveState g s = .ok x ∧
      x.rows.actions[k]? = some action ∧
      Acts g a t combine k v p (entries.map Prod.fst) action (p.step t combine k v) := by
  have hlength : p.values.length = (entries.map Prod.fst).length := by
    rw [h.values_eq, List.length_map, List.length_map]
  obtain ⟨s, x, action, htop, hx, -, hcell, hacts⟩ := ht.acts wf h.stacked hlength hk
  obtain ⟨kind, hreads, hitems⟩ := sh.exists_reads ht.canonical h.stacked htop
  exact ⟨kind, s, x, action, hreads, htop.mem, hitems, hx, hcell, hacts⟩

theorem Stands.shift (haddress : t.Addressable) (h : Stands g a p entries) {n : Nat}
    (hacts : Acts g a t combine k v p (entries.map Prod.fst) (.shift n) (p.step t combine k v)) :
    ∃ q, Pushes t combine p k v (.ok .shifted) q ∧
      Stands g a q ((.terminal k, v) :: entries) := by
  obtain ⟨hstacked, events, hstep⟩ := hacts.of_shift haddress h.stacked
  refine ⟨p.enter n v, Pushes.last h.not_accepted hstep Outcome.Gives.taken,
    h.not_accepted, hstacked, ?_⟩
  rw [enter, h.values_eq, List.map_cons]

/-- A rule that is reduced takes its entries off and comes on top with the value made of theirs. -/
theorem Stands.reduce (haddress : t.Addressable) {top : List (Symbol × V)}
    (h : Stands g a p (top ++ entries)) {r : Nat} {rule : Rule} (hrule : g.rule? r = some rule)
    (hlength : rule.rhs.length = top.length)
    (hacts : Acts g a t combine k v p ((top ++ entries).map Prod.fst) (.reduce r)
      (p.step t combine k v)) :
    ∃ q events, p.step t combine k v = { parser := q, outcome := .pending, events } ∧
      Stands g a q ((.nonterminal rule.lhs, combine r (top.map Prod.snd).reverse) :: entries) := by
  obtain ⟨m, hstacked, events, hstep⟩ := hacts.of_reduce haddress h.stacked hrule
  refine ⟨_, events, hstep, h.not_accepted, ?_, ?_⟩
  · rw [hlength, List.map_append, List.drop_left' (by rw [List.length_map])] at hstacked
    rw [hlength]
    exact hstacked
  · rw [enter, below, topmost, hlength, h.values_eq, List.map_append,
      List.drop_left' (by rw [List.length_map]), List.take_left' (by rw [List.length_map]),
      List.map_cons]

variable (wf : g.WellFormed) (ht : t.Serves g a conflicts) (haddress : t.Addressable)
  {stack : List (Waiting O V)} {e : Expression O V}

include wf ht haddress

theorem Stands.push_number (h : Stands g a p (sh.waiting combine stack)) :
    ∃ q, Pushes t combine p sh.number v (.ok .shifted) q ∧
      Stands g a q ((.terminal sh.number, v) :: sh.waiting combine stack) := by
  have hk : sh.number < g.terminals.length := Item.terminal_lt wf (sh.reads_number_iff.mpr rfl)
  obtain ⟨kind, s, x, action, hreads, hs, hitems, hx, hcell, hacts⟩ :=
    h.acts sh combine v wf ht hk
  rw [hreads.eq_expecting] at hitems
  obtain ⟨n, hshift⟩ := sh.exists_shift_number wf ht.canonical hs hx hitems
  obtain rfl := Option.some.inj (hcell.symm.trans hshift)
  exact h.shift haddress hacts

theorem Stands.reduce_number {u : V}
    (h : Stands g a p ((.terminal sh.number, u) :: sh.waiting combine stack))
    (hk : k < g.terminals.length) : ∃ q events,
      p.step t combine k v = { parser := q, outcome := .pending, events } ∧
      Stands g a q (sh.operand combine (.number u) :: sh.waiting combine stack) := by
  obtain ⟨kind, s, x, action, hreads, hs, hitems, hx, hcell, hacts⟩ :=
    h.acts sh combine v wf ht hk
  obtain rfl := hreads.eq_number
  rw [sh.action_number wf ht.canonical hs hx hitems hk] at hcell
  obtain rfl := Option.some.inj hcell
  obtain ⟨rule, hrule, hlhs, hrhs, -⟩ := sh.rule?_number
  have htop : Stands g a p ([(.terminal sh.number, u)] ++ sh.waiting combine stack) := h
  obtain ⟨q, events, hstep, hq⟩ := htop.reduce haddress hrule (by rw [hrhs]; rfl) hacts
  rw [hlhs] at hq
  exact ⟨q, events, hstep, hq⟩

omit wf ht in
/-- The topmost waiting operator is reduced with the expression above it. -/
theorem Stands.reduce_operator {w : Waiting O V}
    (h : Stands g a p (sh.operand combine e :: sh.waiting combine (w :: stack)))
    (hacts : Acts g a t combine k v p
      ((sh.operand combine e :: sh.waiting combine (w :: stack)).map Prod.fst)
      (.reduce (sh.ruleOf w.operator)) (p.step t combine k v)) : ∃ q events,
      p.step t combine k v = { parser := q, outcome := .pending, events } ∧ Stands g a q
        (sh.operand combine (.apply w.left w.operator w.value e) :: sh.waiting combine stack) := by
  obtain ⟨rule, hrule, hlhs, hrhs, -⟩ := sh.rule?_of w.operator
  have htop : Stands g a p ([sh.operand combine e, (.terminal (sh.code w.operator), w.value),
    sh.operand combine w.left] ++ sh.waiting combine stack) := h
  obtain ⟨q, events, hstep, hq⟩ := htop.reduce haddress hrule (by rw [hrhs]; rfl) hacts
  rw [hlhs] at hq
  exact ⟨q, events, hstep, hq⟩

omit haddress in
/-- What the push of an operator comes to depends on how it compares with the topmost waiting one.
-/
theorem Stands.acts_operator {w : Waiting O V} (o : O)
    (h : Stands g a p (sh.operand combine e :: sh.waiting combine (w :: stack))) :
    ∃ n, Acts g a t combine (sh.code o) v p
      ((sh.operand combine e :: sh.waiting combine (w :: stack)).map Prod.fst)
      (match sh.levels.settle w.operator o with
        | .reduce => .reduce (sh.ruleOf w.operator)
        | .error => .error
        | .shift | .shiftByDefault => .shift n) (p.step t combine (sh.code o) v) := by
  have hk : sh.code o < g.terminals.length := Item.terminal_lt wf (sh.reads_code_iff.mpr rfl)
  obtain ⟨kind, s, x, action, hreads, hs, hitems, hx, hcell, hacts⟩ :=
    h.acts sh combine v wf ht hk
  rw [hreads.eq_holding] at hitems
  obtain ⟨n, hsettled⟩ := sh.exists_settled wf ht.canonical hs hx hitems o
  obtain rfl := Option.some.inj (hcell.symm.trans hsettled)
  exact ⟨n, hacts⟩

/-- The push of an operator advances the stack. -/
theorem Stands.advances {o : O} {stack' : List (Waiting O V)}
    (h : Stands g a p (sh.operand combine e :: sh.waiting combine stack))
    (hadvance : advance sh.levels o v stack e = some stack') :
    ∃ q, Pushes t combine p (sh.code o) v (.ok .shifted) q ∧
      Stands g a q (sh.waiting combine stack') := by
  induction stack generalizing p e with
  | nil =>
    obtain rfl := Option.some.inj hadvance
    have hk : sh.code o < g.terminals.length := Item.terminal_lt wf (sh.reads_code_iff.mpr rfl)
    obtain ⟨kind, s, x, action, hreads, hs, hitems, hx, hcell, hacts⟩ :=
      h.acts sh combine v wf ht hk
    rw [hreads.eq_holding] at hitems
    obtain ⟨n, hshift⟩ := sh.exists_shift_operator wf ht.canonical hs hx hitems o
    obtain rfl := Option.some.inj (hcell.symm.trans hshift)
    exact h.shift haddress hacts
  | cons w stack ih =>
    obtain ⟨n, hacts⟩ := h.acts_operator sh (v := v) wf ht o
    rw [advance] at hadvance
    split at hadvance
    · rename_i hreduce
      rw [hreduce] at hacts
      obtain ⟨q, events, hstep, hq⟩ := h.reduce_operator sh haddress hacts
      obtain ⟨r, hpush, hr⟩ := ih hq hadvance
      exact ⟨r, hpush.reduce h.not_accepted hstep hq.not_accepted, hr⟩
    · rename_i hshift
      obtain rfl := Option.some.inj hadvance
      rw [hshift] at hacts
      exact h.shift haddress hacts
    · simp at hadvance
    · simp at hadvance

/-- Where the stack cannot be advanced, the operator is refused. -/
theorem Stands.refuses {o : O}
    (h : Stands g a p (sh.operand combine e :: sh.waiting combine stack))
    (hadvance : advance sh.levels o v stack e = none) :
    ∃ state q, Pushes t combine p (sh.code o) v (.error (.syntaxError state (sh.code o))) q := by
  induction stack generalizing p e with
  | nil => simp [advance] at hadvance
  | cons w stack ih =>
    obtain ⟨n, hacts⟩ := h.acts_operator sh (v := v) wf ht o
    rw [advance] at hadvance
    split at hadvance
    · rename_i hreduce
      rw [hreduce] at hacts
      obtain ⟨q, events, hstep, hq⟩ := h.reduce_operator sh haddress hacts
      obtain ⟨state, r, hpush⟩ := ih hq hadvance
      exact ⟨state, r, hpush.reduce h.not_accepted hstep hq.not_accepted⟩
    · simp at hadvance
    · rename_i herror
      rw [herror] at hacts
      obtain ⟨events, hstep⟩ := hacts.of_error haddress
      exact ⟨_, _, Pushes.last h.not_accepted hstep Outcome.Gives.failed⟩
    · rename_i hdefault
      exact absurd hdefault Levels.settle_ne_shiftByDefault

/-- The push of the end of input completes the stack and is accepted. -/
theorem Stands.completes (h : Stands g a p (sh.operand combine e :: sh.waiting combine stack)) :
    ∃ q, q.accepted = true ∧ Pushes t combine p 0 v
      (.ok (.accepted (combine sh.startRule [sh.value combine (complete stack e)]))) q := by
  have hk : 0 < g.terminals.length := Item.terminal_lt wf (sh.reads_eof_iff.mpr rfl)
  induction stack generalizing p e with
  | nil =>
    obtain ⟨kind, s, x, action, hreads, hs, hitems, hx, hcell, hacts⟩ :=
      h.acts sh combine v wf ht hk
    rw [hreads.eq_holding] at hitems
    rw [sh.action_eof_whole wf ht.canonical hs hx hitems] at hcell
    obtain rfl := Option.some.inj hcell
    obtain ⟨rule, hrule, -, hrhs, -⟩ := sh.rule?_start
    obtain ⟨q, events, hdone, hstep⟩ := hacts.of_accept haddress hrule
    have htopmost : p.topmost (rule.rhs.length - 1) = [sh.value combine e] := by
      rw [topmost, h.values_eq, hrhs]
      rfl
    rw [htopmost] at hstep
    exact ⟨q, hdone, Pushes.last h.not_accepted hstep Outcome.Gives.taken⟩
  | cons w stack ih =>
    obtain ⟨kind, s, x, action, hreads, hs, hitems, hx, hcell, hacts⟩ :=
      h.acts sh combine v wf ht hk
    rw [hreads.eq_holding] at hitems
    rw [sh.action_eof_operand wf ht.canonical hs hx hitems] at hcell
    obtain rfl := Option.some.inj hcell
    obtain ⟨q, events, hstep, hq⟩ := h.reduce_operator sh haddress hacts
    obtain ⟨r, hdone, hpush⟩ := ih hq
    exact ⟨r, hdone, hpush.reduce h.not_accepted hstep hq.not_accepted⟩

end Steps

/-! ## Runs -/

section Runs

variable {p : Parser V} {v eof : V} {rest : List (O × V × V)} {stack : List (Waiting O V)}
  {e : Expression O V} (wf : g.WellFormed) (ht : t.Serves g a conflicts)
  (haddress : t.Addressable)

include wf ht haddress

/-- An operator after a number: the number is made an expression and the stack advances. -/
theorem Stands.push_operator {o : O} {u : V} {stack' : List (Waiting O V)}
    (h : Stands g a p ((.terminal sh.number, v) :: sh.waiting combine stack))
    (hadvance : advance sh.levels o u stack (.number v) = some stack') :
    ∃ q, Pushes t combine p (sh.code o) u (.ok .shifted) q ∧
      Stands g a q (sh.waiting combine stack') := by
  have hk : sh.code o < g.terminals.length := Item.terminal_lt wf (sh.reads_code_iff.mpr rfl)
  obtain ⟨q, events, hstep, hq⟩ := h.reduce_number sh (v := u) wf ht haddress hk
  obtain ⟨r, hpush, hr⟩ := hq.advances sh wf ht haddress hadvance
  exact ⟨r, hpush.reduce h.not_accepted hstep hq.not_accepted, hr⟩

/-- **A run is a climb.** Where climbing comes to an expression, all tokens are shifted and the end
of input is accepted with the value of the expression. -/
theorem Stands.run (h : Stands g a p ((.terminal sh.number, v) :: sh.waiting combine stack))
    (hclimb : climb sh.levels stack v rest = some e) :
    ∃ q, q.accepted = true ∧ Runs t combine p ((links rest).map sh.token ++ [(0, eof)])
      (((links rest).map sh.token).map Call.shift ++
        [Call.accept eof (combine sh.startRule [sh.value combine e])]) q := by
  induction rest generalizing p v stack with
  | nil =>
    obtain rfl := Option.some.inj hclimb
    have hk : 0 < g.terminals.length := Item.terminal_lt wf (sh.reads_eof_iff.mpr rfl)
    obtain ⟨q, events, hstep, hq⟩ := h.reduce_number sh (v := eof) wf ht haddress hk
    obtain ⟨r, hdone, hpush⟩ := hq.completes sh (v := eof) wf ht haddress
    exact ⟨r, hdone, (hpush.reduce h.not_accepted hstep hq.not_accepted).runs (by simp) runs_nil⟩
  | cons x rest ih =>
    obtain ⟨o, u, w⟩ := x
    obtain ⟨stack', hadvance, hclimb⟩ := Option.bind_eq_some_iff.mp hclimb
    obtain ⟨q, hoperator, hq⟩ := h.push_operator sh wf ht haddress hadvance
    obtain ⟨r, hnumber, hr⟩ := hq.push_number sh (v := w) wf ht haddress
    obtain ⟨q', hdone, hruns⟩ := ih hr hclimb
    exact ⟨q', hdone, hoperator.runs (by simp) (hnumber.runs (by simp) hruns)⟩

/-- Where climbing comes to nothing, an operator is refused, and no token before it is. -/
theorem Stands.run_refused
    (h : Stands g a p ((.terminal sh.number, v) :: sh.waiting combine stack))
    (hclimb : climb sh.levels stack v rest = none) :
    ∃ before token after state q, (links rest).map sh.token = before ++ token :: after ∧
      Runs t combine p (before ++ [token])
        (before.map Call.shift ++ [Call.refuse state token]) q := by
  induction rest generalizing p v stack with
  | nil => simp [climb] at hclimb
  | cons x rest ih =>
    obtain ⟨o, u, w⟩ := x
    rw [climb] at hclimb
    cases hadvance : advance sh.levels o u stack (.number v) with
    | none =>
      have hk : sh.code o < g.terminals.length := Item.terminal_lt wf (sh.reads_code_iff.mpr rfl)
      obtain ⟨q, events, hstep, hq⟩ := h.reduce_number sh (v := u) wf ht haddress hk
      obtain ⟨state, r, hpush⟩ := hq.refuses sh wf ht haddress hadvance
      exact ⟨[], (sh.code o, u), _, state, r, rfl,
        (hpush.reduce h.not_accepted hstep hq.not_accepted).runs (by simp) runs_nil⟩
    | some stack' =>
      rw [hadvance, Option.bind_some] at hclimb
      obtain ⟨q, hoperator, hq⟩ := h.push_operator sh wf ht haddress hadvance
      obtain ⟨r, hnumber, hr⟩ := hq.push_number sh (v := w) wf ht haddress
      obtain ⟨before, token, after, state, q', heq, hruns⟩ := ih hr hclimb
      refine ⟨(sh.code o, u) :: (sh.number, w) :: before, token, after, state, q', ?_,
        hoperator.runs (by simp) (hnumber.runs (by simp) hruns)⟩
      exact congrArg (fun tokens ↦ (sh.code o, u) :: (sh.number, w) :: tokens) heq

theorem Shape.accepts_chain (hclimb : climb sh.levels [] v rest = some e) :
    Accepts t combine ((chain v rest).map sh.token) eof
      (combine sh.startRule [sh.value combine e]) := by
  have hstart : Stands g a ({} : Parser V) (sh.waiting combine []) := stands_start
  obtain ⟨q, hnumber, hq⟩ := hstart.push_number sh (v := v) wf ht haddress
  obtain ⟨r, hdone, hruns⟩ := hq.run sh wf ht haddress hclimb
  exact ⟨r, hdone, hnumber.runs (by simp) hruns⟩

theorem Shape.refuses_chain (hclimb : climb sh.levels [] v rest = none) :
    Refuses t combine ((chain v rest).map sh.token) := by
  have hstart : Stands g a ({} : Parser V) (sh.waiting combine []) := stands_start
  obtain ⟨q, hnumber, hq⟩ := hstart.push_number sh (v := v) wf ht haddress
  obtain ⟨before, token, after, state, r, heq, hruns⟩ := hq.run_refused sh wf ht haddress hclimb
  exact ⟨(sh.number, v) :: before, token, after, state, r,
    congrArg ((sh.number, v) :: ·) heq, hnumber.runs (by simp) hruns⟩

end Runs

end ShiftReduce.Operators
