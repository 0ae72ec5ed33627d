import ShiftReduce.Proofs.Parser.Session

/-!
# The two stacks, whatever the tables

A parser has a state for each value on its stack, and the first state below them all. Here nothing
is known of the tables: they may be cut off, name rules that do not exist, or ask for more values
than there are, and a token may fail in the middle of a reduction, after the values are gone from
the stack. The parser can be pushed the next token all the same.

## Actions

What an action can come to with any tables is listed once (`Does`). The stacks are in step
(`InStep`) before and after each of these, and `Balanced` says what becomes of their heights.

## Histories

Nor is anything known of the function that makes the values of a rule into one. It may answer
differently each time it is called, so every action has a function of its own (`Course`); a push
with one function is such a course (`exists_course_of_run?`). A `History` is a list of tokens with
their courses, and what every action keeps holds all along it (`History.forall_steps`). Sessions are
histories in which all functions are one (`Session.exists_history`).

`stacks_in_step` is about every action of every history, and about what the function is handed in
it.
-/

namespace ShiftReduce.Parser

variable {V : Type} {t : Tables} {combine : Nat → List V → V} {k r n : Nat} {v : V} {p q : Parser V}

/-! ## What an action can come to -/

/-- A rule of length `n`, for which there is enough on the stacks. -/
structure Pops (t : Tables) (r n : Nat) (p : Parser V) : Prop where
  length_eq : t.ruleLength[r]? = some n
  le_values : n ≤ p.values.length
  lt_states : n < p.states.length

/-- What an action on a token can come to. -/
inductive Does (t : Tables) (combine : Nat → List V → V) (k : Nat) (v : V) (p : Parser V) :
    Step V → Prop
  | shift {code : Int} : t.action p.state k = .ok code → code % 8 = 1 →
      Does t combine k v p
        { parser := p.enter (wrap64 (code / 8)) v, outcome := .taken .shifted
          events := [.shift p.state k (code / 8)] }
  /-- The values of a rule are replaced by one. -/
  | reduce {code : Int} {n next lhs : Nat} : t.action p.state k = .ok code → code % 8 = 2 →
      p.Pops t (wrap64 (code / 8)) n →
      (p.below n).target t (wrap64 (code / 8)) = .ok (next, lhs) →
      Does t combine k v p
        { parser := (p.below n).enter next (combine (wrap64 (code / 8)) (p.topmost n))
          outcome := .pending
          events :=
            [.reduce (wrap64 (code / 8)) (p.topmost n), .goto (p.below n).state next lhs] }
  /-- The values of a rule are taken, and then there is no state to enter. -/
  | strand {code : Int} {n : Nat} {e : Error} : t.action p.state k = .ok code → code % 8 = 2 →
      p.Pops t (wrap64 (code / 8)) n → (p.below n).target t (wrap64 (code / 8)) = .error e →
      Does t combine k v p
        { parser := p.below n, outcome := .failed e
          events := [.reduce (wrap64 (code / 8)) (p.topmost n)] }
  | accept {code : Int} {n : Nat} : t.action p.state k = .ok code → code % 8 = 4 →
      p.Pops t (wrap64 (code / 8)) n →
      Does t combine k v p
        { parser := { p.below n with accepted := true }
          outcome := .taken (.accepted (combine (wrap64 (code / 8)) (p.topmost n)))
          events := [.accept p.state (wrap64 (code / 8)),
            .reduce (wrap64 (code / 8)) (p.topmost n)] }
  /-- There is no action to be read. -/
  | unread {e : Error} : t.action p.state k = .error e →
      Does t combine k v p { parser := p, outcome := .failed e }
  /-- There is no such rule, or too little for it on the stacks. -/
  | short {code : Int} {d : Defect} {events : List (Event V)} : t.action p.state k = .ok code →
      code % 8 = 2 ∨ code % 8 = 4 → p.pop t (wrap64 (code / 8)) = .error (.badTables d) →
      (∀ e ∈ events, e.reduced? = none) →
      Does t combine k v p { parser := p, outcome := .failed (.badTables d), events }
  | refuse {code : Int} : t.action p.state k = .ok code → code % 8 = 0 →
      Does t combine k v p
        { parser := p, outcome := .failed (.syntaxError p.state k)
          events := [.refuse p.state k] }
  /-- The action is of a kind that no token has. -/
  | misplaced {code : Int} {d : Defect} : t.action p.state k = .ok code →
      code % 8 = 3 ∨ 5 ≤ code % 8 →
      Does t combine k v p { parser := p, outcome := .failed (.badTables d) }

theorem Pops.pop_eq (h : p.Pops t r n) : p.pop t r = .ok (p.topmost n, p.below n) :=
  Parser.pop_eq h.length_eq h.le_values h.lt_states

/-- Taking the values of a rule succeeds if there is enough on the stacks, and only then. -/
theorem pop_cases (t : Tables) (r : Nat) (p : Parser V) :
    (∃ n, p.Pops t r n) ∨
      (t.ruleLength[r]? = none ∧ p.pop t r = .error (.badTables .ruleOutOfRange)) ∨
      ∃ n, t.ruleLength[r]? = some n ∧ (p.values.length < n ∨ p.states.length ≤ n) ∧
        p.pop t r = .error (.badTables .stackUnderflow) := by
  cases hr : t.ruleLength[r]? with
  | none => exact Or.inr (Or.inl ⟨rfl, by simp only [pop, hr]⟩)
  | some n =>
    by_cases hshort : n > p.values.length ∨ n ≥ p.states.length
    · refine Or.inr (Or.inr ⟨n, rfl, hshort, ?_⟩)
      simp only [pop, hr]
      rw [if_pos hshort]
    · exact Or.inl ⟨n, hr, by omega, by omega⟩

private theorem does_reduceBy {code : Int} (hread : t.action p.state k = .ok code)
    (htag : code % 8 = 2) :
    Does t combine k v p (p.reduceBy t combine (wrap64 (code / 8))) := by
  rw [reduceBy]
  rcases pop_cases t (wrap64 (code / 8)) p with ⟨n, hpops⟩ | ⟨-, hpop⟩ | ⟨n, -, -, hpop⟩
  · simp only [hpops.pop_eq]
    cases htarget : (p.below n).target t (wrap64 (code / 8)) with
    | error e => exact Does.strand hread htag hpops htarget
    | ok target => exact Does.reduce hread htag hpops htarget
  all_goals
    simp only [hpop]
    exact Does.short hread (Or.inl htag) hpop (by simp)

private theorem does_acceptBy {code : Int} (hread : t.action p.state k = .ok code)
    (htag : code % 8 = 4) :
    Does t combine k v p (p.acceptBy t combine (wrap64 (code / 8))) := by
  rw [acceptBy]
  rcases pop_cases t (wrap64 (code / 8)) p with ⟨n, hpops⟩ | ⟨-, hpop⟩ | ⟨n, -, -, hpop⟩
  · simp only [hpops.pop_eq]
    exact Does.accept hread htag hpops
  all_goals
    simp only [hpop]
    exact Does.short hread (Or.inr htag) hpop (by simp [Event.reduced?])

/-- **Every action comes to one of these.** -/
theorem does_step (t : Tables) (combine : Nat → List V → V) (k : Nat) (v : V) (p : Parser V) :
    Does t combine k v p (p.step t combine k v) := by
  rw [step]
  cases hread : t.action p.state k with
  | error e => exact Does.unread hread
  | ok code =>
    dsimp only
    split_ifs with hshift hreduce haccept hrefuse hgoto
    · exact Does.shift hread hshift
    · exact does_reduceBy hread hreduce
    · exact does_acceptBy hread haccept
    · exact Does.refuse hread hrefuse
    · exact Does.misplaced hread (Or.inl hgoto)
    · exact Does.misplaced hread (Or.inr (by omega))

/-! ## What the function is asked

The event of a reduction shows the values that the function makes into one. That it is asked for
nothing else shows in that any other function would do, as long as it makes the same of them. -/

section Congr

variable {combine' : Nat → List V → V}

private theorem reduceBy_congr (h : ∀ values, .reduce r values ∈ (p.reduceBy t combine r).events →
    combine' r values = combine r values) : p.reduceBy t combine' r = p.reduceBy t combine r := by
  rcases pop_cases t r p with ⟨n, hpops⟩ | ⟨-, hpop⟩ | ⟨n, -, -, hpop⟩
  · simp only [reduceBy, hpops.pop_eq] at h ⊢
    cases htarget : (p.below n).target t r with
    | error e => rfl
    | ok target =>
      simp only [htarget] at h
      rw [h _ (by simp)]
  all_goals simp only [reduceBy, hpop]

private theorem acceptBy_congr (h : ∀ values, .reduce r values ∈ (p.acceptBy t combine r).events →
    combine' r values = combine r values) : p.acceptBy t combine' r = p.acceptBy t combine r := by
  rcases pop_cases t r p with ⟨n, hpops⟩ | ⟨-, hpop⟩ | ⟨n, -, -, hpop⟩
  · simp only [acceptBy, hpops.pop_eq] at h ⊢
    rw [h _ (by simp)]
  all_goals simp only [acceptBy, hpop]

private theorem step_congr (h : ∀ r values, .reduce r values ∈ (p.step t combine k v).events →
    combine' r values = combine r values) : p.step t combine' k v = p.step t combine k v := by
  rw [step] at h
  rw [step, step]
  cases hread : t.action p.state k with
  | error e => rfl
  | ok code =>
    simp only [hread] at h
    dsimp only
    split_ifs at h ⊢ with hshift hreduce haccept
    · rfl
    · exact reduceBy_congr (h _)
    · exact acceptBy_congr (h _)
    all_goals rfl

end Congr

/-! ## Stacks in step -/

/-- The stacks are in step: a state for each value, above the first state. -/
structure InStep (p : Parser V) : Prop where
  length_eq : p.states.length = p.values.length + 1
  bottom : p.states.getLast? = some 0

private theorem inStep_start : InStep ({} : Parser V) :=
  ⟨rfl, rfl⟩

theorem InStep.enter (h : InStep p) (state : Nat) (value : V) : InStep (p.enter state value) where
  length_eq := congrArg (· + 1) h.length_eq
  bottom := by
    have hne : p.states ≠ [] := List.ne_nil_of_length_pos (by rw [h.length_eq]; omega)
    rw [Parser.enter, List.getLast?_cons_of_ne_nil hne, h.bottom]

theorem InStep.below (h : InStep p) (hn : n ≤ p.values.length) : InStep (p.below n) where
  length_eq := by
    have hlength := h.length_eq
    rw [Parser.below, List.length_drop, List.length_drop]
    omega
  bottom := by
    have hlength := h.length_eq
    rw [Parser.below, List.getLast?_drop, if_neg (by omega), h.bottom]

theorem InStep.head?_states (h : InStep p) : p.states.head? = some p.state := by
  cases hstates : p.states with
  | nil =>
    have hlength := h.length_eq
    rw [hstates] at hlength
    simp at hlength
  | cons state states => simp [Parser.state, hstates]

theorem Does.inStep {s : Step V} (h : Does t combine k v p s) (hp : InStep p) :
    InStep s.parser := by
  cases h with
  | shift => exact hp.enter _ _
  | reduce _ _ hpops => exact (hp.below hpops.le_values).enter _ _
  | strand _ _ hpops => exact hp.below hpops.le_values
  | accept _ _ hpops =>
    have hbelow := hp.below hpops.le_values
    exact ⟨hbelow.length_eq, hbelow.bottom⟩
  | unread | short | refuse | misplaced => exact hp

theorem Pops.not_lt (h : p.Pops t r n) {m : Nat} (hr : t.ruleLength[r]? = some m) :
    ¬p.values.length < m := by
  obtain rfl := Option.some.inj (hr.symm.trans h.length_eq)
  exact Nat.not_lt.mpr h.le_values

private theorem pop_eq_of_short (hr : t.ruleLength[r]? = some n) (hshort : p.values.length < n) :
    p.pop t r = .error (.badTables .stackUnderflow) := by
  rcases pop_cases t r p with ⟨m, hpops⟩ | ⟨hnone, -⟩ | ⟨m, -, -, hpop⟩
  · exact absurd hshort (hpops.not_lt hr)
  · simp [hr] at hnone
  · exact hpop

/-- A rule that takes more values than there are fails and leaves everything as it was. -/
theorem Does.of_short {s : Step V} (h : Does t combine k v p s) {code : Int}
    (hread : t.action p.state k = .ok code) (htag : code % 8 = 2 ∨ code % 8 = 4)
    (hlength : t.ruleLength[wrap64 (code / 8)]? = some n) (hshort : p.values.length < n) :
    s.outcome = .failed (.badTables .stackUnderflow) ∧ s.parser = p ∧
      ∀ e ∈ s.events, e.reduced? = none := by
  cases h with
  | unread hread' => simp [hread] at hread'
  | shift hread' htag' | refuse hread' htag' | misplaced hread' htag' =>
    obtain rfl := Except.ok.inj (hread.symm.trans hread')
    omega
  | reduce hread' _ hpops | strand hread' _ hpops | accept hread' _ hpops =>
    obtain rfl := Except.ok.inj (hread.symm.trans hread')
    exact absurd hshort (hpops.not_lt hlength)
  | short hread' _ hpop hnone =>
    obtain rfl := Except.ok.inj (hread.symm.trans hread')
    rw [pop_eq_of_short hlength hshort] at hpop
    exact ⟨congrArg Outcome.failed (Except.error.inj hpop).symm, rfl, hnone⟩

/-- What an action does to stacks that are in step. -/
structure Balanced (t : Tables) (k : Nat) (v : V) (p : Parser V) (s : Step V) : Prop where
  before : InStep p
  after : InStep s.parser
  /-- A rule that takes more values than there are fails and leaves everything as it was. -/
  underflow : ∀ code n, t.action p.state k = .ok code → code % 8 = 2 ∨ code % 8 = 4 →
    t.ruleLength[wrap64 (code / 8)]? = some n → p.values.length < n →
    s.outcome = .failed (.badTables .stackUnderflow) ∧ s.parser = p ∧
      ∀ e ∈ s.events, e.reduced? = none
  /-- The values handed out for a rule are as many as it takes, from the top of the stack, in the
  order in which they came there. -/
  handed : ∀ r values, .reduce r values ∈ s.events →
    t.ruleLength[r]? = some values.length ∧ values.reverse <+: p.values
  /-- No other values are handed out. -/
  asked : ∃ combine, s = p.step t combine k v ∧ ∀ combine',
    (∀ r values, .reduce r values ∈ s.events → combine' r values = combine r values) →
    s = p.step t combine' k v

theorem Pops.handed (h : p.Pops t r n) :
    t.ruleLength[r]? = some (p.topmost n).length ∧ (p.topmost n).reverse <+: p.values := by
  constructor
  · rw [h.length_eq, topmost, List.length_reverse, List.length_take, min_eq_left h.le_values]
  · rw [topmost, List.reverse_reverse]
    exact List.take_prefix n p.values

theorem Does.handed {s : Step V} (h : Does t combine k v p s) {values : List V}
    (hevent : .reduce r values ∈ s.events) :
    t.ruleLength[r]? = some values.length ∧ values.reverse <+: p.values := by
  cases h with
  | shift | unread | refuse | misplaced => simp at hevent
  | reduce _ _ hpops | strand _ _ hpops | accept _ _ hpops =>
    obtain ⟨rfl, rfl⟩ : r = _ ∧ values = _ := by simpa using hevent
    exact hpops.handed
  | short _ _ _ hnone => exact absurd (hnone _ hevent) (by simp [Event.reduced?])

theorem InStep.balanced (hp : InStep p) : Balanced t k v p (p.step t combine k v) where
  before := hp
  after := (does_step t combine k v p).inStep hp
  underflow _ _ := (does_step t combine k v p).of_short
  handed _ _ := (does_step t combine k v p).handed
  asked := ⟨combine, rfl, fun _ h ↦ (step_congr h).symm⟩

/-! ## Histories -/

/-- The actions on a token up to the last, each with the parser it was taken by, and what they come
to. The function that makes values into one may be another at every action. -/
inductive Course (t : Tables) (k : Nat) (v : V) :
    Parser V → List (Parser V × Step V) → Pushed V → Prop
  | last {p : Parser V} {combine : Nat → List V → V} {x : Pushed V} :
      (p.step t combine k v).outcome.Gives x.answer → x.parser = (p.step t combine k v).parser →
      x.events = (p.step t combine k v).events →
      Course t k v p [(p, p.step t combine k v)] x
  | next {p : Parser V} {combine : Nat → List V → V} {steps : List (Parser V × Step V)}
      {x : Pushed V} :
      (p.step t combine k v).outcome = .pending →
      Course t k v (p.step t combine k v).parser steps x →
      Course t k v p ((p, p.step t combine k v) :: steps) (x.after (p.step t combine k v).events)

/-- A token that was pushed, the actions on it, and the answer. -/
structure Turn (V : Type) where
  terminal : Nat
  value : V
  steps : List (Parser V × Step V)
  answer : Except Error (Answer V)

def Turn.call (turn : Turn V) : Call V where
  terminal := turn.terminal
  value := turn.value
  answer := turn.answer

/-- The tokens pushed to a parser from the start, in order, and the parser after them. Any tokens
may be pushed, also after an error of any kind. A token on which an address overflowed is the last.
-/
inductive History (t : Tables) : List (Turn V) → Option (Parser V) → Prop
  | start : History t [] (some {})
  | closed {turns : List (Turn V)} {p : Parser V} {k : Nat} {v : V} :
      History t turns (some p) → p.accepted = true →
      History t
        (turns ++ [{ terminal := k, value := v, steps := [], answer := .error .alreadyAccepted }])
        (some p)
  | push {turns : List (Turn V)} {p : Parser V} {k : Nat} {v : V} {steps : List (Parser V × Step V)}
      {x : Pushed V} :
      History t turns (some p) → p.accepted = false → Course t k v p steps x →
      History t (turns ++ [{ terminal := k, value := v, steps := steps, answer := x.answer }])
        x.next?

/-- A token that is taken or refused within a number of reductions has such a course. -/
theorem exists_course_of_run? {limit : Nat} {x : Pushed V}
    (h : p.run? t combine k v limit = some x) : ∃ steps, Course t k v p steps x := by
  induction limit generalizing p x with
  | zero =>
    rcases run?_cases h with ⟨hgives, hparser, hevents⟩ | ⟨-, _, _, hlimit, -⟩
    · exact ⟨_, Course.last hgives hparser hevents⟩
    · simp at hlimit
  | succ limit ih =>
    rcases run?_cases h with ⟨hgives, hparser, hevents⟩ | ⟨houtcome, limit', y, hlimit, hy, rfl⟩
    · exact ⟨_, Course.last hgives hparser hevents⟩
    · obtain rfl := Nat.succ.inj hlimit
      obtain ⟨steps, hsteps⟩ := ih hy
      exact ⟨_, Course.next houtcome hsteps⟩

section Course

variable {steps : List (Parser V × Step V)} {x : Pushed V}

/-- What every action keeps holds all along a course. -/
theorem Course.forall_steps {P : Parser V → Prop}
    (hkeep : ∀ q (combine : Nat → List V → V), P q → P (q.step t combine k v).parser)
    (h : Course t k v p steps x) (hp : P p) :
    P x.parser ∧ ∀ y ∈ steps, P y.1 ∧ ∃ combine, y.2 = y.1.step t combine k v := by
  induction h with
  | @last p combine x _ hparser _ =>
    rw [hparser, List.forall_mem_singleton]
    exact ⟨hkeep p combine hp, hp, combine, rfl⟩
  | @next p combine steps x _ _ ih =>
    obtain ⟨hend, hsteps⟩ := ih (hkeep p combine hp)
    rw [List.forall_mem_cons]
    exact ⟨hend, ⟨hp, combine, rfl⟩, hsteps⟩

end Course

section History

variable {turns : List (Turn V)} {o : Option (Parser V)}

theorem History.forall_steps {P : Parser V → Prop} (hstart : P {})
    (hkeep : ∀ q k v (combine : Nat → List V → V), P q → P (q.step t combine k v).parser)
    (h : History t turns o) :
    (∀ p ∈ o, P p) ∧ ∀ turn ∈ turns, ∀ y ∈ turn.steps,
      P y.1 ∧ ∃ combine, y.2 = y.1.step t combine turn.terminal turn.value := by
  induction h with
  | start => exact ⟨fun p hp ↦ Option.some.inj hp ▸ hstart, by simp⟩
  | closed _ _ ih =>
    refine ⟨ih.1, List.forall_mem_append.mpr ⟨ih.2, ?_⟩⟩
    rw [List.forall_mem_singleton]
    simp
  | @push turns p k v steps x _ _ hcourse ih =>
    obtain ⟨hend, hsteps⟩ := hcourse.forall_steps (fun q ↦ hkeep q k v) (ih.1 p rfl)
    refine ⟨fun q hq ↦ ?_, List.forall_mem_append.mpr ⟨ih.2, List.forall_mem_singleton.mpr hsteps⟩⟩
    obtain ⟨-, rfl⟩ := next?_eq_some.mp hq
    exact hend

theorem History.exists_push? (h : History t turns (some p)) {limit : Nat} {x : Pushed V}
    (hx : p.push? t combine limit k v = some x) :
    ∃ steps, History t
      (turns ++ [{ terminal := k, value := v, steps := steps, answer := x.answer }]) x.next? := by
  cases hopen : p.accepted with
  | true =>
    obtain ⟨hnext, hanswer⟩ := push?_of_accepted hopen hx
    rw [hnext, hanswer]
    exact ⟨[], h.closed hopen⟩
  | false =>
    rw [push?_of_open hopen] at hx
    obtain ⟨steps, hsteps⟩ := exists_course_of_run? hx
    exact ⟨steps, h.push hopen hsteps⟩

/-- A session is a history in which one function makes all the values. -/
theorem Session.exists_history {calls : List (Call V)} (h : Session t combine calls o) :
    ∃ turns, History t turns o ∧ turns.map Turn.call = calls := by
  induction h with
  | start => exact ⟨[], History.start, rfl⟩
  | push _ _ hx ih =>
    obtain ⟨turns, hturns, rfl⟩ := ih
    obtain ⟨steps, hpush⟩ := hturns.exists_push? hx
    refine ⟨_, hpush, ?_⟩
    rw [List.map_append]
    rfl

/-- **The stacks never get out of step.** Whatever the tables, the tokens and the function that
makes values into one, after every push, and before and after every action within it, the parser has
a state for each value above the first state. So there always is a current state, a rule that takes
more values than there are fails before anything is taken, and the function is handed only the
values of rules: just as many as the rule takes, the last ones that came to the stack, in the order
in which they came. -/
theorem stacks_in_step (h : History t turns o) :
    (∀ p ∈ o, InStep p ∧ p.states.head? = some p.state) ∧
      ∀ turn ∈ turns, ∀ y ∈ turn.steps, Balanced t turn.terminal turn.value y.1 y.2 := by
  obtain ⟨hend, hsteps⟩ := h.forall_steps inStep_start fun q k v combine hq ↦
    (does_step t combine k v q).inStep hq
  refine ⟨fun p hp ↦ ⟨hend p hp, (hend p hp).head?_states⟩, fun turn hturn y hy ↦ ?_⟩
  obtain ⟨hbefore, combine, hstep⟩ := hsteps turn hturn y hy
  rw [hstep]
  exact hbefore.balanced

end History

/-- Tables with a rule that takes more values than there ever are, and one that has no goto. -/
def lameTables : Tables where
  actionTable := #[9, 2]
  actionIndex := #[0, 21]
  gotoTable := #[-8]
  gotoIndex := #[0, 0]
  terminals := 2
  nonterminals := 1
  ruleLhs := #[0, 0]
  ruleLength := #[5, 1]

theorem stacks_in_step_lameTables :
    ∃ (turns : List (Turn Nat)) (p : Parser Nat), History lameTables turns (some p) ∧
      turns.map (·.call.answer) = [.ok .shifted, .error (.badTables .missingGoto),
        .error (.badTables .stackUnderflow), .ok .shifted] ∧
      p.values = [6] ∧ InStep p ∧
      ∀ turn ∈ turns, ∀ y ∈ turn.steps, Balanced lameTables turn.terminal turn.value y.1 y.2 := by
  have hanswers : (pushAll? lameTables (fun _ values ↦ values.sum) 1
      [(0, 4), (0, 5), (1, 3), (0, 6)] {}).map
        (fun run ↦ (run.1.map (·.answer), run.2.map (·.values)))
      = some ([.ok .shifted, .error (.badTables .missingGoto),
        .error (.badTables .stackUnderflow), .ok .shifted], some [6]) := by
    decide +kernel
  obtain ⟨⟨calls, o⟩, hrun, hends⟩ := Option.map_eq_some_iff.mp hanswers
  obtain ⟨hcalls, hleft⟩ := Prod.mk.inj hends
  obtain ⟨p, rfl, hvalues⟩ := Option.map_eq_some_iff.mp hleft
  have hsession := session_of_pushAll? Session.start (by decide) hrun
  obtain ⟨turns, hturns, rfl⟩ := hsession.exists_history
  rw [List.map_map] at hcalls
  obtain ⟨hstep, hbalanced⟩ := stacks_in_step hturns
  exact ⟨turns, p, hturns, hcalls, hvalues, (hstep p rfl).1, hbalanced⟩

end ShiftReduce.Parser
