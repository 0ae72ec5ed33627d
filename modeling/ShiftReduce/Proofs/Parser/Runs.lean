import ShiftReduce.Proofs.Parser.Completeness

/-!
# Runs without a bound

A push is given a number of reductions that it may not exceed. What matters is that with enough of
them it comes to an end, and always to the same: `Pushes` and `Runs` say so of one token and of a
list of tokens. A push is one step that ends it, or a reduction and the push after it.

## Outcomes

Tokens are accepted (`Accepts`) or one of them is the first to be refused (`Refuses`), never both. A
run has one outcome (`Runs.unique`), and the calls of a run begin with those of any run of fewer
tokens.

Where the action of the top state is known, so is the step (`Acts.of_shift` and so on). This is how
runs are put together for a grammar whose tables have been worked out by hand.
-/

namespace ShiftReduce.Parser

open Conflict (Edge)

variable {V : Type} {g : Grammar} {a : Automaton} {t : Tables} {combine : Nat → List V → V}
  {k : Nat} {v : V} {p q r : Parser V} {symbols : List Symbol}

/-! ## Pushes -/

/-- With enough reductions allowed, a push has this answer and leaves this parser. -/
def Pushes (t : Tables) (combine : Nat → List V → V) (p : Parser V) (k : Nat) (v : V)
    (answer : Except Error (Answer V)) (q : Parser V) : Prop :=
  ∃ bound, ∀ limit ≥ bound, ∃ x,
    p.push? t combine limit k v = some x ∧ x.answer = answer ∧ x.parser = q

section Pushes

variable {answer : Except Error (Answer V)} {x : Pushed V}

theorem Pushes.last (hopen : p.accepted = false) {outcome : Outcome V} {events : List (Event V)}
    (hstep : p.step t combine k v = { parser := q, outcome, events })
    (hgives : outcome.Gives answer) : Pushes t combine p k v answer q := by
  have hrun : ∀ limit, p.run? t combine k v limit = some { parser := q, answer, events } := by
    intro limit
    rw [run?.eq_def]
    simp only [hstep]
    cases hgives with
    | taken => rfl
    | failed => rfl
  refine ⟨0, fun limit _ ↦ ⟨{ parser := q, answer, events }, ?_, rfl, rfl⟩⟩
  rw [push?_of_open hopen, hrun]

theorem Pushes.reduce (hopen : p.accepted = false) {events : List (Event V)}
    (hstep : p.step t combine k v = { parser := q, outcome := .pending, events })
    (hopen' : q.accepted = false) (h : Pushes t combine q k v answer r) :
    Pushes t combine p k v answer r := by
  obtain ⟨bound, hbound⟩ := h
  refine ⟨bound + 1, fun limit hlimit ↦ ?_⟩
  obtain ⟨limit, rfl⟩ := Nat.exists_eq_succ_of_ne_zero (show limit ≠ 0 by omega)
  obtain ⟨x, hx, rfl, rfl⟩ := hbound limit (Nat.le_of_succ_le_succ hlimit)
  rw [push?_of_open hopen'] at hx
  have hrun : p.run? t combine k v (limit + 1) = some (x.after events) := by
    rw [run?.eq_def]
    simp only [hstep, hx, Option.map_some]
  exact ⟨x.after events, (push?_of_open hopen _).trans hrun, rfl, rfl⟩

end Pushes

/-! ## Runs -/

/-- With enough reductions allowed for each token, these are the calls, and this is the parser after
them. -/
def Runs (t : Tables) (combine : Nat → List V → V) (p : Parser V) (tokens : List (Nat × V))
    (calls : List (Call V)) (q : Parser V) : Prop :=
  ∃ bound, ∀ limit ≥ bound, pushAll? t combine limit tokens p = some (calls, some q)

variable {tokens tokens' : List (Nat × V)} {calls calls' : List (Call V)}

theorem runs_nil : Runs t combine p [] [] p :=
  ⟨0, fun _ _ ↦ rfl⟩

theorem Pushes.runs {answer : Except Error (Answer V)} (h : Pushes t combine p k v answer q)
    (hne : answer ≠ .error .addressOverflow) (hrest : Runs t combine q tokens calls r) :
    Runs t combine p ((k, v) :: tokens)
      ({ terminal := k, value := v, answer } :: calls) r := by
  obtain ⟨bound, hbound⟩ := h
  obtain ⟨bound', hbound'⟩ := hrest
  refine ⟨max bound bound', fun limit hlimit ↦ ?_⟩
  obtain ⟨x, hx, rfl, rfl⟩ := hbound limit (le_trans (le_max_left _ _) hlimit)
  have hcalls := hbound' limit (le_trans (le_max_right _ _) hlimit)
  exact pushAll?_cons_eq_some.mpr
    ⟨x, hx, Or.inr ⟨_, calls, next?_eq_some.mpr ⟨hne, rfl⟩, hcalls, rfl⟩⟩

/-- A run has one outcome. -/
theorem Runs.unique {q' : Parser V} (h : Runs t combine p tokens calls q)
    (h' : Runs t combine p tokens calls' q') : calls = calls' ∧ q = q' := by
  obtain ⟨bound, hbound⟩ := h
  obtain ⟨bound', hbound'⟩ := h'
  have heq := hbound (max bound bound') (le_max_left _ _)
  rw [hbound' (max bound bound') (le_max_right _ _)] at heq
  obtain ⟨rfl, hq⟩ := Prod.mk.inj (Option.some.inj heq)
  exact ⟨rfl, (Option.some.inj hq).symm⟩

/-- The calls of a run begin with those of any run of the tokens at its beginning. -/
theorem prefix_of_pushAll?_append {limit : Nat} {o : Option (Parser V)} {q' : Parser V}
    (h : pushAll? t combine limit (tokens ++ tokens') p = some (calls, o))
    (hfirst : pushAll? t combine limit tokens p = some (calls', some q')) : calls' <+: calls := by
  induction tokens generalizing p calls calls' with
  | nil =>
    obtain ⟨rfl, -⟩ := Prod.mk.inj (Option.some.inj hfirst)
    exact List.nil_prefix
  | cons token tokens ih =>
    obtain ⟨x, hx, ⟨-, hnone, -⟩ | ⟨q, rest, hq, hrest, rfl⟩⟩ := pushAll?_cons_eq_some.mp hfirst
    · simp at hnone
    · rw [List.cons_append] at h
      obtain ⟨y, hy, hy'⟩ := pushAll?_cons_eq_some.mp h
      obtain rfl := Option.some.inj (hx.symm.trans hy)
      rcases hy' with ⟨hnone, -, -⟩ | ⟨r, rest', hr, hrest', rfl⟩
      · simp [hq] at hnone
      · obtain rfl := Option.some.inj (hq.symm.trans hr)
        exact List.cons_prefix_cons.mpr ⟨rfl, ih hrest' hrest⟩

theorem Runs.prefix_of_append {q' : Parser V}
    (h : Runs t combine p (tokens ++ tokens') calls q)
    (hfirst : Runs t combine p tokens calls' q') : calls' <+: calls := by
  obtain ⟨bound, hbound⟩ := h
  obtain ⟨bound', hbound'⟩ := hfirst
  exact prefix_of_pushAll?_append (hbound (max bound bound') (le_max_left _ _))
    (hbound' _ (le_max_right _ _))

/-! ## Acceptance and refusal -/

def Call.refuse (state : Nat) (token : Nat × V) : Call V where
  terminal := token.1
  value := token.2
  answer := .error (.syntaxError state token.1)

/-- From the start all tokens are shifted, and the end of input after them is accepted with the
value `z`. -/
def Accepts (t : Tables) (combine : Nat → List V → V) (tokens : List (Nat × V)) (eof z : V) :
    Prop :=
  ∃ q, q.accepted = true ∧ Runs t combine {} (tokens ++ [(0, eof)])
    (tokens.map Call.shift ++ [Call.accept eof z]) q

/-- From the start tokens are shifted up to one that is refused. -/
def Refuses (t : Tables) (combine : Nat → List V → V) (tokens : List (Nat × V)) : Prop :=
  ∃ before token after state q, tokens = before ++ token :: after ∧
    Runs t combine {} (before ++ [token]) (before.map Call.shift ++ [Call.refuse state token]) q

section Accepts

variable {eof z z' : V}

theorem Accepts.unique (h : Accepts t combine tokens eof z) (h' : Accepts t combine tokens eof z') :
    z = z' := by
  obtain ⟨q, -, hruns⟩ := h
  obtain ⟨q', -, hruns'⟩ := h'
  have hcalls := List.append_cancel_left (hruns.unique hruns').1
  simpa [Call.accept] using hcalls

theorem Accepts.not_refuses (h : Accepts t combine tokens eof z) : ¬Refuses t combine tokens := by
  rintro ⟨before, token, after, state, q, rfl, hrefused⟩
  obtain ⟨q', -, hruns⟩ := h
  have hsplit : before ++ token :: after ++ [(0, eof)]
      = (before ++ [token]) ++ (after ++ [(0, eof)]) := by
    simp
  rw [hsplit] at hruns
  -- The refused token would have been shifted.
  have hpre := hruns.prefix_of_append hrefused
  rw [List.map_append, List.append_assoc, List.prefix_append_right_inj, List.map_cons,
    List.cons_append, List.cons_prefix_cons] at hpre
  simp [Call.refuse, Call.shift] at hpre

end Accepts

/-! ## The step of an action -/

section Acts

variable {s : Step V}

theorem Acts.of_shift {n : Nat} (h : Acts g a t combine k v p symbols (.shift n) s)
    (haddress : t.Addressable) (hstacked : Stacked g a p.states symbols) :
    Stacked g a (p.enter n v).states (.terminal k :: symbols) ∧
      ∃ events, s = { parser := p.enter n v, outcome := .taken .shifted, events } := by
  cases h with
  | shift htop hedge => exact ⟨hstacked.push htop hedge, _, rfl⟩
  | overflow hlarge => exact absurd haddress hlarge

theorem Acts.of_reduce {n : Nat} {rule : Rule}
    (h : Acts g a t combine k v p symbols (.reduce n) s) (haddress : t.Addressable)
    (hstacked : Stacked g a p.states symbols) (hrule : g.rule? n = some rule) :
    ∃ m, Stacked g a (m :: p.states.drop rule.rhs.length)
        (.nonterminal rule.lhs :: symbols.drop rule.rhs.length) ∧
      ∃ events, s = { parser := (p.below rule.rhs.length).enter m
                        (combine n (p.topmost rule.rhs.length))
                      outcome := .pending, events } := by
  cases h with
  | reduce hrule' _ _ hle htop hedge =>
    obtain rfl := Option.some.inj (hrule'.symm.trans hrule)
    exact ⟨_, (hstacked.drop hle).push htop hedge, _, rfl⟩
  | overflow hlarge => exact absurd haddress hlarge

theorem Acts.of_accept {n : Nat} {rule : Rule}
    (h : Acts g a t combine k v p symbols (.accept n) s) (haddress : t.Addressable)
    (hrule : g.rule? n = some rule) : ∃ q events, q.accepted = true ∧
      s = { parser := q
            outcome := .taken (.accepted (combine n (p.topmost (rule.rhs.length - 1))))
            events } := by
  cases h with
  | accept hrule' =>
    obtain rfl := Option.some.inj (hrule'.symm.trans hrule)
    exact ⟨_, _, rfl, rfl⟩
  | overflow hlarge => exact absurd haddress hlarge

theorem Acts.of_error (h : Acts g a t combine k v p symbols .error s)
    (haddress : t.Addressable) :
    ∃ events, s = { parser := p, outcome := .failed (.syntaxError p.state k), events } := by
  cases h with
  | refuse => exact ⟨_, rfl⟩
  | overflow hlarge => exact absurd haddress hlarge

end Acts

end ShiftReduce.Parser
