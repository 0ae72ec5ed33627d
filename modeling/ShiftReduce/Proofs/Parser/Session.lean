import Mathlib.Data.List.Forall2
import ShiftReduce.Proofs.Parser.Moves

/-!
# Sessions

A session (`Parser.Session`) is what a parser goes through from the start: pushes in a row, each
with its answer, also those after a refused token. A session goes on as long as there is a parser to
be pushed the next token. That is always so but after an address that overflowed.

## Pushes

A push reduces for a while and then ends with one last step; what every reduction keeps still holds
before that step (`run?_ends`). Over generated tables it lands in one of few places
(`Tables.Serves.lands`), and the results about sessions go through these one by one.

## Stacks of values

The stack of a parser holds a value for each symbol along its path of states (`Holds`). The relation
between symbols and values is left open: it only has to be respected by the way in which values are
made into one (`Respects`). Over generated tables a session keeps such a stack until it accepts, and
never meets malformed tables.

## Sessions that are run

A concrete session is obtained by running it (`pushAll?`) and reading off the calls
(`session_of_pushAll?`).
-/

namespace ShiftReduce.Parser

open Automaton (Canonical)
open Conflict (Edge)

variable {V : Type} {g : Grammar} {a : Automaton} {conflicts : List Conflict} {t : Tables}
  {combine : Nat → List V → V} {k : Nat} {v : V} {p : Parser V}

/-! ## The end of a push -/

/-- The answer that an outcome comes to, once there is one. -/
inductive Outcome.Gives : Outcome V → Except Error (Answer V) → Prop
  | taken {answer : Answer V} : Outcome.Gives (.taken answer) (.ok answer)
  | failed {e : Error} : Outcome.Gives (.failed e) (.error e)

@[simp] theorem gives_taken {answer : Answer V} {r : Except Error (Answer V)} :
    (Outcome.taken answer).Gives r ↔ r = .ok answer := by
  refine ⟨fun h ↦ ?_, ?_⟩
  · cases h
    rfl
  · rintro rfl
    exact Outcome.Gives.taken

@[simp] theorem gives_failed {e : Error} {r : Except Error (Answer V)} :
    (Outcome.failed e : Outcome V).Gives r ↔ r = .error e := by
  refine ⟨fun h ↦ ?_, ?_⟩
  · cases h
    rfl
  · rintro rfl
    exact Outcome.Gives.failed

@[simp] theorem not_gives_pending {r : Except Error (Answer V)} :
    ¬(Outcome.pending : Outcome V).Gives r :=
  nofun

theorem run?_cases {limit : Nat} {x : Pushed V} (h : p.run? t combine k v limit = some x) :
    ((p.step t combine k v).outcome.Gives x.answer ∧ x.parser = (p.step t combine k v).parser ∧
        x.events = (p.step t combine k v).events) ∨
      ((p.step t combine k v).outcome = .pending ∧ ∃ limit' y, limit = limit' + 1 ∧
        (p.step t combine k v).parser.run? t combine k v limit' = some y ∧
        x = y.after (p.step t combine k v).events) := by
  rw [run?.eq_def] at h
  dsimp only at h
  split at h
  · rename_i answer houtcome
    obtain rfl := Option.some.inj h
    exact Or.inl ⟨houtcome ▸ Outcome.Gives.taken, rfl, rfl⟩
  · rename_i e houtcome
    obtain rfl := Option.some.inj h
    exact Or.inl ⟨houtcome ▸ Outcome.Gives.failed, rfl, rfl⟩
  · rename_i houtcome
    split at h
    · simp at h
    · rename_i limit'
      obtain ⟨y, hy, rfl⟩ := Option.map_eq_some_iff.mp h
      exact Or.inr ⟨houtcome, limit', y, rfl, hy, rfl⟩

/-- What every reduction keeps holds before the last step. -/
theorem run?_ends {P : Parser V → Prop}
    (hkeep : ∀ q, P q → (q.step t combine k v).outcome = .pending →
      P (q.step t combine k v).parser)
    {limit : Nat} {x : Pushed V} (hp : P p) (h : p.run? t combine k v limit = some x) :
    ∃ q, P q ∧ (q.step t combine k v).outcome.Gives x.answer ∧
      x.parser = (q.step t combine k v).parser := by
  induction limit generalizing p x with
  | zero =>
    rcases run?_cases h with ⟨hgives, hparser, -⟩ | ⟨-, _, _, hlimit, -⟩
    · exact ⟨p, hp, hgives, hparser⟩
    · simp at hlimit
  | succ limit ih =>
    rcases run?_cases h with ⟨hgives, hparser, -⟩ | ⟨houtcome, limit', y, hlimit, hy, rfl⟩
    · exact ⟨p, hp, hgives, hparser⟩
    · obtain rfl := Nat.succ.inj hlimit
      have hends := ih (hkeep p hp houtcome) hy
      exact hends

theorem push?_of_open (hopen : p.accepted = false) (limit : Nat) :
    p.push? t combine limit k v = p.run? t combine k v limit :=
  if_neg (by simp [hopen])

@[simp] theorem next?_eq_some {x : Pushed V} {q : Parser V} :
    x.next? = some q ↔ x.answer ≠ .error .addressOverflow ∧ x.parser = q := by
  rw [Pushed.next?]
  split
  · rename_i h
    simp [h]
  · rename_i h
    rw [Option.some_inj]
    exact ⟨fun heq ↦ ⟨h, heq⟩, And.right⟩

/-! ## What a push comes to -/

/-- A property of a parser and the symbols on its stack that every reduction keeps. -/
def Kept (g : Grammar) (a : Automaton) (combine : Nat → List V → V)
    (P : Parser V → List Symbol → Prop) : Prop :=
  ∀ q symbols r n rule s s', P q symbols → g.rule? r = some rule → rule.accept = false →
    symbols.take rule.rhs.length = rule.rhs.reverse → rule.rhs.length ≤ symbols.length →
    Top a (q.states.drop rule.rhs.length) s → Edge g a s (.nonterminal rule.lhs) n s' →
    P ((q.below rule.rhs.length).enter n (combine r (q.topmost rule.rhs.length)))
      (.nonterminal rule.lhs :: symbols.drop rule.rhs.length)

/-- The answer to a push and the parser after it, where `P` holds until the last step. -/
inductive Lands (g : Grammar) (a : Automaton) (t : Tables) (combine : Nat → List V → V) (k : Nat)
    (v : V) (P : Parser V → List Symbol → Prop) (p : Parser V) :
    Except Error (Answer V) → Parser V → Prop
  | shifted {q : Parser V} {symbols : List Symbol} {n : Nat} {s s' : State} :
      P q symbols → Top a q.states s → Edge g a s (.terminal k) n s' →
      Lands g a t combine k v P p (.ok .shifted) (q.enter n v)
  | accepted {q : Parser V} {symbols : List Symbol} {r : Nat} {rule : Rule} {s : State} :
      P q symbols → g.rule? r = some rule → rule.accept = true →
      symbols.take (rule.rhs.length - 1) = rule.rhs.dropLast.reverse →
      rule.rhs.length - 1 ≤ symbols.length →
      Top a (q.states.drop (rule.rhs.length - 1)) s → (⟨r, 0⟩ : Item) ∈ s.itemSet → k = 0 →
      Lands g a t combine k v P p
        (.ok (.accepted (combine r (q.topmost (rule.rhs.length - 1)))))
        { q.below (rule.rhs.length - 1) with accepted := true }
  | refused {q : Parser V} {symbols : List Symbol} :
      P q symbols → Lands g a t combine k v P p (.error (.syntaxError q.state k)) q
  | overflow {q : Parser V} : ¬t.Addressable →
      Lands g a t combine k v P p (.error .addressOverflow) q

theorem Tables.Serves.lands (wf : g.WellFormed) (ht : t.Serves g a conflicts)
    {P : Parser V → List Symbol → Prop} (hkept : Kept g a combine P)
    (hstack : ∀ q symbols, P q symbols →
      Stacked g a q.states symbols ∧ q.values.length = symbols.length)
    (hk : k < g.terminals.length) {symbols : List Symbol} (hp : P p symbols)
    (haccepted : p.accepted = false) {limit : Nat} {x : Pushed V}
    (hx : p.push? t combine limit k v = some x) :
    Lands g a t combine k v P p x.answer x.parser := by
  have hacts : ∀ q symbols, P q symbols → ∃ action,
      Acts g a t combine k v q symbols action (q.step t combine k v) := by
    intro q symbols hq
    obtain ⟨hstacked, hlength⟩ := hstack q symbols hq
    obtain ⟨s, y, action, -, -, -, -, h⟩ := ht.acts wf hstacked hlength hk
    exact ⟨action, h⟩
  have hpending : ∀ q, (∃ symbols, P q symbols) → (q.step t combine k v).outcome = .pending →
      ∃ symbols, P (q.step t combine k v).parser symbols := by
    rintro q ⟨symbols, hq⟩ houtcome
    obtain ⟨action, h⟩ := hacts q symbols hq
    generalize q.step t combine k v = result at h houtcome
    cases h with
    | reduce hrule haccept htake hle htop hedge =>
      exact ⟨_, hkept q symbols _ _ _ _ _ hq hrule haccept htake hle htop hedge⟩
    | shift | accept | refuse | overflow => simp at houtcome
  rw [push?_of_open haccepted] at hx
  -- Only the last step is left, and it is no reduction.
  obtain ⟨q, ⟨symbols, hq⟩, hgives, hparser⟩ := run?_ends hpending ⟨_, hp⟩ hx
  obtain ⟨action, h⟩ := hacts q symbols hq
  rw [hparser]
  generalize q.step t combine k v = result at h hgives
  cases h with
  | shift htop hedge =>
    rw [gives_taken.mp hgives]
    exact Lands.shifted hq htop hedge
  | reduce => exact absurd hgives not_gives_pending
  | accept hrule haccept htake hle htop hstart hzero =>
    rw [gives_taken.mp hgives]
    exact Lands.accepted hq hrule haccept htake hle htop hstart hzero
  | refuse =>
    rw [gives_failed.mp hgives]
    exact Lands.refused hq
  | overflow hlarge =>
    rw [gives_failed.mp hgives]
    exact Lands.overflow hlarge

/-! ## Stacks of values -/

/-- The stack of a parser: a path of the automaton, and a value for each symbol along it. -/
structure Holds (g : Grammar) (a : Automaton) (R : Symbol → V → Prop) (p : Parser V)
    (symbols : List Symbol) : Prop where
  stacked : Stacked g a p.states symbols
  values : List.Forall₂ R symbols p.values

/-- The values made of others are again such as their symbols demand. -/
def Respects (g : Grammar) (combine : Nat → List V → V) (R : Symbol → V → Prop) : Prop :=
  ∀ r rule values, g.rule? r = some rule → rule.accept = false →
    List.Forall₂ R rule.rhs values → R (.nonterminal rule.lhs) (combine r values)

section Holds

variable {R : Symbol → V → Prop} {symbols : List Symbol}

theorem holds_start : Holds g a R {} [] :=
  ⟨Stacked.start, List.Forall₂.nil⟩

theorem Holds.length_eq (h : Holds g a R p symbols) : p.values.length = symbols.length :=
  h.values.length_eq.symm

theorem Holds.topmost (h : Holds g a R p symbols) {n : Nat} {rhs : List Symbol}
    (htake : symbols.take n = rhs.reverse) : List.Forall₂ R rhs (p.topmost n) := by
  rw [Parser.topmost, ← List.forall₂_reverse_iff, List.reverse_reverse, ← htake]
  exact List.forall₂_take n h.values

theorem Holds.below (h : Holds g a R p symbols) {n : Nat} (hn : n ≤ symbols.length) :
    Holds g a R (p.below n) (symbols.drop n) :=
  ⟨h.stacked.drop hn, List.forall₂_drop n h.values⟩

theorem Holds.enter (h : Holds g a R p symbols) {X : Symbol} {q : Nat} {s s' : State} {v : V}
    (htop : Top a p.states s) (hedge : Edge g a s X q s') (hv : R X v) :
    Holds g a R (p.enter q v) (X :: symbols) :=
  ⟨h.stacked.push htop hedge, h.values.cons hv⟩

/-- Reductions leave such a stack behind. -/
theorem kept_holds (hR : Respects g combine R) : Kept g a combine (Holds g a R) := by
  intro q symbols r n rule s s' hq hrule haccept htake hle htop hedge
  exact (hq.below hle).enter htop hedge (hR r rule _ hrule haccept (hq.topmost htake))

end Holds

/-! ## Sessions -/

/-- A token that was pushed, and what the parser answered. -/
structure Call (V : Type) where
  terminal : Nat
  value : V
  answer : Except Error (Answer V)

/-- The calls made to a parser from the start, in order, and the parser after them. Every call came
to its end within some number of reductions. A call in which an address overflowed is the last, and
there is no parser after it. -/
inductive Session (t : Tables) (combine : Nat → List V → V) :
    List (Call V) → Option (Parser V) → Prop
  | start : Session t combine [] (some {})
  | push {calls : List (Call V)} {p : Parser V} {limit k : Nat} {v : V} {x : Pushed V} :
      Session t combine calls (some p) → k < t.terminals → p.push? t combine limit k v = some x →
      Session t combine (calls ++ [{ terminal := k, value := v, answer := x.answer }]) x.next?

theorem push?_of_accepted (haccepted : p.accepted = true) {limit : Nat} {x : Pushed V}
    (hx : p.push? t combine limit k v = some x) :
    x.next? = some p ∧ x.answer = .error .alreadyAccepted := by
  rw [push?, if_pos haccepted] at hx
  obtain rfl := Option.some.inj hx
  exact ⟨rfl, rfl⟩

section Session

variable {R : Symbol → V → Prop}

/-- What a push of a parser with such a stack comes to. -/
theorem Tables.Serves.lands_holds (wf : g.WellFormed) (ht : t.Serves g a conflicts)
    (hR : Respects g combine R) (hk : k < t.terminals) {symbols : List Symbol}
    (h : Holds g a R p symbols) (haccepted : p.accepted = false) {limit : Nat} {x : Pushed V}
    (hx : p.push? t combine limit k v = some x) :
    Lands g a t combine k v (Holds g a R) p x.answer x.parser :=
  ht.lands wf (kept_holds hR) (fun _ _ hq ↦ ⟨hq.stacked, hq.length_eq⟩) (ht.terminals_eq ▸ hk) h
    haccepted hx

theorem Tables.Serves.holds_session (wf : g.WellFormed) (ht : t.Serves g a conflicts)
    (hR : Respects g combine R) {calls : List (Call V)} {o : Option (Parser V)}
    (h : Session t combine calls o) (hv : ∀ c ∈ calls, R (.terminal c.terminal) c.value) :
    ∀ p ∈ o, p.accepted = false → ∃ symbols, Holds g a R p symbols := by
  induction h with
  | start =>
    intro p hp _
    exact ⟨[], Option.some.inj hp ▸ holds_start⟩
  | @push calls p limit k v x hsession hk hx ih =>
    intro q hnext haccepted
    cases hopen : p.accepted with
    | true =>
      obtain rfl := Option.some.inj ((push?_of_accepted hopen hx).1.symm.trans hnext)
      simp [hopen] at haccepted
    | false =>
      obtain ⟨symbols, hheld⟩ := ih (fun c hc ↦ hv c (List.mem_append_left _ hc)) p rfl hopen
      have hvalue : R (.terminal k) v := hv _ (List.mem_append_right _ List.mem_cons_self)
      have hlands := ht.lands_holds wf hR hk hheld hopen hx
      obtain ⟨hanswer, rfl⟩ := next?_eq_some.mp hnext
      generalize x.answer = answer at hlands hanswer
      generalize x.parser = q at hlands haccepted
      cases hlands with
      | shifted hq htop hedge => exact ⟨_, hq.enter htop hedge hvalue⟩
      | accepted => simp at haccepted
      | refused hq => exact ⟨_, hq⟩
      | overflow => exact absurd rfl hanswer

end Session

/-! ## Sessions that are run -/

/-- Pushes tokens one after another, each within `limit` reductions, as long as there is a parser to
take them. -/
def pushAll? (t : Tables) (combine : Nat → List V → V) (limit : Nat) :
    List (Nat × V) → Parser V → Option (List (Call V) × Option (Parser V))
  | [], p => some ([], some p)
  | (k, v) :: tokens, p => do
    let x ← p.push? t combine limit k v
    let call : Call V := { terminal := k, value := v, answer := x.answer }
    match x.next? with
    | none => some ([call], none)
    | some q =>
      let (calls, o) ← pushAll? t combine limit tokens q
      some (call :: calls, o)

/-- A run of a token and more is the call of the token, after which the run has come to its end or
goes on. -/
theorem pushAll?_cons_eq_some {limit : Nat} {token : Nat × V} {tokens : List (Nat × V)}
    {calls : List (Call V)} {o : Option (Parser V)} :
    pushAll? t combine limit (token :: tokens) p = some (calls, o) ↔
      ∃ x, p.push? t combine limit token.1 token.2 = some x ∧
        ((x.next? = none ∧ o = none ∧
            calls = [{ terminal := token.1, value := token.2, answer := x.answer }]) ∨
          ∃ q rest, x.next? = some q ∧ pushAll? t combine limit tokens q = some (rest, o) ∧
            calls = { terminal := token.1, value := token.2, answer := x.answer } :: rest) := by
  simp only [pushAll?, Option.bind_eq_bind, Option.bind_eq_some_iff]
  refine exists_congr fun x ↦ and_congr_right fun _ ↦ ?_
  cases x.next? with
  | none => simp [eq_comm, and_comm]
  | some q =>
    simp only [Option.bind_eq_some_iff, Option.some_inj, reduceCtorEq, false_and, false_or,
      exists_and_left, exists_eq_left', Prod.exists, Prod.mk.injEq]
    constructor
    · rintro ⟨rest, o', hrest, rfl, rfl⟩
      exact ⟨rest, hrest, rfl⟩
    · rintro ⟨rest, hrest, rfl⟩
      exact ⟨rest, o, hrest, rfl, rfl⟩

theorem session_of_pushAll? {limit : Nat} {tokens : List (Nat × V)} {o : Option (Parser V)}
    {calls calls' : List (Call V)} (h : Session t combine calls (some p))
    (htokens : ∀ token ∈ tokens, token.1 < t.terminals)
    (hrun : pushAll? t combine limit tokens p = some (calls', o)) :
    Session t combine (calls ++ calls') o := by
  induction tokens generalizing p calls calls' with
  | nil =>
    obtain ⟨rfl, rfl⟩ := Prod.mk.inj (Option.some.inj hrun)
    rw [List.append_nil]
    exact h
  | cons token tokens ih =>
    obtain ⟨x, hx, ⟨hnext, rfl, rfl⟩ | ⟨q, rest, hnext, hrest, rfl⟩⟩ :=
      pushAll?_cons_eq_some.mp hrun
    · exact hnext ▸ h.push (htokens _ List.mem_cons_self) hx
    · have hpush := h.push (htokens _ List.mem_cons_self) hx
      rw [hnext] at hpush
      have hsession := ih hpush (fun c hc ↦ htokens c (List.mem_cons_of_mem _ hc)) hrest
      rwa [List.append_assoc, List.singleton_append] at hsession

theorem map_of_pushAll? {limit : Nat} {tokens : List (Nat × V)} {q : Parser V}
    {calls : List (Call V)} (hrun : pushAll? t combine limit tokens p = some (calls, some q)) :
    calls.map (fun c ↦ (c.terminal, c.value)) = tokens := by
  induction tokens generalizing p calls with
  | nil =>
    obtain ⟨rfl, -⟩ := Prod.mk.inj (Option.some.inj hrun)
    rfl
  | cons token tokens ih =>
    obtain ⟨x, -, ⟨-, hnone, -⟩ | ⟨_, rest, -, hrest, rfl⟩⟩ := pushAll?_cons_eq_some.mp hrun
    · simp at hnone
    · rw [List.map_cons, ih hrest]

end ShiftReduce.Parser
