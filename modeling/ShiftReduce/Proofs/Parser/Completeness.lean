import ShiftReduce.Proofs.Grammar.Derivation
import ShiftReduce.Proofs.Parser.Session

/-!
# Sentences are accepted

Where no conflict had to be settled, a parser that stands before a part of a rule reads whatever
that part derives.

## Continuations

The argument follows the derivation (`Grammar.Yields`) and says what is still to come by a
continuation: what remains is accepted from wherever the part has been read (`succeeds_of_yields`).
The stack matters only in that reading a part of a rule puts its symbols on top and leaves the rest
as it was.

What a parser does in a state that has a certain item is said by `At`: the item's terminal is
shifted, its non-terminal is begun, and at its end the rule is reduced.

## The end

A state may ask for a reduction and for acceptance alike on the end of input. Acceptance is what it
gets, and this is no wrong turn: nothing is left to be read. So a part that has been read either is
followed by what the continuation says, or the parser accepts before it comes to that.

`sentence_accepted` puts a bound on the reductions of every push, so that the answers are there and
not only right.
-/

namespace ShiftReduce.Parser

open Automaton (Canonical ItemAction)
open Conflict (Edge resolveState)
open Grammar (Yields Derives)

variable {V : Type} {g : Grammar} {a : Automaton} {t : Tables} {combine : Nat → List V → V}
  {k : Nat} {v : V} {p q : Parser V} {rest : List (Nat × V)}

/-! ## Pushes that succeed -/

/-- The token is taken, with the given answer, after some reductions. -/
inductive Takes (t : Tables) (combine : Nat → List V → V) (k : Nat) (v : V) (answer : Answer V)
    (p' : Parser V) : Parser V → Prop
  | last {p : Parser V} {events : List (Event V)} :
      p.step t combine k v = { parser := p', outcome := .taken answer, events } →
      Takes t combine k v answer p' p
  | reduce {p q : Parser V} {events : List (Event V)} :
      p.step t combine k v = { parser := q, outcome := .pending, events } →
      Takes t combine k v answer p' q → Takes t combine k v answer p' p

/-- The tokens are shifted one after another, up to the end of input, on which the parser
accepts. -/
inductive Succeeds (t : Tables) (combine : Nat → List V → V) : Parser V → List (Nat × V) → Prop
  | accept {p q : Parser V} {v z : V} : p.accepted = false →
      Takes t combine 0 v (.accepted z) q p → q.accepted = true → Succeeds t combine p [(0, v)]
  | shift {p q : Parser V} {k : Nat} {v : V} {rest : List (Nat × V)} : p.accepted = false →
      Takes t combine k v .shifted q p → Succeeds t combine q rest →
      Succeeds t combine p ((k, v) :: rest)

theorem Succeeds.reduce {events : List (Event V)} (h : Succeeds t combine q ((k, v) :: rest))
    (hopen : p.accepted = false)
    (hstep : p.step t combine k v = { parser := q, outcome := .pending, events }) :
    Succeeds t combine p ((k, v) :: rest) := by
  cases h with
  | accept _ htakes hdone => exact Succeeds.accept hopen (Takes.reduce hstep htakes) hdone
  | shift _ htakes hrest => exact Succeeds.shift hopen (Takes.reduce hstep htakes) hrest

theorem Takes.exists_run {answer : Answer V} (h : Takes t combine k v answer q p) :
    ∃ bound, ∀ limit ≥ bound, ∃ events,
      p.run? t combine k v limit = some { parser := q, answer := .ok answer, events } := by
  induction h with
  | @last p events hstep =>
    refine ⟨0, fun limit _ ↦ ⟨events, ?_⟩⟩
    rw [run?.eq_def]
    simp only [hstep]
  | @reduce p p' events hstep _ ih =>
    obtain ⟨bound, hbound⟩ := ih
    refine ⟨bound + 1, fun limit hlimit ↦ ?_⟩
    obtain ⟨limit, rfl⟩ := Nat.exists_eq_succ_of_ne_zero (show limit ≠ 0 by omega)
    obtain ⟨events', hrun⟩ := hbound limit (Nat.le_of_succ_le_succ hlimit)
    refine ⟨events ++ events', ?_⟩
    rw [run?.eq_def]
    simp only [hstep, hrun, Option.map_some, Pushed.after]

theorem Takes.exists_push {answer : Answer V} (h : Takes t combine k v answer q p)
    (hopen : p.accepted = false) : ∃ bound, ∀ limit ≥ bound, ∃ x,
      p.push? t combine limit k v = some x ∧ x.parser = q ∧ x.answer = .ok answer := by
  obtain ⟨bound, hbound⟩ := h.exists_run
  refine ⟨bound, fun limit hlimit ↦ ?_⟩
  obtain ⟨events, hrun⟩ := hbound limit hlimit
  exact ⟨_, (push?_of_open hopen limit).trans hrun, rfl, rfl⟩

def Call.shift (token : Nat × V) : Call V where
  terminal := token.1
  value := token.2
  answer := .ok .shifted

/-- The call in which the end of input is accepted. -/
def Call.accept (v z : V) : Call V where
  terminal := 0
  value := v
  answer := .ok (.accepted z)

theorem Succeeds.exists_bound (h : Succeeds t combine p rest) :
    ∃ bound tokens v z q, rest = tokens ++ [(0, v)] ∧ q.accepted = true ∧ ∀ limit ≥ bound,
      pushAll? t combine limit rest p
        = some (tokens.map Call.shift ++ [Call.accept v z], some q) := by
  induction h with
  | @accept p q v z hopen htakes hdone =>
    obtain ⟨bound, hbound⟩ := htakes.exists_push hopen
    refine ⟨bound, [], v, z, q, rfl, hdone, fun limit hlimit ↦ ?_⟩
    obtain ⟨x, hx, rfl, hanswer⟩ := hbound limit hlimit
    simp [pushAll?, hx, Pushed.next?, hanswer, Call.accept]
  | @shift p q k v rest hopen htakes _ ih =>
    obtain ⟨bound, hbound⟩ := htakes.exists_push hopen
    obtain ⟨bound', tokens, v', z, q', rfl, hdone, hrest⟩ := ih
    refine ⟨max bound bound', (k, v) :: tokens, v', z, q', rfl, hdone, fun limit hlimit ↦ ?_⟩
    obtain ⟨x, hx, rfl, hanswer⟩ := hbound limit (le_trans (le_max_left _ _) hlimit)
    simp [pushAll?, hx, Pushed.next?, hanswer, hrest limit (le_trans (le_max_right _ _) hlimit),
      Call.shift]

/-! ## Standing before a part of a rule -/

/-- Tokens with the end of input after them, and not before. -/
inductive Ended (g : Grammar) : List (Nat × V) → Prop
  | eof {v : V} : 0 < g.terminals.length → Ended g [(0, v)]
  | token {k : Nat} {v : V} {rest : List (Nat × V)} : k ≠ 0 → k < g.terminals.length →
      Ended g rest → Ended g ((k, v) :: rest)

theorem Ended.append {tokens : List (Nat × V)} (h : Ended g rest)
    (htokens : ∀ k ∈ tokens.map (·.1), k ≠ 0 ∧ k < g.terminals.length) :
    Ended g (tokens ++ rest) := by
  induction tokens with
  | nil => exact h
  | cons token tokens ih =>
    rw [List.map_cons, List.forall_mem_cons] at htokens
    exact Ended.token htokens.1.1 htokens.1.2 (ih htokens.2)

/-- The token that comes next is the end of input only if it is the last. -/
theorem Ended.exists_cons (h : Ended g rest) : ∃ k v rest', rest = (k, v) :: rest' ∧
    k < g.terminals.length ∧ (k = 0 → rest' = []) := by
  cases h with
  | eof hlt => exact ⟨0, _, [], rfl, hlt, fun _ ↦ rfl⟩
  | token hne hlt => exact ⟨_, _, _, rfl, hlt, fun hzero ↦ absurd hzero hne⟩

/-- The parser has not accepted, and its top state holds the item. -/
structure At (g : Grammar) (a : Automaton) (p : Parser V) (i : Item) : Prop where
  not_accepted : p.accepted = false
  exists_holds : ∃ symbols, Holds g a (fun _ _ ↦ True) p symbols
  exists_top : ∃ s, Top a p.states s ∧ i ∈ s.itemSet

section At

variable {i : Item}

/-- A state that is entered has the items that led to it, advanced. -/
theorem At.enter (h : At g a p i) {s s' : State} {X : Symbol} {n : Nat}
    (htop : Top a p.states s) (hedge : Edge g a s X n s') (hread : i.symbol? g = some X)
    (hnot : ¬i.Accepts g) : At g a (p.enter n v) i.advance := by
  obtain ⟨symbols, hholds⟩ := h.exists_holds
  obtain ⟨u, hu, hi⟩ := h.exists_top
  obtain rfl := hu.unique htop
  refine ⟨h.not_accepted, ⟨_, hholds.enter htop hedge trivial⟩, s', ⟨n, rfl, hedge.target⟩, ?_⟩
  have hkernel : i.advance ∈ Item.advanced g (itemsOf u.itemSet) X :=
    Item.mem_advanced hi hread hnot
  have hclosed : i.advance ∈ itemsOf s'.itemSet := hedge.itemsOf_eq ▸ Item.Closes.kernel hkernel
  exact hclosed

/-- A rule of the non-terminal that is read next stands at its first place. -/
theorem At.start (ha : Canonical g a) (h : At g a p i) {r : Nat} {rule : Rule}
    (hrule : g.rule? r = some rule) (hread : i.symbol? g = some (.nonterminal rule.lhs)) :
    At g a p ⟨r, 0⟩ := by
  obtain ⟨s, htop, hi⟩ := h.exists_top
  have hreachable := (ha.mem_iff _).mp ⟨s, htop.mem, rfl⟩
  exact ⟨h.not_accepted, h.exists_holds, s, htop, hreachable.closed hi hrule hread⟩

theorem At.past {p' : Parser V} {β : List Symbol}
    (h : At g a q ⟨i.advance.rule, i.advance.position + β.length⟩)
    (hstates : q.states.drop β.length = p'.states) (hfirst : p'.states.drop 1 = p.states)
    (X : Symbol) : At g a q ⟨i.rule, i.position + (X :: β).length⟩ ∧
      q.states.drop (X :: β).length = p.states := by
  rw [List.length_cons]
  refine ⟨?_, ?_⟩
  · rw [Nat.add_comm β.length, ← Nat.add_assoc]
    exact h
  · rw [← List.drop_drop, hstates, hfirst]

end At

/-! ## One symbol -/

theorem Acts.succeeds (haddress : t.Addressable) (hopen : p.accepted = false) {r : Nat}
    {symbols : List Symbol}
    (h : Acts g a t combine 0 v p symbols (.accept r) (p.step t combine 0 v)) :
    Succeeds t combine p [(0, v)] := by
  generalize hstep : p.step t combine 0 v = step at h
  cases h with
  | accept => exact Succeeds.accept hopen (Takes.last hstep) rfl
  | overflow hlarge => exact absurd haddress hlarge

section Serves

variable {i : Item} (wf : g.WellFormed) (ht : t.Serves g a [])

include wf ht

/-- The step from a state that has the item rests on a row in which nothing was settled. -/
theorem At.acts (combine : Nat → List V → V) (v : V) (h : At g a p i)
    (hk : k < g.terminals.length) :
    ∃ s x symbols action, Top a p.states s ∧ i ∈ s.itemSet ∧ resolveState g s = .ok x ∧
      x.conflicts = [] ∧ x.rows.actions[k]? = some action ∧ Holds g a (fun _ _ ↦ True) p symbols ∧
      Acts g a t combine k v p symbols action (p.step t combine k v) := by
  obtain ⟨symbols, hholds⟩ := h.exists_holds
  obtain ⟨u, hu, hi⟩ := h.exists_top
  obtain ⟨s, x, action, htop, hx, hconflicts, hcell, hacts⟩ :=
    ht.acts wf hholds.stacked hholds.length_eq hk
  obtain rfl := hu.unique htop
  exact ⟨u, x, symbols, action, hu, hi, hx, List.subset_nil.mp hconflicts, hcell, hholds, hacts⟩

variable (haddress : t.Addressable)

include haddress

theorem At.shift (h : At g a p i) (hread : i.symbol? g = some (.terminal k)) (hnot : ¬i.Accepts g)
    (hnext : ∀ q, At g a q i.advance → q.states.drop 1 = p.states → Succeeds t combine q rest) :
    Succeeds t combine p ((k, v) :: rest) := by
  obtain ⟨s, x, symbols, action, htop, hi, hx, hnone, hcell, -, hacts⟩ :=
    h.acts wf ht combine v (Item.terminal_lt wf hread)
  obtain ⟨action', -, hitem⟩ := ht.canonical.exists_action htop.mem hi
  have haction := Conflict.action_of_reads wf ht.canonical htop.mem hx hnone hi hread hitem
  obtain rfl := Option.some.inj (hcell.symm.trans haction)
  generalize hstep : p.step t combine k v = step at hacts
  cases hitem with
  | enter hsymbol =>
    obtain rfl := Option.some.inj (hsymbol.symm.trans hread)
    cases hacts with
    | shift htop' hedge =>
      exact Succeeds.shift h.not_accepted (Takes.last hstep)
        (hnext _ (h.enter htop' hedge hread hnot) rfl)
    | overflow hlarge => exact absurd haddress hlarge
  | accept haccepts => exact absurd haccepts hnot
  | reduce hcompleted => simp [hcompleted.symbol?_eq] at hread

theorem At.accept (h : At g a p i) (haccepts : i.Accepts g) : Succeeds t combine p [(0, v)] := by
  have hread := haccepts.symbol?_eq wf
  obtain ⟨s, x, symbols, action, htop, hi, hx, hnone, hcell, -, hacts⟩ :=
    h.acts wf ht combine v (Item.terminal_lt wf hread)
  have haction := Conflict.action_of_reads wf ht.canonical htop.mem hx hnone hi hread
    (ItemAction.accept haccepts)
  obtain rfl := Option.some.inj (hcell.symm.trans haction)
  exact hacts.succeeds haddress h.not_accepted

/-- A rule that has been read is reduced, and the parser enters the state to which its non-terminal
leads from where the rule was begun; or else it accepts, with nothing left to read. -/
theorem At.finish {r : Nat} {rule : Rule} (hrule : g.rule? r = some rule)
    (haccept : rule.accept = false) (hq : At g a q ⟨r, rule.rhs.length⟩) (hp : At g a p i)
    (hread : i.symbol? g = some (.nonterminal rule.lhs))
    (hdrop : q.states.drop rule.rhs.length = p.states) (hended : Ended g rest)
    (hnext : ∀ q', At g a q' i.advance → q'.states.drop 1 = p.states →
      Succeeds t combine q' rest) : Succeeds t combine q rest := by
  have hcompleted : Item.Completed g ⟨r, rule.rhs.length⟩ := ⟨rule, hrule, haccept, rfl⟩
  obtain ⟨k, v, rest', rfl, hk, hlast⟩ := hended.exists_cons
  obtain ⟨s, x, symbols, action, htop, hi, hx, hnone, hcell, hholds, hacts⟩ :=
    hq.acts wf ht combine v hk
  rcases Conflict.action_of_completed wf ht.canonical htop.mem hx hnone hi hcompleted hk with
    haction | ⟨j, -, -, rfl, haction⟩
  · obtain rfl := Option.some.inj (hcell.symm.trans haction)
    generalize hstep : q.step t combine k v = step at hacts
    cases hacts with
    | @reduce _ n rule' s' s'' _ hrule' _ _ hle htop' hedge =>
      obtain rfl := Option.some.inj (hrule'.symm.trans hrule)
      -- What is uncovered is the stack on which the rule was begun.
      have hbelow : At g a (q.below rule'.rhs.length) i := by
        obtain ⟨u, hu, hmem⟩ := hp.exists_top
        rw [← hdrop] at hu
        exact ⟨hq.not_accepted, ⟨_, hholds.below hle⟩, u, hu, hmem⟩
      have hnot : ¬i.Accepts g := by
        intro haccepts
        simp [haccepts.symbol?_eq wf, Symbol.eof] at hread
      refine Succeeds.reduce ?_ hq.not_accepted hstep
      exact hnext _ (hbelow.enter htop' hedge hread hnot) hdrop
    | overflow hlarge => exact absurd haddress hlarge
  · obtain rfl := Option.some.inj (hcell.symm.trans haction)
    rw [hlast rfl]
    exact hacts.succeeds haddress hq.not_accepted

/-! ## A part of a rule -/

omit wf ht haddress in
theorem symbol?_of_drop {rule : Rule} (hrule : g.rule? i.rule = some rule) {X : Symbol}
    {β : List Symbol} (hleft : rule.rhs.drop i.position = X :: β) :
    i.symbol? g = some X ∧ rule.rhs.drop (i.position + 1) = β ∧
      ((rule.accept = true → β ≠ []) → ¬i.Accepts g) := by
  have hrest : rule.rhs.drop (i.position + 1) = β := by
    rw [← List.tail_drop, hleft, List.tail_cons]
  refine ⟨Item.symbol?_eq_some.mpr ⟨rule, hrule, ?_⟩, hrest, ?_⟩
  · rw [← List.head?_drop, hleft, List.head?_cons]
  · rintro hβ ⟨rule', hrule', haccept, hpos⟩
    obtain rfl := Option.some.inj (hrule'.symm.trans hrule)
    refine hβ haccept ?_
    rw [← hrest, List.drop_eq_nil_iff, hpos]

/-- **What a part of a rule derives is read.** If the rest is accepted from wherever the part has
been read, then so is what the part derives, with the rest. -/
theorem succeeds_of_yields (hg : g.StartsOutermost) {α : List Symbol} {w : List Nat}
    (hα : Yields g α w) {rule : Rule} {γ : List Symbol} {tokens : List (Nat × V)}
    (hp : At g a p i) (hrule : g.rule? i.rule = some rule)
    (hleft : rule.rhs.drop i.position = α ++ γ) (hγ : rule.accept = true → γ ≠ [])
    (htokens : tokens.map (·.1) = w) (hw : ∀ k ∈ w, k ≠ 0 ∧ k < g.terminals.length)
    (hended : Ended g rest)
    (hnext : ∀ q, At g a q ⟨i.rule, i.position + α.length⟩ →
      q.states.drop α.length = p.states → Succeeds t combine q rest) :
    Succeeds t combine p (tokens ++ rest) := by
  induction hα generalizing p i rule γ tokens rest with
  | nil =>
    obtain rfl := List.map_eq_nil_iff.mp htokens
    exact hnext p hp rfl
  | @terminal k β w _ ih =>
    obtain ⟨⟨k, v⟩, tokens, rfl, rfl, htail⟩ := List.map_eq_cons_iff.mp htokens
    obtain ⟨hread, hdrop, hnot⟩ := symbol?_of_drop hrule hleft
    refine hp.shift wf ht haddress hread (hnot fun haccept ↦ ?_) fun q hq hstates ↦ ?_
    · exact List.append_ne_nil_of_right_ne_nil β (hγ haccept)
    · refine ih hq hrule hdrop hγ htail (fun k hk ↦ hw k (List.mem_cons_of_mem _ hk)) hended
        fun q' hq' hstates' ↦ ?_
      obtain ⟨hpast, hdropped⟩ := hq'.past hstates' hstates (.terminal k)
      exact hnext q' hpast hdropped
  | @nonterminal r rule' β u w hr _ _ ihrhs ih =>
    obtain ⟨tokensu, tokensw, rfl, rfl, rfl⟩ := List.map_eq_append_iff.mp htokens
    obtain ⟨hread, hdrop, -⟩ := symbol?_of_drop hrule hleft
    have hmem : Symbol.nonterminal rule'.lhs ∈ rule.rhs := by
      refine List.mem_of_mem_drop (i := i.position) ?_
      rw [hleft]
      exact List.mem_cons_self
    have haccept := hg.not_accept (Grammar.mem_of_rule? hr) (Grammar.mem_of_rule? hrule) hmem
    have hended' : Ended g (tokensw ++ rest) :=
      hended.append fun k hk ↦ hw k (List.mem_append_right _ hk)
    rw [List.append_assoc]
    -- First the rule of the non-terminal is read, then what comes after the non-terminal.
    refine ihrhs (hp.start ht.canonical hr hread) hr (List.append_nil _).symm
      (by simp [haccept]) rfl (fun k hk ↦ hw k (List.mem_append_left _ hk)) hended'
      fun q hq hstates ↦ ?_
    rw [Nat.zero_add] at hq
    refine hq.finish wf ht haddress hr haccept hp hread hstates hended' fun q' hq' hstates' ↦ ?_
    refine ih hq' hrule hdrop hγ rfl (fun k hk ↦ hw k (List.mem_append_right _ hk)) hended
      fun q'' hq'' hstates'' ↦ ?_
    obtain ⟨hpast, hdropped⟩ := hq''.past hstates'' hstates' (.nonterminal rule'.lhs)
    exact hnext q'' hpast hdropped

/-! ## Sentences -/

omit wf haddress in
private theorem at_start {r : Nat} {rule : Rule} (hrule : g.rule? r = some rule)
    (haccept : rule.accept = true) : At g a ({} : Parser V) ⟨r, 0⟩ := by
  obtain ⟨s, hs, hitems⟩ := ht.canonical.start
  refine ⟨rfl, ⟨_, holds_start⟩, s, ⟨0, rfl, hs⟩, ?_⟩
  have hstart : (⟨r, 0⟩ : Item) ∈ Item.startItems g := ⟨r, rule, hrule, haccept, rfl⟩
  have hclosed : (⟨r, 0⟩ : Item) ∈ itemsOf s.itemSet := hitems ▸ Item.Closes.kernel hstart
  exact hclosed

/-- What an accept rule derives is read from the start, and then the parser accepts. -/
theorem succeeds_of_derives (hg : g.StartsOutermost) (heof : g.EofLast) {r : Nat} {rule : Rule}
    {α : List Symbol} (hrule : g.rule? r = some rule) (haccept : rule.accept = true)
    (hrhs : rule.rhs = α ++ [.eof]) {tokens : List (Nat × V)}
    (hα : Derives g α ((tokens.map (·.1)).map .terminal)) (combine : Nat → List V → V) (v : V) :
    Succeeds t combine {} (tokens ++ [(0, v)]) := by
  have hmem := Grammar.mem_of_rule? hrule
  have hyields := Grammar.yields_of_derives hα
  have hend : Symbol.eof ∈ rule.rhs := hrhs ▸ List.mem_append_right α List.mem_cons_self
  have hinner : Symbol.eof ∉ α := by
    have hlast := heof rule hmem
    rwa [if_pos haccept, hrhs, List.dropLast_concat] at hlast
  have hsub : α ⊆ rule.rhs := hrhs ▸ List.subset_append_left α _
  refine succeeds_of_yields wf ht haddress hg hyields (at_start ht hrule haccept) hrule hrhs
    (fun _ ↦ List.cons_ne_nil _ _) rfl (hyields.inner wf hg heof hmem hsub hinner)
    (Ended.eof (wf.terminal_lt rule hmem 0 hend)) fun q hq _ ↦ ?_
  refine hq.accept wf ht haddress ⟨rule, hrule, haccept, ?_⟩
  rw [hrhs, List.length_append, List.length_singleton, Nat.zero_add]

end Serves

/-- **Every sentence is accepted.** In a grammar without conflicts, take what an accept rule
derives before the end of input. When these tokens are pushed one after another, every one of them
is shifted, and the end of input is accepted, each within some number of reductions. -/
theorem sentence_accepted {M : Type} {compiler : Lexer.Compiler M} {withLexer : Bool}
    {d : Declarations} {x : Generated} (hd : d.build = .ok g)
    (hx : Generator.generate compiler withLexer g = .ok x)
    (hstates : x.tables.stateCount < 2 ^ 27) (hrules : x.rules.length < 2 ^ 27)
    (hconflicts : x.conflicts = []) (haddress : x.parserTables.Addressable)
    (hg : g.StartsOutermost) (heof : g.EofLast) {r : Nat} {rule : Rule} {α : List Symbol}
    (hrule : g.rule? r = some rule) (haccept : rule.accept = true) (hrhs : rule.rhs = α ++ [.eof])
    (tokens : List (Nat × V)) (hα : Derives g α ((tokens.map (·.1)).map .terminal)) (v : V) :
    ∃ bound z q, q.accepted = true ∧ ∀ limit ≥ bound,
      pushAll? x.parserTables combine limit (tokens ++ [(0, v)]) {}
        = some (tokens.map Call.shift ++ [Call.accept v z], some q) := by
  have wf := Declarations.wellFormed_of_build hd
  obtain ⟨a, resolved, horigin⟩ := origin_of_generate hx
  have ht := horigin.serves wf hstates hrules
  rw [hconflicts] at ht
  obtain ⟨bound, tokens', v', z, q, heq, hdone, hrun⟩ :=
    (succeeds_of_derives wf ht haddress hg heof hrule haccept hrhs hα combine v).exists_bound
  obtain ⟨rfl, hlast⟩ := List.append_inj' heq rfl
  obtain rfl : v = v' := by simpa using hlast
  exact ⟨bound, z, q, hdone, hrun⟩

/-- Commands, alone or closed by a semicolon. After a command the end of input is accepted, and
anything else has the command reduced. -/
def commands : Declarations where
  settings := { parserName := some "P", tokenType := some "T" }
  terminals :=
    [{ name := "x", pattern := none, code := none }, { name := ";", pattern := none, code := none }]
  rules :=
    [{ lhs := "Alone", rhs := ["Command", "EOF"] },
      { lhs := "Closed", rhs := ["Statement", ";", "EOF"] },
      { lhs := "Statement", rhs := ["Command"] }, { lhs := "Command", rhs := ["Mark", "x"] },
      { lhs := "Mark", rhs := [] }]
  accepts := ["Alone", "Closed"]

def commandsGrammar : Grammar :=
  okValue commands.build (by decide +kernel)

def commandsParser : Generated :=
  okValue (Generator.generate (.constant default) false commandsGrammar) (by decide +kernel)

theorem derives_command : Derives commandsGrammar [.nonterminal 3, .terminal 2]
    [.terminal 1, .terminal 2] := by
  have hstatement : commandsGrammar.rule? 2 = some ⟨2, 3, [.nonterminal 1], none, false, none⟩ := by
    decide +kernel
  have hcommand : commandsGrammar.rule? 3
      = some ⟨3, 1, [.nonterminal 4, .terminal 1], none, false, none⟩ := by
    decide +kernel
  have hmark : commandsGrammar.rule? 4 = some ⟨4, 4, [], none, false, none⟩ := by
    decide +kernel
  refine Relation.ReflTransGen.head (Grammar.Produces.rewrite [] _ hstatement) ?_
  refine Relation.ReflTransGen.head (Grammar.Produces.rewrite [] _ hcommand) ?_
  exact Relation.ReflTransGen.single (Grammar.Produces.rewrite [] _ hmark)

theorem sentence_accepted_commands :
    commands.build = .ok commandsGrammar ∧
      Generator.generate (.constant default) false commandsGrammar = .ok commandsParser ∧
      commandsParser.tables.stateCount < 2 ^ 27 ∧ commandsParser.rules.length < 2 ^ 27 ∧
      commandsParser.conflicts = [] ∧ commandsParser.parserTables.Addressable ∧
      commandsGrammar.StartsOutermost ∧ commandsGrammar.EofLast ∧
      (∃ rule, commandsGrammar.rule? 1 = some rule ∧ rule.accept = true ∧
        rule.rhs = [.nonterminal 3, .terminal 2] ++ [.eof]) ∧
      Derives commandsGrammar [.nonterminal 3, .terminal 2] [.terminal 1, .terminal 2] ∧
      ∃ bound z q, q.accepted = true ∧ ∀ limit ≥ bound,
        pushAll? commandsParser.parserTables (fun r values ↦ r :: values.flatten) limit
            [(1, []), (2, []), (0, [])] {}
          = some ([Call.shift (1, []), Call.shift (2, []), Call.accept [] z], some q) := by
  have hd : commands.build = .ok commandsGrammar := eq_ok_okValue _
  have hx : Generator.generate (.constant default) false commandsGrammar = .ok commandsParser :=
    eq_ok_okValue _
  have hstates : commandsParser.tables.stateCount < 2 ^ 27 := by decide +kernel
  have hrules : commandsParser.rules.length < 2 ^ 27 := by decide +kernel
  have hconflicts : commandsParser.conflicts = [] := by decide +kernel
  have haddress : commandsParser.parserTables.Addressable := by
    rw [Tables.Addressable]
    decide +kernel
  have hg : commandsGrammar.StartsOutermost := by
    rw [Grammar.StartsOutermost]
    decide +kernel
  have heof : commandsGrammar.EofLast := by
    rw [Grammar.EofLast]
    decide +kernel
  have hrule : commandsGrammar.rule? 1
      = some ⟨1, 2, [.nonterminal 3, .terminal 2, .terminal 0], none, true, none⟩ := by
    decide +kernel
  exact ⟨hd, hx, hstates, hrules, hconflicts, haddress, hg, heof, ⟨_, hrule, rfl, rfl⟩,
    derives_command, sentence_accepted hd hx hstates hrules hconflicts haddress hg heof hrule rfl
      rfl [(1, []), (2, [])] derives_command []⟩

end ShiftReduce.Parser
