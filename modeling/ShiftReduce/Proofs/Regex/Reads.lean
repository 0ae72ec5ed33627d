import Mathlib
import ShiftReduce.Proofs.Regex.Language
import ShiftReduce.Regex.Nfa

/-!
# What machines with free moves read

A machine reads a text from one state to another if its moves and jumps make a path along the text
(`Reads`); Mathlib's `εNFA` gathers what can be read from a state in the same way
(`reads_iff_mem_evalFrom`). A pattern's machine is such an automaton, and its language is what it
reads from its start to its accepting state.

## Labels

What a draft reads is bounded from above by a labelling of its states with languages that every move
and jump respects (`Draft.Keeps`): a text that is read between two states takes the label of the
first to the label of the second (`Draft.Keeps.mem`). From below it is enough to name a path, and
what has been read stays readable as the draft grows (`Grows.reads`).

## Small steps

A draft grows by a state, a move or a jump at a time. There is a lemma for each of the three and
each property, so that larger parts are put together without looking into a draft.
-/

namespace ShiftReduce.Regex

/-! ## Reading -/

section Reads

variable {α σ : Type} {step : σ → Option α → Set σ} {s t u : σ} {w v : List α}

/-- The steps of a machine lead from `s` to `t` along the text `w`. -/
inductive Reads (step : σ → Option α → Set σ) : σ → List α → σ → Prop
  | nil (s : σ) : Reads step s [] s
  | jump {s t u : σ} {w : List α} : t ∈ step s none → Reads step t w u → Reads step s w u
  | move {s t u : σ} {a : α} {w : List α} : t ∈ step s (some a) → Reads step t w u →
      Reads step s (a :: w) u

theorem Reads.append (h : Reads step s w t) (h' : Reads step t v u) : Reads step s (w ++ v) u := by
  induction h with
  | nil => exact h'
  | jump hjump _ ih => exact Reads.jump hjump (ih h')
  | move hmove _ ih => exact Reads.move hmove (ih h')

theorem reads_jump (h : t ∈ step s none) : Reads step s [] t :=
  Reads.jump h (Reads.nil t)

theorem reads_move {a : α} (h : t ∈ step s (some a)) : Reads step s [a] t :=
  Reads.move h (Reads.nil t)

theorem Reads.exists_append (h : Reads step s (w ++ v) u) :
    ∃ t, Reads step s w t ∧ Reads step t v u := by
  generalize hx : w ++ v = x at h
  induction h generalizing w with
  | nil s =>
    obtain ⟨rfl, rfl⟩ := List.append_eq_nil_iff.mp hx
    exact ⟨s, Reads.nil s, Reads.nil s⟩
  | jump hjump _ ih =>
    obtain ⟨t, hfirst, hrest⟩ := ih hx
    exact ⟨t, Reads.jump hjump hfirst, hrest⟩
  | @move s s' u a x hmove hreads ih =>
    cases w with
    | nil =>
      refine ⟨s, Reads.nil s, ?_⟩
      rw [List.nil_append] at hx
      exact hx ▸ Reads.move hmove hreads
    | cons b w =>
      rw [List.cons_append] at hx
      obtain ⟨rfl, hx'⟩ := List.cons.inj hx
      obtain ⟨t, hfirst, hrest⟩ := ih hx'
      exact ⟨t, Reads.move hmove hfirst, hrest⟩

/-- The last element is read by a move, with jumps before and behind it. -/
theorem reads_append_singleton {a : α} : Reads step s (w ++ [a]) t ↔
    ∃ u v, Reads step s w u ∧ v ∈ step u (some a) ∧ Reads step v [] t := by
  constructor
  · intro h
    obtain ⟨u, hfirst, hlast⟩ := h.exists_append
    clear h
    generalize hx : [a] = x at hlast
    induction hlast with
    | nil => cases hx
    | jump hjump _ ih =>
      have hjumped := hfirst.append (reads_jump hjump)
      rw [List.append_nil] at hjumped
      exact ih hjumped hx
    | move hmove hrest _ =>
      obtain ⟨rfl, rfl⟩ := List.cons.inj hx
      exact ⟨_, _, hfirst, hmove, hrest⟩
  · rintro ⟨u, v, hfirst, hmove, hrest⟩
    exact hfirst.append (Reads.move hmove hrest)

theorem Reads.mono {step' : σ → Option α → Set σ} (h : Reads step s w t)
    (hstep : ∀ s o, step s o ⊆ step' s o) : Reads step' s w t := by
  induction h with
  | nil s => exact Reads.nil s
  | jump hjump _ ih => exact Reads.jump (hstep _ _ hjump) ih
  | move hmove _ ih => exact Reads.move (hstep _ _ hmove) ih

/-- The states that can be reached along a text are those that evaluation finds. -/
theorem reads_iff_mem_evalFrom (M : εNFA α σ) : Reads M.step s w t ↔ t ∈ M.evalFrom {s} w := by
  rw [εNFA.mem_evalFrom_iff_exists_path]
  constructor
  · intro h
    induction h with
    | nil s => exact ⟨[], rfl, εNFA.IsPath.nil s⟩
    | jump hjump _ ih =>
      obtain ⟨x, rfl, hpath⟩ := ih
      exact ⟨none :: x, List.reduceOption_cons_of_none x, εNFA.IsPath.cons _ _ _ _ _ hjump hpath⟩
    | @move s t u a w hmove _ ih =>
      obtain ⟨x, rfl, hpath⟩ := ih
      exact ⟨some a :: x, List.reduceOption_cons_of_some a x,
        εNFA.IsPath.cons _ _ _ _ _ hmove hpath⟩
  · rintro ⟨x, rfl, hpath⟩
    induction hpath with
    | nil s => exact Reads.nil s
    | cons t s u a x hstep _ ih =>
      cases a with
      | none =>
        rw [List.reduceOption_cons_of_none]
        exact Reads.jump hstep ih
      | some c =>
        rw [List.reduceOption_cons_of_some]
        exact Reads.move hstep ih

end Reads

/-! ## Machines of patterns -/

def Nfa.Draft.step (d : Draft) (s : Nat) : Option Char → Set Nat
  | none => {t | ⟨s, t⟩ ∈ d.jumps}
  | some c => {t | ∃ r : CharRange, ⟨s, r, t⟩ ∈ d.moves ∧ r.contains c = true}

namespace Nfa

/-- The states, moves and jumps of a machine. -/
def draft (m : Nfa) : Draft where
  size := m.size
  moves := m.moves
  jumps := m.jumps

/-- The machine of a pattern as an automaton. -/
def automaton (m : Nfa) : εNFA Char Nat where
  step := m.draft.step
  start := {m.start}
  accept := {m.accept}

/-- The texts that a machine reads from its start to its accepting state. -/
def language (m : Nfa) : Language Char :=
  m.automaton.accepts

theorem mem_language_iff {m : Nfa} {w : List Char} :
    w ∈ m.language ↔ Reads m.draft.step m.start w m.accept := by
  have hreads : Reads m.draft.step m.start w m.accept ↔ m.accept ∈ m.automaton.eval w :=
    reads_iff_mem_evalFrom m.automaton
  rw [hreads]
  constructor
  · rintro ⟨s, rfl, hs⟩
    exact hs
  · intro h
    exact ⟨m.accept, rfl, h⟩

namespace Draft

variable {d d' : Draft} {s t u : Nat} {w v : List Char}

/-! ## Drafts that grow -/

/-- The second draft has all that the first one has. -/
structure Grows (d d' : Draft) : Prop where
  size_le : d.size ≤ d'.size
  moves : d.moves ⊆ d'.moves
  jumps : d.jumps ⊆ d'.jumps

theorem Grows.refl (d : Draft) : Grows d d :=
  ⟨le_rfl, List.Subset.refl _, List.Subset.refl _⟩

theorem Grows.trans {d'' : Draft} (h : Grows d d') (h' : Grows d' d'') : Grows d d'' :=
  ⟨h.size_le.trans h'.size_le, List.Subset.trans h.moves h'.moves,
    List.Subset.trans h.jumps h'.jumps⟩

theorem Grows.reads (hd : Grows d d') (h : Reads d.step s w t) : Reads d'.step s w t := by
  refine h.mono ?_
  rintro s (_ | c) t ht
  · exact hd.jumps ht
  · obtain ⟨r, hmove, hc⟩ := ht
    exact ⟨r, hd.moves hmove, hc⟩

theorem grows_addState (d : Draft) : Grows d d.addState.2 :=
  ⟨Nat.le_succ _, List.Subset.refl _, List.Subset.refl _⟩

theorem grows_move (d : Draft) (s : Nat) (r : CharRange) (t : Nat) : Grows d (d.move s r t) :=
  ⟨le_rfl, List.subset_cons_self _ _, List.Subset.refl _⟩

theorem grows_jump (d : Draft) (s t : Nat) : Grows d (d.jump s t) :=
  ⟨le_rfl, List.Subset.refl _, List.subset_cons_self _ _⟩

/-! ## Labellings -/

/-- All moves and jumps are between states of the draft. -/
structure Bounded (d : Draft) : Prop where
  moves : ∀ m ∈ d.moves, m.source < d.size ∧ m.target < d.size
  jumps : ∀ j ∈ d.jumps, j.source < d.size ∧ j.target < d.size

/-- Moves and jumps take a text of the label of a state to one of the label of the next. -/
structure Keeps (d : Draft) (φ : Nat → Language Char) : Prop where
  moves : ∀ m ∈ d.moves, ∀ w ∈ φ m.source, ∀ c, m.range.contains c = true → w ++ [c] ∈ φ m.target
  jumps : ∀ j ∈ d.jumps, φ j.source ≤ φ j.target

theorem Bounded.lt_of_mem_step (h : Bounded d) {o : Option Char} (ht : t ∈ d.step s o) :
    t < d.size := by
  cases o with
  | none => exact (h.jumps _ ht).2
  | some c =>
    obtain ⟨r, hmove, -⟩ := ht
    exact (h.moves _ hmove).2

variable {φ ψ : Nat → Language Char}

theorem Keeps.mem (hφ : Keeps d φ) (h : Reads d.step s w t) (hv : v ∈ φ s) : v ++ w ∈ φ t := by
  induction h generalizing v with
  | nil => rwa [List.append_nil]
  | jump hjump _ ih => exact ih (hφ.jumps _ hjump hv)
  | @move s t u c w hmove _ ih =>
    obtain ⟨r, hmove, hc⟩ := hmove
    have hnext := ih (hφ.moves _ hmove v hv c hc)
    rwa [List.append_assoc, List.singleton_append] at hnext

theorem Keeps.congr (hφ : Keeps d φ) (hd : Bounded d) (h : ∀ s < d.size, ψ s = φ s) :
    Keeps d ψ := by
  refine ⟨?_, ?_⟩
  · intro m hm w hw c hc
    obtain ⟨hsource, htarget⟩ := hd.moves m hm
    rw [h _ hsource] at hw
    rw [h _ htarget]
    exact hφ.moves m hm w hw c hc
  · intro j hj
    obtain ⟨hsource, htarget⟩ := hd.jumps j hj
    rw [h _ hsource, h _ htarget]
    exact hφ.jumps j hj

theorem bounded_empty : Bounded {} :=
  ⟨by simp, by simp⟩

theorem keeps_empty : Keeps {} φ :=
  ⟨by simp, by simp⟩

theorem Bounded.addState (h : Bounded d) : Bounded d.addState.2 :=
  ⟨fun m hm ↦ ⟨Nat.lt_succ_of_lt (h.moves m hm).1, Nat.lt_succ_of_lt (h.moves m hm).2⟩,
    fun j hj ↦ ⟨Nat.lt_succ_of_lt (h.jumps j hj).1, Nat.lt_succ_of_lt (h.jumps j hj).2⟩⟩

theorem Bounded.move (h : Bounded d) {r : CharRange} (hs : s < d.size) (ht : t < d.size) :
    Bounded (d.move s r t) :=
  ⟨List.forall_mem_cons.mpr ⟨⟨hs, ht⟩, h.moves⟩, h.jumps⟩

theorem Bounded.jump (h : Bounded d) (hs : s < d.size) (ht : t < d.size) :
    Bounded (d.jump s t) :=
  ⟨h.moves, List.forall_mem_cons.mpr ⟨⟨hs, ht⟩, h.jumps⟩⟩

theorem Keeps.move (h : Keeps d φ) {r : CharRange}
    (hmove : ∀ w ∈ φ s, ∀ c, r.contains c = true → w ++ [c] ∈ φ t) : Keeps (d.move s r t) φ :=
  ⟨List.forall_mem_cons.mpr ⟨hmove, h.moves⟩, h.jumps⟩

theorem Keeps.jump (h : Keeps d φ) (hjump : φ s ≤ φ t) : Keeps (d.jump s t) φ :=
  ⟨h.moves, List.forall_mem_cons.mpr ⟨hjump, h.jumps⟩⟩

/-- A new state can have any label. -/
theorem Keeps.addState (h : Keeps d φ) (hd : Bounded d) (K : Language Char) :
    Keeps d.addState.2 (Function.update φ d.size K) := by
  have hkeeps : Keeps d (Function.update φ d.size K) :=
    h.congr hd fun s hs ↦ Function.update_of_ne hs.ne K φ
  exact ⟨hkeeps.moves, hkeeps.jumps⟩

end Draft

/-- All states that a machine mentions are its own. -/
structure WellFormed (m : Nfa) : Prop where
  bounded : m.draft.Bounded
  start_lt : m.start < m.size
  accept_lt : m.accept < m.size

end Nfa

end ShiftReduce.Regex
