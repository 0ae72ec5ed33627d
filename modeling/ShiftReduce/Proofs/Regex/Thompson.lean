import Mathlib.Computability.Language
import ShiftReduce.Proofs.Regex.Reads

/-!
# The machine of an expression

A part of a machine is right (`Part.Recognizes`) if it reads every text of its expression from its
entry to its exit, and if every labelling of the draft before it extends to the part: whatever label
the entry is given, the exit has no texts but those of the label followed by texts of the
expression.

## Why labellings

That a labelling extends is what lets parts be put together without a look at the paths through
them; a run of parts from one state on (`Follows`) is right in the same sense. Where a part is left
at a state that others lead to as well, the label of that state has been provided for by the caller
(`Leaves`, `Branches`).

## The induction

The machine of an expression is put together by recursion, so it is right by induction
(`build_recognizes`), along with sequences and branches. Copies, loops and optional copies are
treated for any builder of a part. The language of the machine is then that of the expression
(`language_ofExpr`), as long as no repetition asks for more copies than it allows.
-/

namespace ShiftReduce.Regex.Nfa

open Draft
open scoped Computability

variable {d d' : Draft} {p : Part} {L : Language Char} {current stop n : Nat} {builder : Builder}

/-- Labels of the first draft are kept, and those of the second are respected. -/
structure Relabels (d d' : Draft) (φ ψ : Nat → Language Char) : Prop where
  eq : ∀ s < d.size, ψ s = φ s
  keeps : Keeps d' ψ

theorem Relabels.trans {d'' : Draft} {φ ψ χ : Nat → Language Char} (h : Relabels d d' φ ψ)
    (h' : Relabels d' d'' ψ χ) (hle : d.size ≤ d'.size) : Relabels d d'' φ χ :=
  ⟨fun s hs ↦ (h'.eq s (lt_of_lt_of_le hs hle)).trans (h.eq s hs), h'.keeps⟩

/-- The part matches `L` from its entry to its exit. -/
structure Part.Recognizes (d : Draft) (p : Part) (L : Language Char) : Prop where
  grows : Grows d p.draft
  bounded : Bounded p.draft
  start_lt : p.start < p.draft.size
  stop_lt : p.stop < p.draft.size
  complete : ∀ w ∈ L, Reads p.draft.step p.start w p.stop
  sound : ∀ φ, Keeps d φ → ∀ K : Language Char,
    ∃ ψ, Relabels d p.draft φ ψ ∧ K ≤ ψ p.start ∧ ψ p.stop ≤ K * L

/-- What was added to the draft matches `L` from one state to another. -/
structure Follows (d : Draft) (current : Nat) (d' : Draft) (stop : Nat) (L : Language Char) :
    Prop where
  grows : Grows d d'
  bounded : Bounded d'
  stop_lt : stop < d'.size
  complete : ∀ w ∈ L, Reads d'.step current w stop
  sound : ∀ φ, Keeps d φ → ∃ ψ, Relabels d d' φ ψ ∧ ψ stop ≤ φ current * L

/-- The builder's parts match `L`. -/
def Builds (builder : Builder) (L : Language Char) : Prop :=
  ∀ d p, Bounded d → builder d = .ok p → p.Recognizes d L

/-! ## Runs of parts -/

theorem follows_nil (hd : Bounded d) (hc : current < d.size) : Follows d current d current 1 where
  grows := Grows.refl d
  bounded := hd
  stop_lt := hc
  complete := by
    rintro w rfl
    exact Reads.nil current
  sound := by
    intro φ hφ
    exact ⟨φ, ⟨fun _ _ ↦ rfl, hφ⟩, by rw [mul_one]⟩

theorem Part.Recognizes.enter (h : p.Recognizes d L) (hc : current < d.size) :
    Follows d current (p.draft.jump current p.start) p.stop L where
  grows := h.grows.trans (grows_jump _ _ _)
  bounded := h.bounded.jump (lt_of_lt_of_le hc h.grows.size_le) h.start_lt
  stop_lt := h.stop_lt
  complete := by
    intro w hw
    exact Reads.jump List.mem_cons_self ((grows_jump _ _ _).reads (h.complete w hw))
  sound := by
    intro φ hφ
    obtain ⟨ψ, hψ, hstart, hstop⟩ := h.sound φ hφ (φ current)
    refine ⟨ψ, ⟨hψ.eq, hψ.keeps.jump ?_⟩, hstop⟩
    rw [hψ.eq current hc]
    exact hstart

theorem Follows.trans {d'' : Draft} {middle : Nat} {L' : Language Char}
    (h : Follows d current d' middle L) (h' : Follows d' middle d'' stop L') :
    Follows d current d'' stop (L * L') where
  grows := h.grows.trans h'.grows
  bounded := h'.bounded
  stop_lt := h'.stop_lt
  complete := by
    intro w hw
    obtain ⟨u, hu, v, hv, rfl⟩ := Language.mem_mul.mp hw
    exact (h'.grows.reads (h.complete u hu)).append (h'.complete v hv)
  sound := by
    intro φ hφ
    obtain ⟨ψ, hψ, hmiddle⟩ := h.sound φ hφ
    obtain ⟨χ, hχ, hstop⟩ := h'.sound ψ hψ.keeps
    refine ⟨χ, hψ.trans hχ h.grows.size_le, ?_⟩
    calc χ stop ≤ ψ middle * L' := hstop
      _ ≤ φ current * L * L' := mul_le_mul_left hmiddle L'
      _ = φ current * (L * L') := mul_assoc _ _ _

theorem Follows.recognizes (h : Follows d.addState.2 d.size d' stop L) (hd : Bounded d) :
    Part.Recognizes d ⟨d.size, stop, d'⟩ L where
  grows := (grows_addState d).trans h.grows
  bounded := h.bounded
  start_lt := lt_of_lt_of_le (Nat.lt_succ_self _) h.grows.size_le
  stop_lt := h.stop_lt
  complete := h.complete
  sound := by
    intro φ hφ K
    obtain ⟨ψ, hψ, hstop⟩ := h.sound _ (hφ.addState hd K)
    have hstart : ψ d.size = K := by
      rw [hψ.eq d.size (Nat.lt_succ_self _), Function.update_self]
    refine ⟨ψ, ⟨?_, hψ.keeps⟩, hstart.ge, ?_⟩
    · intro s hs
      rw [hψ.eq s (Nat.lt_succ_of_lt hs), Function.update_of_ne hs.ne]
    · rwa [Function.update_self] at hstop

/-! ## Literals and classes -/

private theorem chain_follows {cs : List Char} (hd : Bounded d) (hc : current < d.size)
    (h : d.chain current cs = (stop, d')) : Follows d current d' stop {cs} := by
  induction cs generalizing d current with
  | nil =>
    obtain ⟨rfl, rfl⟩ := Prod.mk.inj h
    exact follows_nil hd hc
  | cons c cs ih =>
    have hstep : Follows d current (d.addState.2.move current (.single c) d.size) d.size {[c]} := by
      refine ⟨(grows_addState d).trans (grows_move _ _ _ _), ?_, Nat.lt_succ_self _, ?_, ?_⟩
      · exact hd.addState.move (Nat.lt_succ_of_lt hc) (Nat.lt_succ_self _)
      · rintro w rfl
        refine reads_move ⟨.single c, List.mem_cons_self, ?_⟩
        rw [contains_iff]
        exact ⟨le_rfl, le_rfl⟩
      · intro φ hφ
        refine ⟨_, ⟨fun s hs ↦ Function.update_of_ne hs.ne _ φ,
          (hφ.addState hd (φ current * {[c]})).move ?_⟩, ?_⟩
        · intro w hw c' hc'
          obtain rfl : c' = c := by
            rw [contains_iff] at hc'
            exact Char.toNat_inj.mp (le_antisymm hc'.2 hc'.1)
          rw [Function.update_of_ne hc.ne] at hw
          rw [Function.update_self]
          exact Language.mem_mul.mpr ⟨w, hw, [c'], rfl, rfl⟩
        · rw [Function.update_self]
    have hrest := ih hstep.bounded (Nat.lt_succ_self _) h
    have hlanguage : ({c :: cs} : Language Char) = {[c]} * {cs} := by
      ext w
      rw [Language.mem_mul]
      constructor
      · rintro rfl
        exact ⟨[c], rfl, cs, rfl, rfl⟩
      · rintro ⟨_, rfl, _, rfl, rfl⟩
        rfl
    rw [hlanguage]
    exact hstep.trans hrest

/-- A draft with a move between two states for each range. -/
structure Forks (d : Draft) (s t : Nat) (ranges : List CharRange) (d' : Draft) : Prop where
  size_eq : d'.size = d.size
  grows : Grows d d'
  bounded : Bounded d → s < d.size → t < d.size → Bounded d'
  mem_moves : ∀ r ∈ ranges, ⟨s, r, t⟩ ∈ d'.moves
  keeps : ∀ φ, Keeps d φ → (∀ r ∈ ranges, ∀ w ∈ φ s, ∀ c, r.contains c = true → w ++ [c] ∈ φ t) →
    Keeps d' φ

private theorem forks_foldl (d : Draft) (s t : Nat) (ranges : List CharRange) :
    Forks d s t ranges (ranges.foldl (fun d r ↦ d.move s r t) d) := by
  induction ranges generalizing d with
  | nil =>
    exact ⟨rfl, Grows.refl d, fun hd _ _ ↦ hd, by simp, fun φ hφ _ ↦ hφ⟩
  | cons r ranges ih =>
    have hrest := ih (d.move s r t)
    refine ⟨hrest.size_eq, (grows_move d s r t).trans hrest.grows, ?_, ?_, ?_⟩
    · intro hd hs ht
      exact hrest.bounded (hd.move hs ht) hs ht
    · rw [List.forall_mem_cons]
      exact ⟨hrest.grows.moves List.mem_cons_self, hrest.mem_moves⟩
    · intro φ hφ hmoves
      rw [List.forall_mem_cons] at hmoves
      exact hrest.keeps φ (hφ.move hmoves.1) hmoves.2

theorem Draft.Keeps.addTwo {φ : Nat → Language Char} (hφ : Keeps d φ) (hd : Bounded d)
    (K K' : Language Char) :
    ∃ ψ, Relabels d d.addState.2.addState.2 φ ψ ∧ ψ d.size = K ∧ ψ (d.size + 1) = K' := by
  refine ⟨_, ⟨?_, (hφ.addState hd K).addState hd.addState K'⟩, ?_, Function.update_self _ _ _⟩
  · intro s hs
    have hne : s ≠ d.addState.2.size := (Nat.lt_succ_of_lt hs).ne
    rw [Function.update_of_ne hne, Function.update_of_ne hs.ne]
  · have hne : d.size ≠ d.addState.2.size := (Nat.lt_succ_self _).ne
    rw [Function.update_of_ne hne, Function.update_self]

theorem fork_recognizes {ranges : List CharRange} {start : Nat} (hd : Bounded d)
    (h : d.fork ranges = (start, stop, d')) :
    Part.Recognizes d ⟨start, stop, d'⟩ (oneOf ranges) := by
  simp only [Draft.fork, Prod.mk.injEq] at h
  obtain ⟨rfl, rfl, rfl⟩ := h
  have hstart : d.size < d.addState.2.addState.2.size := Nat.lt_succ_of_lt (Nat.lt_succ_self _)
  have hstop : d.size + 1 < d.addState.2.addState.2.size := Nat.lt_succ_self _
  have hforks := forks_foldl d.addState.2.addState.2 d.size (d.size + 1) ranges
  refine ⟨(grows_addState d).trans ((grows_addState _).trans hforks.grows),
    hforks.bounded hd.addState.addState hstart hstop, hforks.size_eq ▸ hstart,
    hforks.size_eq ▸ hstop, ?_, ?_⟩
  · rintro w ⟨c, rfl, r, hr, hc⟩
    exact reads_move ⟨r, hforks.mem_moves r hr, hc⟩
  · intro φ hφ K
    obtain ⟨ψ, hψ, hentry, hexit⟩ := hφ.addTwo hd K (K * oneOf ranges)
    refine ⟨ψ, ⟨hψ.eq, hforks.keeps ψ hψ.keeps ?_⟩, hentry.ge, hexit.le⟩
    intro r hr w hw c hc
    rw [hentry] at hw
    rw [hexit]
    exact Language.mem_mul.mpr ⟨w, hw, [c], ⟨c, rfl, r, hr, hc⟩, rfl⟩

/-! ## Repetitions -/

/-- What leads back to where it starts can be done any number of times. -/
theorem reads_kstar {step : Nat → Option Char → Set Nat} {s : Nat} {w : List Char}
    (h : ∀ v ∈ L, Reads step s v s) (hw : w ∈ L∗) : Reads step s w s := by
  obtain ⟨parts, rfl, hparts⟩ := Language.mem_kstar.mp hw
  clear hw
  induction parts with
  | nil => exact Reads.nil s
  | cons v parts ih =>
    rw [List.forall_mem_cons] at hparts
    rw [List.flatten_cons]
    exact (h v hparts.1).append (ih hparts.2)

theorem Part.Recognizes.loop (h : p.Recognizes d L) (hc : current < d.size) :
    Follows d current (((p.draft.addState.2.jump current p.draft.size).jump
      p.draft.size p.start).jump p.stop p.draft.size) p.draft.size L∗ where
  grows := h.grows.trans ((grows_addState _).trans
    ((grows_jump _ _ _).trans ((grows_jump _ _ _).trans (grows_jump _ _ _))))
  bounded := by
    have hcurrent : current < p.draft.size := lt_of_lt_of_le hc h.grows.size_le
    have henter := h.bounded.addState.jump (Nat.lt_succ_of_lt hcurrent) (Nat.lt_succ_self _)
    have hthrough := henter.jump (Nat.lt_succ_self _) (Nat.lt_succ_of_lt h.start_lt)
    exact hthrough.jump (Nat.lt_succ_of_lt h.stop_lt) (Nat.lt_succ_self _)
  stop_lt := Nat.lt_succ_self _
  complete := by
    have hgrows : Grows p.draft (((p.draft.addState.2.jump current p.draft.size).jump
        p.draft.size p.start).jump p.stop p.draft.size) :=
      (grows_addState _).trans ((grows_jump _ _ _).trans
        ((grows_jump _ _ _).trans (grows_jump _ _ _)))
    intro w hw
    refine Reads.jump (List.mem_cons_of_mem _ (List.mem_cons_of_mem _ List.mem_cons_self)) ?_
    refine reads_kstar (fun v hv ↦ ?_) hw
    -- Out of the hub, through the part, and back.
    have hthrough := hgrows.reads (h.complete v hv)
    have hback := hthrough.append (reads_jump List.mem_cons_self)
    rw [List.append_nil] at hback
    exact Reads.jump (List.mem_cons_of_mem _ List.mem_cons_self) hback
  sound := by
    intro φ hφ
    obtain ⟨ψ, hψ, hstart, hstop⟩ := h.sound φ hφ (φ current * L∗)
    have hkeeps := hψ.keeps.addState h.bounded (φ current * L∗)
    have hcurrent : current < p.draft.size := lt_of_lt_of_le hc h.grows.size_le
    have hlabel : ∀ s < p.draft.size,
        Function.update ψ p.draft.size (φ current * L∗) s = ψ s :=
      fun s hs ↦ Function.update_of_ne hs.ne _ _
    refine ⟨_, ⟨?_, ((hkeeps.jump ?_).jump ?_).jump ?_⟩, ?_⟩
    · intro s hs
      rw [hlabel s (lt_of_lt_of_le hs h.grows.size_le), hψ.eq s hs]
    · rw [hlabel _ hcurrent, hψ.eq _ hc, Function.update_self]
      exact le_mul_of_one_le_right' one_le_kstar
    · rw [hlabel _ h.start_lt, Function.update_self]
      exact hstart
    · rw [hlabel _ h.stop_lt, Function.update_self]
      calc ψ p.stop ≤ φ current * L∗ * L := hstop
        _ = φ current * (L∗ * L) := mul_assoc _ _ _
        _ ≤ φ current * L∗ := mul_le_mul_right (kstar_mul_le_kstar) _
    · rw [Function.update_self]

/-- Copies with a way out before each: fewer copies lead to the exit, all of them to the stop, and
the exit has a label that the caller has provided for. -/
structure Leaves (d : Draft) (current : Nat) (d' : Draft) (stop exit n : Nat) (L : Language Char) :
    Prop where
  grows : Grows d d'
  bounded : Bounded d'
  stop_lt : stop < d'.size
  out : ∀ j < n, ∀ w ∈ L ^ j, Reads d'.step current w exit
  complete : ∀ w ∈ L ^ n, Reads d'.step current w stop
  sound : ∀ φ, Keeps d φ → (∀ j < n, φ current * L ^ j ≤ φ exit) →
    ∃ ψ, Relabels d d' φ ψ ∧ ψ stop ≤ φ current * L ^ n

/-- One more copy in front, with a way out before it. -/
theorem Leaves.cons {exit : Nat} (h : p.Recognizes d L) (hc : current < d.size)
    (hexit : exit < d.size)
    (hrest : Leaves ((p.draft.jump current p.start).jump current exit) p.stop d' stop exit n L) :
    Leaves d current d' stop exit (n + 1) L := by
  have henter := h.enter hc
  have hway := grows_jump (p.draft.jump current p.start) current exit
  -- A text of one more copy begins with a text of the first.
  have hfirst : ∀ u ∈ L, Reads d'.step current u p.stop :=
    fun u hu ↦ (hway.trans hrest.grows).reads (henter.complete u hu)
  refine ⟨henter.grows.trans (hway.trans hrest.grows), hrest.bounded, hrest.stop_lt, ?_, ?_, ?_⟩
  · intro j hj w hw
    cases j with
    | zero =>
      rw [pow_zero, Language.mem_one] at hw
      rw [hw]
      exact reads_jump (hrest.grows.jumps List.mem_cons_self)
    | succ j =>
      rw [pow_succ', Language.mem_mul] at hw
      obtain ⟨u, hu, v, hv, rfl⟩ := hw
      exact (hfirst u hu).append (hrest.out j (Nat.lt_of_succ_lt_succ hj) v hv)
  · intro w hw
    rw [pow_succ', Language.mem_mul] at hw
    obtain ⟨u, hu, v, hv, rfl⟩ := hw
    exact (hfirst u hu).append (hrest.complete v hv)
  · intro φ hφ hprovided
    obtain ⟨ψ, hψ, hstop⟩ := henter.sound φ hφ
    have hout : ψ current ≤ ψ exit := by
      have hzero := hprovided 0 (Nat.succ_pos n)
      rw [pow_zero, mul_one] at hzero
      rw [hψ.eq _ hc, hψ.eq _ hexit]
      exact hzero
    have hnext : ∀ j, ψ p.stop * L ^ j ≤ φ current * L ^ (j + 1) := by
      intro j
      calc ψ p.stop * L ^ j ≤ φ current * L * L ^ j := mul_le_mul_left hstop _
        _ = φ current * L ^ (j + 1) := by rw [pow_succ', mul_assoc]
    obtain ⟨χ, hχ, hlast⟩ := hrest.sound ψ (hψ.keeps.jump hout) fun j hj ↦ by
      rw [hψ.eq _ hexit]
      exact (hnext j).trans (hprovided (j + 1) (Nat.succ_lt_succ hj))
    exact ⟨χ, hψ.trans ⟨hχ.eq, hχ.keeps⟩ henter.grows.size_le, hlast.trans (hnext n)⟩

/-- Up to `n` texts of a language, one after another. -/
def upTo (L : Language Char) (n : Nat) : Language Char :=
  {w | ∃ j ≤ n, w ∈ L ^ j}

/-- What may follow the copies that a repetition asks for. -/
def extraOf (L : Language Char) : Option Nat → Language Char
  | none => L∗
  | some n => upTo L n

theorem pow_le_upTo {j : Nat} (h : j ≤ n) : L ^ j ≤ upTo L n :=
  fun _ hw ↦ ⟨j, h, hw⟩

section Repetition

variable (hb : Builds builder L)

include hb

private theorem copies_follows (hd : Bounded d) (hc : current < d.size)
    (h : copies builder n current d = .ok (stop, d')) : Follows d current d' stop (L ^ n) := by
  induction n generalizing d current with
  | zero =>
    obtain ⟨rfl, rfl⟩ := Prod.mk.inj (Except.ok.inj h)
    exact follows_nil hd hc
  | succ n ih =>
    rw [copies] at h
    split at h
    · simp at h
    · rename_i p hp
      have henter := (hb d p hd hp).enter hc
      rw [pow_succ']
      exact henter.trans (ih henter.bounded henter.stop_lt h)

private theorem loop_follows (hd : Bounded d) (hc : current < d.size)
    (h : loop builder current d = .ok (stop, d')) : Follows d current d' stop L∗ := by
  rw [loop] at h
  split at h
  · simp at h
  · rename_i p hp
    obtain ⟨rfl, rfl⟩ := Prod.mk.inj (Except.ok.inj h)
    exact (hb d p hd hp).loop hc

private theorem optionalCopies_leaves {exit : Nat} (hd : Bounded d) (hc : current < d.size)
    (hexit : exit < d.size) (h : optionalCopies builder exit n current d = .ok (stop, d')) :
    Leaves d current d' stop exit n L := by
  induction n generalizing d current with
  | zero =>
    obtain ⟨rfl, rfl⟩ := Prod.mk.inj (Except.ok.inj h)
    have hnil := follows_nil hd hc
    exact ⟨hnil.grows, hnil.bounded, hnil.stop_lt, by simp, hnil.complete,
      fun φ hφ _ ↦ hnil.sound φ hφ⟩
  | succ n ih =>
    rw [optionalCopies] at h
    split at h
    · simp at h
    · rename_i p hp
      have hpart := hb d p hd hp
      have henter := hpart.enter hc
      have hsize := henter.grows.size_le
      have hbounded := henter.bounded.jump (lt_of_lt_of_le hc hsize) (lt_of_lt_of_le hexit hsize)
      exact Leaves.cons hpart hc hexit
        (ih hbounded henter.stop_lt (lt_of_lt_of_le hexit hsize) h)

private theorem repetitionTail_follows {extra : Option Nat} (hd : Bounded d) (hc : current < d.size)
    (h : repetitionTail builder extra current d = .ok (stop, d')) :
    Follows d current d' stop (extraOf L extra) := by
  cases extra with
  | none => exact loop_follows hb hd hc h
  | some n =>
    simp only [repetitionTail] at h
    split at h
    · simp at h
    · rename_i last d₁ hcopies
      obtain ⟨rfl, rfl⟩ := Prod.mk.inj (Except.ok.inj h)
      have hleaves := optionalCopies_leaves hb hd.addState (Nat.lt_succ_of_lt hc)
        (Nat.lt_succ_self _) hcopies
      have hexit : d.size < d₁.size := lt_of_lt_of_le (Nat.lt_succ_self _) hleaves.grows.size_le
      have hway := grows_jump d₁ last d.size
      refine ⟨(grows_addState d).trans (hleaves.grows.trans hway),
        hleaves.bounded.jump hleaves.stop_lt hexit, hexit, ?_, ?_⟩
      · rintro w ⟨j, hj, hw⟩
        rcases Nat.lt_or_eq_of_le hj with hj | rfl
        · exact hway.reads (hleaves.out j hj w hw)
        · have hlast := (hway.reads (hleaves.complete w hw)).append (reads_jump List.mem_cons_self)
          rwa [List.append_nil] at hlast
      · intro φ hφ
        have hcurrent : Function.update φ d.size (φ current * upTo L n) current = φ current :=
          Function.update_of_ne hc.ne _ _
        have hlabel : Function.update φ d.size (φ current * upTo L n) d.size
            = φ current * upTo L n := by
          rw [Function.update_self]
        obtain ⟨ψ, hψ, hstop⟩ := hleaves.sound _ (hφ.addState hd (φ current * upTo L n))
          fun j hj ↦ by
            rw [hcurrent, hlabel]
            exact mul_le_mul_right (pow_le_upTo hj.le) _
        have hψexit : ψ d.size = φ current * upTo L n := by
          rw [hψ.eq _ (Nat.lt_succ_self _), hlabel]
        refine ⟨ψ, ⟨?_, hψ.keeps.jump ?_⟩, hψexit.le⟩
        · intro s hs
          rw [hψ.eq s (Nat.lt_succ_of_lt hs), Function.update_of_ne hs.ne]
        · show ψ last ≤ ψ d.size
          rw [hcurrent] at hstop
          rw [hψexit]
          exact hstop.trans (mul_le_mul_right (pow_le_upTo le_rfl) _)

end Repetition

/-- A number of copies within bounds: those that are asked for, and some more. -/
theorem language_repetition {min : Nat} {max : Option Nat} {greedy : Bool} {sub : Expr}
    (hle : ∀ m ∈ max, min ≤ m) : (Expr.repetition min max greedy sub).language
      = sub.language ^ min * extraOf sub.language (max.map (· - min)) := by
  ext w
  rw [Expr.language]
  show (∃ n, min ≤ n ∧ (∀ m ∈ max, n ≤ m) ∧ w ∈ sub.language ^ n) ↔ _
  have hsplit : ∀ j, w ∈ sub.language ^ (min + j) ↔
      w ∈ sub.language ^ min * sub.language ^ j := fun j ↦ by rw [pow_add]
  constructor
  · rintro ⟨n, hmin, hmax, hw⟩
    obtain ⟨j, rfl⟩ := Nat.exists_eq_add_of_le hmin
    rw [hsplit] at hw
    have hextra : sub.language ^ j ≤ extraOf sub.language (max.map (· - min)) := by
      cases max with
      | none => exact pow_le_kstar
      | some m =>
        exact pow_le_upTo (Nat.le_sub_of_add_le' (hmax m rfl))
    have hprefixed := mul_le_mul_right hextra (sub.language ^ min)
    exact hprefixed hw
  · intro hw
    obtain ⟨u, hu, v, hv, rfl⟩ := Language.mem_mul.mp hw
    have hcopies : ∃ j, v ∈ sub.language ^ j ∧ ∀ m ∈ max, min + j ≤ m := by
      cases max with
      | none =>
        have hv : v ∈ sub.language∗ := hv
        rw [Language.kstar_eq_iSup_pow, Language.mem_iSup] at hv
        obtain ⟨j, hj⟩ := hv
        exact ⟨j, hj, by simp⟩
      | some m =>
        obtain ⟨j, hj, hv⟩ := hv
        refine ⟨j, hv, ?_⟩
        intro m' hm'
        obtain rfl := Option.some.inj hm'
        have hj : j ≤ m - min := hj
        have hm := hle m rfl
        omega
    obtain ⟨j, hj, hmax⟩ := hcopies
    exact ⟨min + j, Nat.le_add_right _ _, hmax, (hsplit j).mpr (Language.mem_mul.mpr
      ⟨u, hu, v, hj, rfl⟩)⟩

/-! ## Whole expressions -/

private theorem language_bytes {ranges : List ByteRange} (h : ranges.all (·.last ≤ 0x7F) = true) :
    (Expr.bytes ranges).language = oneOf (ranges.map charRange) := by
  have hcode : ∀ b : UInt8, (Char.ofNat b.toNat).toNat = b.toNat := by
    intro b
    have hlt := b.toNat_lt
    exact toNat_ofNat (Or.inl (by omega))
  ext w
  rw [Expr.language]
  constructor
  · rintro ⟨c, b, rfl, hb, r, hr, hfirst, hlast⟩
    refine ⟨c, rfl, charRange r, List.mem_map_of_mem hr, ?_⟩
    rw [contains_iff, charRange, hcode, hcode, (Expr.utf8EncodeChar_eq_singleton_iff.mp hb).1]
    exact ⟨hfirst, hlast⟩
  · rintro ⟨c, rfl, _, hmem, hc⟩
    obtain ⟨r, hr, rfl⟩ := List.mem_map.mp hmem
    rw [contains_iff, charRange, hcode, hcode] at hc
    have hascii : r.last ≤ 0x7F := of_decide_eq_true (List.all_eq_true.mp h r hr)
    have hle : c.toNat ≤ 0x7F := hc.2.trans hascii
    have hbyte : (UInt8.ofNat c.toNat).toNat = c.toNat := by
      rw [UInt8.toNat_ofNat', Nat.mod_eq_of_lt (by omega)]
    refine ⟨c, UInt8.ofNat c.toNat, rfl, Expr.utf8EncodeChar_eq_singleton_iff.mpr ⟨hbyte.symm, hle⟩,
      r, hr, ?_, ?_⟩
    · rw [UInt8.le_iff_toNat_le, hbyte]
      exact hc.1
    · rw [UInt8.le_iff_toNat_le, hbyte]
      exact hc.2

/-- Branches between two states: each matching text leads from the first to the second, whose label
the caller has provided for. -/
structure Branches (d : Draft) (start stop : Nat) (d' : Draft) (L : Language Char) : Prop where
  grows : Grows d d'
  bounded : Bounded d'
  complete : ∀ w ∈ L, Reads d'.step start w stop
  sound : ∀ φ, Keeps d φ → φ start * L ≤ φ stop → ∃ ψ, Relabels d d' φ ψ

private theorem branches_nil {start : Nat} (hd : Bounded d) : Branches d start stop d 0 where
  grows := Grows.refl d
  bounded := hd
  complete := fun w hw ↦ absurd hw (Language.notMem_zero w)
  sound := fun φ hφ _ ↦ ⟨φ, fun _ _ ↦ rfl, hφ⟩

theorem Part.Recognizes.beside {L' : Language Char} {start : Nat} (h : p.Recognizes d L)
    (hstart : start < d.size) (hstop : stop < d.size)
    (h' : Branches ((p.draft.jump start p.start).jump p.stop stop) start stop d' L') :
    Branches d start stop d' (L + L') := by
  have henter := h.enter hstart
  have hleave := grows_jump (p.draft.jump start p.start) p.stop stop
  refine ⟨henter.grows.trans (hleave.trans h'.grows), h'.bounded, ?_, ?_⟩
  · rintro w (hw | hw)
    · have hthrough := (hleave.trans h'.grows).reads (henter.complete w hw)
      have hout := hthrough.append (reads_jump (h'.grows.jumps List.mem_cons_self))
      rwa [List.append_nil] at hout
    · exact h'.complete w hw
  · intro φ hφ hprovided
    rw [mul_add] at hprovided
    obtain ⟨ψ, hψ, hlast⟩ := henter.sound φ hφ
    have hjump : ψ p.stop ≤ ψ stop := by
      rw [hψ.eq _ hstop]
      exact hlast.trans (le_trans le_sup_left hprovided)
    have hothers : ψ start * L' ≤ ψ stop := by
      rw [hψ.eq _ hstart, hψ.eq _ hstop]
      exact le_trans le_sup_right hprovided
    obtain ⟨χ, hχ⟩ := h'.sound ψ (hψ.keeps.jump hjump) hothers
    exact ⟨χ, hψ.trans ⟨hχ.eq, hχ.keeps⟩ henter.grows.size_le⟩

theorem Branches.recognizes
    (h : Branches d.addState.2.addState.2 d.size (d.size + 1) d' L) (hd : Bounded d) :
    Part.Recognizes d ⟨d.size, d.size + 1, d'⟩ L where
  grows := (grows_addState d).trans ((grows_addState _).trans h.grows)
  bounded := h.bounded
  start_lt := lt_of_lt_of_le (Nat.lt_succ_of_lt (Nat.lt_succ_self _)) h.grows.size_le
  stop_lt := lt_of_lt_of_le (Nat.lt_succ_self _) h.grows.size_le
  complete := h.complete
  sound := by
    intro φ hφ K
    obtain ⟨ψ, hψ, hentry, hexit⟩ := hφ.addTwo hd K (K * L)
    obtain ⟨χ, hχ⟩ := h.sound ψ hψ.keeps (by rw [hentry, hexit])
    have hsize : d.size + 1 < d.addState.2.addState.2.size := Nat.lt_succ_self _
    refine ⟨χ, hψ.trans hχ (Nat.le_of_lt (Nat.lt_of_succ_lt hsize)), ?_, ?_⟩
    · rw [hχ.eq _ (Nat.lt_of_succ_lt hsize), hentry]
    · show χ (d.size + 1) ≤ K * L
      rw [hχ.eq _ hsize, hexit]

mutual

/-- The machine that is added for an expression matches what the expression does. -/
theorem build_recognizes (h : Expr) (hh : h.Ordered) : Builds (build h) h.language := by
  intro d p hd hp
  cases h with
  | empty =>
    obtain rfl := Except.ok.inj hp
    rw [Expr.language]
    exact (follows_nil hd.addState (Nat.lt_succ_self _)).recognizes hd
  | literal bytes =>
    simp only [build] at hp
    split at hp
    · simp at hp
    · rename_i text htext
      obtain rfl := Except.ok.inj hp
      rw [Expr.language_literal htext]
      exact (chain_follows hd.addState (Nat.lt_succ_self _) rfl).recognizes hd
  | chars ranges =>
    obtain rfl := Except.ok.inj hp
    rw [Expr.language]
    exact fork_recognizes hd rfl
  | bytes ranges =>
    simp only [build] at hp
    split at hp
    · rename_i hascii
      obtain rfl := Except.ok.inj hp
      rw [language_bytes hascii]
      exact fork_recognizes hd rfl
    · simp at hp
  | look l => simp [build] at hp
  | repetition min max greedy sub =>
    rw [Expr.Ordered] at hh
    have hsub := build_recognizes sub hh.2
    simp only [build] at hp
    split at hp
    · simp at hp
    · rename_i hcopies
      split at hp
      · simp at hp
      · rename_i htail
        obtain rfl := Except.ok.inj hp
        have hfirst := copies_follows hsub hd.addState (Nat.lt_succ_self _) hcopies
        have hrest := repetitionTail_follows hsub hfirst.bounded hfirst.stop_lt htail
        rw [language_repetition hh.1]
        exact (hfirst.trans hrest).recognizes hd
  | capture index name sub =>
    rw [Expr.Ordered] at hh
    rw [Expr.language]
    exact build_recognizes sub hh d p hd hp
  | concat subs =>
    rw [Expr.Ordered] at hh
    rw [Expr.language]
    simp only [build] at hp
    split at hp
    · simp at hp
    · rename_i hsubs
      obtain rfl := Except.ok.inj hp
      exact (buildSequence_follows subs hh hd.addState (Nat.lt_succ_self _) hsubs).recognizes hd
  | alternation subs =>
    rw [Expr.Ordered] at hh
    rw [Expr.language]
    simp only [build] at hp
    split at hp
    · simp at hp
    · rename_i hsubs
      obtain rfl := Except.ok.inj hp
      exact (buildBranches_branches subs hh hd.addState.addState
        (Nat.lt_succ_of_lt (Nat.lt_succ_self _)) (Nat.lt_succ_self _) hsubs).recognizes hd

theorem buildSequence_follows (hs : List Expr) (hh : Expr.AllOrdered hs) {d : Draft}
    {current : Nat} {stop : Nat} {d' : Draft} (hd : Bounded d) (hc : current < d.size)
    (h : buildSequence hs current d = .ok (stop, d')) :
    Follows d current d' stop (Expr.languageOfAll hs) := by
  cases hs with
  | nil =>
    obtain ⟨rfl, rfl⟩ := Prod.mk.inj (Except.ok.inj h)
    rw [Expr.languageOfAll]
    exact follows_nil hd hc
  | cons e rest =>
    rw [Expr.AllOrdered] at hh
    simp only [buildSequence] at h
    split at h
    · simp at h
    · rename_i p hp
      have henter := (build_recognizes e hh.1 d p hd hp).enter hc
      rw [Expr.languageOfAll]
      exact henter.trans (buildSequence_follows rest hh.2 henter.bounded henter.stop_lt h)

theorem buildBranches_branches (hs : List Expr) (hh : Expr.AllOrdered hs) {d : Draft}
    {start stop : Nat} {d' : Draft} (hd : Bounded d) (hstart : start < d.size)
    (hstop : stop < d.size) (h : buildBranches hs start stop d = .ok d') :
    Branches d start stop d' (Expr.languageOfAny hs) := by
  cases hs with
  | nil =>
    obtain rfl := Except.ok.inj h
    rw [Expr.languageOfAny]
    exact branches_nil hd
  | cons e rest =>
    rw [Expr.AllOrdered] at hh
    simp only [buildBranches] at h
    split at h
    · simp at h
    · rename_i p hp
      have hpart := build_recognizes e hh.1 d p hd hp
      have henter := hpart.enter hstart
      have hsize := henter.grows.size_le
      rw [Expr.languageOfAny]
      exact hpart.beside hstart hstop (buildBranches_branches rest hh.2
        (henter.bounded.jump henter.stop_lt (lt_of_lt_of_le hstop hsize))
        (lt_of_lt_of_le hstart hsize) (lt_of_lt_of_le hstop hsize) h)

end

variable {h : Expr} {tag : Nat} {m : Nfa}

/-- What is made of an expression: the part for it, put together on its own. -/
theorem ofExpr_eq_ok_iff : ofExpr h tag = .ok m ↔ ∃ p, build h {} = .ok p ∧
    m = ⟨p.draft.size, p.draft.moves, p.draft.jumps, p.start, p.stop, tag⟩ := by
  rw [ofExpr]
  split
  · rename_i e he
    simp [he]
  · rename_i p hp
    simp [hp, eq_comm]

theorem tag_ofExpr (hm : ofExpr h tag = .ok m) : m.tag = tag := by
  obtain ⟨p, -, rfl⟩ := ofExpr_eq_ok_iff.mp hm
  rfl

theorem wellFormed_ofExpr (hh : h.Ordered) (hm : ofExpr h tag = .ok m) : m.WellFormed := by
  obtain ⟨p, hp, rfl⟩ := ofExpr_eq_ok_iff.mp hm
  have hpart := build_recognizes h hh {} p bounded_empty hp
  exact ⟨hpart.bounded, hpart.start_lt, hpart.stop_lt⟩

/-- The machine of an expression matches the texts that the expression does. -/
theorem language_ofExpr (hh : h.Ordered) (hm : ofExpr h tag = .ok m) :
    m.language = h.language := by
  obtain ⟨p, hp, rfl⟩ := ofExpr_eq_ok_iff.mp hm
  have hpart := build_recognizes h hh {} p bounded_empty hp
  ext w
  rw [mem_language_iff]
  constructor
  · intro hreads
    obtain ⟨ψ, hψ, hstart, hstop⟩ := hpart.sound (fun _ ↦ 0) keeps_empty 1
    rw [one_mul] at hstop
    exact hstop (hψ.keeps.mem hreads (hstart rfl))
  · exact hpart.complete w

end ShiftReduce.Regex.Nfa
