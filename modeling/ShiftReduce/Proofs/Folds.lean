import Mathlib.Data.List.Induction
import ShiftReduce.Error

/-!
# Computations that may fail

Whatever the stages of the generator look up may be missing, and they say so: a result is an
`Except Error`, or an `Option` where a missing entry is all that can go wrong. This module has what
is needed to reason about such results without unfolding the monad again and again.

## Results

A computation in two steps has a result if both steps have one (`bind_eq_ok`), and what has been
required is there (`require_eq_ok`). A result that is known to exist is named by `okValue`, so that
a concrete input can be followed through several stages.

## Folds

Nearly every loop is a fold over a list. Three things are asked about one, each answered by an
invariant that may mention the part of the list treated so far:

* what holds of its result (`foldlM_ok`),
* where it failed, and in which state (`foldlM_error`),
* that it does not fail (`exists_foldlM_eq_ok`).

The invariant speaks of a prefix of the list, so the inductions go from the back. Folds of options
are folds of requirements (`require_foldlM`) and take what is needed from there. Where a list of
results is made, one for each entry, no step knows of the others, and what holds of the list is
that it holds entry by entry (`mapM_eq_some_iff`, `exists_mapM_eq_ok`).
-/

namespace ShiftReduce

/-! ## Results -/

theorem require_eq_ok {α : Type} {x : Option α} {a : α} : require x = .ok a ↔ x = some a := by
  cases x <;> simp [require]

theorem bind_eq_ok {α β : Type} {x : Except Error α} {f : α → Except Error β} {b : β} :
    (x >>= f) = .ok b ↔ ∃ a, x = .ok a ∧ f a = .ok b := by
  cases x with
  | error e => simp [bind, Except.bind]
  | ok a => simp [bind, Except.bind]

/-- The result of a computation that does not fail. -/
def okValue {ε α : Type} : (x : Except ε α) → x.isOk = true → α
  | .ok a, _ => a

theorem eq_ok_okValue {ε α : Type} {x : Except ε α} (h : x.isOk = true) :
    x = .ok (okValue x h) := by
  cases x with
  | error e => simp [Except.isOk, Except.toBool] at h
  | ok a => rfl

/-! ## Folds -/

/-- What holds at the start and is kept by each step, with the items treated so far in view, holds
of the result. -/
theorem foldlM_ok {α β : Type} {f : β → α → Except Error β} {P : List α → β → Prop} {xs : List α}
    {b b' : β} (h : xs.foldlM f b = .ok b') (hstart : P [] b)
    (hstep : ∀ done x c c', P done c → f c x = .ok c' → P (done ++ [x]) c') : P xs b' := by
  induction xs using List.reverseRecOn generalizing b' with
  | nil =>
    obtain rfl := Except.ok.inj h
    exact hstart
  | append_singleton xs x ih =>
    rw [List.foldlM_append, bind_eq_ok] at h
    obtain ⟨c, hc, hx⟩ := h
    rw [List.foldlM_cons, bind_eq_ok] at hx
    obtain ⟨c', hx, hnil⟩ := hx
    obtain rfl := Except.ok.inj hnil
    exact hstep xs x c c' (ih hc) hx

/-- A fold that fails does so at the first step that fails, after what the steps before it have
established. -/
theorem foldlM_error {α β : Type} {f : β → α → Except Error β} {P : List α → β → Prop}
    {xs : List α} {b : β} {e : Error} (h : xs.foldlM f b = .error e) (hstart : P [] b)
    (hstep : ∀ done x c c', P done c → f c x = .ok c' → P (done ++ [x]) c') :
    ∃ before x after c, xs = before ++ x :: after ∧ P before c ∧ f c x = .error e := by
  induction xs using List.reverseRecOn with
  | nil => cases h
  | append_singleton xs x ih =>
    rw [List.foldlM_append] at h
    cases hxs : xs.foldlM f b with
    | error e' =>
      rw [hxs] at h
      obtain rfl := Except.error.inj h
      obtain ⟨before, y, after, c, rfl, hbefore, hy⟩ := ih hxs
      exact ⟨before, y, after ++ [x], c, by simp, hbefore, hy⟩
    | ok c =>
      have hx : (f c x >>= pure) = .error e := by
        rw [hxs] at h
        exact h
      rw [bind_pure] at hx
      exact ⟨xs, x, [], c, rfl, foldlM_ok hxs hstart hstep, hx⟩

/-- A fold does not fail if no step does, where each step may rely on what the steps before it have
established. -/
theorem exists_foldlM_eq_ok {α β : Type} {f : β → α → Except Error β} {P : List α → β → Prop}
    {xs : List α} {b : β} (hstart : P [] b)
    (hstep : ∀ done x c, done ++ [x] <+: xs → P done c →
      ∃ c', f c x = .ok c' ∧ P (done ++ [x]) c') :
    ∃ b', xs.foldlM f b = .ok b' ∧ P xs b' := by
  induction xs using List.reverseRecOn with
  | nil => exact ⟨b, rfl, hstart⟩
  | append_singleton xs x ih =>
    obtain ⟨c, hc, hP⟩ := ih fun done y c hpre ↦
      hstep done y c (hpre.trans (List.prefix_append xs [x]))
    obtain ⟨c', hc', hP'⟩ := hstep xs x c (List.prefix_refl _) hP
    refine ⟨c', ?_, hP'⟩
    rw [List.foldlM_append, hc]
    show List.foldlM f c [x] = _
    rw [List.foldlM_cons, hc']
    rfl

/-- A fold does not fail if no step does. -/
theorem exists_foldlM_eq_ok_of_mem {α β : Type} {f : β → α → Except Error β} {xs : List α} {b : β}
    (h : ∀ x ∈ xs, ∀ c, ∃ c', f c x = .ok c') : ∃ b', xs.foldlM f b = .ok b' := by
  obtain ⟨b', hb', -⟩ := exists_foldlM_eq_ok (P := fun _ _ ↦ True) (b := b) trivial
    fun done x c hpre _ ↦
      (h x (hpre.subset (List.mem_append_right _ List.mem_cons_self)) c).imp fun _ hc ↦
        ⟨hc, trivial⟩
  exact ⟨b', hb'⟩

/-! ## Folds of options -/

theorem require_foldlM {α β : Type} (f : β → α → Option β) (xs : List α) (b : β) :
    require (xs.foldlM f b) = xs.foldlM (fun b x ↦ require (f b x)) b := by
  induction xs generalizing b with
  | nil => rfl
  | cons x xs ih =>
    rw [List.foldlM_cons, List.foldlM_cons]
    cases f b x with
    | none => rfl
    | some c => exact ih c

theorem foldlM_some {α β : Type} {f : β → α → Option β} {P : List α → β → Prop} {xs : List α}
    {b b' : β} (h : xs.foldlM f b = some b') (hstart : P [] b)
    (hstep : ∀ done x c c', P done c → f c x = some c' → P (done ++ [x]) c') : P xs b' := by
  have hok : xs.foldlM (fun b x ↦ require (f b x)) b = .ok b' := by
    rw [← require_foldlM, h, require_some]
  exact foldlM_ok hok hstart fun done x c c' hP hc ↦ hstep done x c c' hP (require_eq_ok.mp hc)

theorem exists_foldlM_eq_some_of_mem {α β : Type} {f : β → α → Option β} {xs : List α} {b : β}
    (h : ∀ x ∈ xs, ∀ c, ∃ c', f c x = some c') : ∃ b', xs.foldlM f b = some b' := by
  obtain ⟨b', hb'⟩ := exists_foldlM_eq_ok_of_mem (f := fun b x ↦ require (f b x)) (b := b)
    fun x hx c ↦ (h x hx c).imp fun _ ↦ require_eq_ok.mpr
  rw [← require_foldlM, require_eq_ok] at hb'
  exact ⟨b', hb'⟩

/-! ## Lists of results -/

theorem mapM_eq_some_iff {α β : Type} {f : α → Option β} {xs : List α} {ys : List β} :
    xs.mapM f = some ys ↔ xs.map f = ys.map some := by
  induction xs generalizing ys with
  | nil =>
    rw [List.mapM_nil, List.map_nil, eq_comm (a := []), List.map_eq_nil_iff]
    exact ⟨fun h ↦ (Option.some.inj h).symm, fun h ↦ congrArg some h.symm⟩
  | cons x xs ih =>
    rw [List.mapM_cons, List.map_cons]
    simp only [Option.bind_eq_bind, Option.bind_eq_some_iff, ih]
    constructor
    · rintro ⟨y, hy, zs, hzs, h⟩
      obtain rfl := Option.some.inj h
      rw [hy, hzs, List.map_cons]
    · intro h
      obtain ⟨y, zs, rfl, hy, hzs⟩ := List.map_eq_cons_iff.mp h.symm
      exact ⟨y, hy.symm, zs, hzs.symm, rfl⟩

theorem exists_mapM_eq_ok {α β ε : Type} {f : α → Except ε β} {l : List α}
    (h : ∀ x ∈ l, ∃ y, f x = .ok y) :
    ∃ ys, l.mapM f = .ok ys ∧ List.Forall₂ (fun x y ↦ f x = .ok y) l ys := by
  induction l with
  | nil => exact ⟨[], rfl, List.Forall₂.nil⟩
  | cons x l ih =>
    rw [List.forall_mem_cons] at h
    obtain ⟨⟨y, hy⟩, hrest⟩ := h
    obtain ⟨ys, hys, hall⟩ := ih hrest
    refine ⟨y :: ys, ?_, List.Forall₂.cons hy hall⟩
    rw [List.mapM_cons, hy, hys]
    rfl

end ShiftReduce
