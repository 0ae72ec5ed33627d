import Mathlib.Data.Finset.Dedup
import Mathlib.Data.List.Induction
import Mathlib.Data.List.Sort
import ShiftReduce.Ascending
import ShiftReduce.Item

/-!
# Sets of items as ascending lists

Items are strictly ordered, so inserting into an ascending list keeps it ascending, and an ascending
list of items is determined by its members. A list can therefore stand for the set of its members:
that is `itemsOf`, and equal lists are equal sets (`itemsOf_inj`).

Inserting is treated for any order, since numbers and names are kept in the same way
(`Ascending.mem_insert`, `Ascending.pairwise_insert`). The order of items is lexicographic and is
kept by advancing, so that the items of a group stay in order when they become a kernel.
-/

namespace ShiftReduce

/-! ## The order of items -/

namespace Item

theorem lt_iff {a b : Item} :
    a.lt b = true ↔ a.rule < b.rule ∨ (a.rule = b.rule ∧ a.position < b.position) := by
  simp [lt]

theorem lt_irrefl (a : Item) : ¬a.lt a = true := by
  rw [lt_iff]
  omega

theorem lt_trans {a b c : Item} (hab : a.lt b = true) (hbc : b.lt c = true) :
    a.lt c = true := by
  rw [lt_iff] at *
  omega

private theorem lt_asymm {a b : Item} (h : a.lt b = true) : ¬b.lt a = true :=
  fun h' ↦ lt_irrefl a (lt_trans h h')

theorem eq_of_not_lt {a b : Item} (hab : ¬a.lt b = true) (hba : ¬b.lt a = true) : a = b := by
  rw [lt_iff] at hab hba
  obtain ⟨r, p⟩ := a
  obtain ⟨r', p'⟩ := b
  simp only [mk.injEq] at *
  omega

private theorem advance_lt_advance {a b : Item} :
    a.advance.lt b.advance = true ↔ a.lt b = true := by
  simp [lt_iff, advance]

theorem advance_injective : Function.Injective advance := by
  rintro ⟨r, p⟩ ⟨r', p'⟩ h
  simpa [advance] using h

end Item

/-- The items of a list stand in ascending order. -/
abbrev AscendingItems (items : List Item) : Prop :=
  items.Pairwise fun a b ↦ a.lt b = true

namespace AscendingItems

variable {items items' : List Item}

theorem nodup (h : AscendingItems items) : items.Nodup := by
  refine h.imp ?_
  rintro a b hlt rfl
  exact Item.lt_irrefl a hlt

theorem eq_of_mem_iff (h : AscendingItems items) (h' : AscendingItems items')
    (hmem : ∀ i, i ∈ items ↔ i ∈ items') : items = items' :=
  ((List.perm_ext_iff_of_nodup h.nodup h'.nodup).mpr hmem).eq_of_pairwise
    (fun _ _ _ _ hab hba ↦ absurd hba (Item.lt_asymm hab)) h h'

theorem toFinset_inj (h : AscendingItems items) (h' : AscendingItems items')
    (heq : items.toFinset = items'.toFinset) : items = items' :=
  h.eq_of_mem_iff h' fun i ↦ by rw [← List.mem_toFinset, heq, List.mem_toFinset]

theorem filter (h : AscendingItems items) (p : Item → Bool) : AscendingItems (items.filter p) :=
  List.Pairwise.filter p h

theorem map_advance (h : AscendingItems items) : AscendingItems (items.map Item.advance) :=
  List.pairwise_map.mpr (h.imp Item.advance_lt_advance.mpr)

end AscendingItems

/-! ## Insertion -/

/-- Where any two entries are comparable or equal, inserting adds just the entry. -/
theorem Ascending.mem_insert {α : Type} {lt : α → α → Bool}
    (htotal : ∀ a b, ¬lt a b = true → ¬lt b a = true → a = b) {xs : List α} {x y : α} :
    y ∈ Ascending.insert lt x xs ↔ y = x ∨ y ∈ xs := by
  fun_induction Ascending.insert lt x xs with
  | case1 => simp
  | case2 z zs h => simp
  | case3 z zs h h' ih =>
    rw [List.mem_cons, ih, List.mem_cons, or_left_comm]
  | case4 z zs h h' =>
    obtain rfl := htotal x z h h'
    simp

theorem mem_insert_item {items : List Item} {x i : Item} :
    i ∈ Ascending.insert Item.lt x items ↔ i = x ∨ i ∈ items :=
  Ascending.mem_insert fun _ _ ↦ Item.eq_of_not_lt

theorem Ascending.pairwise_insert {α : Type} {lt : α → α → Bool}
    (htotal : ∀ a b, ¬lt a b = true → ¬lt b a = true → a = b)
    (htrans : ∀ a b c, lt a b = true → lt b c = true → lt a c = true) {xs : List α} {x : α}
    (h : xs.Pairwise fun a b ↦ lt a b = true) :
    (Ascending.insert lt x xs).Pairwise fun a b ↦ lt a b = true := by
  fun_induction Ascending.insert lt x xs with
  | case1 => exact List.pairwise_singleton _ _
  | case2 y ys hxy =>
    refine List.pairwise_cons.mpr ⟨fun z hz ↦ ?_, h⟩
    rcases List.mem_cons.mp hz with rfl | hz
    · exact hxy
    · exact htrans _ _ _ hxy (List.rel_of_pairwise_cons h hz)
  | case3 y ys hxy hyx ih =>
    refine List.pairwise_cons.mpr ⟨fun z hz ↦ ?_, ih h.of_cons⟩
    rcases (Ascending.mem_insert htotal).mp hz with rfl | hz
    · exact hyx
    · exact List.rel_of_pairwise_cons h hz
  | case4 => exact h

theorem Ascending.mem_ofList {α : Type} {lt : α → α → Bool}
    (htotal : ∀ a b, ¬lt a b = true → ¬lt b a = true → a = b) {xs : List α} {y : α} :
    y ∈ Ascending.ofList lt xs ↔ y ∈ xs := by
  induction xs using List.reverseRecOn with
  | nil => rfl
  | append_singleton xs x ih =>
    rw [ofList, List.foldl_append, List.foldl_cons, List.foldl_nil, Ascending.mem_insert htotal,
      ← ofList, ih, List.mem_append, List.mem_singleton, or_comm]

theorem Ascending.pairwise_ofList {α : Type} {lt : α → α → Bool}
    (htotal : ∀ a b, ¬lt a b = true → ¬lt b a = true → a = b)
    (htrans : ∀ a b c, lt a b = true → lt b c = true → lt a c = true) (xs : List α) :
    (Ascending.ofList lt xs).Pairwise fun a b ↦ lt a b = true := by
  induction xs using List.reverseRecOn with
  | nil => exact List.Pairwise.nil
  | append_singleton xs x ih =>
    rw [ofList, List.foldl_append, List.foldl_cons, List.foldl_nil]
    exact Ascending.pairwise_insert htotal htrans ih

theorem ascending_insert_item {items : List Item} {x : Item} (h : AscendingItems items) :
    AscendingItems (Ascending.insert Item.lt x items) :=
  Ascending.pairwise_insert (fun _ _ ↦ Item.eq_of_not_lt) (fun _ _ _ ↦ Item.lt_trans) h

/-! ## The set of a list -/

def itemsOf (items : List Item) : Set Item :=
  {i | i ∈ items}

@[simp] theorem mem_itemsOf {items : List Item} {i : Item} : i ∈ itemsOf items ↔ i ∈ items :=
  Iff.rfl

theorem itemsOf_inj {items items' : List Item} (h : AscendingItems items)
    (h' : AscendingItems items') : itemsOf items = itemsOf items' ↔ items = items' := by
  constructor
  · intro heq
    exact h.eq_of_mem_iff h' fun i ↦ Set.ext_iff.mp heq i
  · rintro rfl
    rfl

end ShiftReduce
