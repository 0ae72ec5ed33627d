import Mathlib.Data.List.Defs
import ShiftReduce.Proofs.Items
import ShiftReduce.Proofs.Regex.Language
import ShiftReduce.Regex.Subsets

/-!
# The cut of the characters

The code points at which labels start and behind which they end cut the characters into windows. A
label that holds one character of a window holds them all, so a window can be tested by its first
character, and those that lie in some label make up the labels (`Union.cut_disjointRanges`).

## Code points that are no characters

A window is over code points and a range over characters: an end that lies among the code points
that are no characters is moved past them, which loses no character (`charsBetween?_eq_some`). A
window may have nothing else in it, and then it has no range.

## The result

For the labels of joined machines this makes the events an exact partition of the characters that
some state reads (`Union.disjointRanges_partition`): they are in ascending order and apart, a
character lies in one of them exactly if some label holds it, and every label is made up of whole
events. No condition is put on the labels.
-/

namespace ShiftReduce.Regex.Union

/-! ## Ascending numbers -/

theorem eq_of_not_lt {a b : Nat} (hab : ¬decide (a < b) = true) (hba : ¬decide (b < a) = true) :
    a = b := by
  rw [decide_eq_true_iff] at hab hba
  exact le_antisymm (not_lt.mp hba) (not_lt.mp hab)

theorem mem_numbers {xs : List Nat} {x : Nat} :
    x ∈ Ascending.ofList (fun a b ↦ a < b) xs ↔ x ∈ xs :=
  Ascending.mem_ofList fun _ _ ↦ eq_of_not_lt

theorem ascending_numbers (xs : List Nat) :
    (Ascending.ofList (fun a b ↦ a < b) xs).Pairwise (· < ·) := by
  have htrans : ∀ a b c : Nat, decide (a < b) = true → decide (b < c) = true →
      decide (a < c) = true := by
    intro a b c hab hbc
    rw [decide_eq_true_iff] at hab hbc ⊢
    exact hab.trans hbc
  exact (Ascending.pairwise_ofList (fun _ _ ↦ eq_of_not_lt) htrans xs).imp of_decide_eq_true

/-- Between two members of an ascending list lies a window of neighbours. -/
theorem exists_window {bs : List Nat} {a b n : Nat} (h : bs.Pairwise (· < ·)) (ha : a ∈ bs)
    (hb : b ∈ bs) (han : a ≤ n) (hnb : n < b) :
    ∃ p ∈ bs.consecutivePairs, p.1 ≤ n ∧ n < p.2 := by
  induction bs generalizing a with
  | nil => simp at ha
  | cons x bs ih =>
    cases bs with
    | nil =>
      rw [List.mem_singleton] at ha hb
      omega
    | cons y bs =>
      rw [List.consecutivePairs, List.tail_cons, List.zip_cons_cons, List.exists_mem_cons_iff]
      have hxn : x ≤ n := by
        rcases List.mem_cons.mp ha with rfl | ha
        · exact han
        · exact (List.rel_of_pairwise_cons h ha).le.trans han
      by_cases hny : n < y
      · exact Or.inl ⟨hxn, hny⟩
      · right
        have hb : b ∈ y :: bs := by
          rcases List.mem_cons.mp hb with rfl | hb
          · omega
          · exact hb
        exact ih h.of_cons List.mem_cons_self hb (not_lt.mp hny)

theorem window_gap {bs : List Nat} {p : Nat × Nat} (h : bs.Pairwise (· < ·))
    (hp : p ∈ bs.consecutivePairs) : p.1 < p.2 ∧ p.2 ∈ bs ∧ ∀ x ∈ bs, x ≤ p.1 ∨ p.2 ≤ x := by
  induction bs with
  | nil => simp at hp
  | cons x bs ih =>
    cases bs with
    | nil => exact absurd hp List.not_mem_nil
    | cons y bs =>
      have hx : ∀ z ∈ y :: bs, x < z := fun z hz ↦ List.rel_of_pairwise_cons h hz
      have hy : ∀ z ∈ bs, y < z := fun z hz ↦ List.rel_of_pairwise_cons h.of_cons hz
      rw [List.consecutivePairs, List.tail_cons, List.zip_cons_cons] at hp
      rcases List.mem_cons.mp hp with rfl | hp
      · refine ⟨hx y List.mem_cons_self, List.mem_cons_of_mem _ List.mem_cons_self, ?_⟩
        rw [List.forall_mem_cons, List.forall_mem_cons]
        exact ⟨Or.inl le_rfl, Or.inr le_rfl, fun z hz ↦ Or.inr (hy z hz).le⟩
      · obtain ⟨hlt, hmem, hgap⟩ := ih h.of_cons hp
        refine ⟨hlt, List.mem_cons_of_mem _ hmem, ?_⟩
        rw [List.forall_mem_cons]
        refine ⟨Or.inl ?_, hgap⟩
        have hleft : p.1 ∈ y :: bs := (List.of_mem_zip hp).1
        exact (hx _ hleft).le

private theorem pairwise_windows {bs : List Nat} (h : bs.Pairwise (· < ·)) :
    bs.consecutivePairs.Pairwise fun p q ↦ p.2 ≤ q.1 := by
  induction bs with
  | nil => exact List.Pairwise.nil
  | cons x bs ih =>
    cases bs with
    | nil => exact List.Pairwise.nil
    | cons y bs =>
      rw [List.consecutivePairs, List.tail_cons, List.zip_cons_cons]
      refine List.pairwise_cons.mpr ⟨?_, ih h.of_cons⟩
      intro q hq
      rcases List.mem_cons.mp (List.of_mem_zip hq).1 with hq' | hq'
      · exact hq'.ge
      · exact (List.rel_of_pairwise_cons h.of_cons hq').le

/-! ## Windows and characters -/

private theorem isSurrogate_iff {n : Nat} : isSurrogate n = true ↔ 0xD800 ≤ n ∧ n ≤ 0xDFFF := by
  rw [isSurrogate, Bool.and_eq_true, decide_eq_true_iff, decide_eq_true_iff]

/-- No character is a surrogate, and every other code point up to the last is one. -/
theorem toNat_cases (c : Char) : c.toNat < 0xD800 ∨ (0xDFFF < c.toNat ∧ c.toNat < 0x110000) :=
  c.valid

theorem charsBetween?_eq {low high : Nat} (hlow : low < high) (hhigh : high ≤ 0x110000) :
    ∃ first last, charsBetween? low high
        = (if first ≤ last then some ⟨Char.ofNat first, Char.ofNat last⟩ else none) ∧
      (last < 0xD800 ∨ (0xDFFF < last ∧ last < 0x110000)) ∧ (first < 0xD800 ∨ 0xDFFF < first) ∧
      ∀ c : Char, (first ≤ c.toNat ↔ low ≤ c.toNat) ∧ (c.toNat ≤ last ↔ c.toNat < high) := by
  refine ⟨if isSurrogate low then 0xE000 else low,
    if isSurrogate (high - 1) then 0xD7FF else high - 1, rfl, ?_, ?_, fun c ↦ ⟨?_, ?_⟩⟩
  all_goals simp only [isSurrogate_iff]
  · split <;> omega
  · split <;> omega
  · have hc := toNat_cases c
    split <;> omega
  · have hc := toNat_cases c
    split <;> omega

theorem charsBetween?_eq_some {low high : Nat} {r : CharRange} (hlow : low < high)
    (hhigh : high ≤ 0x110000) (h : charsBetween? low high = some r) :
    r.first.toNat ≤ r.last.toNat ∧
      ∀ c, r.contains c = true ↔ low ≤ c.toNat ∧ c.toNat < high := by
  obtain ⟨first, last, heq, hlast, hfirst, hends⟩ := charsBetween?_eq hlow hhigh
  rw [heq] at h
  split at h
  · rename_i hle
    obtain rfl := Option.some.inj h
    have hcode : (Char.ofNat first).toNat = first :=
      toNat_ofNat (show first < 0xD800 ∨ (0xDFFF < first ∧ first < 0x110000) by omega)
    simp only [contains_iff, hcode, toNat_ofNat hlast]
    exact ⟨hle, fun c ↦ and_congr (hends c).1 (hends c).2⟩
  · simp at h

private theorem exists_charsBetween? {low high : Nat} {c : Char} (hhigh : high ≤ 0x110000)
    (hlc : low ≤ c.toNat) (hch : c.toNat < high) : ∃ r, charsBetween? low high = some r := by
  obtain ⟨first, last, heq, -, -, hends⟩ := charsBetween?_eq (hlc.trans_lt hch) hhigh
  have hle : first ≤ last := ((hends c).1.mpr hlc).trans ((hends c).2.mpr hch)
  exact ⟨_, heq.trans (if_pos hle)⟩

/-! ## The events -/

/-- Some ranges cut the characters of some labels: they are in order and apart, hold the characters
of the labels, and none is divided by a label. -/
structure Cut (labels events : List CharRange) : Prop where
  ordered : ∀ e ∈ events, e.first.toNat ≤ e.last.toNat
  apart : events.Pairwise fun e e' ↦ e.last.toNat < e'.first.toNat
  exists_iff : ∀ c, (∃ e ∈ events, e.contains c = true) ↔ ∃ l ∈ labels, l.contains c = true
  contains_iff : ∀ e ∈ events, ∀ c, e.contains c = true → ∀ l ∈ labels,
    (l.contains c = true ↔ l.contains e.first = true)

variable {labels : List CharRange}

theorem mem_bounds {n : Nat} :
    n ∈ bounds labels ↔ ∃ l ∈ labels, n = l.first.toNat ∨ n = l.last.toNat + 1 := by
  rw [bounds, mem_numbers, List.mem_flatMap]
  simp

theorem ascending_bounds (labels : List CharRange) : (bounds labels).Pairwise (· < ·) :=
  ascending_numbers _

/-- A label holds all characters of a window or none. -/
theorem contains_congr {p : Nat × Nat} (hp : p ∈ (bounds labels).consecutivePairs) {l : CharRange}
    (hl : l ∈ labels) {c c' : Char} (hc : p.1 ≤ c.toNat ∧ c.toNat < p.2)
    (hc' : p.1 ≤ c'.toNat ∧ c'.toNat < p.2) : l.contains c = true ↔ l.contains c' = true := by
  obtain ⟨-, -, hgap⟩ := window_gap (ascending_bounds labels) hp
  have hfirst := hgap _ (mem_bounds.mpr ⟨l, hl, Or.inl rfl⟩)
  have hlast := hgap _ (mem_bounds.mpr ⟨l, hl, Or.inr rfl⟩)
  rw [contains_iff, contains_iff]
  omega

/-- The events: the ranges of the windows whose characters some label holds. -/
theorem disjointRanges_eq (labels : List CharRange) :
    disjointRanges labels = (bounds labels).consecutivePairs.filterMap fun p ↦
      (charsBetween? p.1 p.2).filter fun r ↦ labels.any (·.contains r.first) := by
  have hwindows : (bounds labels).zipWith charsBetween? (bounds labels).tail
      = (bounds labels).consecutivePairs.map fun p ↦ charsBetween? p.1 p.2 :=
    List.map_uncurry_zip_eq_zipWith.symm
  rw [disjointRanges, hwindows, List.filterMap_map]
  rfl

theorem mem_disjointRanges {e : CharRange} : e ∈ disjointRanges labels ↔
    ∃ p ∈ (bounds labels).consecutivePairs, charsBetween? p.1 p.2 = some e ∧
      ∃ l ∈ labels, l.contains e.first = true := by
  rw [disjointRanges_eq]
  simp only [List.mem_filterMap, Option.filter_eq_some_iff, List.any_eq_true]

theorem window_bounds {p : Nat × Nat} (hp : p ∈ (bounds labels).consecutivePairs) :
    p.1 < p.2 ∧ p.2 ≤ 0x110000 := by
  obtain ⟨hlt, hmem, -⟩ := window_gap (ascending_bounds labels) hp
  obtain ⟨l, -, hbound⟩ := mem_bounds.mp hmem
  have hfirst := toNat_cases l.first
  have hlast := toNat_cases l.last
  exact ⟨hlt, by omega⟩

theorem window_of_mem {p : Nat × Nat} {e : CharRange}
    (hp : p ∈ (bounds labels).consecutivePairs) (he : charsBetween? p.1 p.2 = some e) :
    (p.1 ≤ e.first.toNat ∧ e.first.toNat ≤ e.last.toNat ∧ e.last.toNat < p.2) ∧
      ∀ c, e.contains c = true ↔ p.1 ≤ c.toNat ∧ c.toNat < p.2 := by
  obtain ⟨hlt, hhigh⟩ := window_bounds hp
  obtain ⟨hle, hmem⟩ := charsBetween?_eq_some hlt hhigh he
  have hfirst := (hmem e.first).mp (contains_iff.mpr ⟨le_rfl, hle⟩)
  have hlast := (hmem e.last).mp (contains_iff.mpr ⟨hle, le_rfl⟩)
  exact ⟨⟨hfirst.1, hle, hlast.2⟩, hmem⟩

/-- A label that holds a character of a window holds the first of its event, and conversely. -/
theorem contains_first_iff {p : Nat × Nat} {e : CharRange}
    (hp : p ∈ (bounds labels).consecutivePairs) (he : charsBetween? p.1 p.2 = some e)
    {l : CharRange} (hl : l ∈ labels) {c : Char} (hc : e.contains c = true) :
    l.contains c = true ↔ l.contains e.first = true := by
  obtain ⟨hends, hmem⟩ := window_of_mem hp he
  exact contains_congr hp hl ((hmem c).mp hc) ⟨hends.1, hends.2.1.trans_lt hends.2.2⟩

/-- The events cut the characters of the labels. -/
theorem cut_disjointRanges (labels : List CharRange) : Cut labels (disjointRanges labels) where
  ordered := by
    intro e he
    obtain ⟨p, hp, hwindow, -⟩ := mem_disjointRanges.mp he
    exact (window_of_mem hp hwindow).1.2.1
  apart := by
    rw [disjointRanges_eq]
    refine List.Pairwise.filterMap _ ?_ (List.Pairwise.and_mem.mp
      (pairwise_windows (ascending_bounds labels)))
    rintro p q ⟨hp, hq, hle⟩ e he e' he'
    have hleft := (window_of_mem hp (Option.filter_eq_some_iff.mp he).1).1
    have hright := (window_of_mem hq (Option.filter_eq_some_iff.mp he').1).1
    omega
  exists_iff := by
    intro c
    constructor
    · rintro ⟨e, he, hc⟩
      obtain ⟨p, hp, hwindow, l, hl, hfirst⟩ := mem_disjointRanges.mp he
      exact ⟨l, hl, (contains_first_iff hp hwindow hl hc).mpr hfirst⟩
    · rintro ⟨l, hl, hc⟩
      have hrange := contains_iff.mp hc
      obtain ⟨p, hp, hlow, hhigh⟩ := exists_window (ascending_bounds labels)
        (mem_bounds.mpr ⟨l, hl, Or.inl rfl⟩) (mem_bounds.mpr ⟨l, hl, Or.inr rfl⟩) hrange.1
        (Nat.lt_succ_of_le hrange.2)
      obtain ⟨e, he⟩ := exists_charsBetween? (window_bounds hp).2 hlow hhigh
      have hce := ((window_of_mem hp he).2 c).mpr ⟨hlow, hhigh⟩
      exact ⟨e, mem_disjointRanges.mpr ⟨p, hp, he, l, hl, (contains_first_iff hp he hl hce).mp hc⟩,
        hce⟩
  contains_iff := by
    intro e he c hc l hl
    obtain ⟨p, hp, hwindow, -⟩ := mem_disjointRanges.mp he
    exact contains_first_iff hp hwindow hl hc

theorem Cut.length_le {events : List CharRange} (h : Cut labels events) :
    events.length ≤ 0x110000 := by
  have hascending : (events.map (·.first.toNat)).Pairwise (· < ·) := by
    rw [List.pairwise_map]
    refine (List.Pairwise.and_mem.mp h.apart).imp ?_
    rintro e e' ⟨he, -, hlt⟩
    exact (h.ordered e he).trans_lt hlt
  have hnodup : (events.map (·.first.toNat)).Nodup := hascending.imp fun hlt ↦ hlt.ne
  have hsubset : events.map (·.first.toNat) ⊆ List.range 0x110000 := by
    intro n hn
    obtain ⟨e, -, rfl⟩ := List.mem_map.mp hn
    have hcode := toNat_cases e.first
    exact List.mem_range.mpr (by omega)
  have hle := (hnodup.subperm hsubset).length_le
  rwa [List.length_map, List.length_range] at hle

/-! ## The labels of joined machines -/

theorem mem_labels_iff {u : Union} {r : CharRange} :
    r ∈ u.labels ↔ ∃ moves ∈ u.moves, ∃ t, (r, t) ∈ moves := by
  simp [labels]

theorem Cut.within_or_apart {events : List CharRange} (h : Cut labels events) {e l : CharRange}
    (he : e ∈ events) (hl : l ∈ labels) :
    (∀ c, e.contains c = true → l.contains c = true) ∨
      ∀ c, e.contains c = true → l.contains c = false := by
  cases hfirst : l.contains e.first with
  | true => exact Or.inl fun c hc ↦ (h.contains_iff e he c hc l hl).mpr hfirst
  | false =>
    refine Or.inr fun c hc ↦ Bool.eq_false_iff.mpr fun hlc ↦ ?_
    rw [(h.contains_iff e he c hc l hl).mp hlc] at hfirst
    simp at hfirst

/-- **The events partition the characters that are read.** Whatever the states read, the events are
non-empty ranges in ascending order, each behind the one before; a character lies in an event just
if some state reads it; and every label holds an event as a whole or not at all. -/
theorem disjointRanges_partition (u : Union) :
    (∀ e ∈ disjointRanges u.labels, e.first ≤ e.last) ∧
    (disjointRanges u.labels).Pairwise (fun e e' ↦ e.last < e'.first) ∧
    (∀ c : Char, (∃ e ∈ disjointRanges u.labels, e.contains c = true) ↔
      ∃ moves ∈ u.moves, ∃ r t, (r, t) ∈ moves ∧ r.contains c = true) ∧
    ∀ e ∈ disjointRanges u.labels, ∀ moves ∈ u.moves, ∀ r t, (r, t) ∈ moves →
      (∀ c, e.contains c = true → r.contains c = true) ∨
        ∀ c, e.contains c = true → r.contains c = false := by
  have hcut := cut_disjointRanges u.labels
  refine ⟨hcut.ordered, hcut.apart, fun c ↦ ?_, fun e he moves hmoves r t hr ↦ ?_⟩
  · rw [hcut.exists_iff c]
    constructor
    · rintro ⟨r, hr, hc⟩
      obtain ⟨moves, hmoves, t, hmem⟩ := mem_labels_iff.mp hr
      exact ⟨moves, hmoves, r, t, hmem, hc⟩
    · rintro ⟨moves, hmoves, r, t, hmem, hc⟩
      exact ⟨r, mem_labels_iff.mpr ⟨moves, hmoves, t, hmem⟩, hc⟩
  · exact hcut.within_or_apart he (mem_labels_iff.mpr ⟨moves, hmoves, t, hr⟩)

-- Labels on either side of the code points that are no characters, and one that spans them.
example : disjointRanges
    [⟨'a', Char.ofNat 0xD7FF⟩, ⟨Char.ofNat 0xE000, Char.ofNat 0x10FFFF⟩,
      ⟨Char.ofNat 0xD7FE, Char.ofNat 0xE001⟩]
    = [⟨'a', Char.ofNat 0xD7FD⟩, ⟨Char.ofNat 0xD7FE, Char.ofNat 0xD7FF⟩,
        ⟨Char.ofNat 0xE000, Char.ofNat 0xE001⟩, ⟨Char.ofNat 0xE002, Char.ofNat 0x10FFFF⟩] := by
  decide +kernel

end ShiftReduce.Regex.Union
