import ShiftReduce.Closure
import ShiftReduce.Proofs.Bits.Reachability
import ShiftReduce.Proofs.Grammar.WellFormed

/-!
# The tables for closing

What the precomputed tables of a grammar say, in terms of its rules. `Closure.derives` lists the
rules of each non-terminal, `Closure.leftmost` is reachability by leading non-terminals, and
`Closure.starts` relates a non-terminal to the rules of all that it reaches
(`Closure.Starts.Exact`).

## Look-ups

The tables are made by looking up rules, slices and rows, any of which might be missing. For a
well-formed grammar none is: rules, non-terminals and slices are those of one grammar, so that
whatever is met as a number has an entry. Each table is therefore stated to exist together with what
it says (`Closure.exists_leadingRelation`, `Closure.exists_leftmost`, `Closure.exists_starts`).

## The invariants

A slice table is described by the lists it stores (`SliceTable.Stores`), a relation by the pairs
that have been entered: those that come from the part of the list treated so far.
-/

namespace ShiftReduce

/-! ## Slice tables -/

namespace SliceTable

variable {α : Type}

/-- The table holds the given lists under the keys `0, 1, 2, …`. -/
structure Stores (t : SliceTable α) (ls : List (List α)) : Prop where
  values_eq : t.values = ls.flatten
  bounds_eq : t.bounds = (List.range (ls.length + 1)).map fun k ↦ (ls.take k).flatten.length

private theorem stores_nil : Stores ({} : SliceTable α) [] :=
  ⟨rfl, rfl⟩

private theorem foldl_push (t : SliceTable α) (xs : List α) :
    xs.foldl push t = { t with values := t.values ++ xs } := by
  induction xs generalizing t with
  | nil => rw [List.foldl_nil, List.append_nil]
  | cons x xs ih => rw [List.foldl_cons, ih, push, List.append_assoc, List.singleton_append]

theorem Stores.pushSlice {t : SliceTable α} {ls : List (List α)} (h : t.Stores ls) (xs : List α) :
    (t.pushSlice xs).Stores (ls ++ [xs]) := by
  rw [SliceTable.pushSlice, foldl_push, finish]
  refine ⟨?_, ?_⟩
  · rw [h.values_eq, List.flatten_append, List.flatten_singleton]
  · simp only [h.bounds_eq, h.values_eq]
    have hlength : (ls ++ [xs]).length = ls.length + 1 := List.length_append
    rw [hlength, List.range_succ (n := ls.length + 1), List.map_append, List.map_singleton]
    refine congrArg₂ _ (List.map_congr_left fun k hk ↦ ?_) ?_
    · rw [List.take_append_of_le_length (Nat.le_of_lt_succ (List.mem_range.mp hk))]
    · rw [List.take_of_length_le (by simp), List.flatten_append, List.flatten_singleton]

theorem Stores.keys_eq {t : SliceTable α} {ls : List (List α)} (h : t.Stores ls) :
    t.keys = ls.length := by
  rw [keys, h.bounds_eq, List.length_map, List.length_range, Nat.add_sub_cancel]

/-- The bounds of a key are in order, within the values, and those of its list. -/
theorem Stores.slice?_eq {t : SliceTable α} {ls : List (List α)} (h : t.Stores ls) {key : Nat}
    (hkey : key < ls.length) : t.slice? key = some ls[key] := by
  have hsplit : t.values = (ls.take key).flatten ++ (ls[key] ++ (ls.drop (key + 1)).flatten) := by
    rw [h.values_eq, ← List.flatten_cons, List.getElem_cons_drop, ← List.flatten_append,
      List.take_append_drop]
  have hstop : (ls.take (key + 1)).flatten.length
      = (ls.take key).flatten.length + ls[key].length := by
    rw [List.take_succ_eq_append_getElem hkey, List.flatten_append, List.flatten_singleton,
      List.length_append]
  have hvalues : t.values.length = (ls.take key).flatten.length
      + (ls[key].length + (ls.drop (key + 1)).flatten.length) := by
    rw [hsplit, List.length_append, List.length_append]
  have hbetween : t.between (ls.take key).flatten.length (ls.take (key + 1)).flatten.length
      = ls[key] := by
    rw [between, hsplit, hstop, List.take_length_add_append, List.take_left, List.drop_left]
  have hnext : key + 1 < ls.length + 1 := Nat.succ_lt_succ hkey
  simp only [slice?, h.bounds_eq, List.getElem?_map, List.getElem?_range (Nat.lt_succ_of_lt hkey),
    List.getElem?_range hnext, Option.map_some, Option.bind_eq_bind, Option.bind_some]
  rw [if_pos (by omega), hbetween]
  rfl

theorem Stores.toLists?_eq {t : SliceTable α} {ls : List (List α)} (h : t.Stores ls) :
    t.toLists? = some ls := by
  rw [toLists?, h.keys_eq, mapM_eq_some_iff]
  refine List.ext_getElem (by simp) fun key hl hr ↦ ?_
  have hkey : key < ls.length := by simpa using hr
  rw [List.getElem_map, List.getElem_range, List.getElem_map, h.slice?_eq hkey]

private theorem stores_foldl_pushSlice (f : Nat → List α) (n : Nat) :
    ((List.range n).foldl (fun t key ↦ pushSlice t (f key)) {}).Stores ((List.range n).map f) := by
  induction n with
  | zero => exact stores_nil
  | succ n ih =>
    rw [List.range_succ, List.foldl_append, List.map_append]
    exact ih.pushSlice (f n)

end SliceTable

/-! ## Relations entered row by row -/

theorem Bits.Matrix.exists_foldlM_require_insert? {m n : Nat} (a : Bits.Matrix m n) {r : Nat}
    (hr : r < m) {cs : List Nat} (hcs : ∀ c ∈ cs, c < n) :
    ∃ b, cs.foldlM (fun a c ↦ require (a.insert? r c)) a = .ok b ∧
      ∀ i j, b.test i j = true ↔ (i = r ∧ j ∈ cs) ∨ a.test i j = true := by
  have hpairs : ∀ p ∈ cs.map (r, ·), p.1 < m ∧ p.2 < n := by simpa [hr] using hcs
  obtain ⟨b, hb⟩ := a.exists_foldlM_insert? hpairs
  refine ⟨b, ?_, fun i j ↦ ?_⟩
  · rw [← require_foldlM, require_eq_ok, ← hb, List.foldlM_map]
  · rw [test_foldlM_insert? hb, List.mem_map]
    refine or_congr_left ⟨?_, ?_⟩
    · rintro ⟨c, hc, heq⟩
      obtain ⟨rfl, rfl⟩ := Prod.mk.inj heq
      exact ⟨rfl, hc⟩
    · rintro ⟨rfl, hj⟩
      exact ⟨j, hj, rfl⟩

namespace Closure

open Bits

variable {g : Grammar}

/-! ## The rules of a non-terminal -/

theorem stores_derives (g : Grammar) : (derives g).Stores
    ((List.range g.nonterminals.length).map fun a ↦ (g.rulesFor a).map (·.number)) :=
  SliceTable.stores_foldl_pushSlice _ _

private theorem slice?_derives {a : Nat} (ha : a < g.nonterminals.length) :
    (derives g).slice? a = some ((g.rulesFor a).map (·.number)) := by
  rw [(stores_derives g).slice?_eq (by simpa using ha), List.getElem_map, List.getElem_range]

theorem mem_rulesFor (wf : g.WellFormed) {a r : Nat} :
    r ∈ (g.rulesFor a).map (·.number) ↔ ∃ rule, g.rule? r = some rule ∧ rule.lhs = a := by
  simp only [Grammar.rulesFor, List.mem_map, List.mem_filter, decide_eq_true_iff]
  constructor
  · rintro ⟨rule, ⟨hrule, hlhs⟩, rfl⟩
    exact ⟨rule, wf.rule?_number hrule, hlhs⟩
  · rintro ⟨rule, hrule, hlhs⟩
    exact ⟨rule, ⟨Grammar.mem_of_rule? hrule, hlhs⟩, wf.number_eq hrule⟩

/-! ## Leading non-terminals -/

/-- A rule of `a` begins with `b`. -/
def Leads (g : Grammar) (a b : Nat) : Prop :=
  ∃ r rule, g.rule? r = some rule ∧ rule.lhs = a ∧ leading? rule = some b

theorem leading?_eq_some {rule : Rule} {b : Nat} :
    leading? rule = some b ↔ rule.rhs.head? = some (.nonterminal b) := by
  rw [leading?]
  split
  · rename_i a h
    rw [h, Option.some_inj, Option.some_inj, Symbol.nonterminal.injEq]
  · rename_i h
    exact ⟨fun hb ↦ absurd hb (by simp), fun hb ↦ absurd hb (h b)⟩

private theorem leading?_lt (wf : g.WellFormed) {rule : Rule} (hrule : rule ∈ g.rules) {b : Nat}
    (h : leading? rule = some b) : b < g.nonterminals.length :=
  wf.nonterminal_lt rule hrule b (List.mem_of_mem_head? (leading?_eq_some.mp h))

private theorem exists_relateLeading (wf : g.WellFormed) {a r : Nat} {rule : Rule}
    (ha : a < g.nonterminals.length) (hrule : g.rule? r = some rule) (relation : Relation g) :
    ∃ relation', relateLeading g a relation r = .ok relation' ∧
      ∀ i j, relation'.test i j = true
        ↔ (i = a ∧ leading? rule = some j) ∨ relation.test i j = true := by
  rw [relateLeading, hrule, require_some]
  cases hlead : leading? rule with
  | none => exact ⟨relation, by simp [bind, Except.bind, hlead, pure, Except.pure], by simp⟩
  | some b =>
    obtain ⟨relation', hinsert⟩ :=
      relation.exists_insert? ha (leading?_lt wf (Grammar.mem_of_rule? hrule) hlead)
    refine ⟨relation', by simp [bind, Except.bind, hlead, hinsert], fun i j ↦ ?_⟩
    rw [Matrix.test_insert? hinsert, Option.some_inj, eq_comm (a := j)]

private theorem exists_foldlM_relateLeading (wf : g.WellFormed) {a : Nat}
    (ha : a < g.nonterminals.length)
    (relation : Relation g) :
    ∃ relation', ((g.rulesFor a).map (·.number)).foldlM (relateLeading g a) relation
        = .ok relation' ∧
      ∀ i j, relation'.test i j = true ↔ (i = a ∧ Leads g a j) ∨ relation.test i j = true := by
  have hstep : ∀ done r relation', done ++ [r] <+: (g.rulesFor a).map (·.number) →
      (∀ i j, relation'.test i j = true ↔ (i = a ∧ ∃ r ∈ done, ∃ rule, g.rule? r = some rule ∧
        leading? rule = some j) ∨ relation.test i j = true) →
      ∃ relation'', relateLeading g a relation' r = .ok relation'' ∧
        ∀ i j, relation''.test i j = true ↔ (i = a ∧ ∃ r' ∈ done ++ [r], ∃ rule,
          g.rule? r' = some rule ∧ leading? rule = some j) ∨ relation.test i j = true := by
    intro done r relation' hpre hP
    have hr := hpre.subset (List.mem_append_right _ List.mem_cons_self)
    obtain ⟨rule, hrule, -⟩ := (mem_rulesFor wf).mp hr
    obtain ⟨relation'', hrelate, htest⟩ := exists_relateLeading wf ha hrule relation'
    refine ⟨relation'', hrelate, fun i j ↦ ?_⟩
    rw [htest, hP, ← or_assoc, ← and_or_left]
    simp [or_and_right, exists_or, hrule, or_comm]
  obtain ⟨relation', hrelation', htest⟩ := exists_foldlM_eq_ok (b := relation) (by simp) hstep
  refine ⟨relation', hrelation', fun i j ↦ ?_⟩
  rw [htest, Leads]
  simp only [mem_rulesFor wf]
  constructor
  · rintro (⟨hi, r, ⟨rule, hrule, hlhs⟩, rule', hrule', hlead⟩ | h)
    · obtain rfl := Option.some.inj (hrule.symm.trans hrule')
      exact Or.inl ⟨hi, r, rule, hrule, hlhs, hlead⟩
    · exact Or.inr h
  · rintro (⟨hi, r, rule, hrule, hlhs, hlead⟩ | h)
    · exact Or.inl ⟨hi, r, ⟨rule, hrule, hlhs⟩, rule, hrule, hlead⟩
    · exact Or.inr h

theorem exists_leadingRelation (wf : g.WellFormed) :
    ∃ relation, leadingRelation g (derives g) = .ok relation ∧
      ∀ a b, relation.test a b = true ↔ Leads g a b := by
  let rows := (List.range g.nonterminals.length).map fun a ↦ (g.rulesFor a).map (·.number)
  have hrows : ∀ p ∈ rows.zipIdx, p.2 < g.nonterminals.length ∧
      p.1 = (g.rulesFor p.2).map (·.number) := by
    rintro ⟨rules, a⟩ hp
    obtain ⟨ha, rfl⟩ := List.getElem?_eq_some_iff.mp (List.mk_mem_zipIdx_iff_getElem?.mp hp)
    exact ⟨by simpa [rows] using ha, by simp [rows]⟩
  have hstep : ∀ done p relation, done ++ [p] <+: rows.zipIdx →
      (∀ i j, relation.test i j = true ↔ i ∈ done.map Prod.snd ∧ Leads g i j) →
      ∃ relation', p.1.foldlM (relateLeading g p.2) relation = .ok relation' ∧
        ∀ i j, relation'.test i j = true ↔ i ∈ (done ++ [p]).map Prod.snd ∧ Leads g i j := by
    intro done p relation hpre hP
    obtain ⟨ha, hrules⟩ := hrows p (hpre.subset (List.mem_append_right _ List.mem_cons_self))
    obtain ⟨relation', hrelation', htest⟩ := exists_foldlM_relateLeading wf ha relation
    refine ⟨relation', hrules ▸ hrelation', fun i j ↦ ?_⟩
    rw [htest, hP, List.map_append, List.mem_append, List.map_singleton, List.mem_singleton,
      or_and_right, or_comm]
    refine or_congr_right (and_congr_right fun hi ↦ ?_)
    rw [hi]
  obtain ⟨relation, hrelation, htest⟩ := exists_foldlM_eq_ok
    (b := Matrix.empty g.nonterminals.length g.nonterminals.length) (by simp) hstep
  refine ⟨relation, ?_, fun a b ↦ ?_⟩
  · rw [leadingRelation, (stores_derives g).toLists?_eq, require_some]
    exact hrelation
  · rw [htest]
    refine ⟨And.right, fun h ↦ ⟨?_, h⟩⟩
    obtain ⟨r, rule, hrule, rfl, -⟩ := h
    have hlhs := wf.lhs_lt rule (Grammar.mem_of_rule? hrule)
    simpa [rows] using hlhs

theorem exists_leftmost (wf : g.WellFormed) :
    ∃ relation, leftmost g (derives g) = .ok relation ∧
      ∀ a < g.nonterminals.length, ∀ b,
        relation.test a b = true ↔ Relation.ReflTransGen (Leads g) a b := by
  obtain ⟨leading, hleading, htest⟩ := exists_leadingRelation wf
  obtain ⟨relation, hrelation⟩ := leading.exists_closure?
  refine ⟨relation, ?_, fun a ha b ↦ ?_⟩
  · rw [leftmost, hleading]
    exact require_eq_ok.mpr hrelation
  · rw [Matrix.test_closure? hrelation ha]
    simp only [htest]

/-! ## Rules that can start -/

/-- The rows hold the rules of all that their non-terminals can begin with. -/
def Starts.Exact (s : Starts g) : Prop :=
  ∀ a r, s.test a r = true ↔ a < g.nonterminals.length ∧
    ∃ rule, g.rule? r = some rule ∧ Relation.ReflTransGen (Leads g) a rule.lhs

private theorem exists_relateRules (wf : g.WellFormed) {a b : Nat} (ha : a < g.nonterminals.length)
    (hb : b < g.nonterminals.length) (relation : Starts g) :
    ∃ relation', relateRules g (derives g) relation (a, b) = .ok relation' ∧
      ∀ i r, relation'.test i r = true
        ↔ (i = a ∧ ∃ rule, g.rule? r = some rule ∧ rule.lhs = b) ∨ relation.test i r = true := by
  rw [relateRules, slice?_derives hb, require_some]
  have hrules : ∀ r ∈ (g.rulesFor b).map (·.number), r < g.rules.length := by
    intro r hr
    obtain ⟨rule, hrule, -⟩ := (mem_rulesFor wf).mp hr
    exact (List.getElem?_eq_some_iff.mp hrule).1
  obtain ⟨relation', hrelation', htest⟩ := relation.exists_foldlM_require_insert? ha hrules
  exact ⟨relation', hrelation', fun i r ↦ by rw [htest, mem_rulesFor wf]⟩

theorem exists_starts (wf : g.WellFormed) : ∃ s, starts g (derives g) = .ok s ∧ s.Exact := by
  obtain ⟨leftmost, hleftmost, hpaths⟩ := exists_leftmost wf
  have hstep : ∀ (done : List (Nat × Nat)) (p : Nat × Nat) (relation : Starts g),
      done ++ [p] <+: leftmost.ones →
      (∀ i r, relation.test i r = true ↔ ∃ rule, g.rule? r = some rule ∧ (i, rule.lhs) ∈ done) →
      ∃ relation', relateRules g (derives g) relation p = .ok relation' ∧
        ∀ i r, relation'.test i r = true
          ↔ ∃ rule, g.rule? r = some rule ∧ (i, rule.lhs) ∈ done ++ [p] := by
    intro done p relation hpre hP
    have hp := hpre.subset (List.mem_append_right _ List.mem_cons_self)
    obtain ⟨ha, hb⟩ := Matrix.lt_of_test (Matrix.mem_ones.mp hp)
    obtain ⟨relation', hrelation', htest⟩ := exists_relateRules wf ha hb relation
    refine ⟨relation', hrelation', fun i r ↦ ?_⟩
    rw [htest, hP]
    simp only [List.mem_append, List.mem_singleton, Prod.ext_iff, and_or_left, exists_or]
    rw [or_comm]
    refine or_congr_right ⟨?_, ?_⟩
    · rintro ⟨hi, rule, hrule, hlhs⟩
      exact ⟨rule, hrule, hi, hlhs⟩
    · rintro ⟨rule, hrule, hi, hlhs⟩
      exact ⟨hi, rule, hrule, hlhs⟩
  obtain ⟨s, hs, htest⟩ := exists_foldlM_eq_ok (b := Matrix.empty _ _) (by simp) hstep
  refine ⟨s, by rw [starts, hleftmost]; exact hs, fun a r ↦ ?_⟩
  rw [htest]
  constructor
  · rintro ⟨rule, hrule, hmem⟩
    have hpath := Matrix.mem_ones.mp hmem
    have ha := (Matrix.lt_of_test hpath).1
    exact ⟨ha, rule, hrule, (hpaths a ha _).mp hpath⟩
  · rintro ⟨ha, rule, hrule, hpath⟩
    exact ⟨rule, hrule, Matrix.mem_ones.mpr ((hpaths a ha _).mpr hpath)⟩

end Closure

end ShiftReduce
