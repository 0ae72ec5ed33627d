import ShiftReduce.Grammar.Declarations
import ShiftReduce.Proofs.Folds

/-!
# Well-formed grammars

A grammar that comes out of declarations has its rules numbered by their places, all symbols of its
rules within range, and the end of input at the end of every accept rule. `Grammar.WellFormed` names
these facts and `Declarations.wellFormed_of_build` establishes them, so that nothing downstream has
to look at declarations again.

## The construction

Each pass of the builder is a fold that may fail. Its result is described by an invariant of the
fold, carried along by `foldlM_ok`; the passes in question number terminals, number non-terminals,
add rules and mark accept rules.

## The invariant

An entry gets the number of its index, so that what a pass keeps is `Builder.Wrapped`: numbers are
those of the places, whether or not they tell all places apart. Since the number of an index is
never more than the index, the number of an entry is always in range, and this is all that
`Grammar.SymbolsInRange` needs. That numbers are places (`Builder.Placed`) takes a list no longer
than there are numbers, and comes in at the end, from `Builder.Numerable`.
-/

namespace ShiftReduce

/-! ## The facts -/

/-- The symbols of the rules are those of the grammar. -/
structure Grammar.SymbolsInRange (g : Grammar) : Prop where
  /-- Left-hand sides are non-terminals of the grammar. -/
  lhs_lt : ∀ rule ∈ g.rules, rule.lhs < g.nonterminals.length
  /-- Terminals of right-hand sides are terminals of the grammar. -/
  terminal_lt : ∀ rule ∈ g.rules, ∀ t, Symbol.terminal t ∈ rule.rhs → t < g.terminals.length
  /-- Non-terminals of right-hand sides are non-terminals of the grammar. -/
  nonterminal_lt :
    ∀ rule ∈ g.rules, ∀ a, Symbol.nonterminal a ∈ rule.rhs → a < g.nonterminals.length

/-- What a grammar made from declarations satisfies. -/
structure Grammar.WellFormed (g : Grammar) : Prop extends g.SymbolsInRange where
  /-- Rules are numbered by their places. -/
  number_eq : ∀ {r : Nat} {rule : Rule}, g.rules[r]? = some rule → rule.number = r
  /-- An accept rule ends with the end of input. -/
  getLast?_rhs : ∀ rule ∈ g.rules, rule.accept = true → rule.rhs.getLast? = some .eof

namespace Grammar.WellFormed

variable {g : Grammar} (wf : g.WellFormed)

include wf

theorem rule?_number {rule : Rule} (h : rule ∈ g.rules) : g.rule? rule.number = some rule := by
  obtain ⟨r, hr⟩ := List.mem_iff_getElem?.mp h
  rw [wf.number_eq hr, rule?, hr]

end Grammar.WellFormed

theorem Grammar.mem_of_rule? {g : Grammar} {r : Nat} {rule : Rule} (h : g.rule? r = some rule) :
    rule ∈ g.rules :=
  List.mem_of_getElem? h

/-! ## Lists -/

theorem getElem?_append_singleton_eq_some {α : Type} {xs : List α} {x y : α} {i : Nat}
    (h : (xs ++ [x])[i]? = some y) : xs[i]? = some y ∨ i = xs.length ∧ y = x := by
  rcases Nat.lt_or_ge i xs.length with hlt | hge
  · rw [List.getElem?_append_left hlt] at h
    exact Or.inl h
  · rw [List.getElem?_append_right hge, List.getElem?_singleton] at h
    split at h
    · exact Or.inr ⟨by omega, (Option.some.inj h).symm⟩
    · simp at h

/-- Replacing an entry by one with the same image changes no image. -/
theorem map_set_of_eq {α β : Type} {f : α → β} {xs : List α} {i : Nat} {x y : α}
    (hx : xs[i]? = some x) (hf : f y = f x) : (xs.set i y).map f = xs.map f := by
  obtain ⟨hi, rfl⟩ := List.getElem?_eq_some_iff.mp hx
  rw [List.map_set, hf, ← List.getElem_map f (h := by rwa [List.length_map]),
    List.set_getElem_self]

namespace Builder

/-! ## Numbered by place -/

/-- Every entry has the number of its index. -/
def Wrapped {α : Type} (number : α → Nat) (xs : List α) : Prop :=
  ∀ i x, xs[i]? = some x → number x = Numbered.ofIndex i

/-- The numbers of a list's entries are their places. -/
def Placed {α : Type} (number : α → Nat) (xs : List α) : Prop :=
  ∀ i x, xs[i]? = some x → number x = i

section Wrapped

variable {α : Type} {number : α → Nat} {xs ys : List α}

theorem wrapped_nil : Wrapped number [] := by
  intro i x h
  simp at h

theorem Wrapped.append_singleton (h : Wrapped number xs) {x : α}
    (hx : number x = Numbered.ofIndex xs.length) : Wrapped number (xs ++ [x]) := by
  intro i y hi
  rcases getElem?_append_singleton_eq_some hi with hi | ⟨rfl, rfl⟩
  · exact h i y hi
  · exact hx

theorem Wrapped.of_map_eq (h : Wrapped number xs) (hmap : ys.map number = xs.map number) :
    Wrapped number ys := by
  intro i y hi
  have hnumber : (xs.map number)[i]? = some (number y) := by
    rw [← hmap, List.getElem?_map, hi, Option.map_some]
  obtain ⟨x, hx, heq⟩ := Option.map_eq_some_iff.mp (List.getElem?_map.symm.trans hnumber)
  rw [← heq, h i x hx]

theorem Wrapped.lt_length (h : Wrapped number xs) {x : α} (hx : x ∈ xs) :
    number x < xs.length := by
  obtain ⟨i, hi⟩ := List.mem_iff_getElem?.mp hx
  rw [h i x hi]
  exact Nat.lt_of_le_of_lt (Numbered.ofIndex_le i) (List.getElem?_eq_some_iff.mp hi).1

/-- As long as there are numbers left, numbers are places. -/
theorem Wrapped.placed (h : Wrapped number xs) (hlength : xs.length ≤ Numbered.numberBound) :
    Placed number xs := by
  intro i x hi
  have hlt := (List.getElem?_eq_some_iff.mp hi).1
  rw [h i x hi, Numbered.ofIndex_eq (Nat.lt_of_lt_of_le hlt hlength)]

end Wrapped

/-! ## Terminals -/

theorem wrapped_buildTerminals {d : Builder} {terminals : List Terminal}
    (h : d.buildTerminals = .ok terminals) : Wrapped Terminal.number terminals := by
  refine foldlM_ok (P := fun _ ts ↦ Wrapped Terminal.number ts) h ?_ ?_
  · exact wrapped_nil.append_singleton rfl
  · intro _ decl ts ts' hts hstep
    rw [addTerminal] at hstep
    split at hstep
    · simp at hstep
    · split at hstep
      · simp at hstep
      · obtain rfl := Except.ok.inj hstep
        exact hts.append_singleton rfl

private theorem findTerminal?_lt {terminals : List Terminal}
    (hw : Wrapped Terminal.number terminals)
    {name : String} {t : Nat} (h : findTerminal? terminals name = some t) :
    t < terminals.length := by
  rw [findTerminal?, Option.map_eq_some_iff] at h
  obtain ⟨x, hx, rfl⟩ := h
  exact hw.lt_length (List.mem_of_find?_eq_some hx)

/-! ## Non-terminals -/

section NonTerminals

variable {nonterminals nonterminals' : List NonTerminal} {name type other : String}

/-- A name has a number. -/
def Named (nonterminals : List NonTerminal) (name : String) : Prop :=
  ∃ a ∈ nonterminals, a.name = name

theorem named_iff : Named nonterminals name ↔ name ∈ nonterminals.map (·.name) := by
  rw [Named, List.mem_map]

theorem exists_findNonTerminal?_lt (hw : Wrapped NonTerminal.number nonterminals)
    (h : Named nonterminals name) :
    ∃ a, findNonTerminal? nonterminals name = some a ∧ a < nonterminals.length := by
  obtain ⟨a, ha, hname⟩ := h
  rw [findNonTerminal?]
  cases hfind : nonterminals.find? (·.name = name) with
  | none => exact absurd (decide_eq_true hname) (List.find?_eq_none.mp hfind a ha)
  | some b => exact ⟨b.number, rfl, hw.lt_length (List.mem_of_find?_eq_some hfind)⟩

theorem findNonTerminal?_lt (hw : Wrapped NonTerminal.number nonterminals) {a : Nat}
    (h : findNonTerminal? nonterminals name = some a) : a < nonterminals.length := by
  rw [findNonTerminal?, Option.map_eq_some_iff] at h
  obtain ⟨x, hx, rfl⟩ := h
  exact hw.lt_length (List.mem_of_find?_eq_some hx)

private theorem wrapped_addNonTerminal (hw : Wrapped NonTerminal.number nonterminals)
    (name : String) :
    Wrapped NonTerminal.number (addNonTerminal nonterminals name) := by
  rw [addNonTerminal]
  split
  · exact hw
  · exact hw.append_singleton rfl

private theorem named_addNonTerminal :
    Named (addNonTerminal nonterminals name) other ↔ other = name ∨ Named nonterminals other := by
  rw [addNonTerminal]
  split
  · rename_i h
    rw [List.any_eq_true] at h
    obtain ⟨a, ha, hname⟩ := h
    refine ⟨Or.inr, fun h ↦ h.elim (fun h ↦ ?_) id⟩
    exact ⟨a, ha, h ▸ of_decide_eq_true hname⟩
  · simp only [Named, List.mem_append, List.mem_singleton]
    constructor
    · rintro ⟨a, ha | rfl, hname⟩
      · exact Or.inr ⟨a, ha, hname⟩
      · exact Or.inl hname.symm
    · rintro (rfl | ⟨a, ha, hname⟩)
      · exact ⟨_, Or.inr rfl, rfl⟩
      · exact ⟨a, Or.inl ha, hname⟩

theorem wrapped_foldl_addNonTerminal (hw : Wrapped NonTerminal.number nonterminals)
    (names : List String) :
    Wrapped NonTerminal.number (names.foldl addNonTerminal nonterminals) := by
  induction names generalizing nonterminals with
  | nil => exact hw
  | cons name names ih => exact ih (wrapped_addNonTerminal hw name)

theorem named_foldl_addNonTerminal {names : List String} :
    Named (names.foldl addNonTerminal nonterminals) other
      ↔ other ∈ names ∨ Named nonterminals other := by
  induction names generalizing nonterminals with
  | nil => simp
  | cons name names ih =>
    rw [List.foldl_cons, ih, named_addNonTerminal, List.mem_cons, or_left_comm, or_assoc]

theorem setValueType_eq_ok : setValueType nonterminals name type = .ok nonterminals' ↔
    ∃ a entry, findNonTerminal? nonterminals name = some a ∧ nonterminals[a]? = some entry ∧
      nonterminals' = nonterminals.set a { entry with valueType := type } := by
  simp only [setValueType, bind_eq_ok, require_eq_ok]
  constructor
  · rintro ⟨a, ha, entry, hentry, h⟩
    exact ⟨a, entry, ha, hentry, (Except.ok.inj h).symm⟩
  · rintro ⟨a, entry, ha, hentry, rfl⟩
    exact ⟨a, ha, entry, hentry, rfl⟩

private theorem exists_setValueType_eq_ok (hw : Wrapped NonTerminal.number nonterminals)
    (h : Named nonterminals name) (type : String) :
    ∃ nonterminals', setValueType nonterminals name type = .ok nonterminals' := by
  obtain ⟨a, ha, hlt⟩ := exists_findNonTerminal?_lt hw h
  exact ⟨_, setValueType_eq_ok.mpr ⟨a, _, ha, List.getElem?_eq_getElem hlt, rfl⟩⟩

private theorem map_name_setValueType
    (h : setValueType nonterminals name type = .ok nonterminals') :
    nonterminals'.map (·.name) = nonterminals.map (·.name) := by
  obtain ⟨a, entry, -, hentry, rfl⟩ := setValueType_eq_ok.mp h
  exact map_set_of_eq hentry rfl

private theorem wrapped_setValueType (hw : Wrapped NonTerminal.number nonterminals)
    (h : setValueType nonterminals name type = .ok nonterminals') :
    Wrapped NonTerminal.number nonterminals' := by
  obtain ⟨a, entry, -, hentry, rfl⟩ := setValueType_eq_ok.mp h
  exact hw.of_map_eq (map_set_of_eq hentry rfl)

/-! ### The names of a rule -/

variable {terminals : List Terminal} {rule : RuleDecl}

/-- The names of a rule that are not terminals, its left-hand side first. -/
def freeNames (terminals : List Terminal) (rule : RuleDecl) : List String :=
  rule.lhs :: rule.rhs.filter fun name ↦ (findTerminal? terminals name).isNone

theorem mem_freeNames : name ∈ freeNames terminals rule ↔
    name = rule.lhs ∨ name ∈ rule.rhs ∧ findTerminal? terminals name = none := by
  rw [freeNames, List.mem_cons, List.mem_filter, Option.isNone_iff_eq_none]

/-- A rule that is read has its names numbered, and then perhaps a type set. -/
theorem addRuleNames_eq_ok : addRuleNames terminals nonterminals rule = .ok nonterminals' ↔
    findTerminal? terminals rule.lhs = none ∧
      match rule.valueType with
      | some type => setValueType ((freeNames terminals rule).foldl addNonTerminal nonterminals)
          rule.lhs type = .ok nonterminals'
      | none => nonterminals' = (freeNames terminals rule).foldl addNonTerminal nonterminals := by
  rw [addRuleNames]
  cases hlhs : findTerminal? terminals rule.lhs with
  | some t => simp
  | none =>
    rw [if_neg (by simp)]
    cases hvalue : rule.valueType with
    | some type => simp [freeNames]
    | none => simp [freeNames, eq_comm]

theorem map_name_addRuleNames (h : addRuleNames terminals nonterminals rule = .ok nonterminals') :
    nonterminals'.map (·.name) =
      ((freeNames terminals rule).foldl addNonTerminal nonterminals).map (·.name) := by
  obtain ⟨-, h⟩ := addRuleNames_eq_ok.mp h
  cases hvalue : rule.valueType with
  | some type =>
    simp only [hvalue] at h
    exact map_name_setValueType h
  | none =>
    simp only [hvalue] at h
    rw [h]

theorem wrapped_addRuleNames (hw : Wrapped NonTerminal.number nonterminals)
    (h : addRuleNames terminals nonterminals rule = .ok nonterminals') :
    Wrapped NonTerminal.number nonterminals' := by
  obtain ⟨-, h⟩ := addRuleNames_eq_ok.mp h
  have hfold := wrapped_foldl_addNonTerminal hw (freeNames terminals rule)
  cases hvalue : rule.valueType with
  | some type =>
    simp only [hvalue] at h
    exact wrapped_setValueType hfold h
  | none =>
    simp only [hvalue] at h
    exact h ▸ hfold

theorem named_addRuleNames (h : addRuleNames terminals nonterminals rule = .ok nonterminals') :
    Named nonterminals' name ↔ name ∈ freeNames terminals rule ∨ Named nonterminals name := by
  rw [named_iff, map_name_addRuleNames h, ← named_iff, named_foldl_addNonTerminal]

theorem exists_addRuleNames_eq_ok (hw : Wrapped NonTerminal.number nonterminals)
    (h : findTerminal? terminals rule.lhs = none) :
    ∃ nonterminals', addRuleNames terminals nonterminals rule = .ok nonterminals' := by
  simp only [addRuleNames_eq_ok, h, true_and]
  cases rule.valueType with
  | some type =>
    exact exists_setValueType_eq_ok (wrapped_foldl_addNonTerminal hw _)
      (named_foldl_addNonTerminal.mpr (Or.inl List.mem_cons_self)) type
  | none => exact ⟨_, rfl⟩

/-- The names of a rule that are not terminals have numbers. -/
def RuleNamed (terminals : List Terminal) (nonterminals : List NonTerminal) (rule : RuleDecl) :
    Prop :=
  Named nonterminals rule.lhs ∧
    ∀ name ∈ rule.rhs, findTerminal? terminals name = none → Named nonterminals name

theorem RuleNamed.mono (h : RuleNamed terminals nonterminals rule)
    (hle : ∀ name, Named nonterminals name → Named nonterminals' name) :
    RuleNamed terminals nonterminals' rule :=
  ⟨hle _ h.1, fun name hmem hnone ↦ hle _ (h.2 name hmem hnone)⟩

end NonTerminals

theorem buildNonTerminals_eq_ok {d : Builder} {terminals : List Terminal}
    {nonterminals : List NonTerminal} (h : d.buildNonTerminals terminals = .ok nonterminals) :
    d.rules.foldlM (addRuleNames terminals) [] = .ok nonterminals ∧
      (nonterminals.map NonTerminal.name).filter (fun name ↦ d.rules.all (·.lhs ≠ name)) = [] := by
  rw [buildNonTerminals, bind_eq_ok] at h
  obtain ⟨found, hfound, h⟩ := h
  dsimp only at h
  split at h
  · rename_i hnone
    obtain rfl := Except.ok.inj h
    exact ⟨hfound, hnone⟩
  · simp [throw, throwThe, MonadExceptOf.throw] at h

theorem buildNonTerminals_ok {d : Builder} {terminals : List Terminal}
    {nonterminals : List NonTerminal} (h : d.buildNonTerminals terminals = .ok nonterminals) :
    Wrapped NonTerminal.number nonterminals ∧
      ∀ rule ∈ d.rules, RuleNamed terminals nonterminals rule := by
  obtain ⟨hfound, -⟩ := buildNonTerminals_eq_ok h
  refine foldlM_ok (P := fun done ns ↦ Wrapped NonTerminal.number ns ∧
    ∀ rule ∈ done, RuleNamed terminals ns rule) hfound ⟨wrapped_nil, by simp⟩ ?_
  rintro done rule ns ns' ⟨hw, hnamed⟩ hstep
  refine ⟨wrapped_addRuleNames hw hstep, List.forall_mem_append.mpr ⟨?_, ?_⟩⟩
  · intro other hother
    exact (hnamed other hother).mono fun name hname ↦ (named_addRuleNames hstep).mpr (Or.inr hname)
  · refine List.forall_mem_singleton.mpr ⟨?_, fun name hmem hnone ↦ ?_⟩
    · exact (named_addRuleNames hstep).mpr (Or.inl List.mem_cons_self)
    · exact (named_addRuleNames hstep).mpr (Or.inl (mem_freeNames.mpr (Or.inr ⟨hmem, hnone⟩)))

/-! ## Rules -/

/-- The rule that a declaration becomes, with some level of precedence. -/
structure IsRuleOf (terminals : List Terminal) (nonterminals : List NonTerminal) (decl : RuleDecl)
    (rule : Rule) : Prop where
  lhs : findNonTerminal? nonterminals decl.lhs = some rule.lhs
  rhs : decl.rhs.mapM (symbol? terminals nonterminals) = some rule.rhs
  accept : rule.accept = false

theorem IsRuleOf.exists_name {terminals : List Terminal} {nonterminals : List NonTerminal}
    {decl : RuleDecl} {rule : Rule} (h : IsRuleOf terminals nonterminals decl rule) {s : Symbol}
    (hs : s ∈ rule.rhs) : ∃ name ∈ decl.rhs, symbol? terminals nonterminals name = some s := by
  have hmem : some s ∈ decl.rhs.map (symbol? terminals nonterminals) := by
    rw [mapM_eq_some_iff.mp h.rhs]
    exact List.mem_map_of_mem hs
  exact List.mem_map.mp hmem

theorem addRule_eq_ok {terminals : List Terminal} {levels : List Precedence}
    {nonterminals : List NonTerminal} {rules rules' : List Rule} {decl : RuleDecl} :
    addRule terminals levels nonterminals rules decl = .ok rules' ↔ ∃ rule,
      rules' = rules ++ [rule] ∧ rule.number = Numbered.ofIndex rules.length ∧
      IsRuleOf terminals nonterminals decl rule ∧
      levelOf terminals levels decl = .ok rule.precedence ∧ rule.code = decl.code := by
  simp only [addRule, bind_eq_ok, require_eq_ok]
  constructor
  · rintro ⟨lhs, hlhs, rhs, hrhs, precedence, hprecedence, h⟩
    exact ⟨_, (Except.ok.inj h).symm, rfl, ⟨hlhs, hrhs, rfl⟩, hprecedence, rfl⟩
  · rintro ⟨rule, rfl, hnumber, ⟨hlhs, hrhs, haccept⟩, hprecedence, hcode⟩
    refine ⟨rule.lhs, hlhs, rule.rhs, hrhs, rule.precedence, hprecedence, ?_⟩
    rw [← hnumber, ← haccept, ← hcode]
    rfl

theorem buildRules_ok {d : Builder} {terminals : List Terminal} {levels : List Precedence}
    {nonterminals : List NonTerminal} {rules : List Rule}
    (h : d.buildRules terminals levels nonterminals = .ok rules) :
    Wrapped Rule.number rules ∧ rules.length = d.rules.length ∧
      ∀ rule ∈ rules, ∃ decl ∈ d.rules, IsRuleOf terminals nonterminals decl rule := by
  refine foldlM_ok (P := fun done rules ↦ Wrapped Rule.number rules ∧
    rules.length = done.length ∧
    ∀ rule ∈ rules, ∃ decl ∈ done, IsRuleOf terminals nonterminals decl rule) h
    ⟨wrapped_nil, rfl, by simp⟩ ?_
  rintro done decl rules rules' ⟨hw, hlength, hof⟩ hstep
  obtain ⟨rule, rfl, hnumber, hrule, -⟩ := addRule_eq_ok.mp hstep
  refine ⟨hw.append_singleton hnumber, by simp [hlength],
    List.forall_mem_append.mpr ⟨fun other hother ↦ ?_, List.forall_mem_singleton.mpr ?_⟩⟩
  · obtain ⟨source, hsource, hother⟩ := hof other hother
    exact ⟨source, List.mem_append_left _ hsource, hother⟩
  · exact ⟨decl, List.mem_append_right _ List.mem_cons_self, hrule⟩

/-! ## Accept marks -/

def unmark (rule : Rule) : Rule :=
  { rule with accept := false }

/-- Rules that differ from the given ones by accept marks, and these stand on rules that end with
the end of input only. -/
structure MarkedFrom (rules marked : List Rule) : Prop where
  map_unmark : marked.map unmark = rules.map unmark
  getLast?_rhs : ∀ rule ∈ marked, rule.accept = true → rule.rhs.getLast? = some .eof

theorem markedFrom_refl {rules : List Rule} (h : ∀ rule ∈ rules, rule.accept = false) :
    MarkedFrom rules rules := by
  refine ⟨rfl, fun rule hrule haccept ↦ ?_⟩
  rw [h rule hrule] at haccept
  simp at haccept

theorem MarkedFrom.exists_getElem? {rules marked : List Rule} (h : MarkedFrom rules marked)
    {i : Nat}
    {rule : Rule} (hi : rules[i]? = some rule) :
    ∃ other, marked[i]? = some other ∧ unmark other = unmark rule := by
  have hmap : (marked.map unmark)[i]? = some (unmark rule) := by
    rw [h.map_unmark, List.getElem?_map, hi, Option.map_some]
  exact Option.map_eq_some_iff.mp (List.getElem?_map.symm.trans hmap)

theorem MarkedFrom.set {rules marked : List Rule} (h : MarkedFrom rules marked) {i : Nat}
    {rule : Rule} (hi : marked[i]? = some rule) (heof : rule.rhs.getLast? = some .eof) :
    MarkedFrom rules (marked.set i { rule with accept := true }) := by
  have hmark : unmark { rule with accept := true } = unmark rule := rfl
  refine ⟨(map_set_of_eq hi hmark).trans h.map_unmark, fun other hother haccept ↦ ?_⟩
  rcases List.mem_or_eq_of_mem_set hother with hother | rfl
  · exact h.getLast?_rhs other hother haccept
  · exact heof

/-- An accept name that passes has one rule, and what stands at the number of that rule ends with
the end of input and is marked. -/
theorem acceptName_eq_ok {g : Grammar} {done done' : List String × List Rule} {name : String}
    (h : acceptName g done name = .ok done') : name ∉ done.1 ∧ ∃ a rule marked,
      g.nonterminal? name = some a ∧ g.rulesFor a = [rule] ∧
      done.2[rule.number]? = some marked ∧ marked.rhs.getLast? = some .eof ∧
      done' = (done.1 ++ [name], done.2.set rule.number { marked with accept := true }) := by
  rw [acceptName] at h
  split at h
  · simp at h
  · rename_i hnew
    refine ⟨hnew, ?_⟩
    split at h
    · simp at h
    · rename_i a ha
      split at h
      · simp at h
      · rename_i rule hrules
        obtain ⟨marked, hmarked, h⟩ := bind_eq_ok.mp h
        split at h
        · rename_i heof
          exact ⟨a, rule, marked, ha, hrules, require_eq_ok.mp hmarked, heof,
            (Except.ok.inj h).symm⟩
        · obtain ⟨lhs, -, h⟩ := bind_eq_ok.mp h
          obtain ⟨rhs, -, h⟩ := bind_eq_ok.mp h
          simp [throw, throwThe, MonadExceptOf.throw] at h
      · simp at h

theorem mem_of_rulesFor_eq {g : Grammar} {a : Nat} {rule : Rule} (h : g.rulesFor a = [rule]) :
    rule ∈ g.rules := by
  have hmem : rule ∈ g.rulesFor a := h ▸ List.mem_cons_self
  exact (List.mem_filter.mp hmem).1

/-- The marks after a name: they stand on the right rules, and there is one. -/
theorem acceptName_ok {g : Grammar} {done done' : List String × List Rule} {name : String}
    (h : acceptName g done name = .ok done') (hm : MarkedFrom g.rules done.2) :
    MarkedFrom g.rules done'.2 ∧ ∃ rule ∈ done'.2, rule.accept = true := by
  obtain ⟨-, a, rule, marked, -, -, hmarked, heof, rfl⟩ := acceptName_eq_ok h
  have hlt := (List.getElem?_eq_some_iff.mp hmarked).1
  exact ⟨hm.set hmarked heof, _, List.mem_set hlt _, rfl⟩

theorem markAccepts_ok {d : Builder} {g : Grammar} {rules : List Rule}
    (h : d.markAccepts g = .ok rules) (hunmarked : ∀ rule ∈ g.rules, rule.accept = false) :
    MarkedFrom g.rules rules ∧ ∃ rule ∈ rules, rule.accept = true := by
  rw [markAccepts] at h
  split at h
  · simp [throw, throwThe, MonadExceptOf.throw] at h
  · rename_i hne
    rw [bind_eq_ok] at h
    obtain ⟨done, hdone, h⟩ := h
    obtain rfl := Except.ok.inj h
    have hmarked : MarkedFrom g.rules done.2 ∧
        (d.accepts ≠ [] → ∃ rule ∈ done.2, rule.accept = true) := by
      refine foldlM_ok (P := fun names done ↦ MarkedFrom g.rules done.2 ∧
        (names ≠ [] → ∃ rule ∈ done.2, rule.accept = true)) hdone
        ⟨markedFrom_refl hunmarked, by simp⟩ ?_
      intro _ name c c' hc hstep
      obtain ⟨hm, hexists⟩ := acceptName_ok hstep hc.1
      exact ⟨hm, fun _ ↦ hexists⟩
    exact ⟨hmarked.1, hmarked.2 hne⟩

/-! ## The grammar -/

theorem symbol?_lt {terminals : List Terminal} {nonterminals : List NonTerminal} {name : String}
    {s : Symbol} (ht : Wrapped Terminal.number terminals)
    (hn : Wrapped NonTerminal.number nonterminals)
    (h : symbol? terminals nonterminals name = some s) :
    (∀ t, s = .terminal t → t < terminals.length) ∧
      ∀ a, s = .nonterminal a → a < nonterminals.length := by
  rw [symbol?] at h
  split at h
  · rename_i t hfind
    obtain rfl := Option.some.inj h
    refine ⟨fun t' heq ↦ ?_, fun a heq ↦ by simp at heq⟩
    rw [← Symbol.terminal.inj heq]
    exact findTerminal?_lt ht hfind
  · obtain ⟨a, ha, rfl⟩ := Option.map_eq_some_iff.mp h
    refine ⟨fun t heq ↦ by simp at heq, fun a' heq ↦ ?_⟩
    rw [← Symbol.nonterminal.inj heq]
    exact findNonTerminal?_lt hn ha

/-- The passes of the builder, each with its result. -/
theorem build_eq_ok {d : Builder} {g : Grammar} :
    d.build = .ok g ↔ ∃ terminals levels nonterminals rules marked,
      d.buildTerminals = .ok terminals ∧ d.buildPrecedence = .ok levels ∧
      d.buildNonTerminals terminals = .ok nonterminals ∧
      d.buildRules terminals levels nonterminals = .ok rules ∧
      d.markAccepts { settings := d.settings, terminals, nonterminals, rules, precedence := levels }
        = .ok marked ∧
      g = { settings := d.settings, terminals, nonterminals, rules := marked,
            precedence := levels } := by
  simp only [build, bind_eq_ok]
  constructor
  · rintro ⟨terminals, ht, levels, hl, nonterminals, hn, rules, hr, marked, hm, h⟩
    exact ⟨terminals, levels, nonterminals, rules, marked, ht, hl, hn, hr, hm,
      (Except.ok.inj h).symm⟩
  · rintro ⟨terminals, levels, nonterminals, rules, marked, ht, hl, hn, hr, hm, rfl⟩
    exact ⟨terminals, ht, levels, hl, nonterminals, hn, rules, hr, marked, hm, rfl⟩

section Passes

variable {d : Builder} {terminals : List Terminal} {levels : List Precedence}
  {nonterminals : List NonTerminal} {rules : List Rule}

theorem not_accept_of_buildRules (h : d.buildRules terminals levels nonterminals = .ok rules) :
    ∀ rule ∈ rules, rule.accept = false := by
  intro rule hrule
  obtain ⟨decl, -, hof⟩ := (buildRules_ok h).2.2 rule hrule
  exact hof.accept

theorem exists_accept_of_build {g : Grammar} (h : d.build = .ok g) :
    ∃ rule ∈ g.rules, rule.accept = true := by
  obtain ⟨terminals, levels, nonterminals, rules, marked, -, -, -, hrules, hmarked, rfl⟩ :=
    build_eq_ok.mp h
  exact (markAccepts_ok hmarked (not_accept_of_buildRules hrules)).2

/-- The symbols of the rules are in range before accept rules are marked. -/
theorem inRange_unmarked (hterminals : d.buildTerminals = .ok terminals)
    (hnonterminals : d.buildNonTerminals terminals = .ok nonterminals)
    (hrules : d.buildRules terminals levels nonterminals = .ok rules) :
    Grammar.SymbolsInRange
      { settings := d.settings, terminals, nonterminals, rules, precedence := levels } := by
  have ht := wrapped_buildTerminals hterminals
  have hn := (buildNonTerminals_ok hnonterminals).1
  obtain ⟨-, -, hof⟩ := buildRules_ok hrules
  refine ⟨?_, ?_, ?_⟩
  · intro rule hrule
    obtain ⟨decl, -, hrule⟩ := hof rule hrule
    exact findNonTerminal?_lt hn hrule.lhs
  · intro rule hrule t hmem
    obtain ⟨decl, -, hrule⟩ := hof rule hrule
    obtain ⟨name, -, hsymbol⟩ := hrule.exists_name hmem
    exact (symbol?_lt ht hn hsymbol).1 t rfl
  · intro rule hrule a hmem
    obtain ⟨decl, -, hrule⟩ := hof rule hrule
    obtain ⟨name, -, hsymbol⟩ := hrule.exists_name hmem
    exact (symbol?_lt ht hn hsymbol).2 a rfl

theorem MarkedFrom.inRange {g : Grammar} {marked : List Rule} (h : MarkedFrom g.rules marked)
    (hg : g.SymbolsInRange) : Grammar.SymbolsInRange { g with rules := marked } := by
  have hsource : ∀ rule ∈ marked, ∃ source ∈ g.rules, unmark source = unmark rule :=
    fun rule hrule ↦ List.mem_map.mp (h.map_unmark ▸ List.mem_map_of_mem hrule)
  refine ⟨?_, ?_, ?_⟩
  · intro rule hrule
    obtain ⟨source, hmem, heq⟩ := hsource rule hrule
    exact (congrArg Rule.lhs heq) ▸ hg.lhs_lt source hmem
  · intro rule hrule
    obtain ⟨source, hmem, heq⟩ := hsource rule hrule
    exact (congrArg Rule.rhs heq) ▸ hg.terminal_lt source hmem
  · intro rule hrule
    obtain ⟨source, hmem, heq⟩ := hsource rule hrule
    exact (congrArg Rule.rhs heq) ▸ hg.nonterminal_lt source hmem

theorem MarkedFrom.map_number {marked : List Rule} (h : MarkedFrom rules marked) :
    marked.map Rule.number = rules.map Rule.number := by
  have hmap := congrArg (List.map Rule.number) h.map_unmark
  rwa [List.map_map, List.map_map] at hmap

/-- **A grammar that is made is well-formed**, if there are enough numbers. -/
theorem wellFormed_of_build (hd : d.Numerable) {g : Grammar} (h : d.build = .ok g) :
    g.WellFormed := by
  obtain ⟨terminals, levels, nonterminals, rules, marked, hterminals, -, hnonterminals, hrules,
    hmarked, rfl⟩ := build_eq_ok.mp h
  have hm := (markAccepts_ok hmarked (not_accept_of_buildRules hrules)).1
  obtain ⟨hw, hlength, -⟩ := buildRules_ok hrules
  have hplaced : Placed Rule.number marked := by
    refine (hw.of_map_eq hm.map_number).placed ?_
    have hmarks := congrArg List.length hm.map_number
    rw [List.length_map, List.length_map] at hmarks
    rw [hmarks, hlength]
    exact hd.rules
  exact
    { toSymbolsInRange := hm.inRange (inRange_unmarked hterminals hnonterminals hrules)
      number_eq := fun {r rule} hrule ↦ hplaced r rule hrule
      getLast?_rhs := hm.getLast?_rhs }

end Passes

end Builder

namespace Declarations

variable {d : Declarations} {g : Grammar}

/-- **A grammar made from declarations is well-formed.** -/
theorem wellFormed_of_build (h : d.build = .ok g) : g.WellFormed :=
  Builder.wellFormed_of_build d.numerable h

end Declarations

end ShiftReduce
