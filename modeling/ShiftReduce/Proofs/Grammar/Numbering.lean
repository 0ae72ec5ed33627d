import Mathlib.Data.List.Pairwise
import ShiftReduce.Proofs.Grammar.Statements

/-!
# The numbers of a grammar

What a grammar made from statements looks like, entry by entry (`Builder.Faithful`). Terminals and
non-terminals are given outright by what is declared: the terminals in order, after the end of
input, and the names that rules use otherwise in the order of their first appearance, each with the
last type that a rule sets for it. A rule is described by what it stands for: its symbols by their
names, its accept mark by the accept names, and its precedence by the level on which a name is
declared.

## The invariant

Non-terminals are numbered while the rules are read, so that their list is followed rule by rule.
The names read so far decide it (`entries`), and reading one more name adds an entry for it or
leaves the list as it is. The number of the entry is its place as long as no more names have been
read than there are numbers. That this never happens is known only when all rules have been read and
every name is defined by one of them; the invariant is therefore said under that condition on the
names read so far, which what is read later can only make harder to meet.

The result about statements is `Declaration.ofList_build_faithful`.
-/

namespace ShiftReduce

namespace Builder

variable {d : Builder} {terminals : List Terminal} {levels : List Precedence}
  {nonterminals : List NonTerminal}

/-! ## Terminals -/

/-- The terminals of some declarations, the end of input first. -/
def terminalsOf (decls : List TerminalDecl) : List Terminal :=
  { name := eofName, number := 0 } :: decls.mapIdx fun i decl ↦
    { name := decl.name, number := i + 1, pattern := decl.pattern, code := decl.code }

private theorem length_terminalsOf (decls : List TerminalDecl) :
    (terminalsOf decls).length = decls.length + 1 := by
  rw [terminalsOf, List.length_cons, List.length_mapIdx]

private theorem eq_terminalsOf_of_buildTerminals (hd : d.Numerable)
    (h : d.buildTerminals = .ok terminals) : terminals = terminalsOf d.terminals := by
  have hdone : d.terminals.length < Numbered.numberBound → terminals = terminalsOf d.terminals := by
    refine foldlM_ok (P := fun done ts ↦
      done.length < Numbered.numberBound → ts = terminalsOf done) h (fun _ ↦ rfl) ?_
    intro done decl ts ts' hts hstep hlength
    rw [List.length_append, List.length_singleton] at hlength
    obtain ⟨-, -, rfl⟩ := addTerminal_eq_ok_iff.mp hstep
    rw [hts (Nat.lt_of_succ_lt hlength), length_terminalsOf, Numbered.ofIndex_eq hlength]
    simp [terminalsOf, List.mapIdx_append]
  exact hdone hd.terminals

/-! ## Non-terminals -/

/-- The names of a rule in the order in which they are read. -/
def namesIn (rule : RuleDecl) : List String :=
  rule.lhs :: rule.rhs

/-- The names that rules use as non-terminals, in the order of their first appearance. -/
def nonterminalNames (d : Builder) : List String :=
  ((d.rules.flatMap namesIn).filter (· ∉ d.terminalNames)).eraseDups

/-- The type of the values of a name: the last that a rule of the name sets. -/
def valueTypeOf (decls : List RuleDecl) (name : String) : String :=
  ((decls.filter (·.lhs = name)).filterMap (·.valueType)).getLast?.getD defaultValueType

/-- The entries of some names, with a type for each. -/
def entries (type : String → String) (names : List String) : List NonTerminal :=
  names.mapIdx fun i name ↦ { name, number := i, valueType := type name }

theorem map_name_entries (type : String → String) (names : List String) :
    (entries type names).map (·.name) = names := by
  refine List.ext_getElem? fun i ↦ ?_
  rw [List.getElem?_map, entries, List.getElem?_mapIdx]
  cases names[i]? with
  | none => rfl
  | some name => rfl

theorem entries_congr {type type' : String → String} {names : List String}
    (h : ∀ name ∈ names, type name = type' name) : entries type names = entries type' names := by
  refine List.mapIdx_eq_mapIdx_iff.mpr fun i hi ↦ ?_
  rw [h _ (List.getElem_mem hi)]

theorem eraseDups_append_singleton (names : List String) (name : String) :
    (names ++ [name]).eraseDups =
      if name ∈ names then names.eraseDups else names.eraseDups ++ [name] := by
  rw [List.eraseDups_append, List.removeAll]
  by_cases hmem : name ∈ names
  · simp [hmem]
  · simp [hmem, List.eraseDups_cons]

theorem nodup_eraseDups (names : List String) : names.eraseDups.Nodup := by
  induction names using List.reverseRecOn with
  | nil => exact List.nodup_nil
  | append_singleton names name ih =>
    rw [eraseDups_append_singleton]
    split
    · exact ih
    · rename_i hnew
      exact nodup_append_singleton_iff.mpr ⟨List.mem_eraseDups.not.mpr hnew, ih⟩

/-- What has been read stays read. -/
theorem length_eraseDups_le (read names : List String) :
    read.eraseDups.length ≤ (read ++ names).eraseDups.length := by
  rw [List.eraseDups_append, List.length_append]
  exact Nat.le_add_right _ _

private theorem addNonTerminal_entries {type : String → String} {read : List String} {name : String}
    (htype : name ∉ read → type name = defaultValueType)
    (hlength : (read ++ [name]).eraseDups.length ≤ Numbered.numberBound) :
    addNonTerminal (entries type read.eraseDups) name =
      entries type (read ++ [name]).eraseDups := by
  have hnames : name ∈ (entries type read.eraseDups).map (·.name) ↔ name ∈ read := by
    rw [map_name_entries, List.mem_eraseDups]
  have hany : (entries type read.eraseDups).any (·.name = name) ↔ name ∈ read := by
    simpa using hnames
  rw [eraseDups_append_singleton] at hlength
  rw [addNonTerminal, eraseDups_append_singleton]
  by_cases hmem : name ∈ read
  · rw [if_pos (hany.mpr hmem), if_pos hmem]
  · rw [if_neg hmem, List.length_append, List.length_singleton] at hlength
    rw [if_neg (hany.not.mpr hmem), if_neg hmem, entries, entries, List.mapIdx_concat,
      List.length_mapIdx, Numbered.ofIndex_eq hlength, htype hmem]

private theorem foldl_addNonTerminal_entries {type : String → String} {read names : List String}
    (htype : ∀ name ∈ names, name ∉ read → type name = defaultValueType)
    (hlength : (read ++ names).eraseDups.length ≤ Numbered.numberBound) :
    names.foldl addNonTerminal (entries type read.eraseDups) =
      entries type (read ++ names).eraseDups := by
  induction names generalizing read with
  | nil => rw [List.append_nil, List.foldl_nil]
  | cons name names ih =>
    have hsplit : read ++ name :: names = read ++ [name] ++ names := by simp
    rw [hsplit] at hlength ⊢
    have hfirst := (length_eraseDups_le (read ++ [name]) names).trans hlength
    rw [List.foldl_cons, addNonTerminal_entries (htype name List.mem_cons_self) hfirst,
      ih ?_ hlength]
    intro other hother hnew
    exact htype other (List.mem_cons_of_mem name hother)
      fun hmem ↦ hnew (List.mem_append_left [name] hmem)

private theorem placed_entries (type : String → String) (names : List String) :
    Placed NonTerminal.number (entries type names) := by
  intro i entry h
  rw [entries, List.getElem?_mapIdx, Option.map_eq_some_iff] at h
  obtain ⟨name, -, rfl⟩ := h
  rfl

private theorem setValueType_entries (type : String → String) {names : List String}
    (hnodup : names.Nodup)
    {name : String} (hname : name ∈ names) (value : String) :
    setValueType (entries type names) name value =
      .ok (entries (fun other ↦ if other = name then value else type other) names) := by
  obtain ⟨a, ha⟩ := List.mem_iff_getElem?.mp hname
  have hentry : (entries type names)[a]? = some ⟨name, a, type name⟩ := by
    rw [entries, List.getElem?_mapIdx, ha, Option.map_some]
  have hfind : findNonTerminal? (entries type names) name = some a := by
    rw [findNonTerminal?_eq_some_iff (placed_entries type names)
      ((map_name_entries type names).symm ▸ hnodup), map_name_entries, ha]
  refine setValueType_eq_ok.mpr ⟨a, _, hfind, hentry, List.ext_getElem? fun i ↦ ?_⟩
  have hlt := (List.getElem?_eq_some_iff.mp hentry).1
  rw [List.getElem?_set, entries, List.getElem?_mapIdx]
  by_cases hi : a = i
  · subst hi
    rw [if_pos rfl, if_pos hlt, ha, Option.map_some, if_pos rfl]
  · rw [if_neg hi, entries, List.getElem?_mapIdx]
    cases hother : names[i]? with
    | none => rfl
    | some other =>
      have hne : other ≠ name := by
        rintro rfl
        have hlt := (List.getElem?_eq_some_iff.mp ha).1
        exact hi ((List.getElem?_inj hlt hnodup).mp (ha.trans hother.symm))
      rw [Option.map_some, Option.map_some, if_neg hne]

/-- The types after one more rule: those before, but for the type that the rule sets. -/
theorem valueTypeOf_append_singleton (decls : List RuleDecl) (rule : RuleDecl) (name : String) :
    valueTypeOf (decls ++ [rule]) name =
      if name = rule.lhs then rule.valueType.getD (valueTypeOf decls name)
      else valueTypeOf decls name := by
  rw [valueTypeOf, List.filter_append, List.filterMap_append, List.getLast?_append]
  by_cases hname : name = rule.lhs
  · rw [if_pos hname, List.filter_cons_of_pos (by simp [hname]), List.filter_nil]
    cases htype : rule.valueType with
    | none => simp [htype, valueTypeOf]
    | some type => simp [htype]
  · have hne : ¬rule.lhs = name := fun heq ↦ hname heq.symm
    rw [if_neg hname, List.filter_cons_of_neg (by simp [hne]), List.filter_nil]
    simp [valueTypeOf]

private theorem valueTypeOf_eq_default {decls : List RuleDecl} {name : String}
    (h : ∀ rule ∈ decls, rule.lhs ≠ name) : valueTypeOf decls name = defaultValueType := by
  have hnone : decls.filter (·.lhs = name) = [] := by
    refine List.filter_eq_nil_iff.mpr fun rule hrule heq ↦ ?_
    exact h rule hrule (of_decide_eq_true heq)
  rw [valueTypeOf, hnone]
  rfl

/-- The names that some rules use as non-terminals, in the order in which they are read. -/
def readNames (terminals : List Terminal) (decls : List RuleDecl) : List String :=
  (decls.flatMap namesIn).filter fun name ↦ (findTerminal? terminals name).isNone

theorem readNames_append_singleton (decls : List RuleDecl) (rule : RuleDecl) :
    readNames terminals (decls ++ [rule]) =
      readNames terminals decls ++
        (namesIn rule).filter fun name ↦ (findTerminal? terminals name).isNone := by
  rw [readNames, List.flatMap_append, List.flatMap_singleton, List.filter_append]
  rfl

private theorem lhs_mem_readNames {decls : List RuleDecl} {rule : RuleDecl} (hrule : rule ∈ decls)
    (hfree : findTerminal? terminals rule.lhs = none) : rule.lhs ∈ readNames terminals decls := by
  rw [readNames, List.mem_filter, hfree]
  exact ⟨List.mem_flatMap.mpr ⟨rule, hrule, List.mem_cons_self⟩, rfl⟩

/-- Reading a rule adds entries for the names that have not been read before. -/
theorem addRuleNames_entries {decls : List RuleDecl} {rule : RuleDecl}
    (hlhs : ∀ other ∈ decls, findTerminal? terminals other.lhs = none)
    (hlength : (readNames terminals (decls ++ [rule])).eraseDups.length ≤ Numbered.numberBound)
    (h : addRuleNames terminals
      (entries (valueTypeOf decls) (readNames terminals decls).eraseDups) rule = .ok nonterminals) :
    nonterminals = entries (valueTypeOf (decls ++ [rule]))
      (readNames terminals (decls ++ [rule])).eraseDups := by
  obtain ⟨hfree, h⟩ := addRuleNames_eq_ok.mp h
  have hnew : ∀ name, name ∉ readNames terminals decls →
      valueTypeOf decls name = defaultValueType := by
    intro name hname
    refine valueTypeOf_eq_default fun other hother heq ↦ hname ?_
    exact heq ▸ lhs_mem_readNames hother (hlhs other hother)
  have hnames : (namesIn rule).filter (fun name ↦ (findTerminal? terminals name).isNone) =
      freeNames terminals rule := by
    rw [namesIn, List.filter_cons_of_pos (by simp [hfree])]
    rfl
  rw [readNames_append_singleton, hnames] at hlength ⊢
  rw [foldl_addNonTerminal_entries (fun name _ ↦ hnew name) hlength] at h
  cases htype : rule.valueType with
  | some type =>
    have hmem : rule.lhs ∈ (readNames terminals decls ++ freeNames terminals rule).eraseDups :=
      List.mem_eraseDups.mpr (List.mem_append_right _ List.mem_cons_self)
    simp only [htype, setValueType_entries _ (nodup_eraseDups _) hmem] at h
    rw [← Except.ok.inj h]
    refine entries_congr fun name _ ↦ ?_
    rw [valueTypeOf_append_singleton, htype, Option.getD_some]
  | none =>
    simp only [htype] at h
    rw [h]
    refine entries_congr fun name _ ↦ ?_
    rw [valueTypeOf_append_singleton, htype, Option.getD_none, ite_self]

/-- No more names are read than there are rules, each being defined by one. -/
theorem length_readNames_le (h : d.buildNonTerminals terminals = .ok nonterminals) :
    (readNames terminals d.rules).eraseDups.length ≤ d.rules.length := by
  obtain ⟨hof, hdefined⟩ := namesOf_buildNonTerminals h
  have hsub : (readNames terminals d.rules).eraseDups ⊆ d.rules.map (·.lhs) := by
    intro name hname
    obtain ⟨hname, hfree⟩ := List.mem_filter.mp (List.mem_eraseDups.mp hname)
    obtain ⟨rule, hrule, hmem⟩ := List.mem_flatMap.mp hname
    refine List.mem_map.mpr (hdefined name ((hof.named_iff name).mpr ⟨rule, hrule, ?_⟩))
    exact (List.mem_cons.mp hmem).imp_right fun hmem ↦ ⟨hmem, Option.isNone_iff_eq_none.mp hfree⟩
  have hle := ((nodup_eraseDups _).subperm hsub).length_le
  rwa [List.length_map] at hle

private theorem eq_entries_of_buildNonTerminals (hd : d.Numerable)
    (h : d.buildNonTerminals terminals = .ok nonterminals) :
    nonterminals = entries (valueTypeOf d.rules) (readNames terminals d.rules).eraseDups := by
  obtain ⟨hfound, -⟩ := buildNonTerminals_eq_ok h
  have hdone : (∀ rule ∈ d.rules, findTerminal? terminals rule.lhs = none) ∧
      ((readNames terminals d.rules).eraseDups.length ≤ Numbered.numberBound →
        nonterminals = entries (valueTypeOf d.rules) (readNames terminals d.rules).eraseDups) := by
    refine foldlM_ok (P := fun done ns ↦
      (∀ rule ∈ done, findTerminal? terminals rule.lhs = none) ∧
        ((readNames terminals done).eraseDups.length ≤ Numbered.numberBound →
          ns = entries (valueTypeOf done) (readNames terminals done).eraseDups)) hfound
      ⟨by simp, fun _ ↦ rfl⟩ ?_
    rintro done rule ns ns' ⟨hlhs, hns⟩ hstep
    refine ⟨List.forall_mem_append.mpr ⟨hlhs, ?_⟩, fun hlength ↦ ?_⟩
    · exact List.forall_mem_singleton.mpr (addRuleNames_eq_ok.mp hstep).1
    · have hbefore : (readNames terminals done).eraseDups.length ≤ Numbered.numberBound := by
        rw [readNames_append_singleton] at hlength
        exact (length_eraseDups_le _ _).trans hlength
      rw [hns hbefore] at hstep
      exact addRuleNames_entries hlhs hlength hstep
  exact hdone.2 ((length_readNames_le h).trans hd.rules)

/-! ## Rules -/

/-- The name from which a rule has its precedence: the one it borrows from, or else its right-most
terminal. -/
def levelName? (d : Builder) (rule : RuleDecl) : Option String :=
  match rule.precedence with
  | some name => some name
  | none => rule.rhs.reverse.find? (· ∈ d.terminalNames)

/-- A rule that stands for what was declared. -/
structure Mirrors (d : Builder) (g : Grammar) (decl : RuleDecl) (rule : Rule) : Prop where
  lhs : g.symbolName (.nonterminal rule.lhs) = decl.lhs
  rhs : rule.rhs.map g.symbolName = decl.rhs
  /-- Parsing starts at the rules of the accept names. -/
  accept : rule.accept = true ↔ decl.lhs ∈ d.accepts
  /-- The precedence is the level on which the name stands that the rule has it from. -/
  precedence : ∀ i, rule.precedence = some i ↔
    ∃ name level, d.levelName? decl = some name ∧ d.precedence[i]? = some level ∧
      name ∈ level.members
  /-- A name that a rule borrows from stands on a level. -/
  borrows : decl.precedence ≠ none → rule.precedence ≠ none
  code_eq : rule.code = decl.code

/-- A grammar that is made of what was declared, with numbers that are places. -/
structure Faithful (d : Builder) (g : Grammar) : Prop where
  settings_eq : g.settings = d.settings
  terminals_eq : g.terminals = terminalsOf d.terminals
  nonterminals_eq : g.nonterminals = entries (valueTypeOf d.rules) d.nonterminalNames
  numbered_terminals : Placed Terminal.number g.terminals
  numbered_nonterminals : Placed NonTerminal.number g.nonterminals
  numbered_rules : Placed Rule.number g.rules
  /-- A name has one number, be it of a terminal or of a non-terminal. -/
  nodup_names : (g.terminals.map (·.name) ++ g.nonterminals.map (·.name)).Nodup
  rules : List.Forall₂ (Mirrors d g) d.rules g.rules
  /-- Symbols are within range, and non-terminals are defined. -/
  lhs_lt : ∀ rule ∈ g.rules, rule.lhs < g.nonterminals.length
  terminal_lt : ∀ rule ∈ g.rules, ∀ t, Symbol.terminal t ∈ rule.rhs → t < g.terminals.length
  nonterminal_lt :
    ∀ rule ∈ g.rules, ∀ a, Symbol.nonterminal a ∈ rule.rhs → a < g.nonterminals.length
  exists_rule : ∀ a < g.nonterminals.length, ∃ rule ∈ g.rules, rule.lhs = a
  /-- Levels are those declared, counted from 1. -/
  levels : LevelsOf d.precedence g.precedence

private theorem findIdx?_members_eq_some_iff {decls : List PrecedenceDecl}
    (hnodup : (decls.flatMap (·.members)).Nodup) {name : String} {i : Nat} :
    decls.findIdx? (name ∈ ·.members) = some i ↔
      ∃ level, decls[i]? = some level ∧ name ∈ level.members := by
  have hdisjoint := List.pairwise_iff_getElem.mp (List.nodup_flatMap.mp hnodup).2
  rw [List.findIdx?_eq_some_iff_getElem]
  constructor
  · rintro ⟨hi, hmem, -⟩
    exact ⟨decls[i], List.getElem?_eq_getElem hi, of_decide_eq_true hmem⟩
  · rintro ⟨level, hlevel, hmem⟩
    obtain ⟨hi, rfl⟩ := List.getElem?_eq_some_iff.mp hlevel
    refine ⟨hi, decide_eq_true hmem, fun j hji hother ↦ ?_⟩
    exact hdisjoint j i (hji.trans hi) hi hji (of_decide_eq_true hother) hmem

section Image

variable {g : Grammar} (himage : Image d g)

include himage

theorem Image.isSome_findTerminal? (name : String) :
    (findTerminal? g.terminals name).isSome = decide (name ∈ d.terminalNames) := by
  rw [Bool.eq_iff_iff, decide_eq_true_iff, ← not_iff_not, Bool.not_eq_true,
    Option.isSome_eq_false_iff,
    Option.isNone_iff_eq_none, findTerminal?_eq_none_iff himage.terminals_eq]

theorem Image.exists_nonterminal? {name : String} (h : Named g.nonterminals name) :
    ∃ a, findNonTerminal? g.nonterminals name = some a ∧
      (g.nonterminals.map (·.name))[a]? = some name := by
  obtain ⟨a, ha⟩ := exists_findNonTerminal? h
  exact ⟨a, ha,
    (findNonTerminal?_eq_some_iff himage.numbered_nonterminals himage.names.nodup).mp ha⟩

theorem Image.named_lhs {decl : RuleDecl} (h : decl ∈ d.rules) : Named g.nonterminals decl.lhs :=
  (himage.names.named_iff _).mpr ⟨decl, h, Or.inl rfl⟩

theorem Image.symbolName_symbolOf {name : String}
    (h : findTerminal? g.terminals name = none → Named g.nonterminals name) :
    g.symbolName (symbolOf g.terminals g.nonterminals name) = name := by
  cases hfind : findTerminal? g.terminals name with
  | some t =>
    have hplace := (findTerminal?_eq_some_iff himage.terminals_eq himage.numbered_terminals
      himage.nodup_terminals).mp hfind
    rw [← himage.terminals_eq, List.getElem?_map] at hplace
    rw [symbolOf_terminal hfind, Grammar.symbolName, Grammar.symbolName?, hplace, Option.getD_some]
  | none =>
    obtain ⟨a, ha, hplace⟩ := himage.exists_nonterminal? (h hfind)
    rw [List.getElem?_map] at hplace
    rw [symbolOf_nonterminal hfind ha, Grammar.symbolName, Grammar.symbolName?, hplace,
      Option.getD_some]

theorem Image.symbolName_lhs {decl : RuleDecl} (h : decl ∈ d.rules) :
    g.symbolName (.nonterminal ((g.nonterminal? decl.lhs).getD 0)) = decl.lhs := by
  have hsymbol := himage.symbolName_symbolOf fun _ ↦ himage.named_lhs h
  obtain ⟨a, ha, -⟩ := himage.exists_nonterminal? (himage.named_lhs h)
  rw [symbolOf_nonterminal (himage.names.lhs decl h) ha] at hsymbol
  rwa [Grammar.nonterminal?, ← findNonTerminal?, ha, Option.getD_some]

/-- The level of a rule is that of the name from which it has its precedence. -/
theorem Image.level_eq {decl : RuleDecl} {level : Option Nat}
    (h : levelOf g.terminals g.precedence decl = .ok level) :
    level = (d.levelName? decl).bind fun name ↦ d.precedence.findIdx? (name ∈ ·.members) := by
  rw [levelOf] at h
  rw [levelName?]
  rcases hname : decl.precedence with _ | name
  · rw [hname] at h
    rw [← Except.ok.inj h]
    simp only [himage.isSome_findTerminal?, himage.levels.findLevel?_eq]
  · rw [hname] at h
    rw [Option.bind_some, ← himage.levels.findLevel?_eq]
    rcases hi : findLevel? g.precedence name with _ | i
    · simp [hi] at h
    · simp only [hi] at h
      exact (Except.ok.inj h).symm

theorem Image.mirrors (hnodup : (d.precedence.flatMap (·.members)).Nodup) {i : Nat}
    {decl : RuleDecl} (hdecl : d.rules[i]? = some decl) {rule : Rule}
    (hrule : g.rule? i = some rule) :
    Mirrors d g decl rule := by
  have hmem := List.mem_of_getElem? hdecl
  obtain ⟨level, hlevel, heq⟩ := himage.rule_eq i decl hdecl
  obtain rfl := Option.some.inj (hrule.symm.trans heq)
  refine
    { lhs := himage.symbolName_lhs hmem
      rhs := ?_
      accept := decide_eq_true_iff
      precedence := fun k ↦ ?_
      borrows := ?_
      code_eq := rfl }
  · rw [List.map_map]
    conv_rhs => rw [← List.map_id decl.rhs]
    refine List.map_congr_left fun name hname ↦ himage.symbolName_symbolOf fun hnone ↦ ?_
    exact (himage.names.named_iff _).mpr ⟨decl, hmem, Or.inr ⟨hname, hnone⟩⟩
  · show level = some k ↔ _
    rw [himage.level_eq hlevel, Option.bind_eq_some_iff]
    simp only [findIdx?_members_eq_some_iff hnodup, exists_and_left]
  · intro hborrows
    obtain ⟨name, hname⟩ := Option.ne_none_iff_exists'.mp hborrows
    obtain ⟨k, hk⟩ := exists_findLevel?_of_levelOf hlevel hname
    show level ≠ none
    rw [himage.level_eq hlevel, levelName?, hname, Option.bind_some, ← himage.levels.findLevel?_eq,
      hk]
    simp

theorem Image.exists_rule {a : Nat} (ha : a < g.nonterminals.length) :
    ∃ rule ∈ g.rules, rule.lhs = a := by
  obtain ⟨decl, hdecl, hlhs⟩ := himage.defined g.nonterminals[a].name
    ⟨_, List.getElem_mem ha, rfl⟩
  obtain ⟨i, hi⟩ := List.mem_iff_getElem?.mp hdecl
  obtain ⟨level, -, hrule⟩ := himage.rule_eq i decl hi
  refine ⟨_, Grammar.mem_of_rule? hrule, ?_⟩
  have hplace : (g.nonterminals.map (·.name))[a]? = some decl.lhs := by
    rw [List.getElem?_map, List.getElem?_eq_getElem ha, Option.map_some, hlhs]
  have hfind : g.nonterminal? decl.lhs = some a :=
    (findNonTerminal?_eq_some_iff himage.numbered_nonterminals himage.names.nodup).mpr hplace
  show (g.nonterminal? decl.lhs).getD 0 = a
  rw [hfind, Option.getD_some]

theorem Image.nodup_names :
    (g.terminals.map (·.name) ++ g.nonterminals.map (·.name)).Nodup := by
  rw [himage.terminals_eq]
  refine List.nodup_append.mpr ⟨himage.nodup_terminals, himage.names.nodup, ?_⟩
  rintro name hterminal other hnonterminal rfl
  obtain ⟨rule, hrule, rfl | ⟨-, hnone⟩⟩ :=
    (himage.names.named_iff _).mp (named_iff.mpr hnonterminal)
  · exact (findTerminal?_eq_none_iff himage.terminals_eq).mp (himage.names.lhs rule hrule) hterminal
  · exact (findTerminal?_eq_none_iff himage.terminals_eq).mp hnone hterminal

theorem Image.readNames_eq :
    (readNames g.terminals d.rules).eraseDups = d.nonterminalNames := by
  have hfree :
    ∀ name, (findTerminal? g.terminals name).isNone = decide (name ∉ d.terminalNames) := by
    intro name
    rw [← Option.not_isSome, himage.isSome_findTerminal?, decide_not]
  simp only [readNames, hfree, nonterminalNames]

end Image

/-- **A grammar is a faithful image of its declarations**, numbered without gaps. -/
theorem faithful_of_build (hd : d.Numerable) {g : Grammar} (h : d.build = .ok g) :
    Faithful d g := by
  have himage := image_of_build hd h
  have wf := wellFormed_of_build hd h
  have hnodup := (consistent_of_build hd h).members
  obtain
    ⟨terminals, levels, nonterminals, rules, marked, hterminals, -, hnonterminals, -, -, rfl⟩ :=
    build_eq_ok.mp h
  refine
    { settings_eq := rfl
      terminals_eq := eq_terminalsOf_of_buildTerminals hd hterminals
      nonterminals_eq := ?_
      numbered_terminals := himage.numbered_terminals
      numbered_nonterminals := himage.numbered_nonterminals
      numbered_rules := fun r rule hrule ↦ wf.number_eq hrule
      nodup_names := himage.nodup_names
      rules := ?_
      lhs_lt := wf.lhs_lt
      terminal_lt := wf.terminal_lt
      nonterminal_lt := wf.nonterminal_lt
      exists_rule := fun a ha ↦ himage.exists_rule ha
      levels := himage.levels }
  · rw [← himage.readNames_eq]
    exact eq_entries_of_buildNonTerminals hd hnonterminals
  · refine List.forall₂_iff_get.mpr ⟨himage.length_rules.symm, fun i hi hi' ↦ ?_⟩
    exact himage.mirrors hnodup (List.getElem?_eq_getElem hi) (List.getElem?_eq_getElem hi')

end Builder

namespace Declaration

/-- **A grammar is a faithful image of the statements that it is made of**, numbered without gaps,
if there is a number for everything that they declare. -/
theorem ofList_build_faithful {statements : List Declaration}
    (hd : (declared statements).Numerable) {g : Grammar}
    (h : (Builder.ofList statements).build = .ok g) : (declared statements).Faithful g := by
  rw [ofList_eq_declared] at h
  exact Builder.faithful_of_build hd h

def differencesGrammar : Grammar where
  settings := {}
  terminals :=
    [{ name := "EOF", number := 0 }, { name := "-", number := 1 }, { name := "n", number := 2 }]
  nonterminals :=
    [{ name := "S", number := 0, valueType := "Node" },
      { name := "E", number := 1, valueType := "Difference" }]
  rules :=
    [⟨0, 0, [.nonterminal 1, .terminal 0], none, true, none⟩,
      ⟨1, 1, [.nonterminal 1, .terminal 1, .nonterminal 1], some 0, false, none⟩,
      ⟨2, 1, [.terminal 1, .nonterminal 1], some 1, false, none⟩,
      ⟨3, 1, [.terminal 2], none, false, none⟩]
  precedence :=
    [{ level := 1, associativity := .left, members := ["-"] },
      { level := 2, associativity := .right, members := ["SIGN"] }]

theorem differences_build_faithful :
    (declared differences).Numerable ∧
      (Builder.ofList differences).build = .ok differencesGrammar ∧
      (declared differences).Faithful differencesGrammar := by
  have h : (Builder.ofList differences).build = .ok differencesGrammar := by decide +kernel
  exact ⟨numerable_differences, h, ofList_build_faithful numerable_differences h⟩

end Declaration

end ShiftReduce
