import Mathlib.Data.List.Forall2
import Mathlib.Data.List.Nodup
import Mathlib.Data.String.Basic
import ShiftReduce.Proofs.Grammar.WellFormed
import ShiftReduce.Proofs.Items

/-!
# What a grammar keeps of its declarations

`Builder.Image` relates what a builder has collected to the grammar that it makes: terminals and
levels of precedence are those declared, in order; non-terminals are the names that rules use; every
rule is that declared at its place, and its accept mark stands for its name. What passes all checks
is `Builder.Consistent`; from this a grammar is made (`Builder.exists_build_eq_ok`).

## The construction

Both are shown pass by pass, each with one lemma about its step, and each pass in both directions:
what its result is like if it has one, and when it has one.

## Numbers

A name is found by its number, and the number of a name is its place, if there are numbers for all
places. For terminals and rules that is what `Builder.Numerable` says. Non-terminals are no more
than rules, since every one of them is the left-hand side of a rule (`length_nonterminals_le`).
Levels are never too many, since a level past the last number is not made.
-/

namespace ShiftReduce

namespace Builder

/-- A list is free of duplicates with one more entry if the entry is new. -/
theorem nodup_append_singleton_iff {α : Type} {xs : List α} {x : α} :
    (xs ++ [x]).Nodup ↔ x ∉ xs ∧ xs.Nodup := by
  rw [← List.concat_eq_append, List.nodup_concat]

/-! ## Entries found by name -/

section Find

variable {α : Type} {name : α → String} {number : α → Nat} {xs : List α}

/-- Where numbers are places and names are distinct, the number found is the place of the name. -/
theorem map_find?_eq_some_iff (hn : Placed number xs) (hnodup : (xs.map name).Nodup)
    {s : String} {k : Nat} :
    (xs.find? (name · = s)).map number = some k ↔ (xs.map name)[k]? = some s := by
  constructor
  · intro h
    obtain ⟨x, hx, rfl⟩ := Option.map_eq_some_iff.mp h
    obtain ⟨i, hi⟩ := List.mem_iff_getElem?.mp (List.mem_of_find?_eq_some hx)
    have hname : name x = s := by simpa using List.find?_some hx
    rw [hn i x hi, List.getElem?_map, hi, Option.map_some, hname]
  · intro h
    obtain ⟨x, hx, hname⟩ := List.getElem?_map.symm.trans h |> Option.map_eq_some_iff.mp
    cases hfind : xs.find? (name · = s) with
    | none =>
      exact absurd (decide_eq_true hname) (List.find?_eq_none.mp hfind x (List.mem_of_getElem? hx))
    | some y =>
      have hy : name y = s := by simpa using List.find?_some hfind
      obtain ⟨j, hj⟩ := List.mem_iff_getElem?.mp (List.mem_of_find?_eq_some hfind)
      have hj' : (xs.map name)[j]? = some s := by rw [List.getElem?_map, hj, Option.map_some, hy]
      have hlt : j < (xs.map name).length := (List.getElem?_eq_some_iff.mp hj').1
      obtain rfl : j = k := (List.getElem?_inj hlt hnodup).mp (hj'.trans h.symm)
      rw [Option.map_some, hn j y hj]

theorem map_find?_eq_none_iff {s : String} :
    (xs.find? (name · = s)).map number = none ↔ s ∉ xs.map name := by
  rw [Option.map_eq_none_iff, List.find?_eq_none, List.mem_map]
  simp

end Find

/-! ## Terminals -/

variable {d : Builder} {terminals : List Terminal} {levels : List Precedence}
  {nonterminals : List NonTerminal} {rules : List Rule}

/-- The names of the terminals, the end of input first. -/
def terminalNames (d : Builder) : List String :=
  eofName :: d.terminals.map (·.name)

theorem addTerminal_eq_ok_iff {decl : TerminalDecl} {terminals' : List Terminal} :
    addTerminal terminals decl = .ok terminals' ↔
      decl.name ≠ eofName ∧ decl.name ∉ terminals.map (·.name) ∧
      terminals' = terminals ++
        [{ name := decl.name, number := Numbered.ofIndex terminals.length, pattern := decl.pattern,
           code := decl.code }] := by
  rw [addTerminal]
  split
  · rename_i heof
    simp [heof]
  · rename_i heof
    split
    · rename_i hany
      have hmem : decl.name ∈ terminals.map (·.name) := by simpa using hany
      simp [hmem]
    · rename_i hany
      have hmem : decl.name ∉ terminals.map (·.name) := by simpa using hany
      simp only [Except.ok.injEq, heof, hmem, ne_eq, not_false_eq_true, true_and]
      exact eq_comm

theorem terminals_of_buildTerminals (h : d.buildTerminals = .ok terminals) :
    terminals.map (·.name) = d.terminalNames ∧ d.terminalNames.Nodup := by
  refine foldlM_ok (P := fun done (ts : List Terminal) ↦
    ts.map (·.name) = eofName :: done.map TerminalDecl.name ∧
      (eofName :: done.map TerminalDecl.name).Nodup) h ⟨rfl, List.nodup_singleton _⟩ ?_
  intro done decl ts ts' hts hstep
  obtain ⟨-, hnew, rfl⟩ := addTerminal_eq_ok_iff.mp hstep
  obtain ⟨hnames, hnodup⟩ := hts
  rw [List.map_append, hnames, List.map_append, List.map_singleton, ← List.cons_append]
  exact ⟨rfl, nodup_append_singleton_iff.mpr ⟨hnames ▸ hnew, hnodup⟩⟩

theorem length_buildTerminals (h : d.buildTerminals = .ok terminals) :
    terminals.length = d.terminals.length + 1 := by
  have hlength := congrArg List.length (terminals_of_buildTerminals h).1
  rwa [List.length_map, terminalNames, List.length_cons, List.length_map] at hlength

theorem placed_buildTerminals (hd : d.Numerable) (h : d.buildTerminals = .ok terminals) :
    Placed Terminal.number terminals := by
  refine (wrapped_buildTerminals h).placed ?_
  rw [length_buildTerminals h]
  exact hd.terminals

private theorem exists_buildTerminals_eq_ok (h : d.terminalNames.Nodup) :
    ∃ ts, d.buildTerminals = .ok ts := by
  have hfold : ∃ ts, d.buildTerminals = .ok ts ∧
      ts.map (·.name) = eofName :: d.terminals.map (·.name) := by
    refine exists_foldlM_eq_ok (P := fun done (ts : List Terminal) ↦
      ts.map (·.name) = eofName :: done.map TerminalDecl.name) rfl ?_
    intro done decl ts hpre hts
    have hsub : (eofName :: (done ++ [decl]).map TerminalDecl.name).Nodup :=
      h.sublist ((hpre.sublist.map _).cons_cons eofName)
    rw [List.map_append, List.map_singleton, ← List.cons_append] at hsub
    have hnew := (nodup_append_singleton_iff.mp hsub).1
    obtain ⟨heof, hdone⟩ := not_or.mp (List.mem_cons.not.mp hnew)
    refine ⟨_, addTerminal_eq_ok_iff.mpr ⟨heof, hts ▸ hnew, rfl⟩, ?_⟩
    rw [List.map_append, hts, List.map_append]
    rfl
  obtain ⟨ts, hts, -⟩ := hfold
  exact ⟨ts, hts⟩

/-! ## Precedence -/

theorem exists_ofKeyword_iff {keyword : String} :
    (∃ a, Associativity.ofKeyword keyword = .ok a) ↔
      keyword.map Char.toLower ∈ ["left", "right", "nonassoc"] := by
  rw [Associativity.ofKeyword]
  generalize keyword.map Char.toLower = letters
  split
  · simp [*]
  · split
    · simp [*]
    · split <;> simp [*]

/-- A level that holds what was declared for it. -/
structure LevelOf (decl : PrecedenceDecl) (level : Precedence) : Prop where
  associativity : Associativity.ofKeyword decl.keyword = .ok level.associativity
  mem_iff : ∀ name, name ∈ level.members ↔ name ∈ decl.members

theorem mem_insert_name {name x : String} {xs : List String} :
    name ∈ Ascending.insert (fun a b ↦ a < b) x xs ↔ name = x ∨ name ∈ xs := by
  refine Ascending.mem_insert ?_
  intro a b hab hba
  exact le_antisymm (not_lt.mp (by simpa using hba)) (not_lt.mp (by simpa using hab))

theorem addLevel_ok {decl : PrecedenceDecl} {levels' : List Precedence}
    (h : addLevel levels decl = .ok levels') : ∃ level, levels' = levels ++ [level] ∧
      LevelOf decl level ∧
      Numbered.advance? (Numbered.ofIndex levels.length) 1 = some level.level := by
  simp only [addLevel, bind_eq_ok, require_eq_ok] at h
  obtain ⟨associativity, hassociativity, members, hmembers, level, hlevel, h⟩ := h
  refine ⟨_, (Except.ok.inj h).symm, ⟨hassociativity, ?_⟩, hlevel⟩
  refine foldlM_ok (P := fun done (ms : List String) ↦ ∀ name, name ∈ ms ↔ name ∈ done) hmembers
    (by simp) ?_
  intro done x ms ms' hms hstep name
  rw [addMember] at hstep
  split at hstep
  · simp at hstep
  · obtain rfl := Except.ok.inj hstep
    rw [mem_insert_name, hms, List.mem_append, List.mem_singleton, or_comm]

private theorem exists_addLevel_eq_ok {decl : PrecedenceDecl} {associativity : Associativity}
    (hassociativity : Associativity.ofKeyword decl.keyword = .ok associativity)
    (hnodup : decl.members.Nodup)
    (hnew : ∀ name ∈ decl.members, ∀ level ∈ levels, name ∉ level.members)
    (hlength : levels.length + 1 < Numbered.numberBound) :
    ∃ levels', addLevel levels decl = .ok levels' := by
  have hfold : ∃ ms, decl.members.foldlM (addMember levels) [] = .ok ms ∧
      ∀ name, name ∈ ms ↔ name ∈ decl.members := by
    refine exists_foldlM_eq_ok (P := fun done (ms : List String) ↦ ∀ name, name ∈ ms ↔ name ∈ done)
      (by simp) ?_
    intro done x ms hpre hms
    have hx : x ∈ decl.members := hpre.subset (by simp)
    have hdone : x ∉ done := (nodup_append_singleton_iff.mp (hnodup.sublist hpre.sublist)).1
    refine ⟨Ascending.insert (fun a b ↦ a < b) x ms, ?_, ?_⟩
    · rw [addMember, if_neg]
      rintro (hmem | hany)
      · exact hdone ((hms x).mp hmem)
      · obtain ⟨level, hlevel, hmem⟩ := List.any_eq_true.mp hany
        exact hnew x hx level hlevel (of_decide_eq_true hmem)
    · intro name
      rw [mem_insert_name, hms, List.mem_append, List.mem_singleton, or_comm]
  obtain ⟨ms, hms, -⟩ := hfold
  have hlevel : Numbered.advance? (Numbered.ofIndex levels.length) 1
      = some (levels.length + 1) := by
    rw [Numbered.ofIndex_eq (Nat.lt_of_succ_lt hlength), Numbered.advance?_eq_some hlength]
  simp only [addLevel, bind_eq_ok, require_eq_ok]
  exact ⟨_, associativity, hassociativity, ms, hms, _, hlevel, rfl⟩

/-- The levels are those declared, in order, and there is a number for each. -/
structure LevelsOf (decls : List PrecedenceDecl) (levels : List Precedence) : Prop where
  forall₂ : List.Forall₂ LevelOf decls levels
  level_eq : ∀ i level, levels[i]? = some level → level.level = i + 1
  length_lt : levels.length < Numbered.numberBound

theorem levelsOf_nil : LevelsOf [] [] :=
  ⟨List.Forall₂.nil, by simp, by decide⟩

theorem LevelsOf.append {decls : List PrecedenceDecl} (h : LevelsOf decls levels)
    {decl : PrecedenceDecl} {level : Precedence} (hof : LevelOf decl level)
    (hlevel : Numbered.advance? (Numbered.ofIndex levels.length) 1 = some level.level) :
    LevelsOf (decls ++ [decl]) (levels ++ [level]) := by
  -- The number of the next level is that of an index in range, so it is there only if it fits.
  rw [Numbered.ofIndex_eq h.length_lt, Numbered.advance?] at hlevel
  split at hlevel
  · rename_i hlt
    refine ⟨List.rel_append h.forall₂ (List.Forall₂.cons hof List.Forall₂.nil), ?_, ?_⟩
    · intro i level' hi
      rcases getElem?_append_singleton_eq_some hi with hi | ⟨rfl, rfl⟩
      · exact h.level_eq i level' hi
      · exact (Option.some.inj hlevel).symm
    · rwa [List.length_append, List.length_singleton]
  · simp at hlevel

theorem levelsOf_buildPrecedence (h : d.buildPrecedence = .ok levels) :
    LevelsOf d.precedence levels := by
  refine foldlM_ok (P := LevelsOf) h levelsOf_nil ?_
  intro done decl ls ls' hls hstep
  obtain ⟨level, rfl, hof, hlevel⟩ := addLevel_ok hstep
  exact hls.append hof hlevel

theorem LevelsOf.exists_decl {decls : List PrecedenceDecl} (h : LevelsOf decls levels)
    {level : Precedence} (hlevel : level ∈ levels) {name : String} (hname : name ∈ level.members) :
    ∃ decl ∈ decls, name ∈ decl.members := by
  obtain ⟨i, hi⟩ := List.mem_iff_getElem?.mp hlevel
  have hlt : i < decls.length := h.forall₂.length_eq ▸ (List.getElem?_eq_some_iff.mp hi).1
  obtain ⟨hlt', rfl⟩ := List.getElem?_eq_some_iff.mp hi
  have hof : LevelOf decls[i] levels[i] := h.forall₂.get hlt hlt'
  exact ⟨_, List.getElem_mem hlt, (hof.mem_iff name).mp hname⟩

private theorem exists_buildPrecedence_eq_ok
    (hkeywords : ∀ p ∈ d.precedence, ∃ a, Associativity.ofKeyword p.keyword = .ok a)
    (hnodup : (d.precedence.flatMap (·.members)).Nodup)
    (hlength : d.precedence.length < Numbered.numberBound) :
    ∃ ls, d.buildPrecedence = .ok ls := by
  have hfold : ∃ ls, d.buildPrecedence = .ok ls ∧ LevelsOf d.precedence ls := by
    refine exists_foldlM_eq_ok (P := LevelsOf) levelsOf_nil ?_
    intro done decl ls hpre hls
    obtain ⟨a, ha⟩ := hkeywords decl (hpre.subset (by simp))
    have hfits : ls.length + 1 < Numbered.numberBound := by
      have hle := hpre.length_le
      rw [List.length_append, List.length_singleton, hls.forall₂.length_eq] at hle
      omega
    obtain ⟨more, hmore⟩ := hpre
    have hsub : ((done ++ [decl]).flatMap (·.members)).Nodup := by
      rw [← hmore, List.flatMap_append, List.nodup_append] at hnodup
      exact hnodup.1
    rw [List.flatMap_append, List.flatMap_singleton, List.nodup_append] at hsub
    obtain ⟨-, hmembers, hdisjoint⟩ := hsub
    have hnew : ∀ name ∈ decl.members, ∀ level ∈ ls, name ∉ level.members := by
      intro name hname level hlevel hmem
      obtain ⟨other, hother, hin⟩ := hls.exists_decl hlevel hmem
      exact hdisjoint _ (List.mem_flatMap.mpr ⟨other, hother, hin⟩) _ hname rfl
    obtain ⟨ls', hls'⟩ := exists_addLevel_eq_ok ha hmembers hnew hfits
    obtain ⟨level, rfl, hof, hlevel⟩ := addLevel_ok hls'
    exact ⟨_, hls', hls.append hof hlevel⟩
  obtain ⟨ls, hls, -⟩ := hfold
  exact ⟨ls, hls⟩

theorem LevelsOf.findLevel?_eq {decls : List PrecedenceDecl} (h : LevelsOf decls levels)
    (name : String) : findLevel? levels name = decls.findIdx? (name ∈ ·.members) := by
  obtain ⟨hforall, -, -⟩ := h
  rw [findLevel?]
  induction hforall with
  | nil => rfl
  | @cons decl level decls levels hof _ ih =>
    have hiff : decide (name ∈ level.members) = decide (name ∈ decl.members) :=
      decide_eq_decide.mpr (hof.mem_iff name)
    rw [List.findIdx?_cons, List.findIdx?_cons, hiff, ih]

/-! ## Non-terminals -/

/-- The names that rules use as non-terminals. -/
def Uses (terminals : List Terminal) (decls : List RuleDecl) (name : String) : Prop :=
  ∃ rule ∈ decls, name = rule.lhs ∨ name ∈ rule.rhs ∧ findTerminal? terminals name = none

theorem nodup_addNonTerminal (h : (nonterminals.map (·.name)).Nodup) (name : String) :
    ((addNonTerminal nonterminals name).map (·.name)).Nodup := by
  rw [addNonTerminal]
  split
  · exact h
  · rename_i hany
    have hnew : name ∉ nonterminals.map (·.name) := by simpa using hany
    rw [List.map_append, List.map_singleton]
    exact nodup_append_singleton_iff.mpr ⟨hnew, h⟩

private theorem nodup_foldl_addNonTerminal (h : (nonterminals.map (·.name)).Nodup)
    (names : List String) :
    ((names.foldl addNonTerminal nonterminals).map (·.name)).Nodup := by
  induction names generalizing nonterminals with
  | nil => exact h
  | cons name names ih => exact ih (nodup_addNonTerminal h name)

private theorem nodup_addRuleNames {rule : RuleDecl} {nonterminals' : List NonTerminal}
    (hnodup : (nonterminals.map (·.name)).Nodup)
    (h : addRuleNames terminals nonterminals rule = .ok nonterminals') :
    (nonterminals'.map (·.name)).Nodup :=
  map_name_addRuleNames h ▸ nodup_foldl_addNonTerminal hnodup _

/-- The non-terminals that the rules use, each once. -/
structure NamesOf (terminals : List Terminal) (decls : List RuleDecl)
    (nonterminals : List NonTerminal) : Prop where
  nodup : (nonterminals.map (·.name)).Nodup
  named_iff : ∀ name, Named nonterminals name ↔ Uses terminals decls name
  lhs : ∀ rule ∈ decls, findTerminal? terminals rule.lhs = none

theorem namesOf_nil : NamesOf terminals [] [] := by
  refine ⟨List.nodup_nil, ?_, by simp⟩
  intro name
  simp [Named, Uses]

theorem NamesOf.append {decls : List RuleDecl} (h : NamesOf terminals decls nonterminals)
    {rule : RuleDecl} {nonterminals' : List NonTerminal}
    (hstep : addRuleNames terminals nonterminals rule = .ok nonterminals') :
    NamesOf terminals (decls ++ [rule]) nonterminals' := by
  refine ⟨nodup_addRuleNames h.nodup hstep, ?_, ?_⟩
  · intro name
    rw [named_addRuleNames hstep, mem_freeNames, h.named_iff, or_comm]
    simp only [Uses, List.mem_append, List.mem_singleton, or_and_right, exists_or,
      exists_eq_left]
  · intro other hother
    rcases List.mem_append.mp hother with hother | hother
    · exact h.lhs other hother
    · exact List.mem_singleton.mp hother ▸ (addRuleNames_eq_ok.mp hstep).1

theorem namesOf_buildNonTerminals (h : d.buildNonTerminals terminals = .ok nonterminals) :
    NamesOf terminals d.rules nonterminals ∧
      ∀ name, Named nonterminals name → ∃ rule ∈ d.rules, rule.lhs = name := by
  obtain ⟨hfound, hnone⟩ := buildNonTerminals_eq_ok h
  refine ⟨foldlM_ok (P := NamesOf terminals) hfound namesOf_nil ?_, fun name hname ↦ ?_⟩
  · intro done rule ns ns' hns hstep
    exact hns.append hstep
  · have hmem := List.filter_eq_nil_iff.mp hnone name (named_iff.mp hname)
    simpa using hmem

theorem length_nonterminals_le (h : d.buildNonTerminals terminals = .ok nonterminals) :
    nonterminals.length ≤ d.rules.length := by
  obtain ⟨hnames, hdefined⟩ := namesOf_buildNonTerminals h
  have hsub : nonterminals.map (·.name) ⊆ d.rules.map (·.lhs) := by
    intro name hname
    exact List.mem_map.mpr (hdefined name (named_iff.mpr hname))
  have hle := (hnames.nodup.subperm hsub).length_le
  rwa [List.length_map, List.length_map] at hle

theorem placed_buildNonTerminals (hd : d.Numerable)
    (h : d.buildNonTerminals terminals = .ok nonterminals) :
    Placed NonTerminal.number nonterminals :=
  (buildNonTerminals_ok h).1.placed ((length_nonterminals_le h).trans hd.rules)

private theorem exists_buildNonTerminals_eq_ok
    (hlhs : ∀ rule ∈ d.rules, findTerminal? terminals rule.lhs = none)
    (hrhs : ∀ name, Uses terminals d.rules name → ∃ rule ∈ d.rules, rule.lhs = name) :
    ∃ ns, d.buildNonTerminals terminals = .ok ns := by
  have hfold : ∃ ns, d.rules.foldlM (addRuleNames terminals) [] = .ok ns ∧
      NamesOf terminals d.rules ns ∧ Wrapped NonTerminal.number ns := by
    refine exists_foldlM_eq_ok (P := fun done ns ↦ NamesOf terminals done ns ∧
      Wrapped NonTerminal.number ns) ⟨namesOf_nil, wrapped_nil⟩ ?_
    rintro done rule ns hpre ⟨hns, hw⟩
    have hfree := hlhs rule (hpre.subset (by simp))
    obtain ⟨ns', hns'⟩ : ∃ ns', addRuleNames terminals ns rule = .ok ns' :=
      exists_addRuleNames_eq_ok hw hfree
    exact ⟨ns', hns', hns.append hns', wrapped_addRuleNames hw hns'⟩
  obtain ⟨ns, hns, hnames, -⟩ := hfold
  refine ⟨ns, bind_eq_ok.mpr ⟨ns, hns, ?_⟩⟩
  have hnone : (ns.map (·.name)).filter (fun name ↦ d.rules.all (·.lhs ≠ name)) = [] := by
    rw [List.filter_eq_nil_iff]
    intro name hname
    obtain ⟨rule, hrule, heq⟩ := hrhs name ((hnames.named_iff name).mp (named_iff.mpr hname))
    simp only [List.all_eq_true, not_forall]
    exact ⟨rule, hrule, by simp [heq]⟩
  dsimp only
  rw [if_pos hnone]
  rfl

/-! ## Rules -/

def symbolOf (terminals : List Terminal) (nonterminals : List NonTerminal) (name : String) :
    Symbol :=
  (symbol? terminals nonterminals name).getD .eof

theorem symbolOf_terminal {name : String} {t : Nat} (h : findTerminal? terminals name = some t) :
    symbolOf terminals nonterminals name = .terminal t := by
  rw [symbolOf, symbol?, h]
  rfl

theorem symbolOf_nonterminal {name : String} {a : Nat} (hnone : findTerminal? terminals name = none)
    (h : findNonTerminal? nonterminals name = some a) :
    symbolOf terminals nonterminals name = .nonterminal a := by
  rw [symbolOf, symbol?, hnone, h]
  rfl

theorem IsRuleOf.rhs_eq {decl : RuleDecl} {rule : Rule}
    (h : IsRuleOf terminals nonterminals decl rule) :
    rule.rhs = decl.rhs.map (symbolOf terminals nonterminals) := by
  have hmap := congrArg (List.map (Option.getD · Symbol.eof)) (mapM_eq_some_iff.mp h.rhs)
  rw [List.map_map, List.map_map] at hmap
  exact (List.map_id _).symm.trans hmap.symm

/-- The rule that a declaration becomes, before accept marks. -/
structure RuleOf (terminals : List Terminal) (levels : List Precedence)
    (nonterminals : List NonTerminal) (decl : RuleDecl) (rule : Rule) : Prop where
  isRuleOf : IsRuleOf terminals nonterminals decl rule
  level : levelOf terminals levels decl = .ok rule.precedence
  code_eq : rule.code = decl.code

private theorem forall₂_mem {α β : Type} {R : α → β → Prop} {xs : List α} {ys : List β}
    (h : List.Forall₂ R xs ys) : List.Forall₂ (fun x y ↦ x ∈ xs ∧ R x y) xs ys := by
  induction h with
  | nil => exact List.Forall₂.nil
  | cons hxy _ ih =>
    refine List.Forall₂.cons ⟨List.mem_cons_self, hxy⟩ (ih.imp ?_)
    rintro x y ⟨hx, hR⟩
    exact ⟨List.mem_cons_of_mem _ hx, hR⟩

theorem forall₂_buildRules (h : d.buildRules terminals levels nonterminals = .ok rules) :
    List.Forall₂ (RuleOf terminals levels nonterminals) d.rules rules := by
  refine foldlM_ok (P := List.Forall₂ (RuleOf terminals levels nonterminals)) h
    List.Forall₂.nil ?_
  intro done decl rs rs' hrs hstep
  obtain ⟨rule, rfl, -, hof, hlevel, hcode⟩ := addRule_eq_ok.mp hstep
  exact List.rel_append hrs (List.Forall₂.cons ⟨hof, hlevel, hcode⟩ List.Forall₂.nil)

private theorem exists_symbol? {name : String} (hw : Wrapped NonTerminal.number nonterminals)
    (h : findTerminal? terminals name = none → Named nonterminals name) :
    ∃ s, symbol? terminals nonterminals name = some s := by
  rw [symbol?]
  cases hfind : findTerminal? terminals name with
  | some t => exact ⟨_, rfl⟩
  | none =>
    obtain ⟨a, ha, -⟩ := exists_findNonTerminal?_lt hw (h hfind)
    exact ⟨_, by rw [ha]; rfl⟩

theorem RuleNamed.exists_isRuleOf {decl : RuleDecl} (h : RuleNamed terminals nonterminals decl)
    (hw : Wrapped NonTerminal.number nonterminals) (number : Nat) (precedence : Option Nat) :
    ∃ rule, rule.number = number ∧ IsRuleOf terminals nonterminals decl rule ∧
      rule.precedence = precedence ∧ rule.code = decl.code := by
  obtain ⟨a, ha, -⟩ := exists_findNonTerminal?_lt hw h.1
  have hrhs : decl.rhs.mapM (symbol? terminals nonterminals)
      = some (decl.rhs.map (symbolOf terminals nonterminals)) := by
    rw [mapM_eq_some_iff, List.map_map]
    refine List.map_congr_left fun name hname ↦ ?_
    obtain ⟨s, hs⟩ := exists_symbol? hw (h.2 name hname)
    rw [Function.comp_apply, symbolOf, hs, Option.getD_some]
  exact ⟨⟨number, a, _, precedence, false, decl.code⟩, rfl, ⟨ha, hrhs, rfl⟩, rfl, rfl⟩

private theorem exists_buildRules_eq_ok (hw : Wrapped NonTerminal.number nonterminals)
    (hnamed : ∀ decl ∈ d.rules, RuleNamed terminals nonterminals decl)
    (h : ∀ decl ∈ d.rules, ∃ level, levelOf terminals levels decl = .ok level) :
    ∃ rules, d.buildRules terminals levels nonterminals = .ok rules := by
  have hfold : ∃ rules, d.buildRules terminals levels nonterminals = .ok rules ∧ True := by
    refine exists_foldlM_eq_ok (P := fun _ _ ↦ True) trivial ?_
    intro done decl rules hpre _
    have hdecl : decl ∈ d.rules := hpre.subset (by simp)
    obtain ⟨level, hlevel⟩ := h decl hdecl
    obtain ⟨rule, hnumber, hof, rfl, hcode⟩ :=
      (hnamed decl hdecl).exists_isRuleOf hw (Numbered.ofIndex rules.length) level
    exact ⟨_, addRule_eq_ok.mpr ⟨rule, rfl, hnumber, hof, hlevel, hcode⟩, trivial⟩
  obtain ⟨rules, hrules, -⟩ := hfold
  exact ⟨rules, hrules⟩

theorem placed_buildRules (hd : d.Numerable)
    (h : d.buildRules terminals levels nonterminals = .ok rules) : Placed Rule.number rules := by
  obtain ⟨hw, hlength, -⟩ := buildRules_ok h
  refine hw.placed ?_
  rw [hlength]
  exact hd.rules

private theorem exists_levelOf_eq_ok {decl : RuleDecl}
    (h : ∀ name, decl.precedence = some name → findLevel? levels name ≠ none) :
    ∃ level, levelOf terminals levels decl = .ok level := by
  rw [levelOf]
  split
  · rename_i name hname
    obtain ⟨i, hi⟩ := Option.ne_none_iff_exists'.mp (h name hname)
    rw [hi]
    exact ⟨_, rfl⟩
  · exact ⟨_, rfl⟩

/-! ## Accept marks -/

def marked (g : Grammar) (names : List String) : List Rule :=
  g.rules.map fun rule ↦
    { rule with accept := decide (∃ name ∈ names, g.nonterminal? name = some rule.lhs) }

private theorem marked_nil {g : Grammar} (h : ∀ rule ∈ g.rules, rule.accept = false) :
    marked g [] = g.rules := by
  rw [marked]
  conv_rhs => rw [← List.map_id g.rules]
  refine List.map_congr_left fun rule hrule ↦ ?_
  simp only [List.not_mem_nil, false_and, exists_false, decide_false, id]
  rw [← h rule hrule]

/-- Marking the rule of a name adds the name to those whose rules are marked: it is the only rule
with its left-hand side. -/
theorem set_marked {g : Grammar} (hn : Placed Rule.number g.rules) {names : List String}
    {name : String} {a : Nat} {rule entry : Rule} (ha : g.nonterminal? name = some a)
    (hrules : g.rulesFor a = [rule]) (hentry : (marked g names)[rule.number]? = some entry) :
    (marked g names).set rule.number { entry with accept := true }
      = marked g (names ++ [name]) := by
  have hrule : rule ∈ g.rules ∧ decide (rule.lhs = a) = true :=
    List.mem_filter.mp (hrules ▸ List.mem_cons_self)
  obtain rfl : rule.lhs = a := of_decide_eq_true hrule.2
  have hplace : g.rules[rule.number]? = some rule := by
    obtain ⟨i, hi⟩ := List.mem_iff_getElem?.mp hrule.1
    rw [hn i rule hi, hi]
  have hlt := (List.getElem?_eq_some_iff.mp hentry).1
  refine List.ext_getElem? fun j ↦ ?_
  rw [List.getElem?_set]
  by_cases hj : rule.number = j
  · subst hj
    rw [if_pos rfl, if_pos hlt, marked, List.getElem?_map, hplace]
    rw [marked, List.getElem?_map, hplace] at hentry
    obtain rfl := Option.some.inj hentry
    simp [ha]
  · rw [if_neg hj, marked, marked, List.getElem?_map, List.getElem?_map]
    cases hother : g.rules[j]? with
    | none => rfl
    | some other =>
      have hne : ¬rule.lhs = other.lhs := by
        intro heq
        have hmem : other ∈ g.rulesFor rule.lhs :=
          List.mem_filter.mpr ⟨List.mem_of_getElem? hother, decide_eq_true heq.symm⟩
        rw [hrules, List.mem_singleton] at hmem
        exact hj (hmem ▸ hn j other hother)
      simp [ha, hne, or_and_right, exists_or]

private theorem eq_marked_of_markAccepts {g : Grammar} (hn : Placed Rule.number g.rules)
    (hunmarked : ∀ rule ∈ g.rules, rule.accept = false) (h : d.markAccepts g = .ok rules) :
    rules = marked g d.accepts := by
  rw [markAccepts] at h
  split at h
  · simp [throw, throwThe, MonadExceptOf.throw] at h
  · obtain ⟨done, hdone, h⟩ := bind_eq_ok.mp h
    obtain rfl := Except.ok.inj h
    refine foldlM_ok (P := fun names (done : List String × List Rule) ↦ done.2 = marked g names)
      hdone (marked_nil hunmarked).symm ?_
    intro names name c c' hc hstep
    obtain ⟨-, a, rule, entry, ha, hrules, hentry, -, rfl⟩ := acceptName_eq_ok hstep
    rw [hc] at hentry ⊢
    exact set_marked hn ha hrules hentry

private theorem exists_markAccepts_eq_ok {g : Grammar} (hn : Placed Rule.number g.rules)
    (hunmarked : ∀ rule ∈ g.rules, rule.accept = false)
    (hne : d.accepts ≠ []) (hnodup : d.accepts.Nodup)
    (h : ∀ name ∈ d.accepts, ∃ a rule, g.nonterminal? name = some a ∧ g.rulesFor a = [rule] ∧
      rule.rhs.getLast? = some .eof) : ∃ rules, d.markAccepts g = .ok rules := by
  have hfold : ∃ done, d.accepts.foldlM (acceptName g) ([], g.rules) = .ok done ∧
      done.1 = d.accepts ∧ MarkedFrom g.rules done.2 := by
    refine exists_foldlM_eq_ok (P := fun names (done : List String × List Rule) ↦
      done.1 = names ∧ MarkedFrom g.rules done.2) ⟨rfl, markedFrom_refl hunmarked⟩ ?_
    rintro names name c hpre ⟨hc, hm⟩
    obtain ⟨a, rule, ha, hrules, heof⟩ := h name (hpre.subset (by simp))
    have hnew : name ∉ c.1 :=
      hc ▸ (nodup_append_singleton_iff.mp (hnodup.sublist hpre.sublist)).1
    -- The rule is found at its number, with or without a mark.
    obtain ⟨i, hi⟩ := List.mem_iff_getElem?.mp (mem_of_rulesFor_eq hrules)
    obtain ⟨entry, hentry, heq⟩ := hm.exists_getElem? hi
    have hnumber : rule.number = i := hn i rule hi
    have hend : entry.rhs.getLast? = some .eof := (congrArg Rule.rhs heq).symm ▸ heof
    refine ⟨(c.1 ++ [name], c.2.set i { entry with accept := true }), ?_, by rw [hc],
      hm.set hentry hend⟩
    rw [acceptName, if_neg hnew]
    simp only [ha, hrules, hnumber, hentry, require_some]
    simp [bind, Except.bind, hend, pure, Except.pure]
  obtain ⟨done, hdone, -⟩ := hfold
  refine ⟨done.2, ?_⟩
  rw [markAccepts, if_neg hne]
  exact bind_eq_ok.mpr ⟨done, hdone, rfl⟩

/-! ## The grammar -/

/-- What a grammar keeps of its declarations. -/
structure Image (d : Builder) (g : Grammar) : Prop where
  settings_eq : g.settings = d.settings
  /-- Terminals are those declared, after the end of input. -/
  terminals_eq : g.terminals.map (·.name) = d.terminalNames
  nodup_terminals : d.terminalNames.Nodup
  numbered_terminals : Placed Terminal.number g.terminals
  /-- Non-terminals are the names that rules use, and each is defined. -/
  names : NamesOf g.terminals d.rules g.nonterminals
  defined : ∀ name, Named g.nonterminals name → ∃ rule ∈ d.rules, rule.lhs = name
  numbered_nonterminals : Placed NonTerminal.number g.nonterminals
  /-- Levels are those declared. -/
  levels : LevelsOf d.precedence g.precedence
  /-- Rules are those declared, and the accept marks are on those of the accept names. -/
  length_rules : g.rules.length = d.rules.length
  rule_eq : ∀ i decl, d.rules[i]? = some decl → ∃ level,
    levelOf g.terminals g.precedence decl = .ok level ∧
    g.rule? i = some
      { number := i
        lhs := (g.nonterminal? decl.lhs).getD 0
        rhs := decl.rhs.map (symbolOf g.terminals g.nonterminals)
        precedence := level
        accept := decide (decl.lhs ∈ d.accepts)
        code := decl.code }

theorem findNonTerminal?_eq_some_iff (hn : Placed NonTerminal.number nonterminals)
    (hnodup : (nonterminals.map (·.name)).Nodup) {name : String} {a : Nat} :
    findNonTerminal? nonterminals name = some a ↔ (nonterminals.map (·.name))[a]? = some name :=
  map_find?_eq_some_iff hn hnodup

theorem exists_findNonTerminal? {name : String} (h : Named nonterminals name) :
    ∃ a, findNonTerminal? nonterminals name = some a := by
  refine Option.ne_none_iff_exists'.mp fun hnone ↦ ?_
  exact map_find?_eq_none_iff.mp hnone (named_iff.mp h)

/-- The rules with the number of a name are those declared for the name. -/
theorem NamesOf.forall₂_filter {decls : List RuleDecl} (h : NamesOf terminals decls nonterminals)
    (hn : Placed NonTerminal.number nonterminals)
    (hrules : List.Forall₂ (RuleOf terminals levels nonterminals) decls rules) {name : String}
    {a : Nat} (ha : findNonTerminal? nonterminals name = some a) :
    List.Forall₂ (fun decl rule ↦ decl ∈ decls ∧ RuleOf terminals levels nonterminals decl rule)
      (decls.filter (·.lhs = name)) (rules.filter (·.lhs = a)) := by
  refine List.rel_filter ?_ (forall₂_mem hrules)
  rintro decl rule ⟨hdecl, ⟨⟨hlhs, -⟩, -⟩⟩
  show decide (decl.lhs = name) = true ↔ decide (rule.lhs = a) = true
  rw [decide_eq_true_iff, decide_eq_true_iff]
  constructor
  · intro heq
    rw [heq, ha] at hlhs
    exact (Option.some.inj hlhs).symm
  · rintro rfl
    have hplace := (findNonTerminal?_eq_some_iff hn h.nodup).mp ha
    rw [(findNonTerminal?_eq_some_iff hn h.nodup).mp hlhs] at hplace
    exact Option.some.inj hplace

/-- **A grammar is the image of its declarations.** -/
theorem image_of_build (hd : d.Numerable) {g : Grammar} (h : d.build = .ok g) : Image d g := by
  obtain ⟨terminals, levels, nonterminals, rules, markedRules, hterminals, hlevels, hnonterminals,
    hrules, hmarked, rfl⟩ := build_eq_ok.mp h
  obtain ⟨hnames, hdefined⟩ := namesOf_buildNonTerminals hnonterminals
  have hn := placed_buildNonTerminals hd hnonterminals
  have hr := placed_buildRules hd hrules
  have hforall := forall₂_buildRules hrules
  obtain rfl := eq_marked_of_markAccepts hr (not_accept_of_buildRules hrules) hmarked
  refine ⟨rfl, (terminals_of_buildTerminals hterminals).1,
    (terminals_of_buildTerminals hterminals).2,
    placed_buildTerminals hd hterminals, hnames, hdefined, hn, levelsOf_buildPrecedence hlevels, ?_,
    ?_⟩
  · rw [marked, List.length_map, hforall.length_eq]
  · intro i decl hi
    have hlt : i < rules.length := hforall.length_eq ▸ (List.getElem?_eq_some_iff.mp hi).1
    obtain ⟨hlt', rfl⟩ := List.getElem?_eq_some_iff.mp hi
    have hget : rules[i]? = some rules[i] := List.getElem?_eq_getElem hlt
    have hof : RuleOf terminals levels nonterminals d.rules[i] rules[i] := hforall.get hlt' hlt
    obtain ⟨hrule, hlevel, hcode⟩ := hof
    have hnumber : rules[i].number = i := hr i _ hget
    refine ⟨rules[i].precedence, hlevel, ?_⟩
    -- A name has the number of the left-hand side only if it is the same name.
    have hiff : (∃ name ∈ d.accepts, findNonTerminal? nonterminals name = some rules[i].lhs) ↔
        d.rules[i].lhs ∈ d.accepts := by
      constructor
      · rintro ⟨name, hname, hfind⟩
        have hplace := (findNonTerminal?_eq_some_iff hn hnames.nodup).mp hfind
        rw [(findNonTerminal?_eq_some_iff hn hnames.nodup).mp hrule.lhs] at hplace
        exact Option.some.inj hplace ▸ hname
      · intro hmem
        exact ⟨_, hmem, hrule.lhs⟩
    have haccept : decide (∃ name ∈ d.accepts,
        findNonTerminal? nonterminals name = some rules[i].lhs)
          = decide (d.rules[i].lhs ∈ d.accepts) :=
      decide_eq_decide.mpr hiff
    have hlhs : rules[i].lhs = (findNonTerminal? nonterminals d.rules[i].lhs).getD 0 := by
      rw [hrule.lhs, Option.getD_some]
    show (rules.map _)[i]? = _
    rw [List.getElem?_map, hget, Option.map_some, Option.some_inj]
    refine (congrArg (fun accept ↦ ({ rules[i] with accept } : Rule)) haccept).trans ?_
    simp only [hnumber, hlhs, hrule.rhs_eq, hcode]
    rfl

/-! ## Declarations that pass the checks -/

/-- Declarations that contradict themselves nowhere. -/
@[mk_iff]
structure Consistent (d : Builder) : Prop where
  /-- Terminals have names of their own, and none is named as the end of input. -/
  terminals : d.terminalNames.Nodup
  /-- Keywords are three, in letters of either case. -/
  keywords : ∀ p ∈ d.precedence, p.keyword.map Char.toLower ∈ ["left", "right", "nonassoc"]
  /-- A name stands in one place of the precedence declarations at most. -/
  members : (d.precedence.flatMap (·.members)).Nodup
  /-- No rule defines a terminal. -/
  lhs : ∀ rule ∈ d.rules, rule.lhs ∉ d.terminalNames
  /-- A name that is used is a terminal's, or defined by a rule. -/
  rhs : ∀ rule ∈ d.rules, ∀ name ∈ rule.rhs, name ∉ d.terminalNames →
    ∃ other ∈ d.rules, other.lhs = name
  /-- A rule borrows the precedence of names that have one. -/
  borrowed : ∀ rule ∈ d.rules, ∀ name, rule.precedence = some name →
    name ∈ d.precedence.flatMap (·.members)
  accepts_ne : d.accepts ≠ []
  accepts_nodup : d.accepts.Nodup
  /-- An accept name has one rule, which ends with the end of input. -/
  accept_rule : ∀ name ∈ d.accepts, ∃ rule, d.rules.filter (·.lhs = name) = [rule] ∧
    rule.rhs.getLast? = some eofName

section Build

variable (hnames : terminals.map (·.name) = d.terminalNames)
  (hnumbered : Placed Terminal.number terminals)

include hnames

theorem findTerminal?_eq_none_iff {name : String} :
    findTerminal? terminals name = none ↔ name ∉ d.terminalNames := by
  rw [findTerminal?, map_find?_eq_none_iff, hnames]

include hnumbered

theorem findTerminal?_eq_some_iff (hnodup : d.terminalNames.Nodup) {name : String} {t : Nat} :
    findTerminal? terminals name = some t ↔ d.terminalNames[t]? = some name := by
  rw [findTerminal?, map_find?_eq_some_iff hnumbered (hnames ▸ hnodup), hnames]

theorem symbolOf_eof (hnodup : d.terminalNames.Nodup) :
    symbolOf terminals nonterminals eofName = .eof := by
  have hzero : findTerminal? terminals eofName = some 0 :=
    (findTerminal?_eq_some_iff hnames hnumbered hnodup).mpr rfl
  exact symbolOf_terminal hzero

theorem Consistent.accept_ok (h : d.Consistent)
    (hnonterminals : NamesOf terminals d.rules nonterminals)
    (hn : Placed NonTerminal.number nonterminals)
    (hrules : List.Forall₂ (RuleOf terminals levels nonterminals) d.rules rules) {name : String}
    (hname : name ∈ d.accepts) :
    ∃ a rule, findNonTerminal? nonterminals name = some a ∧
      rules.filter (·.lhs = a) = [rule] ∧ rule.rhs.getLast? = some .eof := by
  obtain ⟨decl, hfilter, heof⟩ := h.accept_rule name hname
  have hdecl : decl ∈ d.rules ∧ decide (decl.lhs = name) = true :=
    List.mem_filter.mp (hfilter ▸ List.mem_cons_self)
  obtain rfl : decl.lhs = name := of_decide_eq_true hdecl.2
  obtain ⟨a, ha⟩ := exists_findNonTerminal?
    ((hnonterminals.named_iff _).mpr ⟨decl, hdecl.1, Or.inl rfl⟩)
  refine ⟨a, ?_⟩
  have hmatch := hnonterminals.forall₂_filter hn hrules ha
  rw [hfilter] at hmatch
  generalize hmade : rules.filter (·.lhs = a) = made at hmatch
  cases hmatch with
  | cons hof hnil =>
    cases hnil
    obtain ⟨-, ⟨hrule, -⟩⟩ := hof
    refine ⟨_, ha, rfl, ?_⟩
    rw [hrule.rhs_eq, List.getLast?_map, heof, Option.map_some,
      symbolOf_eof hnames hnumbered h.terminals]

end Build

/-- **Declarations that contradict themselves nowhere make a grammar.** -/
theorem exists_build_eq_ok (hd : d.Numerable) (h : d.Consistent) : ∃ g, d.build = .ok g := by
  obtain ⟨terminals, hterminals⟩ := exists_buildTerminals_eq_ok h.terminals
  obtain ⟨levels, hlevels⟩ := exists_buildPrecedence_eq_ok
    (fun p hp ↦ exists_ofKeyword_iff.mpr (h.keywords p hp)) h.members hd.precedence
  have hnames := (terminals_of_buildTerminals hterminals).1
  have hlhs : ∀ rule ∈ d.rules, findTerminal? terminals rule.lhs = none :=
    fun rule hrule ↦ (findTerminal?_eq_none_iff hnames).mpr (h.lhs rule hrule)
  have hrhs : ∀ name, Uses terminals d.rules name → ∃ rule ∈ d.rules, rule.lhs = name := by
    rintro name ⟨rule, hrule, rfl | ⟨hmem, hnone⟩⟩
    · exact ⟨rule, hrule, rfl⟩
    · exact h.rhs rule hrule name hmem ((findTerminal?_eq_none_iff hnames).mp hnone)
  obtain ⟨nonterminals, hnonterminals⟩ := exists_buildNonTerminals_eq_ok hlhs hrhs
  obtain ⟨hw, hnamed⟩ := buildNonTerminals_ok hnonterminals
  have hlevel : ∀ decl ∈ d.rules, ∃ level, levelOf terminals levels decl = .ok level := by
    intro decl hdecl
    refine exists_levelOf_eq_ok fun name hname ↦ ?_
    obtain ⟨p, hp, hmem⟩ := List.mem_flatMap.mp (h.borrowed decl hdecl name hname)
    rw [(levelsOf_buildPrecedence hlevels).findLevel?_eq, ne_eq, List.findIdx?_eq_none_iff]
    intro hnone
    simpa [hmem] using hnone p hp
  obtain ⟨rules, hrules⟩ := exists_buildRules_eq_ok hw hnamed hlevel
  obtain ⟨markedRules, hmarked⟩ := exists_markAccepts_eq_ok
    (g := { settings := d.settings, terminals, nonterminals, rules, precedence := levels })
    (placed_buildRules hd hrules) (not_accept_of_buildRules hrules) h.accepts_ne h.accepts_nodup
    fun name hname ↦
      h.accept_ok hnames (placed_buildTerminals hd hterminals)
        (namesOf_buildNonTerminals hnonterminals).1 (placed_buildNonTerminals hd hnonterminals)
        (forall₂_buildRules hrules) hname
  exact ⟨_, build_eq_ok.mpr ⟨terminals, levels, nonterminals, rules, markedRules, hterminals,
    hlevels, hnonterminals, hrules, hmarked, rfl⟩⟩

end Builder

namespace Declarations

variable {d : Declarations}

theorem image_of_build {g : Grammar} (h : d.build = .ok g) : d.Image g :=
  Builder.image_of_build d.numerable h

theorem exists_build_eq_ok (h : d.Consistent) : ∃ g, d.build = .ok g :=
  Builder.exists_build_eq_ok d.numerable h

end Declarations

end ShiftReduce
