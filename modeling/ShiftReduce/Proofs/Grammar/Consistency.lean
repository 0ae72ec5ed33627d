import ShiftReduce.Proofs.Grammar.Lookups

/-!
# The declarations that make a grammar

A grammar is made from just those declarations that are `Declarations.Consistent`. That these pass
every check is `Declarations.exists_build_eq_ok`; here is the converse, that a grammar is only made
after every check has been passed (`consistent_of_build`).

## From checks to facts

A check asks for the names met so far, and what has been asked of each name in turn adds up to a
fact about all of them: names that are new when they are met are distinct. So each pass is followed
once more, this time for what it has asked. The passes come in a fixed order, but what they ask is
independent of it, except that the rule of an accept name is looked for among the rules that have
been made (`exists_accept_rule`).
-/

namespace ShiftReduce.Builder

variable {d : Builder} {terminals : List Terminal} {levels : List Precedence}
  {nonterminals : List NonTerminal} {rules : List Rule}

/-! ## Precedence -/

private theorem addMember_eq_ok {members members' : List String} {name : String}
    (h : addMember levels members name = .ok members') :
    name ∉ members ∧ (∀ level ∈ levels, name ∉ level.members) ∧
      members' = Ascending.insert (fun a b ↦ a < b) name members := by
  rw [addMember] at h
  split at h
  · simp at h
  · rename_i hnew
    rw [not_or] at hnew
    refine ⟨hnew.1, fun level hlevel hmem ↦ hnew.2 ?_, (Except.ok.inj h).symm⟩
    exact List.any_eq_true.mpr ⟨level, hlevel, decide_eq_true hmem⟩

/-- The names of a level that is added are distinct, and on no level before. -/
theorem nodup_members_of_addLevel {decl : PrecedenceDecl} {levels' : List Precedence}
    (h : addLevel levels decl = .ok levels') :
    decl.members.Nodup ∧ ∀ name ∈ decl.members, ∀ level ∈ levels, name ∉ level.members := by
  simp only [addLevel, bind_eq_ok] at h
  obtain ⟨-, -, members, hmembers, -⟩ := h
  have hdone : (∀ name, name ∈ members ↔ name ∈ decl.members) ∧ decl.members.Nodup ∧
      ∀ name ∈ decl.members, ∀ level ∈ levels, name ∉ level.members := by
    refine foldlM_ok (P := fun done (ms : List String) ↦ (∀ name, name ∈ ms ↔ name ∈ done) ∧
      done.Nodup ∧ ∀ name ∈ done, ∀ level ∈ levels, name ∉ level.members) hmembers (by simp) ?_
    rintro done name ms ms' ⟨hms, hnodup, hlevels⟩ hstep
    obtain ⟨hnew, hlevel, rfl⟩ := addMember_eq_ok hstep
    refine ⟨fun other ↦ ?_, nodup_append_singleton_iff.mpr ⟨(hms name).not.mp hnew, hnodup⟩, ?_⟩
    · rw [mem_insert_name, hms, List.mem_append, List.mem_singleton, or_comm]
    · exact List.forall_mem_append.mpr ⟨hlevels, List.forall_mem_singleton.mpr hlevel⟩
  exact hdone.2

theorem LevelsOf.exists_level {decls : List PrecedenceDecl} (h : LevelsOf decls levels)
    {decl : PrecedenceDecl} (hdecl : decl ∈ decls) : ∃ level ∈ levels, LevelOf decl level := by
  obtain ⟨i, hi⟩ := List.mem_iff_getElem?.mp hdecl
  have hlt : i < levels.length := h.forall₂.length_eq ▸ (List.getElem?_eq_some_iff.mp hi).1
  obtain ⟨hlt', rfl⟩ := List.getElem?_eq_some_iff.mp hi
  exact ⟨levels[i], List.getElem_mem hlt, h.forall₂.get hlt' hlt⟩

private theorem nodup_members_of_buildPrecedence (h : d.buildPrecedence = .ok levels) :
    (d.precedence.flatMap (·.members)).Nodup := by
  have hdone : LevelsOf d.precedence levels ∧ (d.precedence.flatMap (·.members)).Nodup := by
    refine foldlM_ok (P := fun done ls ↦ LevelsOf done ls ∧ (done.flatMap (·.members)).Nodup) h
      ⟨levelsOf_nil, List.nodup_nil⟩ ?_
    rintro done decl ls ls' ⟨hls, hnodup⟩ hstep
    obtain ⟨hmembers, hnew⟩ := nodup_members_of_addLevel hstep
    obtain ⟨level, rfl, hof, hlevel⟩ := addLevel_ok hstep
    refine ⟨hls.append hof hlevel, ?_⟩
    rw [List.flatMap_append, List.flatMap_singleton]
    refine List.nodup_append.mpr ⟨hnodup, hmembers, ?_⟩
    -- A name declared before is on a level, where a name that is added is not.
    intro name hname other hother heq
    obtain ⟨earlier, hearlier, hin⟩ := List.mem_flatMap.mp hname
    obtain ⟨level', hlevel', hof'⟩ := hls.exists_level hearlier
    exact hnew other hother level' hlevel' (heq ▸ (hof'.mem_iff name).mpr hin)
  exact hdone.2

theorem exists_findLevel?_of_levelOf {decl : RuleDecl} {level : Option Nat}
    (h : levelOf terminals levels decl = .ok level) {name : String}
    (hname : decl.precedence = some name) : ∃ i, findLevel? levels name = some i := by
  rw [levelOf, hname] at h
  dsimp only at h
  split at h
  · rename_i i hi
    exact ⟨i, hi⟩
  · simp at h

/-! ## Accept names -/

/-- The accept names are distinct, at least one, and each has one rule, which ends with the end of
input. -/
theorem accepts_of_markAccepts {g : Grammar} (hn : Placed Rule.number g.rules)
    (hunmarked : ∀ rule ∈ g.rules, rule.accept = false) (h : d.markAccepts g = .ok rules) :
    d.accepts ≠ [] ∧ d.accepts.Nodup ∧ ∀ name ∈ d.accepts, ∃ a rule,
      g.nonterminal? name = some a ∧ g.rulesFor a = [rule] ∧ rule.rhs.getLast? = some .eof := by
  rw [markAccepts] at h
  split at h
  · simp [throw, throwThe, MonadExceptOf.throw] at h
  · rename_i hne
    obtain ⟨done, hdone, -⟩ := bind_eq_ok.mp h
    have hnames : (done.1 = d.accepts ∧ MarkedFrom g.rules done.2) ∧ d.accepts.Nodup ∧
        ∀ name ∈ d.accepts, ∃ a rule, g.nonterminal? name = some a ∧ g.rulesFor a = [rule] ∧
          rule.rhs.getLast? = some .eof := by
      refine foldlM_ok (P := fun names (done : List String × List Rule) ↦
        (done.1 = names ∧ MarkedFrom g.rules done.2) ∧ names.Nodup ∧ ∀ name ∈ names, ∃ a rule,
          g.nonterminal? name = some a ∧ g.rulesFor a = [rule] ∧ rule.rhs.getLast? = some .eof)
        hdone ⟨⟨rfl, markedFrom_refl hunmarked⟩, by simp⟩ ?_
      rintro names name c c' ⟨⟨hc, hm⟩, hnodup, hrules⟩ hstep
      have hm' := (acceptName_ok hstep hm).1
      obtain ⟨hnew, a, rule, entry, ha, hrule, hentry, heof, rfl⟩ := acceptName_eq_ok hstep
      -- What stands at the number of the rule is the rule, with or without a mark.
      obtain ⟨i, hi⟩ := List.mem_iff_getElem?.mp (mem_of_rulesFor_eq hrule)
      obtain ⟨other, hother, heq⟩ := hm.exists_getElem? hi
      rw [hn i rule hi, hother] at hentry
      obtain rfl := Option.some.inj hentry
      have hrhs : other.rhs = rule.rhs := (Rule.mk.inj heq).2.2.1
      refine ⟨⟨by rw [hc], hm'⟩, nodup_append_singleton_iff.mpr ⟨hc ▸ hnew, hnodup⟩, ?_⟩
      exact List.forall_mem_append.mpr
        ⟨hrules, List.forall_mem_singleton.mpr ⟨a, rule, ha, hrule, hrhs ▸ heof⟩⟩
    exact ⟨hne, hnames.2⟩

private theorem eq_eofName_of_symbol? (hnames : terminals.map (·.name) = d.terminalNames)
    (hn : Placed Terminal.number terminals) (hnodup : d.terminalNames.Nodup)
    {name : String} (h : symbol? terminals nonterminals name = some .eof) : name = eofName := by
  rw [symbol?] at h
  split at h
  · rename_i t ht
    obtain rfl : t = 0 := Symbol.terminal.inj (Option.some.inj h)
    exact (Option.some.inj ((findTerminal?_eq_some_iff hnames hn hnodup).mp ht)).symm
  · obtain ⟨a, -, ha⟩ := Option.map_eq_some_iff.mp h
    simp [Symbol.eof] at ha

theorem exists_accept_rule (hnames : terminals.map (·.name) = d.terminalNames)
    (hplaced : Placed Terminal.number terminals) (hnodup : d.terminalNames.Nodup)
    (hof : NamesOf terminals d.rules nonterminals)
    (hn : Placed NonTerminal.number nonterminals)
    (hrules : List.Forall₂ (RuleOf terminals levels nonterminals) d.rules rules) {name : String}
    {a : Nat} (ha : findNonTerminal? nonterminals name = some a) {rule : Rule}
    (hrule : rules.filter (·.lhs = a) = [rule]) (heof : rule.rhs.getLast? = some .eof) :
    ∃ decl, d.rules.filter (·.lhs = name) = [decl] ∧ decl.rhs.getLast? = some eofName := by
  have hmatch := hof.forall₂_filter hn hrules ha
  rw [hrule] at hmatch
  obtain ⟨decl, rest, ⟨-, hdecl⟩, hrest, hfilter⟩ := List.forall₂_cons_right_iff.mp hmatch
  obtain rfl := List.forall₂_nil_right_iff.mp hrest
  refine ⟨decl, hfilter, ?_⟩
  have hlast := congrArg List.getLast? (mapM_eq_some_iff.mp hdecl.isRuleOf.rhs)
  rw [List.getLast?_map, List.getLast?_map, heof, Option.map_some] at hlast
  obtain ⟨last, hlast, hsymbol⟩ := Option.map_eq_some_iff.mp hlast
  rw [hlast, eq_eofName_of_symbol? hnames hplaced hnodup hsymbol]

/-! ## All checks -/

/-- **Declarations from which a grammar is made contradict themselves nowhere.** -/
theorem consistent_of_build (hd : d.Numerable) {g : Grammar} (h : d.build = .ok g) :
    d.Consistent := by
  have himage := image_of_build hd h
  obtain ⟨terminals, levels, nonterminals, rules, marked, hterminals, hlevels, hnonterminals,
    hrules, hmarked, rfl⟩ := build_eq_ok.mp h
  obtain ⟨hne, hdistinct, haccepts⟩ := accepts_of_markAccepts (placed_buildRules hd hrules)
    (not_accept_of_buildRules hrules) hmarked
  refine
    { terminals := himage.nodup_terminals
      keywords := ?_
      members := nodup_members_of_buildPrecedence hlevels
      lhs := fun rule hrule ↦
        (findTerminal?_eq_none_iff himage.terminals_eq).mp (himage.names.lhs rule hrule)
      rhs := ?_
      borrowed := ?_
      accepts_ne := hne
      accepts_nodup := hdistinct
      accept_rule := ?_ }
  · intro p hp
    obtain ⟨level, -, hof⟩ := himage.levels.exists_level hp
    exact exists_ofKeyword_iff.mp ⟨_, hof.associativity⟩
  · intro rule hrule name hname hfree
    have hnone := (findTerminal?_eq_none_iff himage.terminals_eq).mpr hfree
    exact himage.defined name
      ((himage.names.named_iff name).mpr ⟨rule, hrule, Or.inr ⟨hname, hnone⟩⟩)
  · intro rule hrule name hname
    obtain ⟨i, hi⟩ := List.mem_iff_getElem?.mp hrule
    obtain ⟨level, hlevel, -⟩ := himage.rule_eq i rule hi
    obtain ⟨k, hk⟩ := exists_findLevel?_of_levelOf hlevel hname
    rw [himage.levels.findLevel?_eq] at hk
    obtain ⟨hlt, hmem, -⟩ := List.findIdx?_eq_some_iff_getElem.mp hk
    exact List.mem_flatMap.mpr ⟨_, List.getElem_mem hlt, of_decide_eq_true hmem⟩
  · intro name hname
    obtain ⟨a, rule, ha, hrule, heof⟩ := haccepts name hname
    exact exists_accept_rule himage.terminals_eq himage.numbered_terminals himage.nodup_terminals
      himage.names himage.numbered_nonterminals (forall₂_buildRules hrules) ha hrule heof

end ShiftReduce.Builder
