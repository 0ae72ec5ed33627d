import ShiftReduce.Grammar.Report
import ShiftReduce.Proofs.Grammar.Faithful

/-!
# No look-up fails

The later passes of the builder look up, by name or by number, what the earlier ones have numbered,
and so does the report on a grammar. That a computation finds whatever it looks up is
`StaysInRange`, which lets it end with a value or with any error but that of a look-up. It holds of
the builder for all statements with no more levels of precedence than there are numbers, whether or
not they are accepted (`Builder.staysInRange_build`), and the report on a grammar that is made
always has a value (`Builder.exists_report_eq_ok`).

## The invariant

A pass is a fold, so that what its look-ups rely on is an invariant of the fold
(`staysInRange_foldlM`): the number of a name leads back into the list of non-terminals, and the
accept marks leave every rule where it is. Neither takes the numbers to be different. Only the
number of a level is computed anew, and is past the last number if there are too many levels.
-/

namespace ShiftReduce

/-! ## Computations with look-ups -/

section StaysInRange

variable {α β : Type} {x : Except Error α}

/-- The computation finds what it looks up. -/
def StaysInRange (x : Except Error α) : Prop :=
  x ≠ .error .outOfRange

theorem staysInRange_ok (a : α) : StaysInRange (.ok a) := by
  simp [StaysInRange]

theorem staysInRange_error {e : Error} (h : e ≠ .outOfRange) :
    StaysInRange (.error e : Except Error α) := by
  simpa [StaysInRange] using h

private theorem staysInRange_of_eq_ok {a : α} (h : x = .ok a) : StaysInRange x :=
  h ▸ staysInRange_ok a

theorem staysInRange_require {x : Option α} {a : α} (h : x = some a) : StaysInRange (require x) :=
  h ▸ staysInRange_ok a

/-- What follows a computation has its result to rely on. -/
theorem StaysInRange.bind {f : α → Except Error β} (hx : StaysInRange x)
    (hf : ∀ a, x = .ok a → StaysInRange (f a)) : StaysInRange (x >>= f) := by
  cases x with
  | error e => exact staysInRange_error fun h ↦ hx (h ▸ rfl)
  | ok a => exact hf a rfl

/-- A fold finds what it looks up if every step does, where each step may rely on what the steps
before it have established. -/
theorem staysInRange_foldlM {f : β → α → Except Error β} {P : List α → β → Prop} {xs : List α}
    {b : β} (hstart : P [] b)
    (hkept : ∀ done x c c', P done c → f c x = .ok c' → P (done ++ [x]) c')
    (hstep : ∀ done x c, done ++ [x] <+: xs → P done c → StaysInRange (f c x)) :
    StaysInRange (xs.foldlM f b) := by
  intro h
  obtain ⟨before, x, after, c, rfl, hc, hx⟩ := foldlM_error h hstart hkept
  exact hstep before x c ⟨after, by simp⟩ hc hx

end StaysInRange

/-! ## Names of symbols -/

namespace Grammar

variable {g : Grammar}

private theorem exists_symbolName?_terminal {t : Nat} (h : t < g.terminals.length) :
    ∃ name, g.symbolName? (.terminal t) = some name := by
  rw [symbolName?, List.getElem?_eq_getElem h]
  exact ⟨_, rfl⟩

theorem exists_symbolName?_nonterminal {a : Nat} (h : a < g.nonterminals.length) :
    ∃ name, g.symbolName? (.nonterminal a) = some name := by
  rw [symbolName?, List.getElem?_eq_getElem h]
  exact ⟨_, rfl⟩

variable (hg : g.SymbolsInRange)

include hg

theorem SymbolsInRange.exists_spacedNames? {rule : Rule} (hrule : rule ∈ g.rules) :
    ∃ text, g.spacedNames? rule.rhs = some text := by
  have hnames : rule.rhs.mapM g.symbolName? = some (rule.rhs.map g.symbolName) := by
    rw [mapM_eq_some_iff, List.map_map]
    refine List.map_congr_left fun s hs ↦ ?_
    obtain ⟨name, hname⟩ : ∃ name, g.symbolName? s = some name := by
      cases s with
      | terminal t => exact exists_symbolName?_terminal (hg.terminal_lt rule hrule t hs)
      | nonterminal a => exact exists_symbolName?_nonterminal (hg.nonterminal_lt rule hrule a hs)
    rw [Function.comp_apply, symbolName, hname, Option.getD_some]
  rw [spacedNames?, hnames]
  exact ⟨_, rfl⟩

theorem SymbolsInRange.exists_ruleText? {r : Nat} (hr : r < g.rules.length) :
    ∃ text, g.ruleText? r = some text := by
  have hmem : g.rules[r] ∈ g.rules := List.getElem_mem hr
  obtain ⟨lhs, hlhs⟩ := exists_symbolName?_nonterminal (hg.lhs_lt _ hmem)
  obtain ⟨rhs, hrhs⟩ := hg.exists_spacedNames? hmem
  rw [ruleText?, rule?, List.getElem?_eq_getElem hr]
  simp only [Option.bind_eq_bind, Option.bind_some, hlhs, hrhs]
  exact ⟨_, rfl⟩

/-! ## The report -/

omit hg in
private theorem mem_terminalsOf {rule : Rule} {t : Nat} :
    t ∈ terminalsOf rule ↔ Symbol.terminal t ∈ rule.rhs := by
  rw [terminalsOf, List.mem_filterMap]
  constructor
  · rintro ⟨s, hs, heq⟩
    cases s with
    | terminal t' =>
      obtain rfl := Option.some.inj heq
      exact hs
    | nonterminal a => simp at heq
  · intro hs
    exact ⟨_, hs, rfl⟩

omit hg in
private theorem exists_foldlM_tick {is : List Nat} {marks : List Bool}
    (h : ∀ i ∈ is, i < marks.length) :
    ∃ marks', is.foldlM tick marks = .ok marks' ∧ marks'.length = marks.length := by
  refine exists_foldlM_eq_ok (P := fun _ (ms : List Bool) ↦ ms.length = marks.length) rfl ?_
  intro done i ms hpre hms
  have hi : i < ms.length := hms ▸ h i (hpre.subset (by simp))
  refine ⟨ms.set i true, ?_, by rw [List.length_set, hms]⟩
  rw [tick, List.getElem?_eq_getElem hi]
  rfl

/-- The terminals of all rules are ticked off, and every terminal has a mark. -/
theorem SymbolsInRange.exists_unusedTerminals_eq_ok
    (hw : Builder.Wrapped Terminal.number g.terminals)
    (hne : 0 < g.terminals.length) : ∃ unused, g.unusedTerminals = .ok unused := by
  have hrange : ∀ t ∈ 0 :: g.rules.flatMap terminalsOf,
      t < (List.replicate g.terminals.length false).length := by
    intro t ht
    rw [List.length_replicate]
    rcases List.mem_cons.mp ht with rfl | ht
    · exact hne
    · obtain ⟨rule, hrule, hs⟩ := List.mem_flatMap.mp ht
      exact hg.terminal_lt rule hrule t (mem_terminalsOf.mp hs)
  obtain ⟨marks, hmarks, hlength⟩ := exists_foldlM_tick hrange
  rw [List.length_replicate] at hlength
  obtain ⟨marked, hmarked, -⟩ := exists_mapM_eq_ok (l := g.terminals)
    (f := fun t : Terminal ↦ do return (t, ← require marks[t.number]?)) fun t ht ↦ by
      have hlt : t.number < marks.length := hlength ▸ hw.lt_length ht
      rw [List.getElem?_eq_getElem hlt]
      exact ⟨_, rfl⟩
  simp only [unusedTerminals, bind_eq_ok]
  exact ⟨_, marks, hmarks, marked, hmarked, rfl⟩

theorem SymbolsInRange.exists_report_eq_ok (hw : Builder.Wrapped Terminal.number g.terminals)
    (hne : 0 < g.terminals.length) : ∃ records, g.report = .ok records := by
  obtain ⟨unused, hunused⟩ := hg.exists_unusedTerminals_eq_ok hw hne
  obtain ⟨texts, htexts, -⟩ := exists_mapM_eq_ok (l := List.range g.rules.length)
    (f := fun r ↦ require (g.ruleText? r)) fun r hr ↦ by
      obtain ⟨text, htext⟩ := hg.exists_ruleText? (List.mem_range.mp hr)
      exact ⟨text, by rw [htext, require_some]⟩
  simp only [report, bind_eq_ok]
  exact ⟨_, unused, hunused, texts, htexts, rfl⟩

end Grammar

/-! ## The passes -/

namespace Builder

variable {d : Builder} {terminals : List Terminal} {levels : List Precedence}
  {nonterminals : List NonTerminal} {rules : List Rule}

private theorem staysInRange_buildTerminals : StaysInRange d.buildTerminals := by
  refine staysInRange_foldlM (P := fun _ _ ↦ True) trivial (fun _ _ _ _ _ _ ↦ trivial) ?_
  intro _ decl ts _ _
  rw [addTerminal]
  split
  · exact staysInRange_error (by simp)
  · split
    · exact staysInRange_error (by simp)
    · exact staysInRange_ok _

private theorem staysInRange_ofKeyword (keyword : String) :
    StaysInRange (Associativity.ofKeyword keyword) := by
  rw [Associativity.ofKeyword]
  repeat' split
  all_goals first | exact staysInRange_ok _ | exact staysInRange_error (by simp)

private theorem staysInRange_addLevel (decl : PrecedenceDecl)
    (h : levels.length + 1 < Numbered.numberBound) : StaysInRange (addLevel levels decl) := by
  refine (staysInRange_ofKeyword _).bind fun associativity _ ↦
    StaysInRange.bind ?_ fun members _ ↦ ?_
  · refine staysInRange_foldlM (P := fun _ _ ↦ True) trivial (fun _ _ _ _ _ _ ↦ trivial) ?_
    intro _ name ms _ _
    rw [addMember]
    split
    · exact staysInRange_error (by simp)
    · exact staysInRange_ok _
  · rw [Numbered.ofIndex_eq (Nat.lt_of_succ_lt h), Numbered.advance?_eq_some h]
    exact staysInRange_ok _

private theorem staysInRange_buildPrecedence (h : d.precedence.length < Numbered.numberBound) :
    StaysInRange d.buildPrecedence := by
  refine staysInRange_foldlM (P := LevelsOf) levelsOf_nil ?_ ?_
  · intro done decl ls ls' hls hstep
    obtain ⟨level, rfl, hof, hlevel⟩ := addLevel_ok hstep
    exact hls.append hof hlevel
  · intro done decl ls hpre hls
    have hle := hpre.length_le
    rw [List.length_append, List.length_singleton, hls.forall₂.length_eq] at hle
    exact staysInRange_addLevel decl (by omega)

/-- The number of a name leads to its entry. -/
theorem staysInRange_addRuleNames (hw : Wrapped NonTerminal.number nonterminals) (rule : RuleDecl) :
    StaysInRange (addRuleNames terminals nonterminals rule) := by
  cases hlhs : findTerminal? terminals rule.lhs with
  | some t =>
    rw [addRuleNames, if_pos (by simp [hlhs])]
    exact staysInRange_error (by simp)
  | none =>
    obtain ⟨nonterminals', h⟩ := exists_addRuleNames_eq_ok hw hlhs
    exact staysInRange_of_eq_ok h

private theorem staysInRange_buildNonTerminals : StaysInRange (d.buildNonTerminals terminals) := by
  refine StaysInRange.bind ?_ fun ns _ ↦ ?_
  · refine staysInRange_foldlM (P := fun _ ns ↦ Wrapped NonTerminal.number ns) wrapped_nil ?_ ?_
    · exact fun _ _ _ _ hw hstep ↦ wrapped_addRuleNames hw hstep
    · exact fun _ rule _ _ hw ↦ staysInRange_addRuleNames hw rule
  · dsimp only
    split
    · exact staysInRange_ok _
    · exact staysInRange_error (by simp)

private theorem staysInRange_levelOf (decl : RuleDecl) :
    StaysInRange (levelOf terminals levels decl) := by
  rw [levelOf]
  split
  · split
    · exact staysInRange_ok _
    · exact staysInRange_error (by simp)
  · exact staysInRange_ok _

private theorem staysInRange_addRule (hw : Wrapped NonTerminal.number nonterminals)
    {decl : RuleDecl}
    (h : RuleNamed terminals nonterminals decl) :
    StaysInRange (addRule terminals levels nonterminals rules decl) := by
  obtain ⟨rule, -, hof, -⟩ := h.exists_isRuleOf hw 0 none
  refine (staysInRange_require hof.lhs).bind fun _ _ ↦ ?_
  refine (staysInRange_require hof.rhs).bind fun _ _ ↦ ?_
  exact (staysInRange_levelOf decl).bind fun _ _ ↦ staysInRange_ok _

private theorem staysInRange_buildRules (hw : Wrapped NonTerminal.number nonterminals)
    (h : ∀ decl ∈ d.rules, RuleNamed terminals nonterminals decl) :
    StaysInRange (d.buildRules terminals levels nonterminals) := by
  refine staysInRange_foldlM (P := fun _ _ ↦ True) trivial (fun _ _ _ _ _ _ ↦ trivial) ?_
  exact fun done decl rules hpre _ ↦ staysInRange_addRule hw (h decl (hpre.subset (by simp)))

/-- The number of a rule leads to a rule, whose symbols have names. -/
theorem staysInRange_acceptName {g : Grammar} (hg : g.SymbolsInRange)
    (hw : Wrapped Rule.number g.rules)
    {done : List String × List Rule} (hm : MarkedFrom g.rules done.2) (name : String) :
    StaysInRange (acceptName g done name) := by
  rw [acceptName]
  split
  · exact staysInRange_error (by simp)
  · split
    · exact staysInRange_error (by simp)
    · split
      · exact staysInRange_error (by simp)
      · rename_i only honly
        have hlt := hw.lt_length (mem_of_rulesFor_eq honly)
        obtain ⟨rule, hrule, -⟩ := hm.exists_getElem? (List.getElem?_eq_getElem hlt)
        have hmem := List.mem_of_getElem? hrule
        have hrange := hm.inRange hg
        obtain ⟨lhs, hlhs⟩ := Grammar.exists_symbolName?_nonterminal (hrange.lhs_lt rule hmem)
        obtain ⟨rhs, hrhs⟩ := hrange.exists_spacedNames? hmem
        refine (staysInRange_require hrule).bind fun rule' hrule' ↦ ?_
        obtain rfl : rule = rule' := Option.some.inj (hrule.symm.trans (require_eq_ok.mp hrule'))
        split
        · exact staysInRange_ok _
        · refine (staysInRange_require hlhs).bind fun _ _ ↦ ?_
          exact (staysInRange_require hrhs).bind fun _ _ ↦ staysInRange_error (by simp)
      · exact staysInRange_error (by simp)

private theorem staysInRange_markAccepts {g : Grammar} (hg : g.SymbolsInRange)
    (hw : Wrapped Rule.number g.rules)
    (hunmarked : ∀ rule ∈ g.rules, rule.accept = false) : StaysInRange (d.markAccepts g) := by
  rw [markAccepts]
  split
  · exact staysInRange_error (by simp)
  · refine StaysInRange.bind ?_ fun _ _ ↦ staysInRange_ok _
    refine staysInRange_foldlM (P := fun _ (done : List String × List Rule) ↦
      MarkedFrom g.rules done.2) (markedFrom_refl hunmarked) ?_ ?_
    · exact fun _ _ _ _ hm hstep ↦ (acceptName_ok hstep hm).1
    · exact fun _ name _ _ hm ↦ staysInRange_acceptName hg hw hm name

/-! ## The grammar -/

/-- **The builder finds what it looks up**, whether or not it accepts the declarations. -/
theorem staysInRange_build (h : d.precedence.length < Numbered.numberBound) :
    StaysInRange d.build := by
  refine staysInRange_buildTerminals.bind fun terminals hterminals ↦ ?_
  refine (staysInRange_buildPrecedence h).bind fun levels _ ↦ ?_
  refine staysInRange_buildNonTerminals.bind fun nonterminals hnonterminals ↦ ?_
  obtain ⟨hw, hnamed⟩ := buildNonTerminals_ok hnonterminals
  refine (staysInRange_buildRules hw hnamed).bind fun rules hrules ↦ ?_
  refine StaysInRange.bind ?_ fun _ _ ↦ staysInRange_ok _
  exact staysInRange_markAccepts (inRange_unmarked hterminals hnonterminals hrules)
    (buildRules_ok hrules).1 (not_accept_of_buildRules hrules)

/-- **There is a report on every grammar that is made.** -/
theorem exists_report_eq_ok {g : Grammar} (h : d.build = .ok g) :
    ∃ records, g.report = .ok records := by
  obtain ⟨terminals, levels, nonterminals, rules, marked, hterminals, -, hnonterminals, hrules,
    hmarked, rfl⟩ := build_eq_ok.mp h
  have hm := (markAccepts_ok hmarked (not_accept_of_buildRules hrules)).1
  have hrange := hm.inRange (inRange_unmarked hterminals hnonterminals hrules)
  have hne : 0 < terminals.length := by
    rw [length_buildTerminals hterminals]
    exact Nat.succ_pos _
  exact hrange.exists_report_eq_ok (wrapped_buildTerminals hterminals) hne

end Builder

end ShiftReduce
