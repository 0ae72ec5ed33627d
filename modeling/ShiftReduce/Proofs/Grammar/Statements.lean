import ShiftReduce.Proofs.Grammar.Consistency

/-!
# What statements declare

A grammar is declared by a list of statements, and everything that is required of the statements, or
kept of them, can be read off the list: the terminals, the levels of precedence, the rules with the
last of their parts of each kind, and the accept names, each in the order of the list. This reading
is `Declaration.declared`, and adding the statements to a builder one by one comes to the same
(`Declaration.ofList_eq_declared`).

## Consistent statements

`Declaration.Consistent` lists what must hold of statements for a grammar to be made of them. It is
said of the list, in terms of what stands in it, and comes to what the passes of the builder ask of
the collected declarations (`Declaration.consistent_declared_iff`). That the builder makes a grammar
just of consistent statements is `Declaration.ofList_builds_iff`; whatever the statements, it finds
all that it looks up on the way, and so does the report on the grammar.
-/

namespace ShiftReduce

/-! ## Parts of a rule -/

namespace RulePart

def code? : RulePart → Option String
  | .code text => some text
  | _ => none

def precedence? : RulePart → Option String
  | .precedence name => some name
  | _ => none

def valueType? : RulePart → Option String
  | .valueType type => some type
  | _ => none

end RulePart

/-- A rule with its parts, of which the last of each kind counts. -/
def RuleDecl.ofParts (lhs : String) (rhs : List String) (parts : List RulePart) : RuleDecl where
  lhs
  rhs
  precedence := (parts.filterMap RulePart.precedence?).getLast?
  valueType := (parts.filterMap RulePart.valueType?).getLast?
  code := (parts.filterMap RulePart.code?).getLast?

theorem RuleDecl.foldl_setPart (lhs : String) (rhs : List String) (parts : List RulePart) :
    parts.foldl RuleDecl.setPart { lhs, rhs } = ofParts lhs rhs parts := by
  induction parts using List.reverseRecOn with
  | nil => rfl
  | append_singleton parts part ih =>
    rw [List.foldl_append, ih]
    cases part <;>
      simp [ofParts, RuleDecl.setPart, RulePart.code?, RulePart.precedence?, RulePart.valueType?]

namespace Declaration

variable {statements : List Declaration} {s : Declaration} {name : String}

/-! ## Statements by kind -/

def terminal? : Declaration → Option TerminalDecl
  | .terminal decl => some decl
  | _ => none

def precedence? : Declaration → Option PrecedenceDecl
  | .precedence decl => some decl
  | _ => none

def rule? : Declaration → Option RuleDecl
  | .rule lhs rhs parts => some (.ofParts lhs rhs parts)
  | _ => none

def accept? : Declaration → Option String
  | .accept name => some name
  | _ => none

/-- The last name of a kind, and all paths, that are set for the emitted code. -/
def settings (statements : List Declaration) : Settings where
  parserName := (statements.filterMap fun | .parserName name => some name | _ => none).getLast?
  lexerName := (statements.filterMap fun | .lexerName name => some name | _ => none).getLast?
  package := (statements.filterMap fun | .package name => some name | _ => none).getLast?
  tokenType := (statements.filterMap fun | .tokenType name => some name | _ => none).getLast?
  imports := statements.filterMap fun | .importPath path => some path | _ => none

def declared (statements : List Declaration) : Builder where
  settings := settings statements
  terminals := statements.filterMap terminal?
  precedence := statements.filterMap precedence?
  rules := statements.filterMap rule?
  accepts := statements.filterMap accept?

/-- One more statement declares one more thing. -/
theorem declared_append_singleton (statements : List Declaration) (s : Declaration) :
    declared (statements ++ [s]) = (declared statements).add s := by
  cases s <;>
    simp [declared, settings, Builder.add, terminal?, precedence?, rule?, accept?,
      RuleDecl.foldl_setPart]

/-- **A builder collects what the statements declare.** -/
theorem ofList_eq_declared (statements : List Declaration) :
    Builder.ofList statements = declared statements := by
  induction statements using List.reverseRecOn with
  | nil => rfl
  | append_singleton statements s ih =>
    rw [declared_append_singleton, ← ih, Builder.ofList, List.foldl_append]
    rfl

private theorem mem_terminals {decl : TerminalDecl} :
    decl ∈ (declared statements).terminals ↔ .terminal decl ∈ statements := by
  have hkind : ∀ s : Declaration, s.terminal? = some decl ↔ s = .terminal decl := by
    intro s
    cases s <;> simp [terminal?]
  simp [declared, hkind]

theorem mem_precedence {decl : PrecedenceDecl} :
    decl ∈ (declared statements).precedence ↔ .precedence decl ∈ statements := by
  have hkind : ∀ s : Declaration, s.precedence? = some decl ↔ s = .precedence decl := by
    intro s
    cases s <;> simp [precedence?]
  simp [declared, hkind]

theorem mem_accepts : name ∈ (declared statements).accepts ↔ .accept name ∈ statements := by
  have hkind : ∀ s : Declaration, s.accept? = some name ↔ s = .accept name := by
    intro s
    cases s <;> simp [accept?]
  simp [declared, hkind]

private theorem rule?_eq_some_iff {decl : RuleDecl} :
    s.rule? = some decl ↔
      ∃ lhs rhs parts, s = .rule lhs rhs parts ∧ .ofParts lhs rhs parts = decl := by
  cases s <;> simp [rule?]

theorem mem_rules {decl : RuleDecl} : decl ∈ (declared statements).rules ↔
    ∃ lhs rhs parts, .rule lhs rhs parts ∈ statements ∧ .ofParts lhs rhs parts = decl := by
  rw [declared, List.mem_filterMap]
  simp only [rule?_eq_some_iff]
  constructor
  · rintro ⟨s, hs, lhs, rhs, parts, rfl, rfl⟩
    exact ⟨lhs, rhs, parts, hs, rfl⟩
  · rintro ⟨lhs, rhs, parts, hs, rfl⟩
    exact ⟨_, hs, lhs, rhs, parts, rfl, rfl⟩

/-! ## Consistent statements -/

/-- The name is that of the end of input, or of a terminal that is declared. -/
def NamesTerminal (statements : List Declaration) (name : String) : Prop :=
  name = eofName ∨ ∃ decl, .terminal decl ∈ statements ∧ decl.name = name

/-- The statement declares a rule for the name. -/
def isRuleFor (name : String) : Declaration → Bool
  | .rule lhs _ _ => lhs = name
  | _ => false

/-- Statements that contradict themselves nowhere. -/
@[mk_iff]
structure Consistent (statements : List Declaration) : Prop where
  /-- No terminal is named as the end of input, and no name is declared twice. -/
  terminals : (eofName :: (statements.filterMap terminal?).map (·.name)).Nodup
  /-- Keywords are three, in letters of either case. -/
  keywords : ∀ p, .precedence p ∈ statements →
    p.keyword.map Char.toLower ∈ ["left", "right", "nonassoc"]
  /-- No name occurs twice among the members of all levels. -/
  members : ((statements.filterMap precedence?).flatMap (·.members)).Nodup
  /-- No rule defines a terminal. -/
  lhs : ∀ lhs rhs parts, .rule lhs rhs parts ∈ statements → ¬NamesTerminal statements lhs
  /-- A name that is used is a terminal's, or the left-hand side of a rule. -/
  rhs : ∀ lhs rhs parts, .rule lhs rhs parts ∈ statements → ∀ name ∈ rhs,
    NamesTerminal statements name ∨ ∃ rhs' parts', .rule name rhs' parts' ∈ statements
  /-- A name whose precedence a rule borrows is on a level. -/
  borrowed : ∀ lhs rhs parts, .rule lhs rhs parts ∈ statements →
    ∀ name, (parts.filterMap RulePart.precedence?).getLast? = some name →
      ∃ p, .precedence p ∈ statements ∧ name ∈ p.members
  /-- There is an accept name, and none is declared twice. -/
  exists_accept : ∃ name, .accept name ∈ statements
  accepts : (statements.filterMap accept?).Nodup
  /-- An accept name has one rule, which ends with the end of input. -/
  accept_rule : ∀ name, .accept name ∈ statements → ∃ rhs parts,
    statements.filter (·.isRuleFor name) = [.rule name rhs parts] ∧ rhs.getLast? = some eofName

theorem mem_terminalNames :
    name ∈ (declared statements).terminalNames ↔ NamesTerminal statements name := by
  rw [Builder.terminalNames, List.mem_cons, List.mem_map, NamesTerminal]
  simp only [mem_terminals]

private theorem filter_rules : (declared statements).rules.filter (·.lhs = name) =
    (statements.filter (·.isRuleFor name)).filterMap rule? := by
  rw [declared, List.filter_filterMap, List.filterMap_filter]
  refine List.filterMap_congr fun s _ ↦ ?_
  cases s <;> simp [rule?, isRuleFor, RuleDecl.ofParts, Option.filter]

theorem filter_rules_eq_singleton_iff {decl : RuleDecl} :
    (declared statements).rules.filter (·.lhs = name) = [decl] ↔ ∃ rhs parts,
      statements.filter (·.isRuleFor name) = [.rule name rhs parts] ∧
        .ofParts name rhs parts = decl := by
  have hkind : ∀ s ∈ statements.filter (·.isRuleFor name),
      ∃ rhs parts, s = .rule name rhs parts := by
    intro s hs
    have hrule := (List.mem_filter.mp hs).2
    cases s <;> simp_all [isRuleFor]
  rw [filter_rules]
  generalize statements.filter (·.isRuleFor name) = rules at hkind
  constructor
  · intro h
    match rules, hkind with
    | [], _ => simp at h
    | s :: rest, hkind =>
      rw [List.forall_mem_cons] at hkind
      obtain ⟨⟨rhs, parts, rfl⟩, hrest⟩ := hkind
      have hfirst : rule? (.rule name rhs parts) = some (.ofParts name rhs parts) := rfl
      rw [List.filterMap_cons_some hfirst, List.cons.injEq, List.filterMap_eq_nil_iff] at h
      obtain ⟨hdecl, hnone⟩ := h
      have hempty : rest = [] := by
        refine List.eq_nil_iff_forall_not_mem.mpr fun s hs ↦ ?_
        obtain ⟨rhs', parts', rfl⟩ := hrest s hs
        simpa [rule?] using hnone _ hs
      exact ⟨rhs, parts, by rw [hempty], hdecl⟩
  · rintro ⟨rhs, parts, rfl, rfl⟩
    rfl

private theorem forall_mem_rules {P : RuleDecl → Prop} :
    (∀ decl ∈ (declared statements).rules, P decl) ↔
      ∀ lhs rhs parts, .rule lhs rhs parts ∈ statements → P (.ofParts lhs rhs parts) := by
  constructor
  · exact fun h lhs rhs parts hrule ↦ h _ (mem_rules.mpr ⟨lhs, rhs, parts, hrule, rfl⟩)
  · intro h decl hdecl
    obtain ⟨lhs, rhs, parts, hrule, rfl⟩ := mem_rules.mp hdecl
    exact h lhs rhs parts hrule

private theorem exists_mem_rules_iff :
    (∃ decl ∈ (declared statements).rules, decl.lhs = name) ↔
      ∃ rhs parts, .rule name rhs parts ∈ statements := by
  constructor
  · rintro ⟨decl, hdecl, rfl⟩
    obtain ⟨lhs, rhs, parts, hrule, rfl⟩ := mem_rules.mp hdecl
    exact ⟨rhs, parts, hrule⟩
  · rintro ⟨rhs, parts, hrule⟩
    exact ⟨_, mem_rules.mpr ⟨name, rhs, parts, hrule, rfl⟩, rfl⟩

private theorem mem_members_iff :
    name ∈ (declared statements).precedence.flatMap (·.members) ↔
      ∃ p, .precedence p ∈ statements ∧ name ∈ p.members := by
  rw [List.mem_flatMap]
  simp only [mem_precedence]

private theorem exists_accept_rule_iff :
    (∃ rule, (declared statements).rules.filter (·.lhs = name) = [rule] ∧
        rule.rhs.getLast? = some eofName) ↔
      ∃ rhs parts, statements.filter (·.isRuleFor name) = [.rule name rhs parts] ∧
        rhs.getLast? = some eofName := by
  simp only [filter_rules_eq_singleton_iff]
  constructor
  · rintro ⟨rule, ⟨rhs, parts, hone, rfl⟩, heof⟩
    exact ⟨rhs, parts, hone, heof⟩
  · rintro ⟨rhs, parts, hone, heof⟩
    exact ⟨_, ⟨rhs, parts, hone, rfl⟩, heof⟩

private theorem accepts_ne_nil_iff :
    (declared statements).accepts ≠ [] ↔ ∃ name, .accept name ∈ statements := by
  rw [ne_eq, List.eq_nil_iff_forall_not_mem, not_forall_not]
  exact exists_congr fun _ ↦ mem_accepts

/-- Statements are consistent if what they declare passes all checks. -/
theorem consistent_declared_iff : (declared statements).Consistent ↔ Consistent statements := by
  rw [Builder.consistent_iff, consistent_iff]
  simp only [forall_mem_rules, mem_precedence, mem_accepts, mem_terminalNames, mem_members_iff,
    exists_mem_rules_iff, exists_accept_rule_iff, accepts_ne_nil_iff, ← or_iff_not_imp_left]
  rfl

/-! ## Grammars are made of consistent statements -/

/-- **A grammar is made of the statements that contradict themselves nowhere**, and of no others, if
there is a number for everything that they declare. No look-up on the way fails, whether or not a
grammar is made, nor in the report on the grammar. -/
theorem ofList_builds_iff (hd : (declared statements).Numerable) :
    ((∃ g, (Builder.ofList statements).build = .ok g) ↔ Consistent statements) ∧
      (Builder.ofList statements).build ≠ .error .outOfRange ∧
      ∀ g, (Builder.ofList statements).build = .ok g → ∃ records, g.report = .ok records := by
  rw [ofList_eq_declared, ← consistent_declared_iff]
  refine ⟨⟨fun ⟨g, h⟩ ↦ ?_, Builder.exists_build_eq_ok hd⟩, ?_, fun g h ↦ ?_⟩
  · exact Builder.consistent_of_build hd h
  · exact Builder.staysInRange_build hd.precedence
  · exact Builder.exists_report_eq_ok h

/-- Differences with a sign, declared from the end to the start. -/
def differences : List Declaration :=
  [.accept "S", .rule "S" ["E", "EOF"] [], .rule "E" ["E", "-", "E"] [.valueType "Difference"],
    .rule "E" ["-", "E"] [.precedence "SIGN"], .rule "E" ["n"] [],
    .precedence { keyword := "Left", members := ["-"] },
    .precedence { keyword := "right", members := ["SIGN"] },
    .terminal { name := "-", pattern := none, code := none },
    .terminal { name := "n", pattern := none, code := none }]

theorem numerable_differences : (declared differences).Numerable := by
  decide

/-- Statements of which a grammar is made, and of which none is made when an accept name is declared
once more. -/
theorem ofList_builds_iff_differences :
    (declared differences).Numerable ∧ Consistent differences ∧
      (declared (differences ++ [.accept "S"])).Numerable ∧
      ¬Consistent (differences ++ [.accept "S"]) := by
  have hmore : (declared (differences ++ [.accept "S"])).Numerable := by decide
  have hok : (Builder.ofList differences).build.isOk = true := by decide +kernel
  have hrefused : (Builder.ofList (differences ++ [.accept "S"])).build.isOk = false := by
    decide +kernel
  refine ⟨numerable_differences, ?_, hmore, fun hconsistent ↦ ?_⟩
  · exact (ofList_builds_iff numerable_differences).1.mp ⟨_, eq_ok_okValue hok⟩
  · obtain ⟨g, hg⟩ := (ofList_builds_iff hmore).1.mpr hconsistent
    rw [hg] at hrefused
    simp [Except.isOk, Except.toBool] at hrefused

end Declaration

end ShiftReduce
