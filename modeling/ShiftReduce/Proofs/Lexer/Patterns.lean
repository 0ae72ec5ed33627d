import Mathlib
import ShiftReduce.Proofs.Folds
import ShiftReduce.Proofs.Lexer.Munch
import ShiftReduce.Proofs.Lexer.Tables
import ShiftReduce.Proofs.Regex.Determinized
import ShiftReduce.Proofs.Regex.Thompson
import ShiftReduce.Regex.Compiler

/-!
# The scanner finds what the patterns say

A text is a token of a terminal if the pattern of that terminal matches it in full and no other
terminal's does. The tables that are assembled from compiled patterns recognise just these texts, so
a scanner with these tables cuts every text into its longest tokens (`Lexer.cuts_tokens`).

## What is known of patterns

The notation of patterns is that of a parser which is handed in. A pattern means the language of the
expression that the parser reads in it, and the parser is asked for one thing only: that it writes
no repetition whose least count is above its greatest. The reader with which the example runs knows
two patterns.

## The construction

Each layer hands an equivalence to the next. The machine of a pattern has the language of its
expression; the joined machine accepts for the terminals whose machines match (`accepts_machines`);
the deterministic machine has a tag where there is just one, whose name is that of the terminal
(`tagName?_tag?`); and the flat tables step like it (`Machine.Regular.recognizes_iff`). What the
scanner does with tables that recognise given texts is known already, and that there is one way only
to cut a text is a fact about longest tokens.
-/

namespace ShiftReduce.Lexer

open Regex (Expr Nfa PatternParser)

variable {terminals : List Terminal} {s s' : Source} {text : List Char} {name : String}
  {parse : PatternParser}

/-! ## Tokens -/

def Source.Matches (parse : PatternParser) (s : Source) (text : List Char) : Prop :=
  ∃ h, parse s.pattern = .ok h ∧ text ∈ h.language

/-- The text is matched in full by the pattern of exactly one terminal, the one of that name. -/
def TokenOf (parse : PatternParser) (terminals : List Terminal) (text : List Char)
    (name : String) : Prop :=
  ∃ s ∈ sources terminals, s.terminal.name = name ∧ s.Matches parse text ∧
    ∀ s' ∈ sources terminals, s'.Matches parse text → s' = s

/-- A text is a token of one name only. -/
private theorem TokenOf.name_eq {name' : String} (h : TokenOf parse terminals text name)
    (h' : TokenOf parse terminals text name') : name = name' := by
  obtain ⟨s, -, rfl, -, honly⟩ := h
  obtain ⟨s', hs', rfl, hmatches, -⟩ := h'
  rw [honly s' hs' hmatches]

private theorem terminal_mem (hs : s ∈ sources terminals) : s.terminal ∈ terminals := by
  obtain ⟨t, ht, hsource⟩ := List.mem_filterMap.mp hs
  rw [source?] at hsource
  split at hsource
  · simp at hsource
  · obtain ⟨pattern, -, rfl⟩ := Option.map_eq_some_iff.mp hsource
    exact ht

private theorem eq_of_terminal_eq (hs : s ∈ sources terminals) (hs' : s' ∈ sources terminals)
    (h : s.terminal = s'.terminal) : s = s' := by
  have hpattern : ∀ {s : Source}, s ∈ sources terminals →
      s.terminal.pattern = some s.pattern := by
    intro s hs
    obtain ⟨t, -, hsource⟩ := List.mem_filterMap.mp hs
    rw [source?] at hsource
    split at hsource
    · simp at hsource
    · obtain ⟨pattern, hpattern, rfl⟩ := Option.map_eq_some_iff.mp hsource
      exact hpattern
  obtain ⟨t, pattern⟩ := s
  obtain ⟨t', pattern'⟩ := s'
  have hpatterns := hpattern hs
  rw [h, hpattern hs'] at hpatterns
  rw [Source.mk.injEq]
  exact ⟨h, (Option.some.inj hpatterns).symm⟩

section Numbers

variable (hnumbers : (terminals.map (·.number)).Nodup)

include hnumbers

private theorem eq_of_number_eq (hs : s ∈ sources terminals) (hs' : s' ∈ sources terminals)
    (h : s.terminal.number = s'.terminal.number) : s = s' :=
  eq_of_terminal_eq hs hs'
    (List.inj_on_of_nodup_map hnumbers (terminal_mem hs) (terminal_mem hs') h)

private theorem tagName?_number (hs : s ∈ sources terminals) :
    tagName? terminals s.terminal.number = some s.terminal.name := by
  rw [tagName?, Option.map_eq_some_iff]
  cases hfound : terminals.reverse.find? (·.number = s.terminal.number) with
  | none =>
    rw [List.find?_eq_none] at hfound
    exact absurd (decide_eq_true rfl) (hfound _ (List.mem_reverse.mpr (terminal_mem hs)))
  | some t =>
    have hmem := List.mem_reverse.mp (List.mem_of_find?_eq_some hfound)
    have hnumber : t.number = s.terminal.number := by simpa using List.find?_some hfound
    exact ⟨t, rfl, by rw [List.inj_on_of_nodup_map hnumbers hmem (terminal_mem hs) hnumber]⟩

end Numbers

/-! ## Compiled patterns -/

/-- No repetition in what a parser reads has a least count above its greatest. -/
def OrderedReadings (parse : PatternParser) : Prop :=
  ∀ pattern h, parse pattern = .ok h → h.Ordered

def Compiled (parse : PatternParser) (s : Source) (m : Nfa) : Prop :=
  ∃ h, parse s.pattern = .ok h ∧ Nfa.ofExpr h s.terminal.number = .ok m

private theorem Compiled.tag_eq {m : Nfa} (hm : Compiled parse s m) :
    m.tag = s.terminal.number := by
  obtain ⟨h, -, hm⟩ := hm
  exact Nfa.tag_ofExpr hm

private theorem Compiled.wellFormed {m : Nfa} (hparse : OrderedReadings parse)
    (hm : Compiled parse s m) : m.WellFormed := by
  obtain ⟨h, hh, hm⟩ := hm
  exact Nfa.wellFormed_ofExpr (hparse _ _ hh) hm

private theorem Compiled.mem_language {m : Nfa} (hparse : OrderedReadings parse)
    (hm : Compiled parse s m) : text ∈ m.language ↔ s.Matches parse text := by
  obtain ⟨h, hh, hm⟩ := hm
  rw [Nfa.language_ofExpr (hparse _ _ hh) hm]
  constructor
  · exact fun htext ↦ ⟨h, hh, htext⟩
  · rintro ⟨h', hh', htext⟩
    rw [hh] at hh'
    obtain rfl := Except.ok.inj hh'
    exact htext

private theorem compileSource_eq_ok_iff {m : Nfa} :
    compileSource (Regex.compiler parse) s = .ok m ↔ Compiled parse s m := by
  simp only [compileSource, Regex.compiler, Regex.compile, Compiled]
  cases parse s.pattern with
  | error e => simp [bind, Except.bind]
  | ok h =>
    simp only [bind, Except.bind, Regex.compileExpr, Except.ok.injEq, exists_eq_left']
    cases Nfa.ofExpr h s.terminal.number <;> simp

/-! ## Recognised texts -/

section Recognised

variable {machines : List Nfa} (hparse : OrderedReadings parse)
  (hcompiled : List.Forall₂ (Compiled parse) (sources terminals) machines)

include hparse hcompiled

private theorem wellFormed_machines : ∀ m ∈ machines, m.WellFormed := by
  intro m hm
  obtain ⟨i, hi, rfl⟩ := List.getElem_of_mem hm
  exact (hcompiled.get (hcompiled.length_eq ▸ hi) hi).wellFormed hparse

/-- The joined machine accepts for the terminals whose patterns match. -/
private theorem accepts_machines {tag : Nat} :
    (Regex.Union.ofList machines).Accepts text tag ↔
      ∃ s ∈ sources terminals, s.terminal.number = tag ∧ s.Matches parse text := by
  rw [Regex.Union.accepts_ofList (wellFormed_machines hparse hcompiled)]
  generalize sources terminals = sources at hcompiled
  induction hcompiled with
  | nil => simp
  | cons hm _ ih =>
    rw [List.exists_mem_cons_iff, List.exists_mem_cons_iff, ih, hm.tag_eq, hm.mem_language hparse]

/-- The name for the tag of a text is that of the only terminal whose pattern matches. -/
private theorem tagName?_tag? (hnumbers : (terminals.map (·.number)).Nodup) :
    ((Regex.combine machines).tag? text).bind (tagName? terminals) = some name ↔
      TokenOf parse terminals text name := by
  rw [Option.bind_eq_some_iff]
  have htag : ∀ tag, (Regex.combine machines).tag? text = some tag ↔
      ∀ tag', (∃ s ∈ sources terminals, s.terminal.number = tag' ∧ s.Matches parse text) ↔
        tag' = tag := by
    intro tag
    rw [Regex.combine, Regex.Union.tag?_toMachine
      (Regex.Union.wellFormed_ofList (wellFormed_machines hparse hcompiled))]
    exact forall_congr' fun tag' ↦ by rw [accepts_machines hparse hcompiled]
  constructor
  · rintro ⟨tag, hmatch, hname⟩
    rw [htag] at hmatch
    obtain ⟨s, hs, rfl, htext⟩ := (hmatch tag).mpr rfl
    rw [tagName?_number hnumbers hs] at hname
    refine ⟨s, hs, Option.some.inj hname, htext, ?_⟩
    intro s' hs' htext'
    exact eq_of_number_eq hnumbers hs' hs ((hmatch _).mp ⟨s', hs', rfl, htext'⟩)
  · rintro ⟨s, hs, rfl, htext, honly⟩
    refine ⟨s.terminal.number, (htag _).mpr fun tag' ↦ ?_, tagName?_number hnumbers hs⟩
    constructor
    · rintro ⟨s', hs', rfl, htext'⟩
      rw [honly s' hs' htext']
    · rintro rfl
      exact ⟨s, hs, rfl, htext⟩

end Recognised

namespace Machine.Regular

variable {m : Machine} (hm : m.Regular) (hsmall : m.transitions.length < 2 ^ 31)

include hm hsmall

/-- The scanner's tables lead where the machine runs. -/
theorem leads_iff {state state' : Nat} (hstate : state < m.transitions.length) :
    (ofMachine terminals m).toScanTables.Leads state text state' ↔
      m.run? state text = some state' := by
  constructor
  · intro h
    induction h with
    | nil => rfl
    | cons hnext _ ih =>
      rw [hm.next_eq hsmall hstate] at hnext
      have hnext := Except.ok.inj hnext
      rw [run?, hnext, Option.bind_some]
      exact ih (hm.lt_of_next? hnext)
  · intro h
    induction text generalizing state with
    | nil =>
      obtain rfl := Option.some.inj h
      exact ScanTables.Leads.nil state
    | cons c text ih =>
      rw [run?, Option.bind_eq_some_iff] at h
      obtain ⟨next, hnext, hrun⟩ := h
      refine ScanTables.Leads.cons ?_ (ih (hm.lt_of_next? hnext) hrun)
      rw [hm.next_eq hsmall hstate, hnext]

theorem addressable :
    (ofMachine terminals m).toScanTables.Addressable
    (ofMachine terminals m).toScanTables.initial := by
  intro text state hleads c
  have hinitial : (ofMachine terminals m).toScanTables.initial = m.initial := rfl
  rw [hinitial, hm.leads_iff hsmall hm.initial_lt] at hleads
  exact ⟨_, hm.next_eq hsmall (hm.lt_of_run? hm.initial_lt hleads)⟩

theorem recognizes_iff :
    (ofMachine terminals m).toScanTables.Recognizes
        (ofMachine terminals m).toScanTables.initial text name ↔
      (m.tag? text).bind (tagName? terminals) = some name := by
  have hinitial : (ofMachine terminals m).toScanTables.initial = m.initial := rfl
  rw [ScanTables.Recognizes, hinitial, tag?, Option.bind_assoc, Option.bind_eq_some_iff]
  exact exists_congr fun state ↦ by rw [hm.leads_iff hsmall hm.initial_lt, token?_eq]

end Machine.Regular

/-- **The scanner finds what the patterns say.** Whatever reads the patterns, those that can be
compiled are assembled, and with the tables, unless they are too large for their codes, every text
is cut into the longest texts that the pattern of exactly one terminal matches, which is possible in
one way only. -/
theorem cuts_tokens (hparse : OrderedReadings parse) (hnumbers : (terminals.map (·.number)).Nodup)
    (hcompile : ∀ s ∈ sources terminals, ∃ h m, parse s.pattern = .ok h ∧
      Nfa.ofExpr h s.terminal.number = .ok m) :
    ∃ l, assemble (Regex.compiler parse) terminals = .ok l ∧ (l.stateCount < 2 ^ 31 →
      ∀ (text : String) (found : List (Except ScanError Token)),
        Cuts (TokenOf parse terminals) text.toList 0 found ↔
          found = (Scanner.ofString text).toList l.toScanTables) := by
  obtain ⟨machines, hmachines, hcompiled⟩ := exists_mapM_eq_ok fun s hs ↦ by
    obtain ⟨h, m, hh, hm⟩ := hcompile s hs
    exact ⟨m, compileSource_eq_ok_iff.mpr ⟨h, hh, hm⟩⟩
  simp only [compileSource_eq_ok_iff] at hcompiled
  have hregular := Regex.Union.regular_toMachine
    (Regex.Union.wellFormed_ofList (wellFormed_machines hparse hcompiled))
  refine ⟨ofMachine terminals (Regex.combine machines), ?_, ?_⟩
  · rw [assemble, hmachines]
    rfl
  · intro hsmall text found
    have hcuts : Cuts (TokenOf parse terminals) text.toList 0 ((Scanner.ofString text).toList
        (ofMachine terminals (Regex.combine machines)).toScanTables) := by
      refine (Scanner.cuts_toList (hregular.addressable hsmall) text.toList 0).congr ?_
      intro text name
      rw [← tagName?_tag? hparse hcompiled hnumbers]
      exact hregular.recognizes_iff hsmall
    constructor
    · exact fun hfound ↦ hfound.unique (fun _ _ _ h h' ↦ h.name_eq h') hcuts
    · rintro rfl
      exact hcuts

/-- A keyword, and words among which it is. -/
def keywordTerminals : List Terminal :=
  [{ name := eofName, number := 0 }, { name := "IF", number := 1, pattern := some "if" },
    { name := "WORD", number := 2, pattern := some "[a-z]+" }]

/-- Reads the pattern of the keyword and that of the words. -/
def parseKeyword : PatternParser
  | "if" => .ok (.literal [105, 102])
  | "[a-z]+" => .ok (.repetition 1 none true (.chars [⟨'a', 'z'⟩]))
  | _ => .error ⟨"unknown pattern"⟩

theorem cuts_tokens_keyword :
    OrderedReadings parseKeyword ∧ (keywordTerminals.map (·.number)).Nodup ∧
      (∀ s ∈ sources keywordTerminals, ∃ h m, parseKeyword s.pattern = .ok h ∧
        Nfa.ofExpr h s.terminal.number = .ok m) ∧
      ∃ l, assemble (Regex.compiler parseKeyword) keywordTerminals = .ok l ∧
        l.stateCount < 2 ^ 31 ∧ ∀ (text : String) (found : List (Except ScanError Token)),
          Cuts (TokenOf parseKeyword keywordTerminals) text.toList 0 found ↔
            found = (Scanner.ofString text).toList l.toScanTables := by
  have hparse : OrderedReadings parseKeyword := by
    intro pattern h hh
    rw [parseKeyword.eq_def] at hh
    split at hh
    · obtain rfl := Except.ok.inj hh
      trivial
    · obtain rfl := Except.ok.inj hh
      simp [Expr.Ordered]
    · simp at hh
  have hnumbers : (keywordTerminals.map (·.number)).Nodup := by decide
  have hcompile : ∀ s ∈ sources keywordTerminals, ∃ h m, parseKeyword s.pattern = .ok h ∧
      Nfa.ofExpr h s.terminal.number = .ok m := by
    have hsources : sources keywordTerminals
        = [⟨{ name := "IF", number := 1, pattern := some "if" }, "if"⟩,
          ⟨{ name := "WORD", number := 2, pattern := some "[a-z]+" }, "[a-z]+"⟩] := by decide
    rw [hsources, List.forall_mem_cons, List.forall_mem_singleton]
    exact ⟨⟨_, _, rfl, rfl⟩, ⟨_, _, rfl, rfl⟩⟩
  obtain ⟨l, hl, hcuts⟩ := cuts_tokens hparse hnumbers hcompile
  have hcount : (assemble (Regex.compiler parseKeyword) keywordTerminals).map stateCount
      = .ok 5 := by
    cbv
  rw [hl] at hcount
  have hcount := Except.ok.inj hcount
  have hsmall : l.stateCount < 2 ^ 31 := by
    rw [hcount]
    decide
  exact ⟨hparse, hnumbers, hcompile, l, hl, hsmall, hcuts hsmall⟩

end ShiftReduce.Lexer
