import Mathlib.Data.String.Basic
import ShiftReduce.Lexer.Scanner

/-!
# Cutting a text into its longest tokens

Which texts are tokens, and of what name, is any relation here. Cutting a text by it (`Cuts`) takes
the longest token at each place, says so with an error where there is none and stops there, and puts
an empty token at the end of the whole text. There is only one such cut if no text is a token of two
names (`Cuts.unique`).

## The search for a token

A search reads on as long as there is a transition. Seen from one character, the longest token is
the one from the next state with the character in front, or, if there is none, the character by
itself. `longest?_cases` follows the recursion in this way and gives both answers a meaning: a
longest token, or no token at all.

## Addresses

A scanner cuts its text by the texts that its tables recognise, provided that no address that it
looks up on the way is too large for a word (`Scanner.cuts_toList_of_fits`). The condition is about
the look-ups of this text only (`Fits`); tables of any reasonable size meet it for all texts
(`fits_of_lt`).
-/

namespace ShiftReduce

/-- Some text begins with a token, and no longer beginning of it is one. -/
structure Longest (tokens : List Char → String → Prop) (cs text : List Char) (name : String) :
    Prop where
  ne_nil : text ≠ []
  begins : text <+: cs
  token : tokens text name
  longest : ∀ longer, longer <+: cs → text.length < longer.length → ∀ name, ¬tokens longer name

/-- No token stands at the start of a text. -/
def NoToken (tokens : List Char → String → Prop) (cs : List Char) : Prop :=
  ∀ text, text <+: cs → text ≠ [] → ∀ name, ¬tokens text name

/-- What a text is cut into, from an offset on. -/
inductive Cuts (tokens : List Char → String → Prop) :
    List Char → Nat → List (Except ScanError Token) → Prop
  /-- The end of the text is a token of its own. -/
  | eof (offset : Nat) : Cuts tokens [] offset [.ok ⟨eofName, "", offset⟩]
  /-- The longest token comes first, and the rest is cut behind it. -/
  | token {text rest : List Char} {name : String} {offset : Nat}
      {found : List (Except ScanError Token)} :
      Longest tokens (text ++ rest) text name →
      Cuts tokens rest (offset + (String.ofList text).utf8ByteSize) found →
      Cuts tokens (text ++ rest) offset (.ok ⟨name, String.ofList text, offset⟩ :: found)
  /-- A character at which no token starts is reported, and nothing follows. -/
  | unexpected {c : Char} {cs : List Char} (offset : Nat) : NoToken tokens (c :: cs) →
      Cuts tokens (c :: cs) offset [.error (.unexpectedChar offset c)]

theorem Cuts.congr {tokens tokens' : List Char → String → Prop} {cs : List Char} {offset : Nat}
    {found : List (Except ScanError Token)} (h : Cuts tokens cs offset found)
    (htokens : ∀ text name, tokens text name ↔ tokens' text name) :
    Cuts tokens' cs offset found := by
  obtain rfl : tokens = tokens' := funext fun text ↦ funext fun name ↦ propext (htokens text name)
  exact h

theorem NoToken.not_longest {tokens : List Char → String → Prop} {cs text : List Char}
    {name : String} (hno : NoToken tokens cs) : ¬Longest tokens cs text name :=
  fun h ↦ hno text h.begins h.ne_nil name h.token

theorem Longest.unique {tokens : List Char → String → Prop} {cs text text' : List Char}
    {name name' : String} (h : Longest tokens cs text name) (h' : Longest tokens cs text' name') :
    text = text' := by
  have hle : ¬text.length < text'.length := fun hlt ↦ h.longest text' h'.begins hlt name' h'.token
  have hle' : ¬text'.length < text.length := fun hlt ↦ h'.longest text h.begins hlt name h.token
  have hlength : text.length = text'.length := by omega
  rw [List.prefix_iff_eq_take.mp h.begins, List.prefix_iff_eq_take.mp h'.begins, hlength]

/-- Where a text is a token of one name only, every text is cut in one way only. -/
theorem Cuts.unique {tokens : List Char → String → Prop}
    (hname : ∀ text name name', tokens text name → tokens text name' → name = name')
    {cs : List Char} {offset : Nat} {found found' : List (Except ScanError Token)}
    (h : Cuts tokens cs offset found) (h' : Cuts tokens cs offset found') : found = found' := by
  induction h generalizing found' with
  | eof offset =>
    generalize hcs : ([] : List Char) = cs at h'
    cases h' with
    | eof => rfl
    | token hlongest _ => exact absurd (List.append_eq_nil_iff.mp hcs.symm).1 hlongest.ne_nil
    | unexpected => simp at hcs
  | @token text rest name offset found hlongest _ ih =>
    generalize hcs : text ++ rest = cs at h'
    cases h' with
    | eof => exact absurd (List.append_eq_nil_iff.mp hcs).1 hlongest.ne_nil
    | token hlongest' hrest' =>
      rw [hcs] at hlongest
      obtain rfl := hlongest.unique hlongest'
      obtain rfl := List.append_cancel_left hcs
      rw [hname _ _ _ hlongest.token hlongest'.token, ih hrest']
    | unexpected _ hno =>
      rw [hcs] at hlongest
      exact absurd hlongest hno.not_longest
  | @unexpected c cs offset hno =>
    generalize hcs : c :: cs = cs' at h'
    cases h' with
    | eof => simp at hcs
    | token hlongest _ =>
      rw [hcs] at hno
      exact absurd hlongest hno.not_longest
    | unexpected =>
      obtain ⟨rfl, rfl⟩ := List.cons.inj hcs
      rfl

namespace ScanTables

variable {t : ScanTables} {state state' : Nat} {cs text : List Char} {name : String}

/-- The tables lead from one state to another along a text. -/
inductive Leads (t : ScanTables) : Nat → List Char → Nat → Prop
  | nil (state : Nat) : Leads t state [] state
  | cons {state next last : Nat} {c : Char} {cs : List Char} : t.next state c = .ok (some next) →
      Leads t next cs last → Leads t state (c :: cs) last

/-- The addresses of all transitions from a state on fit a word. -/
def Addressable (t : ScanTables) (state : Nat) : Prop :=
  ∀ cs state', Leads t state cs state' → ∀ c, ∃ next, t.next state' c = .ok next

/-- The tables recognise a text as a token. -/
def Recognizes (t : ScanTables) (state : Nat) (text : List Char) (name : String) : Prop :=
  ∃ state', Leads t state text state' ∧ t.token? state' = some name

/-- A token of more than one character goes on from the state behind the first. -/
theorem recognizes_cons {c : Char} : t.Recognizes state (c :: cs) name ↔
    ∃ state', t.next state c = .ok (some state') ∧ t.Recognizes state' cs name := by
  constructor
  · rintro ⟨last, hleads, htoken⟩
    cases hleads with
    | cons hnext hrest => exact ⟨_, hnext, last, hrest, htoken⟩
  · rintro ⟨state', hnext, last, hrest, htoken⟩
    exact ⟨last, Leads.cons hnext hrest, htoken⟩

theorem recognizes_nil : t.Recognizes state [] name ↔ t.token? state = some name := by
  constructor
  · rintro ⟨last, hleads, htoken⟩
    cases hleads with
    | nil => exact htoken
  · exact fun htoken ↦ ⟨state, Leads.nil state, htoken⟩

section Behind

variable {c : Char} (hnext : t.next state c = .ok (some state'))

include hnext

theorem exists_behind (hbegins : text <+: c :: cs) (hne : text ≠ [])
    (htoken : t.Recognizes state text name) :
    ∃ rest, text = c :: rest ∧ rest <+: cs ∧ t.Recognizes state' rest name := by
  obtain ⟨a, rest, rfl⟩ := List.exists_cons_of_ne_nil hne
  obtain ⟨rfl, hrest⟩ := List.cons_prefix_cons.mp hbegins
  obtain ⟨next, hnext', htoken⟩ := recognizes_cons.mp htoken
  rw [hnext] at hnext'
  obtain rfl := Option.some.inj (Except.ok.inj hnext')
  exact ⟨rest, rfl, hrest, htoken⟩

/-- The longest token from the next state, with the character before it. -/
theorem longest_cons (h : Longest (t.Recognizes state') cs text name) :
    Longest (t.Recognizes state) (c :: cs) (c :: text) name where
  ne_nil := List.cons_ne_nil c text
  begins := List.cons_prefix_cons.mpr ⟨rfl, h.begins⟩
  token := recognizes_cons.mpr ⟨state', hnext, h.token⟩
  longest := by
    intro longer hbegins hlonger name' htoken
    have hne : longer ≠ [] := List.ne_nil_of_length_pos (Nat.zero_lt_of_lt hlonger)
    obtain ⟨rest, rfl, hrest, htoken⟩ := exists_behind hnext hbegins hne htoken
    exact h.longest rest hrest (Nat.lt_of_succ_lt_succ hlonger) name' htoken

variable (hno : NoToken (t.Recognizes state') cs)

include hno

/-- Where nothing follows that makes a token, the character can only be one itself. -/
theorem eq_singleton (hbegins : text <+: c :: cs) (hne : text ≠ [])
    (htoken : t.Recognizes state text name) : text = [c] ∧ t.token? state' = some name := by
  obtain ⟨rest, rfl, hrest, htoken⟩ := exists_behind hnext hbegins hne htoken
  by_cases hnil : rest = []
  · subst hnil
    exact ⟨rfl, recognizes_nil.mp htoken⟩
  · exact absurd htoken (hno rest hrest hnil name)

private theorem longest_singleton (htoken : t.token? state' = some name) :
    Longest (t.Recognizes state) (c :: cs) [c] name where
  ne_nil := List.cons_ne_nil c []
  begins := List.cons_prefix_cons.mpr ⟨rfl, List.nil_prefix⟩
  token := recognizes_cons.mpr ⟨state', hnext, recognizes_nil.mpr htoken⟩
  longest := by
    intro longer hbegins hlonger name' hrecognizes
    have hne : longer ≠ [] := List.ne_nil_of_length_pos (Nat.zero_lt_of_lt hlonger)
    rw [(eq_singleton hnext hno hbegins hne hrecognizes).1] at hlonger
    exact absurd hlonger (Nat.lt_irrefl 1)

private theorem noToken_cons (hnone : t.token? state' = none) :
    NoToken (t.Recognizes state) (c :: cs) := by
  intro text hbegins hne name hrecognizes
  have hsome := (eq_singleton hnext hno hbegins hne hrecognizes).2
  rw [hnone] at hsome
  simp at hsome

end Behind

private theorem noToken_of_next {c : Char} (hnext : t.next state c = .ok none) :
    NoToken (t.Recognizes state) (c :: cs) := by
  intro text hbegins hne name htoken
  obtain ⟨a, rest, rfl⟩ := List.exists_cons_of_ne_nil hne
  obtain ⟨rfl, -⟩ := List.cons_prefix_cons.mp hbegins
  obtain ⟨state', hsome, -⟩ := recognizes_cons.mp htoken
  rw [hnext] at hsome
  simp at hsome

/-- There is an answer about a transition unless its address is too large. -/
theorem exists_next_iff {c : Char} : (∃ next, t.next state c = .ok next) ↔
    (t.classify c < t.eventCount → state * t.eventCount + t.classify c < wordBound) := by
  rw [ScanTables.next]
  by_cases hevent : t.classify c < t.eventCount
  · rw [if_neg (Nat.not_le.mpr hevent), cellAddress]
    by_cases hfits : state * t.eventCount + t.classify c < wordBound
    · rw [if_pos hfits]
      dsimp only
      cases t.transitions[state * t.eventCount + t.classify c]? <;> simp [hfits]
    · rw [if_neg hfits]
      simp [hevent, hfits]
  · rw [if_pos (Nat.not_lt.mp hevent)]
    simp [hevent]

/-- The addresses of all transitions that are looked up while a text is read from a state fit a
word. -/
def FitsFrom (t : ScanTables) (state : Nat) (cs : List Char) : Prop :=
  ∀ text state' c after, cs = text ++ c :: after → Leads t state text state' →
    t.classify c < t.eventCount → state' * t.eventCount + t.classify c < wordBound

theorem FitsFrom.exists_next {c : Char} (h : t.FitsFrom state (c :: cs)) :
    ∃ next, t.next state c = .ok next :=
  exists_next_iff.mpr (h [] state c cs rfl (Leads.nil state))

theorem FitsFrom.behind {c : Char} (h : t.FitsFrom state (c :: cs))
    (hnext : t.next state c = .ok (some state')) : t.FitsFrom state' cs := by
  intro text last a after hcs hleads
  exact h (c :: text) last a after (congrArg (c :: ·) hcs) (Leads.cons hnext hleads)

/-- The search for the longest token finds it, or finds that there is none. -/
theorem longest?_cases (h : t.FitsFrom state cs) :
    (t.longest? state cs = .ok none ∧ NoToken (t.Recognizes state) cs) ∨
      ∃ name more, t.longest? state cs = .ok (some (name, more)) ∧
        Longest (t.Recognizes state) cs (cs.take (more + 1)) name := by
  induction cs generalizing state with
  | nil =>
    refine Or.inl ⟨rfl, ?_⟩
    intro text hbegins hne
    exact absurd (List.prefix_nil.mp hbegins) hne
  | cons c cs ih =>
    obtain ⟨next, hnext⟩ := h.exists_next
    rw [longest?, hnext]
    cases next with
    | none => exact Or.inl ⟨rfl, noToken_of_next hnext⟩
    | some next =>
      dsimp only
      rcases ih (h.behind hnext) with ⟨hlongest, hno⟩ | ⟨name, more, hlongest, hfound⟩
      · rw [hlongest]
        cases htoken : t.token? next with
        | none => exact Or.inl ⟨rfl, noToken_cons hnext hno htoken⟩
        | some name => exact Or.inr ⟨name, 0, rfl, longest_singleton hnext hno htoken⟩
      · rw [hlongest]
        exact Or.inr ⟨name, more + 1, rfl, longest_cons hnext hfound⟩

/-! ## Addresses that fit -/

/-- What is left of a text wherever a scanner looks for a token: at the start, and behind every
token. -/
inductive Visits (t : ScanTables) : List Char → List Char → Prop
  | start (cs : List Char) : Visits t cs cs
  | behind {text rest last : List Char} {name : String} :
      Longest (t.Recognizes t.initial) (text ++ rest) text name → Visits t rest last →
        Visits t (text ++ rest) last

/-- The addresses of all transitions that a scanner looks up in a text fit a word. -/
def Fits (t : ScanTables) (cs : List Char) : Prop :=
  ∀ rest, Visits t cs rest → t.FitsFrom t.initial rest

theorem Fits.behind {rest : List Char} (h : t.Fits (text ++ rest))
    (hlongest : Longest (t.Recognizes t.initial) (text ++ rest) text name) : t.Fits rest :=
  fun last hlast ↦ h last (Visits.behind hlongest hlast)

theorem Addressable.fits (h : t.Addressable t.initial) (cs : List Char) : t.Fits cs :=
  fun _ _ text state' c _ _ hleads ↦ exists_next_iff.mp (h text state' hleads c)

private theorem mem_transitions_of_next {c : Char} (h : t.next state c = .ok (some state')) :
    (state' : Int) ∈ t.transitions := by
  rw [ScanTables.next] at h
  split at h
  · simp at h
  · split at h
    · simp at h
    · split at h
      · rename_i next hget
        have hstate := Except.ok.inj h
        split at hstate
        · rename_i hpos
          rw [← Option.some.inj hstate, Int.toNat_of_nonneg hpos]
          exact Array.mem_of_getElem? hget
        · simp at hstate
      · simp at h

/-- Tables fit if there is room for the rows of all states that they name. -/
theorem fits_of_lt {n : Nat} (hinitial : t.initial < n)
    (htransitions : ∀ next ∈ t.transitions, next < n) (hn : n * t.eventCount ≤ wordBound)
    (cs : List Char) : t.Fits cs := by
  intro _ _ text state c _ _ hleads hevent
  have hlt : ∀ {first text last}, first < n → Leads t first text last → last < n := by
    intro first text last hfirst hleads
    induction hleads with
    | nil => exact hfirst
    | cons hnext _ ih =>
      exact ih (Int.ofNat_lt.mp (htransitions _ (mem_transitions_of_next hnext)))
  calc state * t.eventCount + t.classify c < (state + 1) * t.eventCount := by
        rw [Nat.succ_mul]
        exact Nat.add_lt_add_left hevent _
    _ ≤ n * t.eventCount := Nat.mul_le_mul_right _ (hlt hinitial hleads)
    _ ≤ wordBound := hn

end ScanTables

/-! ## The scanner -/

namespace Scanner

variable {t : ScanTables} {cs : List Char} {offset : Nat}

private theorem byteCount_eq (cs : List Char) : byteCount cs = (String.ofList cs).utf8ByteSize := by
  rw [String.utf8ByteSize_ofList, byteCount]
  induction cs with
  | nil => rfl
  | cons c cs ih => rw [List.foldr_cons, ih, String.utf8Len_cons, Nat.add_comm]

theorem toList_of_next? {s s' : Scanner} {r : Except ScanError Token}
    (h : s.next? t = some (r, s')) : s.toList t = r :: s'.toList t := by
  rw [toList.eq_def]
  split
  · rename_i hnone
    rw [h] at hnone
    simp at hnone
  · rename_i hsome
    rw [h] at hsome
    obtain ⟨rfl, rfl⟩ := Prod.mk.inj (Option.some.inj hsome)
    rfl

theorem toList_of_next?_eq_none {s : Scanner} (h : s.next? t = none) : s.toList t = [] := by
  rw [toList.eq_def]
  split
  · rfl
  · rename_i hsome
    rw [h] at hsome
    simp at hsome

theorem toList_done : (⟨cs, offset, true⟩ : Scanner).toList t = [] :=
  toList_of_next?_eq_none rfl

/-- The scanner cuts its text by the texts that its tables recognise. -/
theorem cuts_toList_of_fits (h : t.Fits cs) (offset : Nat) :
    Cuts (t.Recognizes t.initial) cs offset ((⟨cs, offset, false⟩ : Scanner).toList t) := by
  induction hlength : cs.length using Nat.strong_induction_on generalizing cs offset with
  | h n ih =>
    cases cs with
    | nil =>
      have hnext : (⟨[], offset, false⟩ : Scanner).next? t
          = some (.ok ⟨eofName, "", offset⟩, ⟨[], offset, true⟩) := rfl
      rw [toList_of_next? hnext, toList_done]
      exact Cuts.eof offset
    | cons c cs =>
      rcases ScanTables.longest?_cases (h _ (ScanTables.Visits.start _)) with ⟨hlongest, hno⟩ |
        ⟨name, more, hlongest, hfound⟩
      · have hnext : (⟨c :: cs, offset, false⟩ : Scanner).next? t
            = some (.error (.unexpectedChar offset c), ⟨c :: cs, offset, true⟩) := by
          simp only [next?, hlongest, Bool.false_eq_true, if_false]
        rw [toList_of_next? hnext, toList_done]
        exact Cuts.unexpected offset hno
      · have hnext : (⟨c :: cs, offset, false⟩ : Scanner).next? t
            = some (.ok ⟨name, String.ofList (c :: cs.take more), offset⟩,
              ⟨cs.drop more, offset + byteCount (c :: cs.take more), false⟩) := by
          simp only [next?, hlongest, Bool.false_eq_true, if_false]
        rw [toList_of_next? hnext, byteCount_eq]
        rw [List.take_succ_cons] at hfound
        have hlt : (cs.drop more).length < n := by
          rw [← hlength, List.length_drop, List.length_cons]
          omega
        have hsplit : c :: cs.take more ++ cs.drop more = c :: cs := by
          rw [List.cons_append, List.take_append_drop]
        rw [← hsplit] at h hfound
        have hrest := ih _ hlt (h.behind hfound)
          (offset + (String.ofList (c :: cs.take more)).utf8ByteSize) rfl
        have hcut := Cuts.token hfound hrest
        rwa [hsplit] at hcut

/-- With tables that fit whatever the text, any text is cut in this way. -/
theorem cuts_toList (h : t.Addressable t.initial) (cs : List Char) (offset : Nat) :
    Cuts (t.Recognizes t.initial) cs offset ((⟨cs, offset, false⟩ : Scanner).toList t) :=
  cuts_toList_of_fits (h.fits cs) offset

end Scanner

end ShiftReduce
