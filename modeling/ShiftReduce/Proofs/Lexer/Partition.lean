import ShiftReduce.Proofs.Lexer.Munch

/-!
# A scan partitions its text

`Cuts` says what a scan finds from one place on. Here the whole scan of a text is described at once,
for any tables: the tokens found lie one behind the other from the start of the text, each is the
longest that the tables recognise where it stands, and behind them either nothing is left or a rest
at whose start there is no token (`Scanner.partitions`).

## Calls

The scan is that of the calls made one after another, those after the end included
(`Scanner.answer?`), so that it is also said that there is no answer any more once the scan has
ended.

## Offsets

Offsets count bytes, so they are related to the text by `Slice`: both ends of a token lie between
characters of the text, and what is between them is the text of the token. Tokens are found from
left to right, and the partition grows at its end (`Partition.push`).
-/

namespace ShiftReduce

/-! ## Calls -/

namespace Scanner

variable {t : ScanTables}

/-- The scanner after a call; one that has ended stays as it is. -/
def after (t : ScanTables) (s : Scanner) : Scanner :=
  ((s.next? t).map Prod.snd).getD s

/-- What call `n`, counted from 0, answers. -/
def answer? (t : ScanTables) (s : Scanner) (n : Nat) : Option (Except ScanError Token) :=
  (((after t)^[n] s).next? t).map Prod.fst

/-- The calls answer what the list of all tokens holds, and nothing from its end on. -/
theorem answer?_eq (s : Scanner) (n : Nat) : s.answer? t n = (s.toList t)[n]? := by
  induction n generalizing s with
  | zero =>
    cases hnext : s.next? t with
    | none => simp [answer?, toList_of_next?_eq_none hnext, hnext]
    | some found => simp [answer?, toList_of_next? hnext, hnext]
  | succ n ih =>
    have hshift : s.answer? t (n + 1) = (after t s).answer? t n := by
      rw [answer?, Function.iterate_succ_apply, answer?]
    rw [hshift, ih]
    cases hnext : s.next? t with
    | none => simp [after, toList_of_next?_eq_none hnext, hnext]
    | some found => simp [after, toList_of_next? hnext, hnext]

end Scanner

/-! ## Partitions -/

/-- The texts of tokens, one behind the other. -/
def Token.textOf (found : List Token) : String :=
  String.join (found.map (·.text))

theorem Token.textOf_append (found more : List Token) :
    textOf (found ++ more) = textOf found ++ textOf more := by
  rw [textOf, List.map_append, String.join_append, textOf, textOf]

theorem Token.textOf_cons (x : Token) (found : List Token) :
    textOf (x :: found) = x.text ++ textOf found := by
  rw [textOf, List.map_cons, String.join_cons, textOf]

open Token (textOf)

/-- A text is cut into tokens from its start on, each the longest where it stands, up to a rest. -/
structure Partition (tokens : List Char → String → Prop) (input : String) (found : List Token)
    (rest : String) : Prop where
  /-- The texts of the tokens are what has been read, and the rest follows them. -/
  input_eq : textOf found ++ rest = input
  /-- A token starts where those before it end. -/
  offset_eq : ∀ before x after, found = before ++ x :: after →
    x.offset = (textOf before).utf8ByteSize
  /-- A token is the longest of what remained of the text in front of it. -/
  longest : ∀ before x after, found = before ++ x :: after →
    Longest tokens (textOf (x :: after) ++ rest).toList x.text.toList x.name

/-- How a scan ends behind tokens: at the end of the text, or at a character where no token
starts. -/
inductive Ends (tokens : List Char → String → Prop) (found : List Token) :
    String → Except ScanError Token → Prop
  | eof : Ends tokens found "" (.ok ⟨eofName, "", (textOf found).utf8ByteSize⟩)
  | unexpected {rest : String} {c : Char} {cs : List Char} : rest.toList = c :: cs →
      NoToken tokens rest.toList →
        Ends tokens found rest (.error (.unexpectedChar (textOf found).utf8ByteSize c))

section Partition

variable {tokens : List Char → String → Prop} {input rest text name : String} {found : List Token}

private theorem partition_nil (input : String) : Partition tokens input [] input where
  input_eq := rfl
  offset_eq := by simp
  longest := by simp

/-- The longest token at the start of the rest is the next one. -/
theorem Partition.push (h : Partition tokens input found (text ++ rest))
    (hlongest : Longest tokens (text ++ rest).toList text.toList name) :
    Partition tokens input (found ++ [⟨name, text, (textOf found).utf8ByteSize⟩]) rest := by
  have htext : ∀ more, textOf (more ++ [⟨name, text, (textOf found).utf8ByteSize⟩]) ++ rest
      = textOf more ++ (text ++ rest) := by
    intro more
    rw [Token.textOf_append, Token.textOf_cons, String.append_assoc]
    simp [textOf]
  refine ⟨(htext found).trans h.input_eq, ?_, ?_⟩
  · intro before x after heq
    rcases List.eq_nil_or_concat after with rfl | ⟨after, y, rfl⟩
    · obtain ⟨rfl, hx⟩ := List.append_inj' heq rfl
      rw [← List.singleton_inj.mp hx]
    · rw [List.concat_eq_append, ← List.cons_append, ← List.append_assoc] at heq
      exact h.offset_eq before x after (List.append_inj' heq rfl).1
  · intro before x after heq
    rcases List.eq_nil_or_concat after with rfl | ⟨after, y, rfl⟩
    · obtain ⟨rfl, hx⟩ := List.append_inj' heq rfl
      rw [← List.singleton_inj.mp hx]
      exact (htext []).symm ▸ hlongest
    · rw [List.concat_eq_append, ← List.cons_append, ← List.append_assoc] at heq
      obtain ⟨hfound, hy⟩ := List.append_inj' heq rfl
      rw [List.concat_eq_append, ← List.cons_append, ← List.singleton_inj.mp hy, htext]
      exact h.longest before x after hfound

/-- What is cut from a place on continues the partition up to that place. -/
theorem Cuts.exists_partition {cs : List Char} {offset : Nat}
    {answers : List (Except ScanError Token)} (h : Cuts tokens cs offset answers)
    (hfound : Partition tokens input found rest) (hrest : rest.toList = cs)
    (hoffset : offset = (textOf found).utf8ByteSize) :
    ∃ more rest' last, answers = more.map .ok ++ [last] ∧
      Partition tokens input (found ++ more) rest' ∧ Ends tokens (found ++ more) rest' last := by
  induction h generalizing found rest with
  | eof offset =>
    obtain rfl : rest = "" := String.toList_eq_nil_iff.mp hrest
    refine ⟨[], "", _, rfl, (List.append_nil found).symm ▸ hfound, ?_⟩
    rw [hoffset, List.append_nil]
    exact Ends.eof
  | @token text rest₁ name offset answers hlongest _ ih =>
    obtain rfl : rest = String.ofList text ++ String.ofList rest₁ := by
      rw [← String.ofList_append, ← hrest, String.ofList_toList]
    have hfirst : Longest tokens (String.ofList text ++ String.ofList rest₁).toList
        (String.ofList text).toList name := by simpa using hlongest
    obtain ⟨more, rest', last, rfl, hmore, hends⟩ :=
      ih (hfound.push hfirst) String.toList_ofList (by
        rw [Token.textOf_append, String.utf8ByteSize_append, hoffset]
        simp [textOf])
    rw [List.append_assoc] at hmore hends
    exact ⟨_ :: more, rest', last, by rw [hoffset]; rfl, hmore, hends⟩
  | @unexpected c cs offset hno =>
    refine ⟨[], rest, _, rfl, (List.append_nil found).symm ▸ hfound, ?_⟩
    rw [hoffset, List.append_nil]
    exact Ends.unexpected hrest (hrest ▸ hno)

end Partition

/-! ## Slices -/

/-- A text stands at an offset in another, both of its ends between characters. -/
structure Slice (input : String) (offset : Nat) (text : String) : Prop where
  start : (⟨offset⟩ : String.Pos.Raw).IsValid input
  stop : (⟨offset + text.utf8ByteSize⟩ : String.Pos.Raw).IsValid input
  extract_eq : String.Pos.Raw.extract input ⟨offset⟩ ⟨offset + text.utf8ByteSize⟩ = text

theorem slice_append (before text after : String) :
    Slice (before ++ (text ++ after)) before.utf8ByteSize text := by
  refine ⟨?_, ?_, ?_⟩
  · exact String.Pos.Raw.isValid_iff_exists_append.mpr ⟨before, text ++ after, rfl, rfl⟩
  · refine String.Pos.Raw.isValid_iff_exists_append.mpr ⟨before ++ text, after, ?_, ?_⟩
    · rw [String.append_assoc]
    · rw [← String.utf8ByteSize_append]
      rfl
  · have hextract := String.extract_of_valid before.toList text.toList after.toList
    simpa [← String.utf8ByteSize_ofList, ← String.append_assoc] using hextract

/-! ## The scan -/

/-- What a scan of a text comes to: tokens, and the answer with which it ends. -/
structure Scans (t : ScanTables) (input : String) (found : List Token) (rest : String)
    (last : Except ScanError Token) : Prop where
  /-- The calls answer the tokens in turn, then how the scan ends, and from then on nothing. -/
  answers : ∀ n, (Scanner.ofString input).answer? t n = (found.map .ok ++ [last])[n]?
  partition : Partition (t.Recognizes t.initial) input found rest
  slice : ∀ x ∈ found, Slice input x.offset x.text
  /-- Either all of the text has been read, or what is left begins with a character at which the
  tables recognise nothing. -/
  ends : (rest = "" ∧ last = .ok ⟨eofName, "", input.utf8ByteSize⟩) ∨
    ∃ c cs, rest.toList = c :: cs ∧ NoToken (t.Recognizes t.initial) rest.toList ∧
      Slice input (textOf found).utf8ByteSize rest ∧
      last = .error (.unexpectedChar (textOf found).utf8ByteSize c)

namespace Scanner

/-- **A scan partitions its text**, whatever the tables, as long as no address that it looks up is
too large for a word. -/
theorem partitions (t : ScanTables) (input : String) (h : t.Fits input.toList) :
    ∃ found rest last, Scans t input found rest last := by
  obtain ⟨found, rest, last, hanswers, hfound, hends⟩ :=
    (cuts_toList_of_fits h 0).exists_partition (partition_nil input) rfl rfl
  rw [List.nil_append] at hfound hends
  refine ⟨found, rest, last, ?_, hfound, ?_, ?_⟩
  · intro n
    rw [answer?_eq, ← hanswers]
    rfl
  · intro x hx
    obtain ⟨before, after, hsplit⟩ := List.append_of_mem hx
    rw [hfound.offset_eq before x after hsplit, ← hfound.input_eq, hsplit, Token.textOf_append,
      Token.textOf_cons, String.append_assoc, String.append_assoc]
    exact slice_append _ _ _
  · cases hends with
    | eof =>
      refine Or.inl ⟨rfl, ?_⟩
      rw [← hfound.input_eq, String.append_empty]
    | unexpected hrest hno =>
      have hslice := slice_append (textOf found) rest ""
      rw [String.append_empty, hfound.input_eq] at hslice
      exact Or.inr ⟨_, _, hrest, hno, hslice, rfl⟩

/-- Tables with a token for the empty text, a state without one between two that have one, and a row
too few. -/
def steppedTables : ScanTables where
  initial := 0
  transitions := #[1, -1, -1, -1, 2, -1, -1, -1, 3]
  eventCount := 3
  ranges := [(⟨'a', 'a'⟩, 0), (⟨'b', 'b'⟩, 1), (⟨'é', 'é'⟩, 2)]
  tokens := #[some "START", some "A", none, some "ABE"]

/-- The scan goes back to the last token it has passed, and ends where it has passed none. -/
theorem partitions_stepped : steppedTables.Fits "aabéab?".toList ∧
    (∃ found rest last, Scans steppedTables "aabéab?" found rest last) ∧
    (List.range 5).map ((ofString "aabéab?").answer? steppedTables)
      = [some (.ok ⟨"A", "a", 0⟩), some (.ok ⟨"ABE", "abé", 1⟩), some (.ok ⟨"A", "a", 5⟩),
        some (.error (.unexpectedChar 6 'b')), none] := by
  have hfits : steppedTables.Fits "aabéab?".toList :=
    ScanTables.fits_of_lt (n := 4) (by decide) (by decide) (by decide) _
  exact ⟨hfits, partitions steppedTables "aabéab?" hfits, by decide +kernel⟩

end Scanner

end ShiftReduce
