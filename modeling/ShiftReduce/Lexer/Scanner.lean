import ShiftReduce.Lexer.Basic
import ShiftReduce.Log
import ShiftReduce.Text.Quoted

/-!
# The scanner

Cuts a text into tokens by tables stored row by row. A token is the longest non-empty text that the
machine can read up to a state with a token. The end of the text makes one last, empty token; a text
that has no token at its start makes an error, and the scanner ends.

## The longest token

The search for a token reads on as long as there is a transition, and on the way back takes the last
state that has a token (`ScanTables.longest?`). The state in front of the first character is never
asked for its token, so the empty text is none.

## Offsets and addresses

Offsets count bytes, as the caller of a scanner counts them, though the text is read by characters.
The address of a transition is a product of numbers that come from the tables. It is computed only
for an event that has a column, and if it does not fit a word there is no answer about the
transition: the scanner reports this and ends.
-/

namespace ShiftReduce

/-- The tables of a scanner. -/
structure ScanTables where
  initial : Nat
  /-- The next state for each state and event, row by row; a negative number is no transition. -/
  transitions : Array Int
  /-- The width of a row. -/
  eventCount : Nat
  /-- Ranges of characters with their events, tested in order. -/
  ranges : List (CharRange × Nat)
  /-- For each state, the name of its token. -/
  tokens : Array (Option String)
deriving DecidableEq, Repr

namespace ScanTables

/-- The event of a character; outside all ranges, the number of ranges. -/
def classify (t : ScanTables) (c : Char) : Nat :=
  ((t.ranges.find? fun (range, _) ↦ range.contains c).map Prod.snd).getD t.ranges.length

/-- The state after a character, if the address of the transition fits a word. -/
def next (t : ScanTables) (state : Nat) (c : Char) : Except AddressOverflow (Option Nat) :=
  let event := t.classify c
  if event ≥ t.eventCount then .ok none
  else
    match cellAddress state t.eventCount event with
    | .error e => .error e
    | .ok address =>
      match t.transitions[address]? with
      | some next => .ok (if next ≥ 0 then some next.toNat else none)
      | none => .ok none

def token? (t : ScanTables) (state : Nat) : Option String :=
  (t.tokens[state]?).join

/-- The longest token at the start of a text read from a state: its name, and how many characters
it has beyond the first. -/
def longest? (t : ScanTables) (state : Nat) :
    List Char → Except AddressOverflow (Option (String × Nat))
  | [] => .ok none
  | c :: rest =>
    match t.next state c with
    | .error e => .error e
    | .ok none => .ok none
    | .ok (some state) =>
      match t.longest? state rest with
      | .error e => .error e
      | .ok (some (name, more)) => .ok (some (name, more + 1))
      | .ok none => .ok ((t.token? state).map (·, 0))

end ScanTables

/-- The scanner's tables for those of a lexer. -/
def Lexer.toScanTables (l : Lexer) : ScanTables where
  initial := l.initial
  transitions := l.encodedTransitions.flatten.toArray
  eventCount := l.eventCount
  ranges := l.ranges
  tokens := l.tokens.toArray

/-- A token found in a text. -/
structure Token where
  name : String
  text : String
  /-- Where it starts, in bytes. -/
  offset : Nat
deriving DecidableEq, Repr

/-- Why no token was found. -/
inductive ScanError where
  /-- No token starts here. -/
  | unexpectedChar (offset : Nat) (c : Char)
  /-- The address of a transition does not fit a word. -/
  | addressOverflow
deriving DecidableEq, Repr

def ScanError.message : ScanError → String
  | unexpectedChar offset c =>
    "unexpected character " ++ Text.Quoted.char c ++ s!" at offset {offset}"
  | addressOverflow => "a transition address does not fit a word"

/-- A scanner within a text. -/
structure Scanner where
  /-- What is left of the text. -/
  rest : List Char
  /-- How many bytes have been read. -/
  offset : Nat := 0
  done : Bool := false
deriving DecidableEq, Repr

namespace Scanner

def ofString (s : String) : Scanner where
  rest := s.toList

/-- The number of bytes of some characters. -/
def byteCount (cs : List Char) : Nat :=
  cs.foldr (fun c n ↦ c.utf8Size + n) 0

/-- The next token or error, and the scanner behind it; nothing after the end. -/
def next? (t : ScanTables) (s : Scanner) : Option (Except ScanError Token × Scanner) :=
  if s.done then none
  else
    match s.rest with
    | [] => some (.ok { name := eofName, text := "", offset := s.offset }, { s with done := true })
    | c :: cs =>
      match t.longest? t.initial (c :: cs) with
      | .error _ => some (.error .addressOverflow, { s with done := true })
      | .ok none => some (.error (.unexpectedChar s.offset c), { s with done := true })
      | .ok (some (name, more)) =>
        let text := c :: cs.take more
        some (.ok { name, text := String.ofList text, offset := s.offset },
          { s with rest := cs.drop more, offset := s.offset + byteCount text })

/-- How much a scanner still has to do. -/
def remaining (s : Scanner) : Nat :=
  if s.done then 0 else s.rest.length + 1

private theorem remaining_next? {t : ScanTables} {s s' : Scanner} {r : Except ScanError Token}
    (h : s.next? t = some (r, s')) : s'.remaining < s.remaining := by
  unfold next? at h
  split at h
  · simp at h
  next hd =>
    simp only [remaining, hd]
    split at h
    · next hr =>
      obtain ⟨-, rfl⟩ := Prod.mk.inj (Option.some.inj h)
      simp
    · next c cs hr =>
      rw [hr]
      split at h
      · obtain ⟨-, rfl⟩ := Prod.mk.inj (Option.some.inj h)
        simp
      · obtain ⟨-, rfl⟩ := Prod.mk.inj (Option.some.inj h)
        simp
      · obtain ⟨-, rfl⟩ := Prod.mk.inj (Option.some.inj h)
        simp only [hd, List.length_drop, List.length_cons]
        simp only [Bool.false_eq_true, if_false]
        omega

/-- All tokens up to the end, or up to an error and that. -/
def toList (t : ScanTables) (s : Scanner) : List (Except ScanError Token) :=
  match _h : s.next? t with
  | none => []
  | some (r, s') => r :: s'.toList t
termination_by s.remaining
decreasing_by exact remaining_next? _h

end Scanner

/-- What there is to tell about a token; the end of the text is not told. -/
def Token.report (x : Token) : List Log.Record :=
  if x.text.isEmpty then []
  else [Log.debug (s!"scanned {x.name} " ++ Text.Quoted.string x.text ++ s!" at {x.offset}")]

end ShiftReduce
