import ShiftReduce.Ascending
import ShiftReduce.Regex.Nfa

/-!
# One deterministic machine

The machines of all patterns are joined under a new state with a jump to the start of each. The
states of the deterministic machine are sets of states of this one, closed under jumps, numbered
when first met; the first holds what can be reached from the new state without reading.

## Events

The characters are cut into ranges that no label divides, and each such range is an event. The ends
of labels are code points, and a cut may fall among those that are no characters, so the ends of a
range are moved past them.

## Tags

A set accepts for a terminal if all accepting states in it are of machines for that terminal. A set
that accepts for several has no tag, and is a collision.

## Bounds

The search is bounded by the number of sets of states, and closing a set by the number of states.
Neither bound is ever what ends a loop; that is proved along with what the loops find.
-/

namespace ShiftReduce.Regex

/-- Several machines joined into one. -/
structure Union where
  /-- For each state, the ranges it reads and where they lead. -/
  moves : Array (List (CharRange × Nat))
  /-- For each state, where it can go without reading. -/
  jumps : Array (List Nat)
  /-- The accepting states with their terminals. -/
  accepts : List (Nat × Nat)
deriving DecidableEq, Repr

namespace Union

def size (u : Union) : Nat :=
  u.moves.size

def single : Union where
  moves := #[[]]
  jumps := #[[]]
  accepts := []

/-- Adds a machine behind the others, reached by a jump from state 0. -/
def add (u : Union) (m : Nfa) : Union :=
  let base := u.size
  let moves := u.moves ++ Array.replicate m.size []
  let jumps := u.jumps ++ Array.replicate m.size []
  { moves := m.moves.foldl
      (fun all x ↦ all.modify (base + x.source) ((x.range, base + x.target) :: ·)) moves
    jumps := m.jumps.foldl
      (fun all x ↦ all.modify (base + x.source) ((base + x.target) :: ·))
      (jumps.modify 0 ((base + m.start) :: ·))
    accepts := u.accepts ++ [(base + m.accept, m.tag)] }

def ofList (machines : List Nfa) : Union :=
  machines.foldl add single

/-! ## Events -/

def labels (u : Union) : List CharRange :=
  u.moves.toList.flatMap (·.map Prod.fst)

/-- The code points at which a label starts or has just ended, in ascending order. -/
def bounds (labels : List CharRange) : List Nat :=
  Ascending.ofList (fun a b ↦ a < b)
    (labels.flatMap fun r ↦ [r.first.toNat, r.last.toNat + 1])

/-- Whether a code point is no character. -/
def isSurrogate (n : Nat) : Bool :=
  0xD800 ≤ n && n ≤ 0xDFFF

/-- The characters from `low` up to, but without, `high`. -/
def charsBetween? (low high : Nat) : Option CharRange :=
  let first := if isSurrogate low then 0xE000 else low
  let last := if isSurrogate (high - 1) then 0xD7FF else high - 1
  if first ≤ last then some ⟨Char.ofNat first, Char.ofNat last⟩ else none

/-- Ranges that no label divides and that together make up all labels, in ascending order. -/
def disjointRanges (labels : List CharRange) : List CharRange :=
  let bounds := bounds labels
  (bounds.zipWith charsBetween? bounds.tail).filterMap fun range? ↦
    range?.filter fun r ↦ labels.any (·.contains r.first)

/-! ## Sets of states -/

/-- Marks the states that are not marked yet and puts them on the stack. -/
def markAll : List Nat → List Nat → Array Bool → List Nat × Array Bool
  | [], stack, marks => (stack, marks)
  | s :: rest, stack, marks =>
    if marks[s]? = some false then markAll rest (s :: stack) (marks.setIfInBounds s true)
    else markAll rest stack marks

/-- Marks everything that the states on the stack can jump to. Every state is put on the stack at
most once, so the number of states bounds the work. -/
def spread (u : Union) : Nat → List Nat → Array Bool → Array Bool
  | 0, _, marks => marks
  | _, [], marks => marks
  | bound + 1, s :: stack, marks =>
    let (stack, marks) := markAll ((u.jumps[s]?).getD []) stack marks
    spread u bound stack marks

/-- The states that can be reached from the given ones without reading, in ascending order. -/
def close (u : Union) (states : List Nat) : List Nat :=
  let (stack, marks) := markAll states [] (Array.replicate u.size false)
  let marks := u.spread (u.size + 1) stack marks
  (List.range u.size).filter fun s ↦ (marks[s]?).getD false

/-- The states that a set leads to on a character. -/
def targets (u : Union) (set : List Nat) (c : Char) : List Nat :=
  set.flatMap fun s ↦
    ((u.moves[s]?).getD []).filterMap fun (r, t) ↦ if r.contains c then some t else none

/-- The terminals for which a set accepts, in ascending order. -/
def tags (u : Union) (set : List Nat) : List Nat :=
  Ascending.ofList (fun a b ↦ a < b)
    (u.accepts.filterMap fun (s, tag) ↦ if set.contains s then some tag else none)

/-! ## The search -/

/-- The number of a set among those met, and the sets with it. -/
def number (sets : Array (List Nat)) (set : List Nat) : Nat × Array (List Nat) :=
  match sets.findIdx? (· = set) with
  | some i => (i, sets)
  | none => (sets.size, sets.push set)

/-- The row of a set: where each event leads. -/
def row (u : Union) (set : List Nat) :
    List CharRange → Array (List Nat) → List (Option Nat) × Array (List Nat)
  | [], sets => ([], sets)
  | event :: rest, sets =>
    match u.targets set event.first with
    | [] =>
      let (cells, sets) := row u set rest sets
      (none :: cells, sets)
    | targets =>
      let (i, sets) := number sets (u.close targets)
      let (cells, sets) := row u set rest sets
      (some i :: cells, sets)

/-- The rows of the sets met, until every set met has one; the first argument bounds their
number. -/
def rows (u : Union) (events : List CharRange) :
    Nat → Array (List Nat) → Array (List (Option Nat)) →
      Array (List Nat) × Array (List (Option Nat))
  | 0, sets, done => (sets, done)
  | bound + 1, sets, done =>
    match sets[done.size]? with
    | none => (sets, done)
    | some set =>
      let (cells, sets) := u.row set events sets
      rows u events bound sets (done.push cells)

/-- The terminal for which a set accepts, if it is the only one. -/
def onlyTag? : List Nat → Option Nat
  | [tag] => some tag
  | _ => none

/-- The deterministic machine. There are at most as many sets as subsets of the states. -/
def toMachine (u : Union) : Lexer.Machine :=
  let events := disjointRanges u.labels
  let (sets, rows) := u.rows events (1 <<< u.size) #[u.close [0]] #[]
  let tags := sets.toList.map u.tags
  { initial := 0
    events := events.map ([·])
    transitions := rows.toList
    finalTags := tags.map onlyTag?
    collisions := tags.zipIdx.filterMap fun (tags, i) ↦
      if tags.length > 1 then some (i, tags) else none }

end Union

end ShiftReduce.Regex
