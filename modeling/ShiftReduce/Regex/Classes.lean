import ShiftReduce.Regex.Pattern.Basic
import ShiftReduce.Regex.Ranges
import ShiftReduce.Text.Blank
import ShiftReduce.Text.Folding
import ShiftReduce.Text.Properties

/-!
# Named classes

The sets of code points behind the names of classes, and the set of all characters that differ from
those of another set by case only.

The classes of ASCII are given by their bounds, the others by tables of the Unicode character
database. A property is found by its name without the differences that do not count
(`Ranges.plainName`); known are the properties that the other classes are made of.
-/

namespace ShiftReduce.Regex

open Text

namespace Ranges

def ofTable (t : Table) : Ranges :=
  ofList (t.map fun (first, last) ↦ ⟨first, last⟩)

/-- Whether a code point belongs to the set. -/
def has (s : Ranges) (n : Nat) : Bool :=
  s.any fun r ↦ r.first ≤ n && n ≤ r.last

end Ranges

/-! ## ASCII classes -/

/-- The code points of a named class of ASCII characters. -/
def AsciiClass.ranges (kind : AsciiClass) : Ranges :=
  .ofTable <|
    match kind with
    | alnum => [('0'.toNat, '9'.toNat), ('A'.toNat, 'Z'.toNat), ('a'.toNat, 'z'.toNat)]
    | alpha => [('A'.toNat, 'Z'.toNat), ('a'.toNat, 'z'.toNat)]
    | ascii => [(0, 0x7F)]
    | blank => [('\t'.toNat, '\t'.toNat), (' '.toNat, ' '.toNat)]
    | cntrl => [(0, 0x1F), (0x7F, 0x7F)]
    | digit => [('0'.toNat, '9'.toNat)]
    | graph => [('!'.toNat, '~'.toNat)]
    | lower => [('a'.toNat, 'z'.toNat)]
    | print => [(' '.toNat, '~'.toNat)]
    | punct =>
      [('!'.toNat, '/'.toNat), (':'.toNat, '@'.toNat), ('['.toNat, '\x60'.toNat),
        ('\x7B'.toNat, '~'.toNat)]
    | space => [('\t'.toNat, '\r'.toNat), (' '.toNat, ' '.toNat)]
    | upper => [('A'.toNat, 'Z'.toNat)]
    | word =>
      [('0'.toNat, '9'.toNat), ('A'.toNat, 'Z'.toNat), ('_'.toNat, '_'.toNat),
        ('a'.toNat, 'z'.toNat)]
    | xdigit => [('0'.toNat, '9'.toNat), ('A'.toNat, 'F'.toNat), ('a'.toNat, 'f'.toNat)]

/-! ## Classes with a letter of their own -/

/-- The characters of a class with a letter of its own. -/
def ShortClass.ranges : ShortClass → Ranges
  | digit => .ofTable decimalDigits
  | space => .ofTable whiteSpace
  | word => .ofTable wordTables.flatten

def ShortClass.asciiRanges : ShortClass → Ranges
  | digit => AsciiClass.digit.ranges
  | space => AsciiClass.space.ranges
  | word => AsciiClass.word.ranges

/-! ## Properties -/

/-- The name of a property without the differences that do not count: case, spaces, hyphens, low
lines, and a leading `is`. -/
def plainName (name : String) : String :=
  let letters := (name.toList.filter fun c ↦
    c.toNat < 128 && c ≠ ' ' && c ≠ '-' && c ≠ '_').map Char.toLower
  .ofList (if letters.take 2 = ['i', 's'] ∧ letters.length > 2 then letters.drop 2 else letters)

/-- The characters with the property of that name. Known are the properties that the other classes
are made of. -/
def property? (name : String) : Option Ranges :=
  match plainName name with
  | "any" => some [⟨0, Alphabet.chars.top⟩]
  | "ascii" => some AsciiClass.ascii.ranges
  | "alphabetic" | "alpha" => some (.ofTable alphabetic)
  | "whitespace" | "wspace" | "space" => some (.ofTable whiteSpace)
  | "joincontrol" | "joinc" => some (.ofTable joinControls)
  | "mark" | "m" | "combiningmark" => some (.ofTable marks)
  | "decimalnumber" | "nd" | "digit" => some (.ofTable decimalDigits)
  | "othernumber" | "no" => some (.ofTable otherNumbers)
  | "connectorpunctuation" | "pc" => some (.ofTable connectors)
  | _ => none

/-! ## Case -/

/-- The set with all characters that differ from one of it by case only: first what the members fold
to, and then what folds to one of these. -/
def foldChars (s : Ranges) : Ranges :=
  let folded := foldPairs.filterMap fun (c, d) ↦ if s.has c then some (.single d) else none
  let s := Ranges.ofList (s ++ folded)
  let unfolded := foldPairs.filterMap fun (c, d) ↦ if s.has d then some (.single c) else none
  .ofList (s ++ unfolded)

/-- The set with the ASCII letters of the other case. -/
def foldBytes (s : Ranges) : Ranges :=
  let upper := s.filterMap (Range.inter? ⟨'A'.toNat, 'Z'.toNat⟩)
  let lower := s.filterMap (Range.inter? ⟨'a'.toNat, 'z'.toNat⟩)
  .ofList (s ++ upper.map (fun r ↦ ⟨r.first + 32, r.last + 32⟩)
    ++ lower.map (fun r ↦ ⟨r.first - 32, r.last - 32⟩))

/-- Whether a character has a form of the other case. -/
def hasCases (c : Char) : Bool :=
  foldPairs.any fun (a, b) ↦ a = c.toNat || b = c.toNat

end ShiftReduce.Regex
