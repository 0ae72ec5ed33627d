import ShiftReduce.Grammar.Basic

/-!
# Items

An item is a place within a rule: the symbols before the place have been read. In an accept rule the
final end of input is never read, so an accept item has nothing left to read once only that remains.

Two notions of what is left must therefore be kept apart. `Item.symbol?` is the symbol behind the
place, whatever the rule; `Item.hasMore` is whether the item can be advanced. They differ for accept
items before their final end of input, and only there.
-/

namespace ShiftReduce

/-- A place within a rule. -/
structure Item where
  rule : Nat
  position : Nat
deriving DecidableEq, Repr, Hashable

namespace Item

/-- Items are ordered by rule, and within a rule by place. -/
def lt (a b : Item) : Bool :=
  a.rule < b.rule || (a.rule = b.rule && a.position < b.position)

def advance (i : Item) : Item :=
  { i with position := i.position + 1 }

/-- Whether the grammar has the item's rule. -/
def isKnown (g : Grammar) (i : Item) : Bool :=
  (g.rule? i.rule).isSome

def symbol? (g : Grammar) (i : Item) : Option Symbol := do
  (← g.rule? i.rule).rhs[i.position]?

/-- Whether there is a symbol left to read. -/
def hasMore (g : Grammar) (i : Item) : Bool :=
  match g.rule? i.rule with
  | none => false
  | some rule =>
    if rule.accept then i.position + 1 < rule.rhs.length else i.position < rule.rhs.length

/-- An item as text: its rule, with a dot at the place. -/
def text (g : Grammar) (i : Item) : String :=
  match g.rule? i.rule with
  | none => ""
  | some rule =>
    s!"(r{i.rule}) {g.nonterminalName rule.lhs} :" ++ g.spacedNames (rule.rhs.take i.position)
      ++ " ." ++ g.spacedNames (rule.rhs.drop i.position)

end Item

end ShiftReduce
