import ShiftReduce.Automaton.Basic
import ShiftReduce.Closure

/-!
# Building the automaton

States are found one after another, each numbered when its kernel is first met. The first kernel
holds the accept rules at their first places.

## A visit

Visiting a state closes its kernel and then gives each group of items its action: a group that
occurred before, in whichever state, gets the action it got there; a new group that can read its
symbol gets a new state, whose kernel is the group advanced; a group that has nothing to read must
be a single item, which reduces or accepts. A group that is none of these has no action, and the
search is stuck (`Construction.stuck`).

## The frontier

What the search carries is the kernels still to be visited and the groups met so far, each with the
action it got. Numbers are given out when a state is promised, in the order in which pending kernels
will be visited, so that a kernel is the state whose number its group was promised.

## The bound

A new state is made only for a group not met before, so there are at most as many states as sets of
items, and that number bounds the search. The bound is there for the recursion alone; that it is
never what ends the search is proved along with what the search finds.
-/

namespace ShiftReduce.Automaton

open Bits

/-- The kernels of the states still to be visited, in order, and the groups met so far with their
actions. -/
structure Frontier where
  pending : List (List Item)
  known : List (List Item × Action) := []
deriving DecidableEq, Repr

def enter (target : Nat) : Symbol → Action
  | .terminal _ => .shift target
  | .nonterminal _ => .goto target

/-- The action of a group that has nothing to read: its one item accepts or reduces. -/
def completedAction? (g : Grammar) : List Item → Option Action
  | [item] =>
    (g.rule? item.rule).map fun rule ↦
      if rule.accept then .accept rule.number else .reduce rule.number
  | _ => none

/-- The action of a group of state `id`. A group that can read a symbol and has not been met before
asks for a state, with the first number that is neither given to a visited state nor promised to a
pending one. -/
def groupAction? (g : Grammar) (id : Nat) (f : Frontier) (key : State.GroupKey)
    (group : List Item) : Option (Action × Frontier) :=
  match f.known.lookup group with
  | some action => some (action, f)
  | none =>
    match key with
    | .symbol symbol =>
      if State.groupHasMore g group then
        let action := enter (id + 1 + f.pending.length) symbol
        some (action,
          { pending := f.pending ++ [group.map Item.advance]
            known := (group, action) :: f.known })
      else (completedAction? g group).map (·, f)
    | .completed => (completedAction? g group).map (·, f)

/-- Gives the groups of a state their actions in turn. The frontier is missing if a group has no
action; the state is then as it was left. -/
def assignGroups (g : Grammar) (s : State) (f : Frontier) :
    List (State.GroupKey × List Item) → State × Option Frontier
  | [] => (s, some f)
  | (key, group) :: rest =>
    match groupAction? g s.id f key group with
    | none => (s, none)
    | some (action, f) =>
      assignGroups g (group.foldl (fun s item ↦ s.setAction item action) s) f rest

/-- How far the search came. -/
structure Construction where
  /-- The states visited, in the order of their numbers. -/
  visited : List State
  /-- The state in which a group has no action, as it was left. -/
  stuck : Option State
deriving DecidableEq, Repr

/-- Visits the pending states, at most as many as the first argument allows. -/
def explore (g : Grammar) (starts : Closure.Starts g) :
    Nat → Mask g.rules.length → List State → Frontier → Except Error Construction
  | 0, _, visited, _ => .ok { visited, stuck := none }
  | limit + 1, scratch, visited, f =>
    match f.pending with
    | [] => .ok { visited, stuck := none }
    | kernel :: pending => do
      let (items, scratch) ← Closure.close g starts scratch kernel
      let s := State.ofItems visited.length items
      match assignGroups g s { f with pending } (s.groups g) with
      | (s, none) => return { visited, stuck := some s }
      | (s, some f) => explore g starts limit scratch (visited ++ [s]) f

/-- The number of places in the rules of a grammar. -/
def itemCount (g : Grammar) : Nat :=
  g.rules.foldr (fun rule n ↦ rule.rhs.length + 1 + n) 0

def startKernel (g : Grammar) : List Item :=
  g.acceptRules.map fun rule ↦ ⟨rule.number, 0⟩

def construct (g : Grammar) : Except Error Construction := do
  let starts ← Closure.starts g (Closure.derives g)
  explore g starts (1 <<< itemCount g) (.fill _ false) [] { pending := [startKernel g] }

/-- The automaton of a grammar, unless a group has no action. -/
def build (g : Grammar) : Except Error Automaton := do
  let c ← construct g
  match c.stuck with
  | none => return { states := c.visited }
  | some s => throw (.ambiguousEnd s.id (s.listing g))

end ShiftReduce.Automaton
