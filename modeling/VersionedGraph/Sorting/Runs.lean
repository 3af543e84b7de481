import VersionedGraph.Sorting.Merge

/-!
# Sorting by comparisons that may fail

Items of which not all can be compared can still be sorted as long as the sort compares no two that
cannot. Which two are compared first depends on how it proceeds. This one takes the longest run at
the front, turns it round if it goes down, and inserts the following items by halving until the run
is long enough; up to sixty-three items make a single run. Runs are merged as soon as their power
says so: the power of a run is the depth at which the border to the next one would be if the items
were halved again and again, and deeper borders go first.

`fault?` is the failure of the first comparison that fails. When no comparison ever fails there is
none, whatever the items are.
-/

namespace VersionedGraph

namespace Sorting

open Comparing

variable {α ε : Type}

/-- The items at the front that keep going up or down from the last one, and the rest. -/
def splitRun (down : Bool) (last : α) : List α → Comparing α (List α × List α)
  | [] => return ([], [])
  | x :: rest => do
    if (← isBelow x last) = down then
      let (run, rest) ← splitRun down x rest
      return (x :: run, rest)
    else return ([], x :: rest)

/-- The longest run at the front, in ascending order, and the rest. -/
def firstRun : List α → Comparing α (List α × List α)
  | a :: b :: rest => do
    let down ← isBelow b a
    let (run, rest) ← splitRun down b rest
    return (if down then (a :: b :: run).reverse else a :: b :: run, rest)
  | items => return (items, [])

/-- A sorted list with one more item, whose place is found by halving. -/
def insert (sorted : List α) (x : α) : Comparing α (List α) := do
  let place ← halve (isBehindEquals x sorted) (sorted.length + 1) 0 sorted.length
  return sorted.take place ++ x :: sorted.drop place

/-- The least length of a run in sorting a number of items: the number itself when it is below
sixty-four, and else its first six binary digits, plus one if any of the others is not zero. -/
def leastLength (count : Nat) : Nat :=
  let dropped := count.log2 + 1 - 6
  if count < 64 then count
  else if count % (1 <<< dropped) = 0 then count >>> dropped
  else count >>> dropped + 1

/-- A sorted part of the items, by the index of its first item and the power of its border to the
next run. -/
structure Run (α : Type) where
  start : Nat
  items : List α
  power : Nat := 0

/-- The power of the border between two runs: the first binary digit in which the middles of the two
differ, as fractions of a number of items. The middles are given twofold. `bound` limits the
number of digits. -/
def powerBetween (count : Nat) : (bound first second : Nat) → Nat
  | 0, _, _ => 0
  | bound + 1, first, second =>
    if count ≤ first then
      powerBetween count bound (2 * (first - count)) (2 * (second - count)) + 1
    else if count ≤ second then 1
    else powerBetween count bound (2 * first) (2 * second) + 1

def Run.borderPower (count : Nat) (run : Run α) (length : Nat) : Nat :=
  let middle := 2 * run.start + run.items.length
  powerBetween count (count.log2 + 2) middle (middle + run.items.length + length)

/-- Two runs that follow one another merged into one, and the patience from then on. -/
def Run.merge (patience : Nat) (left right : Run α) : Comparing α (Run α × Nat) := do
  let (items, patience) ← Sorting.merge patience left.items right.items
  return (⟨left.start, items, right.power⟩, patience)

/-- The runs, last one first, after merging those with borders deeper than a power. -/
def settle (power : Nat) : (bound patience : Nat) → List (Run α) → Comparing α (List (Run α) × Nat)
  | bound + 1, patience, last :: before :: rest =>
    if power < before.power then do
      let (run, patience) ← Run.merge patience before last
      settle power bound patience (run :: rest)
    else return (last :: before :: rest, patience)
  | _, patience, runs => return (runs, patience)

def addRun (count patience : Nat) (items : List α) :
    List (Run α) → Comparing α (List (Run α) × Nat)
  | [] => return ([⟨0, items, 0⟩], patience)
  | last :: rest => do
    let power := last.borderPower count items.length
    let (runs, patience) ← settle power (rest.length + 1) patience (last :: rest)
    let start := last.start + last.items.length
    return (⟨start, items, 0⟩ :: runs.modifyHead fun run => { run with power }, patience)

/-- The items of all runs, last one first, merged; a short run goes to the shorter neighbor. -/
def collapse : (bound patience : Nat) → List (Run α) → Comparing α (List α)
  | bound + 1, patience, last :: before :: first :: rest =>
    if first.items.length < last.items.length then do
      let (run, patience) ← Run.merge patience first before
      collapse bound patience (last :: run :: rest)
    else do
      let (run, patience) ← Run.merge patience before last
      collapse bound patience (run :: first :: rest)
  | _, patience, [last, before] => do return (← Run.merge patience before last).1.items
  | _, _, runs => return (runs.reverse.flatMap (·.items))

/-- The items of some runs and further ones, sorted. `bound` limits the number of runs. -/
def sortFrom (count : Nat) : (bound patience : Nat) → List (Run α) → List α →
    Comparing α (List α)
  | bound + 1, patience, runs, x :: rest => do
    let (run, rest) ← firstRun (x :: rest)
    let missing := leastLength count - run.length
    let run ← (rest.take missing).foldlM insert run
    let (runs, patience) ← addRun count patience run runs
    sortFrom count bound patience runs (rest.drop missing)
  | _, patience, runs, _ => collapse runs.length patience runs

def sort (items : List α) : Comparing α (List α) :=
  sortFrom items.length items.length usualPatience [] items

def fault? (below : α → α → Except ε Bool) (items : List α) : Option ε :=
  match (sort items).run below with
  | .error e => some e
  | .ok _ => none

end Sorting

end VersionedGraph
