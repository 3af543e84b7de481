import VersionedGraph.Sorting.Comparing

/-!
# Merging by galloping

Two sorted lists are merged from the front or from the back. As long as neither list wins often, the
next item of each are compared one pair at a time. Once one list has won as often in a row as
patience allows, the merge gallops: it looks for the whole stretch of one list that comes before the
next item of the other, first in growing steps and then by halving. Galloping that pays off lowers
the patience for later, and galloping that does not raises it.

All of this decides which items are compared and nothing else: any way of merging has the same
result.
-/

namespace VersionedGraph

namespace Sorting

open Comparing

variable {α : Type}

/-- The patience that a sort begins with, and the length of a stretch that pays off. -/
def usualPatience : Nat := 7

/-- Whether the place of a key among sorted items is behind the one at an index, when it goes behind
the items that equal it. -/
def isBehindEquals (key : α) (items : List α) (index : Nat) : Comparing α Bool :=
  match items[index]? with
  | some x => do return !(← isBelow key x)
  | none => return false

/-- Whether the place of a key among sorted items is behind the one at an index, when it goes in
front of the items that equal it. -/
def isBehindLesser (key : α) (items : List α) (index : Nat) : Comparing α Bool :=
  match items[index]? with
  | some x => isBelow x key
  | none => return false

/-- The last two distances that are tried in growing steps, as long as what is asked about the
indices at those distances has the same answer. `bound` limits the number of steps. -/
def stride (behind : Nat → Comparing α Bool) (answer : Bool) (index : Nat → Nat) (limit : Nat) :
    (bound last distance : Nat) → Comparing α (Nat × Nat)
  | 0, last, distance => return (last, distance)
  | bound + 1, last, distance =>
    if limit ≤ distance then return (last, limit)
    else do
      if (← behind (index distance)) = answer then
        stride behind answer index limit bound distance (2 * distance + 1)
      else return (last, distance)

/-- A place between two others, found by halving. `bound` limits the number of steps. -/
def halve (behind : Nat → Comparing α Bool) : (bound low high : Nat) → Comparing α Nat
  | 0, low, _ => return low
  | bound + 1, low, high =>
    if high ≤ low then return low
    else do
      let middle := low + (high - low) / 2
      if ← behind middle then halve behind bound (middle + 1) high
      else halve behind bound low middle

/-- The place among a number of items, looked for around a hint. -/
def place (behind : Nat → Comparing α Bool) (count hint : Nat) : Comparing α Nat := do
  if ← behind hint then
    let (last, distance) ← stride behind true (hint + ·) (count - hint) (count + 1) 0 1
    halve behind (count + 1) (hint + last + 1) (hint + distance)
  else
    let (last, distance) ← stride behind false (hint - ·) (hint + 1) (count + 1) 0 1
    halve behind (count + 1) (hint + 1 - distance) (hint - last)

/-- A merge on its way: what is left of two lists, and what has been merged. -/
structure Merging (α : Type) where
  fromBack : Bool
  left : List α
  right : List α
  merged : List α := []
  patience : Nat

namespace Merging

def leftNext? (m : Merging α) : Option α :=
  if m.fromBack then m.left.getLast? else m.left.head?

def rightNext? (m : Merging α) : Option α :=
  if m.fromBack then m.right.getLast? else m.right.head?

/-- The merge after a number of items of the left list. -/
def takeLeft (count : Nat) (m : Merging α) : Merging α :=
  if m.fromBack then
    let rest := m.left.length - count
    { m with left := m.left.take rest, merged := m.left.drop rest ++ m.merged }
  else { m with left := m.left.drop count, merged := m.merged ++ m.left.take count }

/-- The merge after a number of items of the right list. -/
def takeRight (count : Nat) (m : Merging α) : Merging α :=
  if m.fromBack then
    let rest := m.right.length - count
    { m with right := m.right.take rest, merged := m.right.drop rest ++ m.merged }
  else { m with right := m.right.drop count, merged := m.merged ++ m.right.take count }

def isOver (m : Merging α) : Bool :=
  if m.fromBack then m.left.isEmpty || m.right.length ≤ 1
  else m.right.isEmpty || m.left.length ≤ 1

def finish (m : Merging α) : List α :=
  if m.fromBack then m.right ++ m.left ++ m.merged else m.merged ++ m.right ++ m.left

/-- The number of items that come before a place, counted from the end where the merge goes on. -/
def countTo (m : Merging α) (behind : Nat → Comparing α Bool) (count : Nat) : Comparing α Nat :=
  if m.fromBack then do return count - (← place behind count (count - 1))
  else place behind count 0

/-- The merge after comparing one pair at a time, until one list has won in a row as often as
patience allows. `lefts` and `rights` count the wins. -/
def alternate : (bound lefts rights : Nat) → Merging α → Comparing α (Merging α)
  | 0, _, _, m => return m
  | bound + 1, lefts, rights, m =>
    match m.leftNext?, m.rightNext? with
    | some x, some y => do
      if (← isBelow y x) != m.fromBack then
        let m := m.takeRight 1
        if m.isOver || m.patience ≤ rights + 1 then return m else alternate bound 0 (rights + 1) m
      else
        let m := m.takeLeft 1
        if m.isOver || m.patience ≤ lefts + 1 then return m else alternate bound (lefts + 1) 0 m
    | _, _ => return m

/-- The merge after galloping, which goes on as long as stretches pay off. -/
def gallop : (bound : Nat) → Merging α → Comparing α (Merging α)
  | 0, m => return m
  | bound + 1, m =>
    match m.rightNext? with
    | none => return m
    | some y => do
      let lefts ← m.countTo (isBehindEquals y m.left) m.left.length
      let m := m.takeLeft lefts
      if m.isOver then return m
      let m := m.takeRight 1
      if m.isOver then return m
      match m.leftNext? with
      | none => return m
      | some x =>
        let rights ← m.countTo (isBehindLesser x m.right) m.right.length
        let m := m.takeRight rights
        if m.isOver then return m
        let m := m.takeLeft 1
        if m.isOver then return m
        if usualPatience ≤ lefts || usualPatience ≤ rights then
          gallop bound { m with patience := max 1 (m.patience - 1) }
        else return { m with patience := m.patience + 1 }

def proceed : (bound : Nat) → Merging α → Comparing α (Merging α)
  | 0, m => return m
  | bound + 1, m => do
    let size := m.left.length + m.right.length
    let m ← alternate size 0 0 m
    if m.isOver then return m
    let m ← gallop size m
    if m.isOver then return m
    proceed bound m

/-- The merge after the first item, which is known, and all others. -/
def start (m : Merging α) : Comparing α (Merging α) :=
  let m := if m.fromBack then m.takeLeft 1 else m.takeRight 1
  if m.isOver then return m else proceed (m.left.length + m.right.length) m

end Merging

/-- Two sorted lists merged, and the patience from then on. What of the left list comes before all
of the right one, and what of the right list comes behind all of the left one, stays where it is;
the merge begins at the end of the shorter rest. -/
def merge (patience : Nat) (left right : List α) : Comparing α (List α × Nat) := do
  match right with
  | [] => return (left, patience)
  | y :: _ =>
    let ahead ← place (isBehindEquals y left) left.length 0
    let rest := left.drop ahead
    match rest.getLast? with
    | none => return (left ++ right, patience)
    | some x =>
      let within ← place (isBehindLesser x right) right.length (right.length - 1)
      if within = 0 then return (left ++ right, patience)
      let m ← Merging.start
        { fromBack := within < rest.length, left := rest, right := right.take within, patience }
      return (left.take ahead ++ m.finish ++ right.drop within, m.patience)

end Sorting

end VersionedGraph
