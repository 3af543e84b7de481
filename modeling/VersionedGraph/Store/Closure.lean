/-!
# Closures

The items that can be reached from some start by a function that leads from each item to others are
found level by level: what the last level leads to and has not been seen is the next level. The
order is that of discovery, so nearer items come first. A bound on the number of levels ends the
search; any number of items that can be reached is enough of a bound, since every level but the last
has a new one.
-/

namespace VersionedGraph

namespace Closure

variable {α : Type} [DecidableEq α]

def newcomers (seen items : List α) : List α :=
  (items.filter fun x => x ∉ seen).eraseDups

theorem mem_newcomers {seen items : List α} {x : α} :
    x ∈ newcomers seen items ↔ x ∈ items ∧ x ∉ seen := by
  simp [newcomers]

def extend (next : α → List α) : (bound : Nat) → (level seen : List α) → List α
  | 0, _, seen => seen
  | bound + 1, level, seen =>
    let fresh := newcomers seen (level.flatMap next)
    if fresh.isEmpty then seen else extend next bound fresh (seen ++ fresh)

theorem seen_prefix_extend (next : α → List α) (bound : Nat) (level seen : List α) :
    seen <+: extend next bound level seen := by
  induction bound generalizing level seen with
  | zero => exact List.prefix_rfl
  | succ bound ih =>
    simp only [extend]
    split
    · exact List.prefix_rfl
    · exact (List.prefix_append seen _).trans (ih _ _)

end Closure

/-- The start and all that can be reached from it, in order of discovery. -/
def closure {α : Type} [DecidableEq α] (next : α → List α) (bound : Nat) (start : List α) :
    List α :=
  let first := start.eraseDups
  Closure.extend next bound first first

end VersionedGraph
