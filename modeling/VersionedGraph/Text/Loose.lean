/-!
# Loose texts

JSON text can escape half of a surrogate pair without the other half. Such an escape stands for a
code point that is no character, so the texts of JSON values are lists of code points. Most are
proper: they hold characters only, and `ofString` makes them of a `String`. `replaced` goes back,
with the replacement character for every half.
-/

namespace VersionedGraph

/-- A character, or half of a surrogate pair by its offset among the halves. -/
inductive CodePoint where
  | char (c : Char)
  | half (offset : Fin 0x800)
  deriving DecidableEq

namespace CodePoint

def toNat : CodePoint → Nat
  | char c => c.toNat
  | half offset => 0xD800 + offset

def ofNat (n : Nat) : CodePoint :=
  if h : 0xD800 ≤ n ∧ n < 0xE000 then half ⟨n - 0xD800, by omega⟩ else char (Char.ofNat n)

def char? : CodePoint → Option Char
  | char c => some c
  | half _ => none

/-- The character, or the replacement character in the place of a half. -/
def replaced : CodePoint → Char
  | char c => c
  | half _ => Char.ofNat 0xFFFD

@[simp] theorem replaced_char (c : Char) : (char c).replaced = c := rfl

theorem toNat_half (offset : Fin 0x800) :
    0xD800 ≤ (half offset).toNat ∧ (half offset).toNat < 0xE000 := by
  simp only [toNat]
  omega

end CodePoint

/-- A text of code points. -/
structure LooseText where
  points : List CodePoint
  deriving DecidableEq, Inhabited

namespace LooseText

def ofString (s : String) : LooseText := ⟨s.toList.map .char⟩

instance : Coe String LooseText := ⟨ofString⟩

instance : Append LooseText := ⟨fun s t => ⟨s.points ++ t.points⟩⟩

instance : Ord LooseText := ⟨fun s t => compare (s.points.map (·.toNat)) (t.points.map (·.toNat))⟩

def isEmpty (s : LooseText) : Bool := s.points.isEmpty

def replaced (s : LooseText) : String := String.ofList (s.points.map (·.replaced))

/-- Where the first halves stand that have no character between them, and these halves; nothing for
a proper text. -/
def firstHalves? (s : LooseText) : Option (Nat × List CodePoint) :=
  let isChar (p : CodePoint) : Bool := p.char?.isSome
  match (s.points.dropWhile isChar).takeWhile fun p => !isChar p with
  | [] => none
  | halves => some ((s.points.takeWhile isChar).length, halves)

def toString? (s : LooseText) : Option String :=
  (s.points.mapM CodePoint.char?).map String.ofList

@[simp] theorem replaced_ofString (s : String) : (ofString s).replaced = s := by
  simp [replaced, ofString, Function.comp_def]

theorem points_append (s t : LooseText) : (s ++ t).points = s.points ++ t.points := rfl

theorem replaced_append (s t : LooseText) : (s ++ t).replaced = s.replaced ++ t.replaced := by
  rw [replaced, points_append, List.map_append, String.ofList_append]
  rfl

@[simp] theorem toString?_ofString (s : String) : (ofString s).toString? = some s := by
  have h : ∀ cs : List Char, (cs.map CodePoint.char).mapM CodePoint.char? = some cs := by
    intro cs
    induction cs with
    | nil => rfl
    | cons c cs ih => simp [CodePoint.char?, ih]
  simp [toString?, ofString, h]

theorem eq_ofString_of_toString? {s : LooseText} {t : String} (h : s.toString? = some t) :
    s = ofString t := by
  obtain ⟨cs, hcs, rfl⟩ := Option.map_eq_some_iff.1 h
  have hpoints : ∀ (points : List CodePoint) (cs : List Char),
      points.mapM CodePoint.char? = some cs → points = cs.map .char := by
    intro points
    induction points with
    | nil =>
      intro cs hcs
      cases hcs
      rfl
    | cons p points ih =>
      intro cs hcs
      rw [List.mapM_cons] at hcs
      obtain ⟨c, hc, hcs⟩ := Option.bind_eq_some_iff.1 hcs
      obtain ⟨rest, hrest, hcs⟩ := Option.bind_eq_some_iff.1 hcs
      cases hcs
      cases p with
      | half offset => cases hc
      | char c' =>
        cases hc
        rw [List.map_cons, ← ih rest hrest]
  rw [ofString, String.toList_ofList, ← hpoints s.points cs hcs]

@[simp] theorem firstHalves?_ofString (s : String) : (ofString s).firstHalves? = none := by
  have h : ∀ cs : List Char,
      (cs.map CodePoint.char).dropWhile (fun p => p.char?.isSome) = [] := by
    intro cs
    induction cs with
    | nil => rfl
    | cons c cs ih => exact (List.dropWhile_cons_of_pos rfl).trans ih
  simp [firstHalves?, ofString, h]

theorem ofString_inj {s t : String} : ofString s = ofString t ↔ s = t :=
  ⟨fun h => by simpa using congrArg replaced h, congrArg ofString⟩

end LooseText

end VersionedGraph
