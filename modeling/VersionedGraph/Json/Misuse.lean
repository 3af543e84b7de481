import VersionedGraph.Json.Shown

/-!
# Misuses of values

Requests come as JSON values, and a value of the wrong type is refused not when it comes but where
it is put to a use that values of its type do not have. A misuse is one such use, and its message
names the type. The uses that are shared by several requests are defined here: going through the
items of a value, and taking the part of a value that stands under a key.
-/

namespace VersionedGraph

/-- A use that a value cannot be put to. -/
inductive Misuse where
  /-- Going through the items of a value that has none. -/
  | noItems (value : Json)
  /-- Counting the items of a value that has none. -/
  | noLength (value : Json)
  /-- Looking for something inside a value that has no parts. -/
  | noContents (value : Json)
  /-- Taking the part of a value under a key of the wrong type, or of one that has no parts. -/
  | noPart (value key : Json)
  /-- Taking an item from behind the end. -/
  | noPosition (value : Json)
  | missingField (name : Json)
  /-- Telling a value that has parts apart from others at once. -/
  | compound (value : Json)
  /-- Putting two values in order that have none. -/
  | incomparable (sign : String) (left right : Json)
  /-- Reading a value as a text. -/
  | notAText (value : Json)
  /-- Asking a value for something that only values of another sort have. -/
  | noAttribute (value : Json) (name : String)
  /-- Adding an integer to a text. -/
  | noSum

namespace Misuse

def message : Misuse → String
  | noItems value => s!"'{value.typeName}' object is not iterable"
  | noLength value => s!"object of type '{value.typeName}' has no len()"
  | noContents value => s!"argument of type '{value.typeName}' is not iterable"
  | noPart (.str _) key => s!"string indices must be integers, not '{key.typeName}'"
  | noPart (.arr _) key => s!"list indices must be integers or slices, not {key.typeName}"
  | noPart value _ => s!"'{value.typeName}' object is not subscriptable"
  | noPosition (.str _) => "string index out of range"
  | noPosition _ => "list index out of range"
  | missingField name => name.shownInside
  | compound value => s!"unhashable type: '{value.typeName}'"
  | incomparable sign left right =>
    s!"'{sign}' not supported between instances of '{left.typeName}' and '{right.typeName}'"
  | notAText value => s!"expected string or bytes-like object, got '{value.typeName}'"
  | noAttribute value name => s!"'{value.typeName}' object has no attribute '{name}'"
  | noSum => "can only concatenate str (not \"int\") to str"

end Misuse

namespace Json

def characters (s : LooseText) : List Json :=
  s.points.map fun p => .str ⟨[p]⟩

/-- The items of a value, if it has any: those of a list, the characters of a text, the names of an
object. -/
def items? : Json → Option (List Json)
  | .arr items => some items
  | .str s => some (characters s)
  | .obj fields => some (fields.map fun f => .str f.1)
  | _ => none

def items (value : Json) : Except Misuse (List Json) :=
  match value.items? with
  | some items => .ok items
  | none => .error (.noItems value)

/-- The items of a value that also tells how many they are. -/
def countedItems (value : Json) : Except Misuse (List Json) :=
  match value.items? with
  | some items => .ok items
  | none => .error (.noLength value)

def givenItems (value : Json) : Except Misuse (List Json) :=
  if value.isVacant then .ok [] else value.items

@[simp] theorem items_arr (items : List Json) : (Json.arr items).items = .ok items := rfl

@[simp] theorem givenItems_null : Json.null.givenItems = .ok [] := rfl

@[simp] theorem givenItems_arr (items : List Json) : (Json.arr items).givenItems = .ok items := by
  cases items <;> rfl

def itemAt? (position : Int) (items : List Json) : Option Json :=
  if 0 ≤ position then items[position.toNat]?
  else if position.natAbs ≤ items.length then items[items.length - position.natAbs]?
  else none

/-- The part of a value under a key: a field of an object by its name, an item of a list or a
character of a text by its position. -/
def part (value key : Json) : Except Misuse Json :=
  let position? : Option Int := match key with
    | .int n => some n
    | .bool b => some (if b then 1 else 0)
    | _ => none
  match value, key, position? with
  | .obj fields, .str name, _ =>
    match fields.lookup name with
    | some v => .ok v
    | none => .error (.missingField (.str name))
  | .obj _, .arr items, _ => .error (.compound (.arr items))
  | .obj _, .obj fields, _ => .error (.compound (.obj fields))
  | .obj _, key, _ => .error (.missingField key)
  | .arr items, _, some n =>
    match itemAt? n items with
    | some v => .ok v
    | none => .error (.noPosition value)
  | .str s, _, some n =>
    match itemAt? n (characters s) with
    | some v => .ok v
    | none => .error (.noPosition value)
  | value, key, _ => .error (.noPart value key)

theorem part_obj_of_lookup {fields : List (LooseText × Json)} {name : LooseText} {v : Json}
    (h : fields.lookup name = some v) : (Json.obj fields).part (.str name) = .ok v := by
  simp [part, h]

end Json

end VersionedGraph
