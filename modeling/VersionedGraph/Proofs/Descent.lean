import VersionedGraph.Proofs.Path
import VersionedGraph.Proofs.Written
import VersionedGraph.Store.Criterion

/-!
# Paths into stored values

Stored properties can be looked into by queries when all numbers in them are finite and they are not
nested too deeply (`queryDocument?_storedText`). A path then leads to the same part in their
document as in their value (`Json.find?_ofJson`): no other name is written like an identifier, and a
list is never so long that a position in it would not fit into thirty-two bits.
-/

namespace VersionedGraph

namespace Json

mutual

/-- Whether all doubles in a value are finite numbers. -/
def isFinite : Json → Bool
  | .float x => !x.isNaN && !x.isInfinite
  | .arr items => areFinite items
  | .obj fields => fieldsAreFinite fields
  | .null => true
  | .bool _ => true
  | .int _ => true
  | .str _ => true

def areFinite : List Json → Bool
  | [] => true
  | v :: rest => isFinite v && areFinite rest

def fieldsAreFinite : List (LooseText × Json) → Bool
  | [] => true
  | (_, v) :: rest => isFinite v && fieldsAreFinite rest

end

mutual

/-- How many lists and objects stand inside one another in a value. -/
def nesting : Json → Nat
  | .arr items => nestingOfItems items + 1
  | .obj fields => nestingOfFields fields + 1
  | .null => 0
  | .bool _ => 0
  | .int _ => 0
  | .float _ => 0
  | .str _ => 0

def nestingOfItems : List Json → Nat
  | [] => 0
  | v :: rest => max (nesting v) (nestingOfItems rest)

def nestingOfFields : List (LooseText × Json) → Nat
  | [] => 0
  | (_, v) :: rest => max (nesting v) (nestingOfFields rest)

end

mutual

theorem isStrict_ofJson : (v : Json) → (Document.ofJson v).isStrict = v.isFinite
  | .null => rfl
  | .bool b => by cases b <;> rfl
  | .int n => rfl
  | .float x => by
    rw [Document.ofJson, Document.ofFloat, isFinite]
    cases x.isNaN <;> cases x.isInfinite <;> rfl
  | .str s => rfl
  | .arr items => areStrict_ofItems items
  | .obj fields => membersAreStrict_ofFields fields

theorem areStrict_ofItems : (items : List Json) →
    Document.areStrict (Document.ofItems items) = areFinite items
  | [] => rfl
  | v :: rest => by
    rw [Document.ofItems, Document.areStrict, areFinite, isStrict_ofJson v, areStrict_ofItems rest]

theorem membersAreStrict_ofFields : (fields : List (LooseText × Json)) →
    Document.membersAreStrict (Document.ofFields fields) = fieldsAreFinite fields
  | [] => rfl
  | (name, v) :: rest => by
    rw [Document.ofFields, Document.membersAreStrict, fieldsAreFinite, isStrict_ofJson v,
      membersAreStrict_ofFields rest]

end

mutual

/-- A reader that takes integers of any length is stopped by nesting only. -/
theorem excess?_eq_none_iff : (v : Json) → (depth : Nat) →
    excess? ⟨none, depth⟩ v = none ↔ v.nesting ≤ depth
  | .null, _ => by simp [excess?, nesting]
  | .bool _, _ => by simp [excess?, nesting]
  | .int _, _ => by simp [excess?, nesting, excessDigits?]
  | .float _, _ => by simp [excess?, nesting]
  | .str _, _ => by simp [excess?, nesting]
  | .arr items, depth => by
    have ih := firstExcess?_eq_none_iff items (depth - 1)
    rw [excess?, nesting]
    dsimp only
    split_ifs with hzero
    · simp [hzero]
    · rw [ih]
      omega
  | .obj fields, depth => by
    have ih := firstFieldExcess?_eq_none_iff fields (depth - 1)
    rw [excess?, nesting]
    dsimp only
    split_ifs with hzero
    · simp [hzero]
    · rw [ih]
      omega

theorem firstExcess?_eq_none_iff : (items : List Json) → (depth : Nat) →
    firstExcess? ⟨none, depth⟩ items = none ↔ nestingOfItems items ≤ depth
  | [], _ => by simp [firstExcess?, nestingOfItems]
  | v :: rest, depth => by
    rw [firstExcess?, nestingOfItems, Option.or_eq_none_iff, excess?_eq_none_iff v,
      firstExcess?_eq_none_iff rest, Nat.max_le]

theorem firstFieldExcess?_eq_none_iff : (fields : List (LooseText × Json)) → (depth : Nat) →
    firstFieldExcess? ⟨none, depth⟩ fields = none ↔ nestingOfFields fields ≤ depth
  | [], _ => by simp [firstFieldExcess?, nestingOfFields]
  | (_, v) :: rest, depth => by
    rw [firstFieldExcess?, nestingOfFields, Option.or_eq_none_iff, excess?_eq_none_iff v,
      firstFieldExcess?_eq_none_iff rest, Nat.max_le]

end

/-- Queries can look into what is stored of a value: there are only finite numbers in it, and lists
and objects are not nested too deeply. -/
def IsOpen (v : Json) : Prop :=
  v.isFinite = true ∧ v.nesting ≤ 2000

instance (v : Json) : Decidable v.IsOpen := inferInstanceAs (Decidable (_ ∧ _))

end Json

theorem queryDocument?_storedText (v : Json) :
    queryDocument? (Json.storedText v) =
      if v.IsOpen then some (Json.Document.ofJson v) else none := by
  have hnesting : Json.excess? .forQueries v = none ↔ v.nesting ≤ 2000 :=
    Json.excess?_eq_none_iff v 2000
  rw [queryDocument?, Json.beforeNul_storedText, Json.read_write]
  cases hexcess : Json.excess? .forQueries v with
  | none =>
    dsimp only
    rw [Json.isStrict_ofJson]
    simp [Json.IsOpen, hnesting.1 hexcess]
  | some excess =>
    have hdeep : ¬v.nesting ≤ 2000 := fun h => by simp [hnesting.2 h] at hexcess
    simp [Json.IsOpen, hdeep]

namespace Json

/-- The part of a value that one step of a path leads to. -/
def part? : Path.Component → Json → Option Json
  | .property name, .obj fields => fields.lookup (name : LooseText)
  | .index position, .arr items => items[position]?
  | _, _ => none

/-- What a value holds at a path. -/
def at? : Path → Json → Option Json
  | [], v => some v
  | c :: rest, v => (v.part? c).bind (at? rest)

theorem escapeChar_of_isWordChar {c : Char} (h : Path.isWordChar c = true) :
    escapeChar c = [c] := by
  have hne {d : Char} (hd : Path.isWordChar d = false) : c ≠ d := by
    rintro rfl
    rw [hd] at h
    cases h
  have hrange : 32 ≤ c.toNat ∧ c.toNat ≤ 126 := by
    unfold Path.isWordChar Path.isNameStart Char.isAlpha Char.isUpper Char.isLower Text.isDigit at h
    simp only [Bool.or_eq_true, Bool.and_eq_true, decide_eq_true_eq] at h
    rcases h with ((⟨hlow, hhigh⟩ | ⟨hlow, hhigh⟩) | rfl) | ⟨hlow, hhigh⟩
    · have hupper : 65 ≤ c.toNat ∧ c.toNat ≤ 90 := ⟨hlow, hhigh⟩
      omega
    · have hlower : 97 ≤ c.toNat ∧ c.toNat ≤ 122 := ⟨hlow, hhigh⟩
      omega
    · decide
    · have hdigit : 48 ≤ c.toNat ∧ c.toNat ≤ 57 := ⟨hlow, hhigh⟩
      omega
  have hprintable : (' ' ≤ c && c ≤ '~') = true := by
    rw [Bool.and_eq_true, decide_eq_true_eq, decide_eq_true_eq]
    exact hrange
  rw [escapeChar, if_neg (hne (d := '"') rfl), if_neg (hne (d := '\\') rfl),
    if_neg (hne (d := '\n') rfl), if_neg (hne (d := '\r') rfl), if_neg (hne (d := '\t') rfl),
    if_neg (hne (d := '\x0c') rfl), if_neg (hne (d := '\x08') rfl), if_pos hprintable]

/-- What is written without a backslash is written as it is. -/
theorem escapePoint_eq {p : CodePoint} (h : '\\' ∉ escapePoint p) :
    ∃ c, p = .char c ∧ escapePoint p = [c] := by
  cases p with
  | half offset => exact absurd List.mem_cons_self h
  | char c =>
    refine ⟨c, rfl, ?_⟩
    change escapeChar c = [c]
    change '\\' ∉ escapeChar c at h
    have hescape := escape_escapeChar c
    generalize escapeChar c = text at hescape h ⊢
    cases hescape with
    | letter => exact absurd List.mem_cons_self h
    | plain => rfl
    | unit => exact absurd List.mem_cons_self h
    | pair => exact absurd List.mem_cons_self h

/-- Only the name itself is written like an identifier. -/
theorem escaped_eq_iff {s : LooseText} {name : String} (h : Path.isName name.toList = true) :
    escaped s = name.toList ↔ s = name := by
  have hword := Path.isWordChar_of_isName h
  constructor
  · intro heq
    have hpoints : ∀ points : List CodePoint, '\\' ∉ points.flatMap escapePoint →
        points = (points.flatMap escapePoint).map .char := by
      intro points hplain
      induction points with
      | nil => rfl
      | cons p points ih =>
        rw [List.flatMap_cons, List.mem_append, not_or] at hplain
        obtain ⟨c, rfl, hc⟩ := escapePoint_eq hplain.1
        rw [List.flatMap_cons, hc, List.singleton_append, List.map_cons, ← ih hplain.2]
    have hplain : '\\' ∉ escaped s := by
      rw [heq]
      exact fun hmem => absurd (hword _ hmem) (by decide)
    rw [LooseText.ofString, ← heq, escaped, ← hpoints s.points hplain]
  · rintro rfl
    have hchars : ∀ cs : List Char, (∀ c ∈ cs, Path.isWordChar c = true) →
        (cs.map CodePoint.char).flatMap escapePoint = cs := by
      intro cs hcs
      induction cs with
      | nil => rfl
      | cons c cs ih =>
        rw [List.forall_mem_cons] at hcs
        rw [List.map_cons, List.flatMap_cons, ih hcs.2, escapePoint, escapeChar_of_isWordChar hcs.1]
        rfl
    exact hchars _ hword

theorem lookup_ofFields {name : String} (h : Path.isName name.toList = true)
    (fields : List (LooseText × Json)) :
    (Document.ofFields fields).lookup name.toList =
      (fields.lookup (name : LooseText)).map Document.ofJson := by
  induction fields with
  | nil => rfl
  | cons field rest ih =>
    obtain ⟨s, v⟩ := field
    rw [Document.ofFields, List.lookup_cons, List.lookup_cons, ih]
    have hiff : (name.toList == escaped s) = ((name : LooseText) == s) := by
      rw [Bool.eq_iff_iff, beq_iff_eq, beq_iff_eq, eq_comm, escaped_eq_iff h, eq_comm]
    rw [hiff]
    cases (name : LooseText) == s <;> rfl

theorem ofItems_eq_map (items : List Json) :
    Document.ofItems items = items.map Document.ofJson := by
  induction items with
  | nil => rfl
  | cons v rest ih => rw [Document.ofItems, ih, List.map_cons]

theorem length_write_pos (v : Json) : 0 < (write spaced v).length := by
  obtain ⟨c, cs, h, -⟩ := exists_write_eq_cons v
  simp [h]

/-- Every item takes room in what is written. -/
theorem length_write_of_getElem? {items : List Json} {position : Nat} {w : Json}
    (h : items[position]? = some w) :
    position + (write spaced w).length ≤ (writeItems spaced items).length := by
  induction items generalizing position with
  | nil => cases h
  | cons v rest ih =>
    have hpos := length_write_pos v
    cases rest with
    | nil =>
      cases position with
      | zero =>
        cases h
        rw [Nat.zero_add]
        rfl
      | succ position => cases h
    | cons u rest =>
      rw [length_writeItems_cons]
      cases position with
      | zero =>
        cases h
        omega
      | succ position =>
        have hrest := @ih position h
        omega

theorem length_write_of_lookup {fields : List (LooseText × Json)} {name : LooseText} {w : Json}
    (h : fields.lookup name = some w) :
    (write spaced w).length ≤ (writeFields spaced fields).length := by
  induction fields with
  | nil => cases h
  | cons field rest ih =>
    obtain ⟨s, v⟩ := field
    have hfirst : (write spaced v).length ≤ (writeFields spaced ((s, v) :: rest)).length := by
      cases rest with
      | nil =>
        rw [writeFields, List.length_append]
        exact Nat.le_add_left _ _
      | cons field rest =>
        rw [length_writeFields_cons]
        omega
    rw [List.lookup_cons] at h
    split at h
    · cases h
      exact hfirst
    · cases rest with
      | nil => cases h
      | cons field rest =>
        have hrest := ih h
        rw [length_writeFields_cons]
        omega

section

variable {c : Path.Component} {v w : Json}

theorem length_write_of_part? (h : v.part? c = some w) :
    (write spaced w).length ≤ (write spaced v).length := by
  unfold part? at h
  split at h
  · have hle := length_write_of_lookup h
    simp only [write, List.length_append, List.length_cons]
    omega
  · have hle := length_write_of_getElem? h
    simp only [write, List.length_append, List.length_cons]
    omega
  · cases h

theorem part?_ofJson (hname : ∀ name, c = .property name → Path.isName name.toList = true)
    (hlength : (write spaced v).length < 2 ^ 32) (h : v.part? c = some w) :
    (Document.ofJson v).part? c = some (Document.ofJson w) := by
  unfold part? at h
  split at h
  · next name fields =>
    change (Document.ofFields fields).lookup name.toList = _
    rw [lookup_ofFields (hname name rfl), h, Option.map_some]
  · next position items =>
    have hle := length_write_of_getElem? h
    have hsmall : position < 0x100000000 := by
      simp only [write, List.length_append, List.length_cons] at hlength
      omega
    change (Document.ofItems items)[position % 0x100000000]? = _
    rw [Nat.mod_eq_of_lt hsmall, ofItems_eq_map, List.getElem?_map, h, Option.map_some]
  · cases h

end

/-- A path leads to the same part in the document that is written for a value. -/
theorem find?_ofJson {path : Path} (hnamed : path.Named) {v w : Json}
    (hlength : (write spaced v).length < 2 ^ 32) (h : v.at? path = some w) :
    (Document.ofJson v).find? path = some (Document.ofJson w) := by
  induction path generalizing v with
  | nil =>
    cases h
    rfl
  | cons c path ih =>
    obtain ⟨u, hu, hw⟩ := Option.bind_eq_some_iff.1 h
    have hpart := part?_ofJson (fun name hc => hnamed name (hc ▸ List.mem_cons_self)) hlength hu
    have hrest := ih (fun name hc => hnamed name (List.mem_cons_of_mem c hc))
      ((length_write_of_part? hu).trans_lt hlength) hw
    rw [Document.find?, hpart, Option.bind_some, hrest]

end Json

end VersionedGraph
