import VersionedGraph.Proofs.Written

/-!
# Stored values are read back

The text that is stored of a value without doubles is read as the value itself
(`Json.read_storedText`), provided that it is a value that some JSON text stands for: its objects
have no name twice, and its texts have no two halves of a surrogate pair that would be read as one
character. These are the values that are read from texts at all (`Json.isDenoted_of_read`).
-/

namespace VersionedGraph

namespace LooseText

/-- Whether nowhere the first half of a surrogate pair has a second half right behind it. -/
def areApart : List CodePoint → Bool
  | p :: q :: rest =>
    !(Json.isHighSurrogate p.toNat && Json.isLowSurrogate q.toNat) && areApart (q :: rest)
  | _ => true

/-- Whether a text has no halves of surrogate pairs that belong together. -/
def isJoined (s : LooseText) : Bool :=
  areApart s.points

end LooseText

namespace Json

mutual

/-- Whether a value is one that JSON text can stand for. -/
def isDenoted : Json → Bool
  | .str s => s.isJoined
  | .arr items => areDenoted items
  | .obj fields => (fields.map Prod.fst).Nodup && fieldsAreDenoted fields
  | .null => true
  | .bool _ => true
  | .int _ => true
  | .float _ => true

def areDenoted : List Json → Bool
  | [] => true
  | v :: rest => v.isDenoted && areDenoted rest

def fieldsAreDenoted : List (LooseText × Json) → Bool
  | [] => true
  | (name, v) :: rest => name.isJoined && v.isDenoted && fieldsAreDenoted rest

end

mutual

/-- Whether there are no doubles in a value. -/
def isExact : Json → Bool
  | .float _ => false
  | .arr items => areExact items
  | .obj fields => fieldsAreExact fields
  | .null => true
  | .bool _ => true
  | .int _ => true
  | .str _ => true

def areExact : List Json → Bool
  | [] => true
  | v :: rest => v.isExact && areExact rest

def fieldsAreExact : List (LooseText × Json) → Bool
  | [] => true
  | (_, v) :: rest => v.isExact && fieldsAreExact rest

end

/-! What is written between quotes stands for the text. -/

/-- A unit is a code point of its own unless it is the first of a pair. -/
theorem joinPieces_unit_of_apart {n : Nat} {others : List Piece}
    (h : ∀ m more, others = .unit m :: more → (isHighSurrogate n && isLowSurrogate m) = false) :
    joinPieces (.unit n :: others) = .ofNat n :: joinPieces others := by
  rcases others with _ | ⟨c | m, more⟩
  · rfl
  · rfl
  · rw [joinPieces, h m more rfl, if_neg Bool.false_ne_true]

/-- What is written for a character does not begin with the second half of a pair. -/
theorem isLowSurrogate_of_pieces_escapeChar {c : Char} {rest : List Char} {m : Nat}
    {more : List Piece} (h : pieces (escapeChar c ++ rest) = .unit m :: more) :
    isLowSurrogate m = false := by
  have hvalid := toNat_valid c
  have hescape := escape_escapeChar c
  generalize escapeChar c = text at hescape h
  cases hescape with
  | @letter e he =>
    have hunit : e ≠ 'u' := by
      rintro rfl
      cases he
    simp [pieces, hunit] at h
  | plain quote backslash printable => simp [pieces, backslash] at h
  | unit hbasic =>
    rw [pieces_unitEscape hbasic] at h
    cases h
    simp only [isLowSurrogate, Bool.and_eq_false_iff, decide_eq_false_iff_not]
    omega
  | pair hfar =>
    rw [List.append_assoc, pieces_unitEscape (by omega)] at h
    cases h
    simp only [isLowSurrogate, Bool.and_eq_false_iff, decide_eq_false_iff_not]
    omega

theorem ofNat_half (offset : Fin 0x800) : CodePoint.ofNat (0xD800 + offset) = .half offset := by
  have hrange : 0xD800 ≤ 0xD800 + (offset : Nat) ∧ 0xD800 + (offset : Nat) < 0xE000 := by omega
  rw [CodePoint.ofNat, dif_pos hrange]
  simp

/-- The pieces that are written for code points are joined to these again. -/
theorem joinPieces_escapePoints {points : List CodePoint}
    (h : LooseText.areApart points = true) :
    joinPieces (pieces (points.flatMap escapePoint)) = points := by
  induction points with
  | nil => rfl
  | cons p points ih =>
    have hrest : LooseText.areApart points = true := by
      cases points with
      | nil => rfl
      | cons q points =>
        rw [LooseText.areApart, Bool.and_eq_true] at h
        exact h.2
    rw [List.flatMap_cons]
    cases p with
    | char c => rw [escapePoint, joinPieces_escapeChar, ih hrest]
    | half offset =>
      rw [escapePoint, pieces_unitEscape (by omega), joinPieces_unit_of_apart, ofNat_half,
        ih hrest]
      intro m more hpieces
      rcases points with _ | ⟨c | next, points⟩
      · cases hpieces
      · rw [List.flatMap_cons] at hpieces
        rw [isLowSurrogate_of_pieces_escapeChar hpieces, Bool.and_false]
      · rw [List.flatMap_cons, escapePoint, pieces_unitEscape (by omega)] at hpieces
        cases hpieces
        rw [LooseText.areApart, Bool.and_eq_true, Bool.not_eq_true'] at h
        exact h.1

theorem unquote_escaped_of_isJoined {s : LooseText} (h : s.isJoined = true) :
    unquote (escaped s) = s := by
  rw [unquote, escaped, joinPieces_escapePoints h]

theorem numberOfLexeme_intText (n : Int) : numberOfLexeme (intText n) = .int n := by
  rw [numberOfLexeme, if_pos (isIntegerLexeme_intText n), toInt_leading_intText]

/-! The document of a value stands for the value. -/

theorem insertField_of_notMem {fields : List (LooseText × Json)} {name : LooseText}
    (h : name ∉ fields.map Prod.fst) (v : Json) :
    insertField fields name v = fields ++ [(name, v)] := by
  refine if_neg fun hany => h ?_
  obtain ⟨f, hf, hname⟩ := List.any_eq_true.1 hany
  exact List.mem_map.2 ⟨f, hf, of_decide_eq_true hname⟩

mutual

theorem toJson_ofJson : (v : Json) → v.isDenoted = true → v.isExact = true →
    (Document.ofJson v).toJson = v
  | .null, _, _ => rfl
  | .bool b, _, _ => by cases b <;> rfl
  | .int n, _, _ => numberOfLexeme_intText n
  | .float _, _, hexact => nomatch hexact
  | .str s, hdenoted, _ => congrArg Json.str (unquote_escaped_of_isJoined hdenoted)
  | .arr items, hdenoted, hexact => congrArg Json.arr (itemsToJson_ofItems items hdenoted hexact)
  | .obj fields, hdenoted, hexact => by
    rw [isDenoted, Bool.and_eq_true, decide_eq_true_eq] at hdenoted
    exact congrArg Json.obj (membersToFields_ofFields fields [] hdenoted.1 hdenoted.2 hexact)

theorem itemsToJson_ofItems : (items : List Json) → areDenoted items = true →
    areExact items = true → Document.itemsToJson (Document.ofItems items) = items
  | [], _, _ => rfl
  | v :: rest, hdenoted, hexact => by
    rw [areDenoted, Bool.and_eq_true] at hdenoted
    rw [areExact, Bool.and_eq_true] at hexact
    rw [Document.ofItems, Document.itemsToJson, toJson_ofJson v hdenoted.1 hexact.1,
      itemsToJson_ofItems rest hdenoted.2 hexact.2]

/-- Fields with new names are added behind those that are there. -/
theorem membersToFields_ofFields : (fields known : List (LooseText × Json)) →
    ((known ++ fields).map Prod.fst).Nodup → fieldsAreDenoted fields = true →
    fieldsAreExact fields = true →
    Document.membersToFields known (Document.ofFields fields) = known ++ fields
  | [], known, _, _, _ => (List.append_nil known).symm
  | (name, v) :: rest, known, hnames, hdenoted, hexact => by
    rw [fieldsAreDenoted, Bool.and_eq_true, Bool.and_eq_true] at hdenoted
    rw [fieldsAreExact, Bool.and_eq_true] at hexact
    have hnew : name ∉ known.map Prod.fst := by
      rw [List.map_append, List.nodup_append] at hnames
      exact fun hmem => hnames.2.2 name hmem name List.mem_cons_self rfl
    rw [List.append_cons] at hnames ⊢
    rw [Document.ofFields, Document.membersToFields, unquote_escaped_of_isJoined hdenoted.1.1,
      toJson_ofJson v hdenoted.1.2 hexact.1, insertField_of_notMem hnew,
      membersToFields_ofFields rest _ hnames hdenoted.2 hexact.2]

end

/-- The text that is stored of a value is read as the value. -/
theorem read_storedText {v : Json} (hdenoted : v.isDenoted = true) (hexact : v.isExact = true)
    (hwithin : v.excess? .forValues = none) : read (storedText v) = .ok v := by
  unfold read
  rw [storedText, String.toList_ofList, read_write, hwithin, ok_bind,
    toJson_ofJson v hdenoted hexact]
  rfl

/-! What is read is a value of this form. -/

theorem not_isLowSurrogate (c : Char) : isLowSurrogate c.toNat = false := by
  have hvalid := toNat_valid c
  simp only [isLowSurrogate, Bool.and_eq_false_iff, decide_eq_false_iff_not]
  omega

/-- A code point is the one of its number unless it is a character. -/
theorem ofNat_cases (n : Nat) :
    (∃ c, CodePoint.ofNat n = .char c) ∨ (CodePoint.ofNat n).toNat = n := by
  unfold CodePoint.ofNat
  split
  · refine .inr ?_
    rw [CodePoint.toNat]
    dsimp only
    omega
  · exact .inl ⟨_, rfl⟩

theorem isHighSurrogate_of_ofNat {n : Nat}
    (h : isHighSurrogate (CodePoint.ofNat n).toNat = true) : isHighSurrogate n = true := by
  rcases ofNat_cases n with ⟨c, hc⟩ | hn
  · rw [hc, CodePoint.toNat, not_isHighSurrogate] at h
    cases h
  · rwa [hn] at h

theorem isLowSurrogate_of_ofNat {n : Nat}
    (h : isLowSurrogate (CodePoint.ofNat n).toNat = true) : isLowSurrogate n = true := by
  rcases ofNat_cases n with ⟨c, hc⟩ | hn
  · rw [hc, CodePoint.toNat, not_isLowSurrogate] at h
    cases h
  · rwa [hn] at h

theorem areApart_cons_iff {p : CodePoint} {points : List CodePoint} :
    LooseText.areApart (p :: points) = true ↔
      (∀ q ∈ points.head?, ¬(isHighSurrogate p.toNat = true ∧ isLowSurrogate q.toNat = true)) ∧
        LooseText.areApart points = true := by
  cases points with
  | nil => simp [LooseText.areApart]
  | cons q points =>
    rw [LooseText.areApart, Bool.and_eq_true, Bool.not_eq_true', ← Bool.not_eq_true,
      Bool.and_eq_true]
    simp

theorem areApart_char_cons_iff {c : Char} {points : List CodePoint} :
    LooseText.areApart (.char c :: points) = true ↔ LooseText.areApart points = true := by
  rw [areApart_cons_iff, CodePoint.toNat, not_isHighSurrogate]
  simp

/-- What begins with a unit is joined to what begins with its code point or with a character. -/
theorem isLowSurrogate_of_head?_joinPieces {n : Nat} {others : List Piece} {q : CodePoint}
    (hq : q ∈ (joinPieces (.unit n :: others)).head?) (h : isLowSurrogate q.toNat = true) :
    isLowSurrogate n = true := by
  have hhead : q = .ofNat n ∨ ∃ c, q = .char c := by
    rcases others with _ | ⟨c | m, more⟩
    · exact .inl (Option.some.inj hq).symm
    · exact .inl (Option.some.inj hq).symm
    · rw [joinPieces] at hq
      split at hq
      · exact .inr ⟨_, (Option.some.inj hq).symm⟩
      · exact .inl (Option.some.inj hq).symm
  rcases hhead with rfl | ⟨c, rfl⟩
  · exact isLowSurrogate_of_ofNat h
  · rw [CodePoint.toNat, not_isLowSurrogate] at h
    cases h

theorem areApart_joinPieces (parts : List Piece) :
    LooseText.areApart (joinPieces parts) = true := by
  fun_induction joinPieces parts with
  | case1 high low rest h ih => exact areApart_char_cons_iff.2 ih
  | case2 high low rest h ih =>
    refine areApart_cons_iff.2 ⟨?_, ih⟩
    rintro q hq ⟨hhigh, hlow⟩
    refine h ?_
    rw [isHighSurrogate_of_ofNat hhigh, isLowSurrogate_of_head?_joinPieces hq hlow]
    rfl
  | case3 n rest h ih =>
    refine areApart_cons_iff.2 ⟨?_, ih⟩
    rintro q hq ⟨-, hlow⟩
    rcases rest with _ | ⟨c | m, more⟩
    · cases hq
    · rw [← Option.some.inj hq, CodePoint.toNat, not_isLowSurrogate] at hlow
      cases hlow
    · exact h m more rfl
  | case4 c rest ih => exact areApart_char_cons_iff.2 ih
  | case5 => rfl

theorem fieldsAreDenoted_iff {fields : List (LooseText × Json)} :
    fieldsAreDenoted fields = true ↔
      ∀ f ∈ fields, f.1.isJoined = true ∧ f.2.isDenoted = true := by
  induction fields with
  | nil => simp [fieldsAreDenoted]
  | cons f rest ih => simp [fieldsAreDenoted, ih]

/-- A field is added, or takes the place of the one of its name. -/
theorem isDenoted_insertField {fields : List (LooseText × Json)} {name : LooseText} {v : Json}
    (h : (Json.obj fields).isDenoted = true) (hname : name.isJoined = true)
    (hv : v.isDenoted = true) : (Json.obj (insertField fields name v)).isDenoted = true := by
  rw [isDenoted, Bool.and_eq_true, decide_eq_true_eq, fieldsAreDenoted_iff] at h ⊢
  refine ⟨?_, fun f hf => ?_⟩
  · rw [insertField_names]
    split
    · exact h.1
    · next hnew =>
      rw [List.nodup_append]
      refine ⟨h.1, List.pairwise_singleton _ name, ?_⟩
      rintro a ha b hb rfl
      rw [List.mem_singleton.1 hb] at ha
      exact hnew ha
  · unfold insertField at hf
    split at hf
    · obtain ⟨g, hg, rfl⟩ := List.mem_map.1 hf
      split
      · exact ⟨hname, hv⟩
      · exact h.2 g hg
    · rcases List.mem_append.1 hf with hf | hf
      · exact h.2 f hf
      · rw [List.mem_singleton.1 hf]
        exact ⟨hname, hv⟩

theorem isDenoted_numberOfLexeme (lexeme : List Char) :
    (numberOfLexeme lexeme).isDenoted = true := by
  unfold numberOfLexeme
  split <;> rfl

mutual

theorem isDenoted_toJson : (d : Document) → d.toJson.isDenoted = true
  | .word w => by cases w <;> rfl
  | .number lexeme => isDenoted_numberOfLexeme lexeme
  | .text body => areApart_joinPieces (pieces body)
  | .array items => areDenoted_itemsToJson items
  | .object members => isDenoted_membersToFields members [] rfl

theorem areDenoted_itemsToJson : (items : List Document) →
    areDenoted (Document.itemsToJson items) = true
  | [] => rfl
  | d :: rest => by
    rw [Document.itemsToJson, areDenoted, isDenoted_toJson d, areDenoted_itemsToJson rest]
    rfl

theorem isDenoted_membersToFields : (members : List (List Char × Document)) →
    (fields : List (LooseText × Json)) → (Json.obj fields).isDenoted = true →
    (Json.obj (Document.membersToFields fields members)).isDenoted = true
  | [], _, h => h
  | (name, d) :: rest, _, h =>
    isDenoted_membersToFields rest _
      (isDenoted_insertField h (areApart_joinPieces (pieces name)) (isDenoted_toJson d))

end

theorem isDenoted_of_read {text : String} {v : Json} (h : read text = .ok v) :
    v.isDenoted = true := by
  simp only [read, bind_eq_ok_iff, pure_eq_ok_iff] at h
  obtain ⟨d, _, rfl⟩ := h
  exact isDenoted_toJson d

/-- Values without doubles and within the limits are of this form if and only if they can be read. -/
theorem isDenoted_iff_exists_read {v : Json} (hexact : v.isExact = true)
    (hwithin : v.excess? .forValues = none) :
    v.isDenoted = true ↔ ∃ text, read text = .ok v := by
  constructor
  · intro hdenoted
    exact ⟨_, read_storedText hdenoted hexact hwithin⟩
  · rintro ⟨text, hread⟩
    exact isDenoted_of_read hread

end Json

end VersionedGraph
