import VersionedGraph.Json.Excess
import VersionedGraph.Proofs.Numerals
import VersionedGraph.Proofs.NumberText
import VersionedGraph.Proofs.Quoting

/-!
# Written documents are read back

What is written of a value is the document of the value (`Json.Document.ofJson`): its words, its
numerals and its texts with their escapes, in the same places. A reader takes it from the front of
a text as a whole, or stops at the first thing in the value that is beyond its limits
(`Json.scanDocument_write`), so a whole text that was written of a value is read as its document or
refused for that (`Json.read_write`). What is written has no null character, so it is not cut off
where it is kept (`Json.beforeNul_storedText`).
-/

namespace VersionedGraph

namespace Json

/-- A text as it is written between quotes. -/
def escaped (s : LooseText) : List Char :=
  s.points.flatMap escapePoint

namespace Document

def ofFloat (x : Binary64) : Document :=
  if x.isNaN then .word .notANumber
  else if x.isInfinite then .word (.infinity x.isNegative)
  else .number (floatText x)

mutual

/-- The document that is written for a value. -/
def ofJson : Json → Document
  | .null => .word .null
  | .bool b => .word (if b then .true else .false)
  | .int n => .number (intText n)
  | .float x => ofFloat x
  | .str s => .text (escaped s)
  | .arr items => .array (ofItems items)
  | .obj fields => .object (ofFields fields)

def ofItems : List Json → List Document
  | [] => []
  | v :: rest => ofJson v :: ofItems rest

def ofFields : List (LooseText × Json) → List (List Char × Document)
  | [] => []
  | (name, v) :: rest => (escaped name, ofJson v) :: ofFields rest

end

end Document

/-- The end of reading what has nothing wrong with it but perhaps something that is beyond the
limits of the reader. -/
def limited {α : Type} (excess : Option Excess) (a : α) : Except Stop α :=
  match excess with
  | none => .ok a
  | some excess => .error (.limit excess)

theorem limited_bind {α β : Type} (excess : Option Excess) (a : α) (f : α → Except Stop β) :
    limited excess a >>= f =
      match excess with
      | none => f a
      | some excess => .error (.limit excess) := by
  cases excess <;> rfl

/-- The characters that a written value begins with. -/
def isStart (c : Char) : Bool :=
  Text.isDigit c || "\"[\x7b-ntfNI".toList.contains c

theorem ne_of_isStart {c d : Char} (hc : isStart c = true) (hd : isStart d = false) : c ≠ d := by
  rintro rfl
  rw [hc] at hd
  cases hd

theorem not_isSpace_of_isStart {c : Char} (h : isStart c = true) : isSpace c = false := by
  simp [isSpace, ne_of_isStart h (d := ' ') rfl, ne_of_isStart h (d := '\t') rfl,
    ne_of_isStart h (d := '\n') rfl, ne_of_isStart h (d := '\r') rfl]

theorem IsNumeral.exists_cons {lexeme : List Char} (h : IsNumeral lexeme) :
    ∃ c cs, lexeme = c :: cs ∧ isStart c = true ∧ c ≠ '"' ∧ c ≠ '[' ∧ c ≠ '{' := by
  obtain ⟨negative, hwhole, hfraction, hexponent⟩ := h
  obtain ⟨d, ds, rfl⟩ := List.exists_cons_of_ne_nil hwhole.areDigits.nonempty
  have hd := hwhole.areDigits.isDigit d List.mem_cons_self
  cases negative with
  | true => exact ⟨'-', _, rfl, by decide⟩
  | false =>
    exact ⟨d, _, rfl, by rw [isStart, hd, Bool.true_or], Text.ne_of_isDigit hd rfl,
      Text.ne_of_isDigit hd rfl, Text.ne_of_isDigit hd rfl⟩

/-- A double is written as a word or as a numeral that is not that of an integer. -/
theorem floatText_cases (x : Binary64) :
    (∃ w, Document.ofFloat x = .word w ∧ floatText x = Document.wordText w) ∨
      Document.ofFloat x = .number (floatText x) ∧ IsNumeral (floatText x) ∧
        isIntegerLexeme (floatText x) = false := by
  by_cases hnan : x.isNaN = true
  · refine .inl ⟨.notANumber, if_pos hnan, ?_⟩
    rw [floatText, Binary64.shortestText, if_pos hnan]
    rfl
  · by_cases hinf : x.isInfinite = true
    · refine .inl ⟨.infinity x.isNegative, (if_neg hnan).trans (if_pos hinf), ?_⟩
      rw [floatText, Binary64.shortestText, if_neg hnan, if_pos hinf]
      cases x.isNegative <;> rfl
    · refine .inr ⟨(if_neg hnan).trans (if_neg hinf), ?_⟩
      rw [floatText, Binary64.shortestText, if_neg hnan, if_neg hinf]
      exact x.isNumeral_shortest

theorem exists_write_eq_cons (v : Json) : ∃ c cs, write spaced v = c :: cs ∧ isStart c = true := by
  cases v with
  | null => exact ⟨_, _, rfl, by decide⟩
  | bool b => cases b <;> exact ⟨_, _, rfl, by decide⟩
  | int n =>
    obtain ⟨c, cs, h, hc, -⟩ := (isNumeral_intText n).exists_cons
    exact ⟨c, cs, by rw [write, atomText, h], hc⟩
  | float x =>
    rw [write, atomText]
    rcases floatText_cases x with ⟨w, -, h⟩ | ⟨-, h, -⟩
    · rw [h]
      rcases w with _ | _ | _ | _ | _ | _ <;> exact ⟨_, _, rfl, by decide⟩
    · obtain ⟨c, cs, h, hc, -⟩ := h.exists_cons
      exact ⟨c, cs, h, hc⟩
  | str s => exact ⟨'"', _, rfl, by decide⟩
  | arr items => exact ⟨'[', _, by rw [write]; rfl, by decide⟩
  | obj fields => exact ⟨'{', _, by rw [write]; rfl, by decide⟩

section

variable {bound : Nat} {limits : Limits} {rest lexeme : List Char}

theorem scanDocument_eq_scanAtom {c : Char} {cs : List Char} (hquote : c ≠ '"') (hlist : c ≠ '[')
    (hobject : c ≠ '{') :
    scanDocument (bound + 1) limits (c :: cs) = scanAtom limits (c :: cs) := by
  rw [scanDocument]
  · exact fun _ h => hquote (List.cons.inj h).1
  · exact fun _ h => hlist (List.cons.inj h).1
  · exact fun _ h => hobject (List.cons.inj h).1

theorem scanDocument_wordText (w : Word) (rest : List Char) :
    scanDocument (bound + 1) limits (Document.wordText w ++ rest) = .ok (.word w, rest) := by
  rcases w with _ | _ | _ | _ | _ | _ <;>
    exact scanDocument_eq_scanAtom (by decide) (by decide) (by decide)

theorem scanDocument_numeral (h : IsNumeral lexeme) (hrest : IsEnd rest) :
    scanDocument (bound + 1) limits (lexeme ++ rest) =
      limited ((excessDigits? limits lexeme).map .digits) (.number lexeme, rest) := by
  obtain ⟨c, cs, hlexeme, -, hquote, hlist, hobject⟩ := h.exists_cons
  have hatom :
      scanDocument (bound + 1) limits (lexeme ++ rest) = scanAtom limits (lexeme ++ rest) := by
    rw [hlexeme]
    exact scanDocument_eq_scanAtom hquote hlist hobject
  rw [hatom, scanAtom, scanWord?_append h, scanNumber?_append h hrest]
  dsimp only
  cases excessDigits? limits lexeme <;> rfl

theorem excessDigits?_eq_none (h : isIntegerLexeme lexeme = false) :
    excessDigits? limits lexeme = none := by
  unfold excessDigits?
  cases limits.digits <;> simp [h]

theorem skipSpace_cons {c : Char} (cs : List Char) (h : isSpace c = false) :
    skipSpace (c :: cs) = c :: cs :=
  List.dropWhile_cons_of_neg (by simp [h])

theorem skipSpace_blank (cs : List Char) : skipSpace (' ' :: cs) = skipSpace cs := rfl

theorem skipSpace_write (v : Json) (rest : List Char) :
    skipSpace (write spaced v ++ rest) = write spaced v ++ rest := by
  obtain ⟨c, cs, h, hc⟩ := exists_write_eq_cons v
  rw [h]
  exact skipSpace_cons _ (not_isSpace_of_isStart hc)

theorem exists_writeItems_eq_cons (v : Json) (items : List Json) :
    ∃ c cs, writeItems spaced (v :: items) = c :: cs ∧ isStart c = true := by
  obtain ⟨c, cs, h, hc⟩ := exists_write_eq_cons v
  cases items with
  | nil => exact ⟨c, cs, h, hc⟩
  | cons w items =>
    refine ⟨c, cs ++ spaced.item ++ writeItems spaced (w :: items), ?_, hc⟩
    rw [writeItems, h]
    rfl

theorem exists_writeFields_eq_cons (field : LooseText × Json) (fields : List (LooseText × Json)) :
    ∃ cs, writeFields spaced (field :: fields) = '"' :: cs := by
  cases fields <;> exact ⟨_, rfl⟩

theorem writeItems_append (v w : Json) (items : List Json) (rest : List Char) :
    writeItems spaced (v :: w :: items) ++ rest =
      write spaced v ++ ',' :: ' ' :: (writeItems spaced (w :: items) ++ rest) := by
  rw [writeItems, List.append_assoc, List.append_assoc]
  rfl

theorem length_writeItems_cons (v w : Json) (items : List Json) :
    (writeItems spaced (v :: w :: items)).length =
      (write spaced v).length + 2 + (writeItems spaced (w :: items)).length := by
  rw [writeItems, List.length_append, List.length_append]
  rfl

theorem skipSpace_writeItems (v : Json) (items : List Json) (rest : List Char) :
    skipSpace (' ' :: (writeItems spaced (v :: items) ++ rest)) =
      writeItems spaced (v :: items) ++ rest := by
  obtain ⟨c, cs, h, hc⟩ := exists_writeItems_eq_cons v items
  rw [h]
  exact skipSpace_cons _ (not_isSpace_of_isStart hc)

theorem inner_eq (limits : Limits) (inList : Bool) :
    limits.inner inList =
      limited (if limits.depth = 0 then some (.nesting inList) else none)
        { limits with depth := limits.depth - 1 } := by
  unfold Limits.inner
  split <;> rfl

theorem scanDocument_text (s : LooseText) (rest : List Char) :
    scanDocument (bound + 1) limits (quote s ++ rest) = .ok (.text (escaped s), rest) := by
  rw [quote, List.append_assoc, List.cons_append, List.singleton_append, scanDocument,
    scanText_quoted]
  rfl

theorem scanDocument_list {c : Char} {cs : List Char} (hc : isStart c = true) :
    scanDocument (bound + 1) limits ('[' :: c :: cs) = do
      let (items, after) ← scanItems bound (← limits.inner true) (c :: cs)
      return (.array items, after) := by
  rw [scanDocument, skipSpace_cons cs (not_isSpace_of_isStart hc)]
  congr 1
  funext limits
  split
  · next h => exact absurd (List.cons.inj h).1 (ne_of_isStart hc rfl)
  · rfl

theorem scanDocument_object {cs : List Char} :
    scanDocument (bound + 1) limits ('{' :: '"' :: cs) = do
      let (members, after) ← scanMembers bound (← limits.inner false) ('"' :: cs)
      return (.object members, after) := by
  rw [scanDocument, skipSpace_cons cs rfl]
  rfl

/-- A name is read up to its value. -/
theorem scanMembers_name (name : LooseText) (v : Json) (rest : List Char) :
    scanMembers (bound + 1) limits (quote name ++ ':' :: ' ' :: (write spaced v ++ rest)) = (do
      let (d, after) ← scanDocument bound limits (write spaced v ++ rest)
      match skipSpace after with
      | '}' :: rest => return ([(escaped name, d)], rest)
      | ',' :: rest =>
        let (members, rest) ← scanMembers bound limits (skipSpace rest)
        return ((escaped name, d) :: members, rest)
      | rest => .error (.fault .expectingComma rest.length)) := by
  rw [quote, List.append_assoc, List.cons_append, List.singleton_append, scanMembers,
    scanText_quoted]
  change (scanDocument bound limits (skipSpace (' ' :: (write spaced v ++ rest))) >>= _) = _
  rw [skipSpace_blank, skipSpace_write]
  rfl

theorem writeFields_append (name : LooseText) (v : Json) (field : LooseText × Json)
    (fields : List (LooseText × Json)) (rest : List Char) :
    writeFields spaced ((name, v) :: field :: fields) ++ rest =
      quote name ++ ':' :: ' ' ::
        (write spaced v ++ ',' :: ' ' :: (writeFields spaced (field :: fields) ++ rest)) := by
  rw [writeFields]
  simp only [List.append_assoc]
  rfl

theorem length_writeFields_cons (name : LooseText) (v : Json) (field : LooseText × Json)
    (fields : List (LooseText × Json)) :
    (writeFields spaced ((name, v) :: field :: fields)).length =
      (quote name).length + 2 + (write spaced v).length + 2 +
        (writeFields spaced (field :: fields)).length := by
  rw [writeFields]
  simp only [List.length_append]
  rfl

theorem skipSpace_writeFields (field : LooseText × Json) (fields : List (LooseText × Json))
    (rest : List Char) :
    skipSpace (' ' :: (writeFields spaced (field :: fields) ++ rest)) =
      writeFields spaced (field :: fields) ++ rest := by
  obtain ⟨cs, h⟩ := exists_writeFields_eq_cons field fields
  rw [h, skipSpace_blank]
  exact skipSpace_cons _ rfl

mutual

/-- What is written of a value is read as the document of the value, unless it is beyond the limits
of the reader. -/
theorem scanDocument_write (bound : Nat) (limits : Limits) (rest : List Char) (hrest : IsEnd rest) :
    (v : Json) → (write spaced v).length ≤ bound →
      scanDocument (bound + 1) limits (write spaced v ++ rest) =
        limited (excess? limits v) (Document.ofJson v, rest)
  | .null, _ => scanDocument_wordText .null rest
  | .bool true, _ => scanDocument_wordText .true rest
  | .bool false, _ => scanDocument_wordText .false rest
  | .int n, _ => scanDocument_numeral (isNumeral_intText n) hrest
  | .float x, _ => by
    rw [write, atomText, Document.ofJson, excess?]
    rcases floatText_cases x with ⟨w, hdocument, htext⟩ | ⟨hdocument, hnumeral, hinteger⟩
    · rw [hdocument, htext]
      exact scanDocument_wordText w rest
    · rw [hdocument, scanDocument_numeral hnumeral hrest, excessDigits?_eq_none hinteger]
      rfl
  | .str s, _ => scanDocument_text s rest
  | .arr [], _ => by
    change scanDocument (bound + 1) limits ('[' :: ']' :: rest) = _
    rw [scanDocument, inner_eq, limited_bind, excess?]
    split_ifs <;> rfl
  | .arr (v :: items), hbound => by
    simp only [write, List.length_append, List.length_cons, List.length_nil] at hbound
    obtain ⟨bound, rfl⟩ := Nat.exists_eq_add_of_le' (show 2 ≤ bound by omega)
    have hread := scanItems_write bound { limits with depth := limits.depth - 1 } rest (v :: items)
      (List.cons_ne_nil v items) (by omega)
    obtain ⟨c, cs, hitems, hc⟩ := exists_writeItems_eq_cons v items
    rw [write, List.append_assoc, List.cons_append, List.singleton_append, excess?]
    rw [hitems, List.cons_append] at hread ⊢
    rw [scanDocument_list hc, inner_eq, limited_bind]
    split_ifs with hdepth
    · rfl
    · dsimp only
      rw [hread, limited_bind]
      cases firstExcess? { limits with depth := limits.depth - 1 } (v :: items) <;> rfl
  | .obj [], _ => by
    change scanDocument (bound + 1) limits ('{' :: '}' :: rest) = _
    rw [scanDocument, inner_eq, limited_bind, excess?]
    split_ifs <;> rfl
  | .obj (field :: fields), hbound => by
    simp only [write, List.length_append, List.length_cons, List.length_nil] at hbound
    obtain ⟨bound, rfl⟩ := Nat.exists_eq_add_of_le' (show 2 ≤ bound by omega)
    have hread := scanMembers_write bound { limits with depth := limits.depth - 1 } rest
      (field :: fields) (List.cons_ne_nil field fields) (by omega)
    obtain ⟨cs, hfields⟩ := exists_writeFields_eq_cons field fields
    rw [write, List.append_assoc, List.cons_append, List.singleton_append, excess?]
    rw [hfields, List.cons_append] at hread ⊢
    rw [scanDocument_object, inner_eq, limited_bind]
    split_ifs with hdepth
    · rfl
    · dsimp only
      rw [hread, limited_bind]
      cases firstFieldExcess? { limits with depth := limits.depth - 1 } (field :: fields) <;> rfl

theorem scanItems_write (bound : Nat) (limits : Limits) (rest : List Char) :
    (items : List Json) → items ≠ [] → (writeItems spaced items).length ≤ bound →
      scanItems (bound + 2) limits (writeItems spaced items ++ ']' :: rest) =
        limited (firstExcess? limits items) (Document.ofItems items, rest)
  | [], hne, hbound => absurd rfl hne
  | [v], _, hbound => by
    have hread := scanDocument_write bound limits (']' :: rest) rfl v hbound
    rw [writeItems, scanItems, hread, limited_bind, firstExcess?]
    cases excess? limits v <;> rfl
  | v :: w :: items, _, hbound => by
    rw [length_writeItems_cons] at hbound
    obtain ⟨bound, rfl⟩ := Nat.exists_eq_add_of_le' (show 1 ≤ bound by omega)
    have hread := scanDocument_write (bound + 1) limits
      (',' :: ' ' :: (writeItems spaced (w :: items) ++ ']' :: rest)) rfl v (by omega)
    have hitems := scanItems_write bound limits rest (w :: items) (List.cons_ne_nil w items)
      (by omega)
    rw [writeItems_append, scanItems, hread, limited_bind, firstExcess?]
    cases excess? limits v with
    | some excess => rfl
    | none =>
      change (scanItems (bound + 2) limits (skipSpace (' ' :: _)) >>= _) = _
      rw [skipSpace_writeItems, hitems, limited_bind]
      cases firstExcess? limits (w :: items) <;> rfl

theorem scanMembers_write (bound : Nat) (limits : Limits) (rest : List Char) :
    (fields : List (LooseText × Json)) → fields ≠ [] →
      (writeFields spaced fields).length ≤ bound →
      scanMembers (bound + 2) limits (writeFields spaced fields ++ '}' :: rest) =
        limited (firstFieldExcess? limits fields) (Document.ofFields fields, rest)
  | [], hne, hbound => absurd rfl hne
  | [(name, v)], _, hbound => by
    have hlength : (writeFields spaced [(name, v)]).length =
        (quote name).length + 2 + (write spaced v).length := by
      simp only [writeFields, List.length_append]
      rfl
    have hread := scanDocument_write bound limits ('}' :: rest) rfl v (by omega)
    have htext : writeFields spaced [(name, v)] ++ '}' :: rest =
        quote name ++ ':' :: ' ' :: (write spaced v ++ '}' :: rest) := by
      simp [writeFields, spaced]
    rw [htext, scanMembers_name, hread, limited_bind, firstFieldExcess?]
    cases excess? limits v <;> rfl
  | (name, v) :: field :: fields, _, hbound => by
    rw [length_writeFields_cons] at hbound
    obtain ⟨bound, rfl⟩ := Nat.exists_eq_add_of_le' (show 1 ≤ bound by omega)
    have hread := scanDocument_write (bound + 1) limits
      (',' :: ' ' :: (writeFields spaced (field :: fields) ++ '}' :: rest)) rfl v (by omega)
    have hfields := scanMembers_write bound limits rest (field :: fields)
      (List.cons_ne_nil field fields) (by omega)
    rw [writeFields_append, scanMembers_name, hread, limited_bind, firstFieldExcess?]
    cases excess? limits v with
    | some excess => rfl
    | none =>
      change (scanMembers (bound + 2) limits (skipSpace (' ' :: _)) >>= _) = _
      rw [skipSpace_writeFields, hfields, limited_bind]
      cases firstFieldExcess? limits (field :: fields) <;> rfl

end

end

theorem scanWhole_write (limits : Limits) (v : Json) :
    scanWhole limits (write spaced v) = limited (excess? limits v) (Document.ofJson v) := by
  have hread := scanDocument_write (write spaced v).length limits [] rfl v le_rfl
  have hspace := skipSpace_write v []
  obtain ⟨c, cs, htext, hc⟩ := exists_write_eq_cons v
  have hmark : (write spaced v).head? ≠ some (Char.ofNat 0xFEFF) := by
    rw [htext, List.head?_cons]
    exact fun h => ne_of_isStart hc rfl (Option.some.inj h)
  rw [List.append_nil] at hread hspace
  rw [scanWhole, if_neg hmark, hspace, hread, limited_bind]
  cases excess? limits v <;> rfl

/-- A written value is read as its document, or refused for the first thing that is beyond the
limits of the reader. -/
theorem read_write (limits : Limits) (v : Json) :
    Document.read limits (write spaced v) =
      match excess? limits v with
      | none => .ok (Document.ofJson v)
      | some excess => .error (.limit excess) := by
  rw [Document.read, scanWhole_write]
  cases excess? limits v <;> rfl

/-- Whether a list of characters has none of the controls at the beginning of ASCII. -/
def Printable (cs : List Char) : Prop :=
  ∀ c ∈ cs, ' ' ≤ c

instance (cs : List Char) : Decidable (Printable cs) :=
  List.decidableBAll _ cs

theorem Printable.cons {c : Char} {cs : List Char} (hc : ' ' ≤ c) (hcs : Printable cs) :
    Printable (c :: cs) :=
  List.forall_mem_cons.2 ⟨hc, hcs⟩

theorem Printable.append {cs ds : List Char} (hcs : Printable cs) (hds : Printable ds) :
    Printable (cs ++ ds) :=
  List.forall_mem_append.2 ⟨hcs, hds⟩

theorem printable_hex (width n : Nat) : Printable (Text.hex width n) := by
  induction width generalizing n with
  | zero => exact fun c hc => absurd hc List.not_mem_nil
  | succ width ih =>
    have hall : ∀ k < 16, ' ' ≤ Text.hexDigit k := by decide
    exact (ih (n / 16)).append (.cons (hall _ (Nat.mod_lt n (by decide))) (by decide))

theorem printable_unitEscape (n : Nat) : Printable (unitEscape n) :=
  .cons (by decide) (.cons (by decide) (printable_hex 4 n))

theorem printable_escapeChar (c : Char) : Printable (escapeChar c) := by
  unfold escapeChar
  split_ifs with _ _ _ _ _ _ _ hprintable
  · decide
  · decide
  · decide
  · decide
  · decide
  · decide
  · decide
  · rw [Bool.and_eq_true, decide_eq_true_eq] at hprintable
    exact .cons hprintable.1 (by decide)
  · exact printable_unitEscape _
  · exact (printable_unitEscape _).append (printable_unitEscape _)

theorem printable_escaped (s : LooseText) : Printable (escaped s) := by
  intro c hc
  obtain ⟨p, -, hp⟩ := List.mem_flatMap.1 hc
  cases p with
  | char d => exact printable_escapeChar d c hp
  | half offset => exact printable_unitEscape _ c hp

theorem printable_quote (s : LooseText) : Printable (quote s) :=
  .append (.cons (by decide) (printable_escaped s)) (.cons (by decide) (by decide))

theorem printable_of_isMark {c : Char} (h : Decimal.isMark c = true) : ' ' ≤ c := by
  rw [Decimal.isMark, Bool.or_eq_true, Char.isDigit, Bool.and_eq_true, decide_eq_true_eq,
    List.contains_iff_mem] at h
  rcases h with h | h
  · exact Char.le_trans (show ' ' ≤ '0' by decide) h.1
  · have hall : Printable "abcdef*.+-".toList := by decide
    exact hall c h

theorem printable_intText (n : Int) : Printable (intText n) :=
  fun _ hc => printable_of_isMark (isMark_of_mem_intText hc)

theorem printable_floatText (x : Binary64) : Printable (floatText x) := by
  intro c hc
  rcases Binary64.isMark_of_mem_floatText hc with hc | hc | hc
  · exact printable_of_isMark hc
  · have hall : Printable "Infinity".toList := by decide
    exact hall c hc
  · have hall : Printable "NaN".toList := by decide
    exact hall c hc

mutual

theorem printable_write : (v : Json) → Printable (write spaced v)
  | .null => by decide
  | .bool b => by cases b <;> decide
  | .int n => printable_intText n
  | .float x => printable_floatText x
  | .str s => printable_quote s
  | .arr items => by
    rw [write]
    exact .append (.cons (by decide) (printable_writeItems items)) (by decide)
  | .obj fields => by
    rw [write]
    exact .append (.cons (by decide) (printable_writeFields fields)) (by decide)

theorem printable_writeItems : (items : List Json) → Printable (writeItems spaced items)
  | [] => by decide
  | [v] => printable_write v
  | v :: w :: items => by
    rw [writeItems]
    exact .append (.append (printable_write v) (by decide)) (printable_writeItems (w :: items))

theorem printable_writeFields : (fields : List (LooseText × Json)) →
    Printable (writeFields spaced fields)
  | [] => by decide
  | [(name, v)] => .append (.append (printable_quote name) (by decide)) (printable_write v)
  | (name, v) :: field :: fields => by
    rw [writeFields]
    exact .append (.append (.append (.append (printable_quote name) (by decide))
      (printable_write v)) (by decide)) (printable_writeFields (field :: fields))

end

theorem beforeNul_storedText (v : Json) : Text.beforeNul (storedText v) = write spaced v := by
  rw [Text.beforeNul, storedText, String.toList_ofList, List.takeWhile_eq_self_iff]
  intro c hc
  rw [decide_eq_true_eq]
  rintro rfl
  exact absurd (printable_write v _ hc) (by decide)

end Json

end VersionedGraph
