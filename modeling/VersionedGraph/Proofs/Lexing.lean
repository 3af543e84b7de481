import VersionedGraph.Clause.Reader

/-!
# How the text of a clause is cut

A text is cut where a sign, a blank or a word ends, so the text of a condition is cut piece by
piece, whatever stands behind it.
-/

namespace VersionedGraph

namespace Statement

theorem scan_token {c : Char} {rest : List Char} {kind : TokenKind} {length : Nat}
    (h : firstToken c rest = (kind, length)) (hgap : kind ≠ .gap) (hknown : kind ≠ .unknown) :
    scan (c :: rest) =
      ⟨kind, String.ofList (c :: rest.take length)⟩ :: scan (rest.drop length) := by
  rw [scan]
  simp only [h]

theorem scan_gap {c : Char} {rest : List Char} {length : Nat}
    (h : firstToken c rest = (.gap, length)) : scan (c :: rest) = scan (rest.drop length) := by
  rw [scan]
  simp only [h]

theorem runLength_append {p : Char → Bool} {cs rest : List Char} (hcs : cs.all p = true)
    (hrest : rest.head?.all (!p ·) = true) : runLength p (cs ++ rest) = cs.length := by
  have hstop : rest.takeWhile p = [] := by
    cases rest with
    | nil => rfl
    | cons c rest => exact List.takeWhile_cons_of_neg (by simpa using hrest)
  unfold runLength
  rw [List.takeWhile_append_of_pos (by simpa using hcs), hstop, List.append_nil]

theorem runLength_eq_zero {p : Char → Bool} {rest : List Char}
    (hrest : rest.head?.all (!p ·) = true) : runLength p rest = 0 := by
  rw [← List.nil_append rest]
  exact runLength_append rfl hrest

end Statement

namespace Clause

open Statement

theorem lex_nil : lex [] = [] := by
  rw [lex, scan, List.map_nil]

theorem lex_token {c : Char} {rest : List Char} {kind : TokenKind} {length : Nat}
    (h : firstToken c rest = (kind, length)) (hgap : kind ≠ .gap) (hknown : kind ≠ .unknown) :
    lex (c :: rest) = Lexeme.ofToken ⟨kind, String.ofList (c :: rest.take length)⟩ ::
      lex (rest.drop length) := by
  rw [lex, scan_token h hgap hknown]
  rfl

theorem lex_sign {c : Char} {rest : List Char} (length : Nat)
    (h : firstToken c rest = (.sign, length)) :
    lex (c :: rest) = Lexeme.ofSign (String.ofList (c :: rest.take length)) ::
      lex (rest.drop length) :=
  lex_token h (by decide) (by decide)

theorem lex_opening (rest : List Char) : lex ('(' :: rest) = .opening :: lex rest :=
  lex_sign 0 rfl

theorem lex_closing (rest : List Char) : lex (')' :: rest) = .closing :: lex rest :=
  lex_sign 0 rfl

theorem lex_comma (rest : List Char) : lex (',' :: rest) = .comma :: lex rest :=
  lex_sign 0 rfl

theorem lex_mark {rest : List Char} (h : rest.head?.all (!·.isDigit) = true) :
    lex ('?' :: rest) = .mark :: lex rest := by
  have hfirst : firstToken '?' rest = (.parameter, 0) :=
    congrArg (Prod.mk TokenKind.parameter) (runLength_eq_zero h)
  exact lex_token hfirst (by decide) (by decide)

theorem lex_blank {rest : List Char} (h : rest.head?.all (!Text.isAsciiBlank ·) = true) :
    lex (' ' :: rest) = lex rest := by
  have hfirst : firstToken ' ' rest = (.gap, 0) :=
    congrArg (Prod.mk TokenKind.gap) (runLength_eq_zero h)
  rw [lex, scan_gap hfirst]
  rfl

theorem lex_word {w : String} {c : Char} {cs rest : List Char} (hw : w.toList = c :: cs)
    (hfirst : ∀ rest, firstToken c rest = (.word, runLength isWordChar rest))
    (hword : cs.all isWordChar = true) (hrest : rest.head?.all (!isWordChar ·) = true) :
    lex (w.toList ++ rest) = Lexeme.ofToken ⟨.word, w⟩ :: lex rest := by
  have hlength := hfirst (cs ++ rest)
  rw [runLength_append hword hrest] at hlength
  rw [hw, List.cons_append, lex_token hlength (by decide) (by decide), List.take_left,
    List.drop_left, ← hw, String.ofList_toList]

theorem lex_keyword (w : Keyword) {rest : List Char}
    (hrest : rest.head?.all (!isWordChar ·) = true) :
    lex (w.text.toList ++ rest) = .keyword w :: lex rest := by
  have hmeans : Lexeme.ofToken ⟨.word, w.text⟩ = .keyword w := by
    cases w <;> decide +kernel
  rw [← hmeans]
  cases w <;> exact lex_word rfl (fun _ => rfl) (by decide) hrest

/-- The words of the clauses that are no keywords. -/
theorem ofToken_word {w : String}
    (h : w ∈ ["e", "l", "json_extract", "properties", "is_latest", "acl_id", "INTEGER", "REAL",
      "LOWER", "UPPER"]) :
    Lexeme.ofToken ⟨.word, w⟩ = .name w := by
  revert w
  decide +kernel

/-- A word that is no keyword is a name. -/
theorem lex_name {w : String} {c : Char} {cs rest : List Char} (hw : w.toList = c :: cs)
    (hfirst : ∀ rest, firstToken c rest = (.word, runLength isWordChar rest))
    (hword : cs.all isWordChar = true) (hname : Lexeme.ofToken ⟨.word, w⟩ = .name w)
    (hrest : rest.head?.all (!isWordChar ·) = true) :
    lex (w.toList ++ rest) = .name w :: lex rest := by
  rw [lex_word hw hfirst hword hrest, hname]

theorem lex_rowName (k : Kind) (rest : List Char) :
    lex (k.rowName.toList ++ '.' :: rest) = .name k.rowName :: lex ('.' :: rest) := by
  cases k
  · exact lex_name (w := "e") rfl (fun _ => rfl) (by decide) (ofToken_word (by simp)) rfl
  · exact lex_name (w := "l") rfl (fun _ => rfl) (by decide) (ofToken_word (by simp)) rfl

theorem lex_extraction (k : Kind) (rest : List Char) :
    lex ((Condition.Reading.asIs.predicate k.rowName).toList ++ rest) =
      .name "json_extract" :: .opening :: .name k.rowName :: .dot :: .name "properties" :: .comma ::
        .mark :: .closing :: lex rest := by
  have htext : (Condition.Reading.asIs.predicate k.rowName).toList ++ rest =
      "json_extract".toList ++ '(' :: (k.rowName.toList ++ '.' :: ("properties".toList ++
        ',' :: ' ' :: '?' :: ')' :: rest)) := by
    cases k <;> rfl
  have hfunction {rest : List Char} : lex ("json_extract".toList ++ '(' :: rest) =
      .name "json_extract" :: lex ('(' :: rest) :=
    lex_name rfl (fun _ => rfl) (by decide) (ofToken_word (by simp)) rfl
  have hcolumn {rest : List Char} : lex ("properties".toList ++ ',' :: rest) =
      .name "properties" :: lex (',' :: rest) :=
    lex_name rfl (fun _ => rfl) (by decide) (ofToken_word (by simp)) rfl
  have hdot {rest : List Char} : lex ('.' :: ("properties".toList ++ rest)) =
      .dot :: lex ("properties".toList ++ rest) :=
    lex_sign 0 rfl
  rw [htext, hfunction, lex_opening, lex_rowName, hdot, hcolumn, lex_comma, lex_blank rfl,
    lex_mark rfl, lex_closing]

theorem lex_comparison (c : Condition.Comparison) (rest : List Char) :
    lex (c.sign.toList ++ ' ' :: rest) = .comparison c :: lex (' ' :: rest) := by
  cases c
  · exact lex_sign 0 rfl
  · exact lex_sign 1 rfl
  · exact lex_sign 0 rfl
  · exact lex_sign 0 rfl
  · exact lex_sign 1 rfl
  · exact lex_sign 1 rfl

end Clause

end VersionedGraph
