import VersionedGraph.Proofs.Lexing
import VersionedGraph.Proofs.Path

/-!
# How comparisons are read

The text of a test is read as the clause that the test stands for (`Condition.Test.clause`): the
first of the bound values is the path, the others are what the value there is compared with, and
what is behind the text and behind these values is left to be read.
-/

namespace VersionedGraph

namespace Condition

open Clause (Operand)

/-- The value at a path as it is compared. -/
def Reading.operand (path : Path) : Reading → Operand
  | asIs => .extract path
  | integer => .cast .integer (.extract path)
  | real => .cast .real (.extract path)

def Test.clause (path : Path) : Test → Clause
  | compare reading comparison operand =>
    .compare comparison (reading.operand path) (.scalar operand)
  | like .unchanged pattern => .like (.extract path) (.scalar (.text pattern))
  | like folding pattern =>
    .like (.fold folding (.extract path)) (.fold folding (.scalar (.text pattern)))
  | member reading negated operands =>
    .member negated (reading.operand path) (operands.map Operand.scalar)
  | isNull negated => .isNull negated (.extract path)

/-- A list of values is not empty where one is asked for. -/
def Test.Written : Test → Prop
  | member _ _ operands => operands ≠ []
  | _ => True

mutual

/-- The clause that the text of a condition is read as. -/
def clause : Condition → Clause
  | leaf path test => test.clause path
  | all children => Clause.gather .all (clauses children)
  | any children => Clause.gather .any (clauses children)

def clauses : List Condition → List Clause
  | [] => []
  | c :: rest => clause c :: clauses rest

end

theorem clauses_eq_map (cs : List Condition) : clauses cs = cs.map clause := by
  induction cs with
  | nil => rfl
  | cons c cs ih => rw [clauses, List.map_cons, ih]

/-- A condition that can be written: its paths are of names and positions, and nothing in it is
empty. -/
inductive Written : Condition → Prop where
  | leaf {path : Path} {test : Test} (hpath : path.Named) (htest : test.Written) :
    Written (.leaf path test)
  | all {children : List Condition} (hne : children ≠ []) (h : ∀ c ∈ children, Written c) :
    Written (.all children)
  | any {children : List Condition} (hne : children ≠ []) (h : ∀ c ∈ children, Written c) :
    Written (.any children)

end Condition

namespace Clause

open Statement

/-- A text that goes on with a closing parenthesis, if it goes on. -/
def Closed (rest : List Char) : Prop :=
  rest = [] ∨ ∃ others, rest = ')' :: others

theorem Closed.head {rest : List Char} (h : Closed rest) {p : Char → Bool} (hp : p ')' = true) :
    rest.head?.all p = true := by
  rcases h with rfl | ⟨others, rfl⟩
  · rfl
  · exact hp

theorem Closed.head_lex_ne {rest : List Char} (h : Closed rest) (w : Keyword) :
    (lex rest).head? ≠ some (.keyword w) := by
  rcases h with rfl | ⟨others, rfl⟩
  · rw [lex_nil]
    exact nofun
  · rw [lex_closing]
    exact nofun

variable {path : Path} {rest : List Char} {values : List Scalar}

theorem readOperand_extraction (k : Kind) (hpath : path.Named) :
    readOperand k.rowName (lex ((Condition.Reading.asIs.predicate k.rowName).toList ++ rest))
        (.text path.canonical :: values) =
      some (.extract path, ⟨lex rest, values⟩) := by
  have hfunction : Text.lowerAscii "json_extract" = "json_extract" := Text.lowerAscii_eq rfl
  rw [lex_extraction, readOperand, if_pos hfunction, readExtract, readPath_canonical hpath]
  simp

theorem readOperand_mark (rowName : String) {v : Scalar}
    (hrest : rest.head?.all (!·.isDigit) = true) :
    readOperand rowName (lex ('?' :: rest)) (v :: values) =
      some (.scalar v, ⟨lex rest, values⟩) := by
  rw [lex_mark hrest, readOperand]

theorem readOperand_cast (k : Kind) (type : String) (reading : Condition.Reading)
    (hpath : path.Named) (htype : castReading? type = some reading)
    (hlex : lex (' ' :: (type.toList ++ ')' :: rest)) = .name type :: lex (')' :: rest)) :
    readOperand k.rowName
        (lex (Keyword.cast.text.toList ++ '(' ::
          ((Condition.Reading.asIs.predicate k.rowName).toList ++
            ' ' :: (Keyword.as.text.toList ++ ' ' :: (type.toList ++ ')' :: rest)))))
        (.text path.canonical :: values) =
      some (.cast reading (.extract path), ⟨lex rest, values⟩) := by
  rw [lex_keyword .cast rfl, lex_opening, readOperand, readOperand_extraction k hpath,
    lex_blank rfl, lex_keyword .as rfl, hlex, lex_closing]
  dsimp only
  rw [htype]
  rfl

theorem readOperand_reading (k : Kind) (hpath : path.Named) (reading : Condition.Reading) :
    readOperand k.rowName (lex ((reading.predicate k.rowName).toList ++ rest))
        (.text path.canonical :: values) =
      some (reading.operand path, ⟨lex rest, values⟩) := by
  cases reading with
  | asIs => exact readOperand_extraction k hpath
  | integer =>
    have htext : (Condition.Reading.integer.predicate k.rowName).toList ++ rest =
        Keyword.cast.text.toList ++ '(' :: ((Condition.Reading.asIs.predicate k.rowName).toList ++
          ' ' :: (Keyword.as.text.toList ++ ' ' :: ("INTEGER".toList ++ ')' :: rest))) := by
      change ("CAST(json_extract(" ++ k.rowName ++ ".properties, ?) AS INTEGER)").toList ++ rest =
        _ ++ '(' :: (("json_extract(" ++ k.rowName ++ ".properties, ?)").toList ++ _)
      simp [Keyword.text]
    rw [htext, readOperand_cast k "INTEGER" .integer hpath castReading?_integer]
    · rfl
    · rw [lex_blank rfl]
      exact lex_name rfl (fun _ => rfl) (by decide) (ofToken_word (by simp)) rfl
  | real =>
    have htext : (Condition.Reading.real.predicate k.rowName).toList ++ rest =
        Keyword.cast.text.toList ++ '(' :: ((Condition.Reading.asIs.predicate k.rowName).toList ++
          ' ' :: (Keyword.as.text.toList ++ ' ' :: ("REAL".toList ++ ')' :: rest))) := by
      change ("CAST(json_extract(" ++ k.rowName ++ ".properties, ?) AS REAL)").toList ++ rest =
        _ ++ '(' :: (("json_extract(" ++ k.rowName ++ ".properties, ?)").toList ++ _)
      simp [Keyword.text]
    rw [htext, readOperand_cast k "REAL" .real hpath castReading?_real]
    · rfl
    · rw [lex_blank rfl]
      exact lex_name rfl (fun _ => rfl) (by decide) (ofToken_word (by simp)) rfl

/-- The name of a function that brings a text into one case of letters. -/
structure Folds (function : String) (folding : Condition.Folding) : Prop where
  means : folding? function = some folding
  ne : Text.lowerAscii function ≠ "json_extract"
  start : ∀ rest, (function.toList ++ '(' :: rest).head?.all (!Text.isAsciiBlank ·) = true
  lex : ∀ rest, lex (function.toList ++ '(' :: rest) = .name function :: lex ('(' :: rest)
  predicate : ∀ rowName pattern, ((Condition.Test.like folding pattern).predicate rowName).toList =
    function.toList ++ '(' :: ((Condition.Reading.asIs.predicate rowName).toList ++
      ')' :: ' ' :: (Keyword.like.text.toList ++ ' ' :: (function.toList ++ ['(', '?', ')'])))

theorem folds_lower : Folds "LOWER" .lower where
  means := folding?_lower
  ne := by
    have hlower : Text.lowerAscii "LOWER" = "lower" := Text.lowerAscii_eq rfl
    rw [hlower]
    decide
  start _ := rfl
  lex _ := lex_name rfl (fun _ => rfl) (by decide) (ofToken_word (by simp)) rfl
  predicate rowName pattern := by
    change ("LOWER(" ++ Condition.Reading.asIs.predicate rowName ++ ") LIKE LOWER(?)").toList = _
    simp [Keyword.text]

theorem folds_upper : Folds "UPPER" .upper where
  means := folding?_upper
  ne := by
    have hlower : Text.lowerAscii "UPPER" = "upper" := Text.lowerAscii_eq rfl
    rw [hlower]
    decide
  start _ := rfl
  lex _ := lex_name rfl (fun _ => rfl) (by decide) (ofToken_word (by simp)) rfl
  predicate rowName pattern := by
    change ("UPPER(" ++ Condition.Reading.asIs.predicate rowName ++ ") LIKE UPPER(?)").toList = _
    simp [Keyword.text]

theorem Folds.readOperand {function rowName : String} {folding : Condition.Folding}
    (hfolds : Folds function folding) {operand : Operand} {text : List Char}
    {values' : List Scalar} (h : readOperand rowName (Clause.lex (text ++ ')' :: rest)) values =
      some (operand, ⟨Clause.lex (')' :: rest), values'⟩)) :
    Clause.readOperand rowName (Clause.lex (function.toList ++ '(' :: (text ++ ')' :: rest)))
        values = some (.fold folding operand, ⟨Clause.lex rest, values'⟩) := by
  rw [hfolds.lex, lex_opening, Clause.readOperand, if_neg hfolds.ne, hfolds.means, h, lex_closing]

/-- An operand that begins a clause is followed by what it is compared with. -/
theorem readSingle_of_operand {rowName : String} {inner : Reader Clause} {source source' : Source}
    {operand : Operand}
    (h : readOperand rowName source.lexemes source.values = some (operand, source')) :
    readSingle rowName inner source = readComparison rowName operand source' := by
  unfold readSingle
  split
  · next others hopening =>
    rw [hopening] at h
    simp [readOperand] at h
  · rw [h]
    rfl

theorem readSingle_compare (k : Kind) (inner : Reader Clause) (hpath : path.Named)
    (hrest : Closed rest) (reading : Condition.Reading) (comparison : Condition.Comparison)
    (operand : Scalar) :
    readSingle k.rowName inner ⟨lex (((Condition.Test.compare reading comparison operand).predicate
        k.rowName).toList ++ rest), .text path.canonical :: operand :: values⟩ =
      some (.compare comparison (reading.operand path) (.scalar operand), ⟨lex rest, values⟩) := by
  have htext : ((Condition.Test.compare reading comparison operand).predicate k.rowName).toList ++
      rest = (reading.predicate k.rowName).toList ++
        ' ' :: (comparison.sign.toList ++ ' ' :: '?' :: rest) := by
    change (reading.predicate k.rowName ++ " " ++ comparison.sign ++ " ?").toList ++ rest = _
    simp
  have hsign : (comparison.sign.toList ++ ' ' :: '?' :: rest).head?.all
      (!Text.isAsciiBlank ·) = true := by
    cases comparison <;> rfl
  rw [htext, readSingle_of_operand (readOperand_reading k hpath reading), lex_blank hsign,
    lex_comparison, lex_blank rfl, readComparison, readOperand_mark _ (hrest.head rfl)]
  rfl

theorem readSingle_isNull (k : Kind) (inner : Reader Clause) (hpath : path.Named)
    (hrest : Closed rest) (negated : Bool) :
    readSingle k.rowName inner ⟨lex (((Condition.Test.isNull negated).predicate k.rowName).toList ++
        rest), .text path.canonical :: values⟩ =
      some (.isNull negated (.extract path), ⟨lex rest, values⟩) := by
  cases negated with
  | false =>
    have htext : ((Condition.Test.isNull false).predicate k.rowName).toList ++ rest =
        (Condition.Reading.asIs.predicate k.rowName).toList ++
          ' ' :: (Keyword.is.text.toList ++ ' ' :: (Keyword.null.text.toList ++ rest)) := by
      change (Condition.Reading.asIs.predicate k.rowName ++ " " ++ "IS NULL").toList ++ rest = _
      simp [Keyword.text]
    rw [htext, readSingle_of_operand (readOperand_extraction k hpath), lex_blank rfl,
      lex_keyword .is rfl, lex_blank rfl, lex_keyword .null (hrest.head rfl), readComparison]
  | true =>
    have htext : ((Condition.Test.isNull true).predicate k.rowName).toList ++ rest =
        (Condition.Reading.asIs.predicate k.rowName).toList ++
          ' ' :: (Keyword.is.text.toList ++ ' ' :: (Keyword.not.text.toList ++
            ' ' :: (Keyword.null.text.toList ++ rest))) := by
      change (Condition.Reading.asIs.predicate k.rowName ++ " " ++ "IS NOT NULL").toList ++ rest = _
      simp [Keyword.text]
    rw [htext, readSingle_of_operand (readOperand_extraction k hpath), lex_blank rfl,
      lex_keyword .is rfl, lex_blank rfl, lex_keyword .not rfl, lex_blank rfl,
      lex_keyword .null (hrest.head rfl), readComparison]

theorem readSingle_like (k : Kind) (inner : Reader Clause) (hpath : path.Named)
    (hrest : Closed rest) (pattern : LooseText) :
    readSingle k.rowName inner ⟨lex (((Condition.Test.like .unchanged pattern).predicate
        k.rowName).toList ++ rest), .text path.canonical :: .text pattern :: values⟩ =
      some (.like (.extract path) (.scalar (.text pattern)), ⟨lex rest, values⟩) := by
  have htext : ((Condition.Test.like .unchanged pattern).predicate k.rowName).toList ++ rest =
      (Condition.Reading.asIs.predicate k.rowName).toList ++
        ' ' :: (Keyword.like.text.toList ++ ' ' :: '?' :: rest) := by
    change (Condition.Reading.asIs.predicate k.rowName ++ " LIKE ?").toList ++ rest = _
    simp [Keyword.text]
  rw [htext, readSingle_of_operand (readOperand_extraction k hpath), lex_blank rfl,
    lex_keyword .like rfl, lex_blank rfl, readComparison, readOperand_mark _ (hrest.head rfl)]
  rfl

theorem Folds.readSingle_like {function : String} {folding : Condition.Folding}
    (hfolds : Folds function folding) (k : Kind) (inner : Reader Clause) (hpath : path.Named)
    (pattern : LooseText) :
    readSingle k.rowName inner ⟨Clause.lex (((Condition.Test.like folding pattern).predicate
        k.rowName).toList ++ rest), .text path.canonical :: .text pattern :: values⟩ =
      some (.like (.fold folding (.extract path)) (.fold folding (.scalar (.text pattern))),
        ⟨Clause.lex rest, values⟩) := by
  have htext : ((Condition.Test.like folding pattern).predicate k.rowName).toList ++ rest =
      function.toList ++ '(' :: ((Condition.Reading.asIs.predicate k.rowName).toList ++
        ')' :: ' ' :: (Keyword.like.text.toList ++
          ' ' :: (function.toList ++ '(' :: (['?'] ++ ')' :: rest)))) := by
    simp [hfolds.predicate]
  rw [htext, readSingle_of_operand (hfolds.readOperand (readOperand_extraction k hpath)),
    lex_blank rfl, lex_keyword .like rfl, lex_blank (hfolds.start _), readComparison,
    hfolds.readOperand (readOperand_mark _ rfl)]
  rfl

def marks (operands : List Scalar) : List Char :=
  (String.intercalate ", " (operands.map fun _ => "?")).toList

theorem marks_cons_cons (v w : Scalar) (operands : List Scalar) :
    marks (v :: w :: operands) = '?' :: ',' :: ' ' :: marks (w :: operands) := by
  simp [marks]

theorem head_marks (v : Scalar) (operands : List Scalar) :
    ∃ cs, marks (v :: operands) = '?' :: cs := by
  cases operands with
  | nil => exact ⟨[], by simp [marks]⟩
  | cons w operands => exact ⟨_, marks_cons_cons v w operands⟩

theorem readItems_marks (v : Scalar) (operands : List Scalar) :
    readItems (lex (marks (v :: operands) ++ ')' :: rest)) (v :: operands ++ values) =
      some ((v :: operands).map Operand.scalar, ⟨lex rest, values⟩) := by
  induction operands generalizing v with
  | nil =>
    have hmark : marks [v] = ['?'] := by simp [marks]
    rw [hmark, List.singleton_append, lex_mark rfl, lex_closing]
    rfl
  | cons w operands ih =>
    obtain ⟨cs, hcs⟩ := head_marks w operands
    have hblank : (marks (w :: operands) ++ ')' :: rest).head?.all
        (!Text.isAsciiBlank ·) = true := by
      rw [hcs]
      rfl
    rw [marks_cons_cons, List.cons_append, List.cons_append, List.cons_append, lex_mark rfl,
      lex_comma, lex_blank hblank, List.cons_append, readItems, ih]
    rfl

theorem readSingle_member (k : Kind) (inner : Reader Clause) (hpath : path.Named)
    (reading : Condition.Reading) (negated : Bool) {operands : List Scalar} (hne : operands ≠ []) :
    readSingle k.rowName inner ⟨lex (((Condition.Test.member reading negated operands).predicate
        k.rowName).toList ++ rest), .text path.canonical :: (operands ++ values)⟩ =
      some (.member negated (reading.operand path) (operands.map Operand.scalar),
        ⟨lex rest, values⟩) := by
  obtain ⟨v, others, rfl⟩ := List.exists_cons_of_ne_nil hne
  cases negated with
  | false =>
    have htext : ((Condition.Test.member reading false (v :: others)).predicate
        k.rowName).toList ++ rest = (reading.predicate k.rowName).toList ++
          ' ' :: (Keyword.within.text.toList ++ ' ' :: '(' ::
            (marks (v :: others) ++ ')' :: rest)) := by
      change (reading.predicate k.rowName ++ " " ++ "IN" ++ " (" ++
        String.intercalate ", " ((v :: others).map fun _ => "?") ++ ")").toList ++ rest = _
      simp [Keyword.text, marks]
    rw [htext, readSingle_of_operand (readOperand_reading k hpath reading), lex_blank rfl,
      lex_keyword .within rfl, lex_blank rfl, lex_opening, readComparison, readItems_marks]
    rfl
  | true =>
    have htext : ((Condition.Test.member reading true (v :: others)).predicate
        k.rowName).toList ++ rest = (reading.predicate k.rowName).toList ++
          ' ' :: (Keyword.not.text.toList ++ ' ' :: (Keyword.within.text.toList ++ ' ' :: '(' ::
            (marks (v :: others) ++ ')' :: rest))) := by
      change (reading.predicate k.rowName ++ " " ++ "NOT IN" ++ " (" ++
        String.intercalate ", " ((v :: others).map fun _ => "?") ++ ")").toList ++ rest = _
      simp [Keyword.text, marks]
    rw [htext, readSingle_of_operand (readOperand_reading k hpath reading), lex_blank rfl,
      lex_keyword .not rfl, lex_blank rfl, lex_keyword .within rfl, lex_blank rfl, lex_opening,
      readComparison, readItems_marks]
    rfl

theorem readSingle_test (k : Kind) (inner : Reader Clause) (hpath : path.Named)
    {test : Condition.Test} (htest : test.Written) (hrest : Closed rest) :
    readSingle k.rowName inner ⟨lex ((test.predicate k.rowName).toList ++ rest),
        .text path.canonical :: (test.operands ++ values)⟩ =
      some (test.clause path, ⟨lex rest, values⟩) := by
  cases test with
  | compare reading comparison operand =>
    exact readSingle_compare k inner hpath hrest reading comparison operand
  | member reading negated operands => exact readSingle_member k inner hpath reading negated htest
  | isNull negated => exact readSingle_isNull k inner hpath hrest negated
  | like folding pattern =>
    cases folding with
    | unchanged => exact readSingle_like k inner hpath hrest pattern
    | lower => exact folds_lower.readSingle_like k inner hpath pattern
    | upper => exact folds_upper.readSingle_like k inner hpath pattern

end Clause

end VersionedGraph
