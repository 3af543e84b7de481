import Mathlib.Algebra.Group.Nat.Defs
import Mathlib.Tactic.SplitIfs
import VersionedGraph.Json.Atom
import VersionedGraph.Json.Reader
import VersionedGraph.Json.Writer

/-!
# Quoted texts are read back

A text that is written between quotes is found up to its closing quote whatever stands behind it
(`Json.scanText_quoted`), and what is found stands for the text itself, provided that it is a text
of characters (`Json.unquote_escaped`). So two such texts are written alike, with anything behind
them, only if they are the same (`Json.quote_inj`).
-/

namespace VersionedGraph

theorem Text.hexValues?_hex {width n : Nat} (h : n < 16 ^ width) :
    Text.hexValues? (Text.hex width n) = some n := by
  induction width generalizing n with
  | zero =>
    have hzero : n = 0 := by simpa using h
    rw [hzero]
    rfl
  | succ width ih =>
    have hfront : n / 16 < 16 ^ width := by
      rw [Nat.pow_succ] at h
      omega
    have hlast := Text.hexValue?_hexDigit (n := n % 16) (by omega)
    have hvalues := ih hfront
    unfold Text.hexValues? at hvalues ⊢
    rw [Text.hex, List.foldl_append, hvalues]
    simp only [List.foldl_cons, List.foldl_nil, hlast, Option.bind_eq_bind, Option.bind_some,
      Option.pure_def, Option.some.injEq]
    omega

namespace Json

/-- The ways in which a character is written between quotes: by a letter behind a backslash, as
itself, as a unit of sixteen bits, or as a pair of them. -/
inductive Escape (c : Char) : List Char → Prop where
  | letter {e : Char} (h : escapeLetter? e = some c) : Escape c ['\\', e]
  | plain (quote : c ≠ '"') (backslash : c ≠ '\\') (printable : ¬c < ' ') : Escape c [c]
  | unit (h : c.toNat < 0x10000) : Escape c (unitEscape c.toNat)
  | pair (h : 0x10000 ≤ c.toNat) :
    Escape c (unitEscape (0xD800 + (c.toNat - 0x10000) / 0x400) ++
      unitEscape (0xDC00 + (c.toNat - 0x10000) % 0x400))

theorem escape_escapeChar (c : Char) : Escape c (escapeChar c) := by
  unfold escapeChar
  split_ifs with hquote hbackslash hline hreturn htab hfeed hback hprintable hbasic
  · exact .letter (by rw [hquote]; rfl)
  · exact .letter (by rw [hbackslash]; rfl)
  · exact .letter (by rw [hline]; rfl)
  · exact .letter (by rw [hreturn]; rfl)
  · exact .letter (by rw [htab]; rfl)
  · exact .letter (by rw [hfeed]; rfl)
  · exact .letter (by rw [hback]; rfl)
  · rw [Bool.and_eq_true, decide_eq_true_eq] at hprintable
    exact .plain hquote hbackslash (Char.not_lt.2 hprintable.1)
  · exact .unit hbasic
  · exact .pair (Nat.le_of_not_lt hbasic)

/-- The code of a character is no half of a surrogate pair. -/
theorem toNat_valid (c : Char) : c.toNat < 0xD800 ∨ 0xDFFF < c.toNat ∧ c.toNat < 0x110000 :=
  c.valid

theorem not_isHighSurrogate (c : Char) : isHighSurrogate c.toNat = false := by
  have hvalid := toNat_valid c
  simp only [isHighSurrogate, Bool.and_eq_false_iff, decide_eq_false_iff_not]
  omega

theorem ofNat_toNat (c : Char) : CodePoint.ofNat c.toNat = .char c := by
  have hvalid := toNat_valid c
  rw [CodePoint.ofNat, dif_neg (by omega), Char.ofNat_toNat]

theorem exists_unitEscape_eq {n : Nat} (h : n < 0x10000) :
    ∃ a b c d, unitEscape n = ['\\', 'u', a, b, c, d] ∧ Text.hexValues? [a, b, c, d] = some n :=
  ⟨_, _, _, _, rfl, @Text.hexValues?_hex 4 n h⟩

section

variable {opening rest body after : List Char}

theorem scanText_unitEscape {n : Nat} (h : n < 0x10000) (hne : rest ≠ [])
    (hrest : scanText opening rest = .ok (body, after)) :
    scanText opening (unitEscape n ++ rest) = .ok (unitEscape n ++ body, after) := by
  obtain ⟨e, rest, rfl⟩ := List.exists_cons_of_ne_nil hne
  obtain ⟨a, b, c, d, htext, hvalue⟩ := exists_unitEscape_eq h
  simp [htext, scanText, hvalue, hrest, bind, Except.bind, pure, Except.pure]

theorem scanText_escapeChar (c : Char) (hne : rest ≠ [])
    (hrest : scanText opening rest = .ok (body, after)) :
    scanText opening (escapeChar c ++ rest) = .ok (escapeChar c ++ body, after) := by
  have hescape := escape_escapeChar c
  generalize escapeChar c = text at hescape ⊢
  cases hescape with
  | @letter e h =>
    have hunit : e ≠ 'u' := by
      rintro rfl
      cases h
    simp [scanText, hunit, h, hrest, bind, Except.bind, pure, Except.pure]
  | plain quote backslash printable =>
    simp [scanText, backslash, printable, hrest, bind, Except.bind, pure, Except.pure]
  | unit h => exact scanText_unitEscape h hne hrest
  | pair h =>
    have hvalid := toNat_valid c
    rw [List.append_assoc, List.append_assoc]
    exact scanText_unitEscape (by omega) (by simp [unitEscape])
      (scanText_unitEscape (by omega) hne hrest)

/-- A quoted text is found up to its closing quote. -/
theorem scanText_quoted (s : LooseText) :
    scanText opening (s.points.flatMap escapePoint ++ '"' :: rest) =
      .ok (s.points.flatMap escapePoint, rest) := by
  induction s.points with
  | nil => simp [scanText]
  | cons p points ih =>
    rw [List.flatMap_cons, List.append_assoc]
    have hne : points.flatMap escapePoint ++ '"' :: rest ≠ [] := by simp
    cases p with
    | char c => exact scanText_escapeChar c hne ih
    | half offset => exact scanText_unitEscape (by omega) hne ih

theorem pieces_unitEscape {n : Nat} (h : n < 0x10000) :
    pieces (unitEscape n ++ rest) = .unit n :: pieces rest := by
  obtain ⟨a, b, c, d, htext, hvalue⟩ := exists_unitEscape_eq h
  simp [htext, pieces, hvalue]

theorem joinPieces_unit {n : Nat} (h : isHighSurrogate n = false) (others : List Piece) :
    joinPieces (.unit n :: others) = .ofNat n :: joinPieces others := by
  cases others with
  | nil => rfl
  | cons piece others => cases piece <;> simp [joinPieces, h]

theorem joinPieces_escapeChar (c : Char) :
    joinPieces (pieces (escapeChar c ++ rest)) = .char c :: joinPieces (pieces rest) := by
  have hescape := escape_escapeChar c
  generalize escapeChar c = text at hescape ⊢
  cases hescape with
  | @letter e h =>
    have hunit : e ≠ 'u' := by
      rintro rfl
      cases h
    simp [pieces, joinPieces, hunit, h]
  | plain quote backslash printable => simp [pieces, joinPieces, backslash]
  | unit h => rw [pieces_unitEscape h, joinPieces_unit (not_isHighSurrogate c), ofNat_toNat]
  | pair h =>
    have hvalid := toNat_valid c
    have hhigh : isHighSurrogate (0xD800 + (c.toNat - 0x10000) / 0x400) = true := by
      simp only [isHighSurrogate, Bool.and_eq_true, decide_eq_true_eq]
      omega
    have hlow : isLowSurrogate (0xDC00 + (c.toNat - 0x10000) % 0x400) = true := by
      simp only [isLowSurrogate, Bool.and_eq_true, decide_eq_true_eq]
      omega
    have hjoined : joinSurrogates (0xD800 + (c.toNat - 0x10000) / 0x400)
        (0xDC00 + (c.toNat - 0x10000) % 0x400) = c := by
      have hvalue : 0x10000 + (0xD800 + (c.toNat - 0x10000) / 0x400 - 0xD800) * 0x400 +
          (0xDC00 + (c.toNat - 0x10000) % 0x400 - 0xDC00) = c.toNat := by
        omega
      rw [joinSurrogates, hvalue, Char.ofNat_toNat]
    rw [List.append_assoc, pieces_unitEscape (by omega), pieces_unitEscape (by omega), joinPieces,
      if_pos (by rw [hhigh, hlow]; rfl), hjoined]

/-- What is between the quotes of a text of characters stands for the text. -/
theorem unquote_escaped (s : String) :
    unquote ((LooseText.ofString s).points.flatMap escapePoint) = LooseText.ofString s := by
  unfold unquote LooseText.ofString
  dsimp only
  congr 1
  induction s.toList with
  | nil => rfl
  | cons c cs ih =>
    rw [List.map_cons, List.flatMap_cons, escapePoint, joinPieces_escapeChar, ih]

/-- Of two quoted texts with anything behind them, both are told by the whole. -/
theorem quote_inj {s t : String} {rest' : List Char}
    (h : quote s ++ rest = quote t ++ rest') : s = t ∧ rest = rest' := by
  have hbody : (LooseText.ofString s).points.flatMap escapePoint ++ '"' :: rest =
      (LooseText.ofString t).points.flatMap escapePoint ++ '"' :: rest' := by
    simpa [quote] using h
  have hread : scanText [] ((LooseText.ofString s).points.flatMap escapePoint ++ '"' :: rest) =
      .ok ((LooseText.ofString s).points.flatMap escapePoint, rest) :=
    scanText_quoted s
  rw [hbody, scanText_quoted, Except.ok.injEq, Prod.mk.injEq] at hread
  refine ⟨?_, hread.2.symm⟩
  rw [← LooseText.ofString_inj, ← unquote_escaped s, ← unquote_escaped t, hread.1]

end

end Json

end VersionedGraph
