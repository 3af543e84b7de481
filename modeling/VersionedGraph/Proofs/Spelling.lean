import Mathlib.Data.List.Chain
import Mathlib.Data.List.Infix
import VersionedGraph.Proofs.Path

/-!
# How paths are spelled

Behind its root sign a path is spelled as a list of pieces: dots, words and brackets with digits
(`Path.IsSpelling`). Words and brackets are its steps and dots only keep words apart. The scan
accepts exactly the texts that are spelled so: what it has read so far is spelled by some pieces and
the beginning of one more, and where that piece ends is decided by the next character.
-/

namespace VersionedGraph

namespace Path

/-- A piece of the text of a path. -/
inductive Piece where
  | dot
  | word (cs : List Char)
  | bracket (digits : List Char)

namespace Piece

def text : Piece → List Char
  | dot => ['.']
  | word cs => cs
  | bracket digits => '[' :: (digits ++ [']'])

/-- What a piece holds apart from its marks. -/
def content : Piece → List Char
  | dot => []
  | word cs => cs
  | bracket digits => digits

/-- The step that a piece is, unless it is a dot. -/
def step? : Piece → Option Component
  | dot => none
  | word cs =>
    some (if isIndex cs then .index (Text.decimal cs) else .property (String.ofList cs))
  | bracket digits => some (.index (Text.decimal digits))

def IsProper : Piece → Prop
  | dot => True
  | word cs => isName cs = true ∨ isIndex cs = true
  | bracket digits => isIndex digits = true

/-- Two words are kept apart, and only a name may stand right before a bracket. -/
def MayPrecede : Piece → Piece → Prop
  | word _, word _ => False
  | word cs, bracket _ => isName cs = true
  | _, _ => True

/-- The piece is over where some text begins: a word is followed by a dot, or by a bracket if it is a
name. -/
def EndsAt : Piece → List Char → Prop
  | word cs, rest => ∀ c ∈ rest.head?, c = '.' ∨ c = '[' ∧ isName cs = true
  | _, _ => True

/-- The piece is not a number with too many digits. -/
def Fits : Piece → Prop
  | dot => True
  | word cs => isIndex cs = true → cs.length ≤ Text.maxDigits
  | bracket digits => digits.length ≤ Text.maxDigits

end Piece

/-- Pieces that spell a path. -/
structure IsSpelling (ps : List Piece) : Prop where
  proper : ∀ p ∈ ps, p.IsProper
  chained : ps.IsChain Piece.MayPrecede

end Path

/-- No digits in a row are too many for a number. -/
def Text.RunsFit (cs : List Char) : Prop :=
  ∀ run : List Char, run <:+: cs → run.all Text.isDigit = true → run.length ≤ Text.maxDigits

theorem Text.RunsFit.mono {cs ds : List Char} (h : Text.RunsFit cs) (hds : ds <:+: cs) :
    Text.RunsFit ds :=
  fun run hrun => h run (hrun.trans hds)

theorem Text.RunsFit.length_le {cs : List Char} (h : Text.RunsFit cs)
    (hindex : Path.isIndex cs = true) : cs.length ≤ Text.maxDigits := by
  rw [Path.isIndex, Bool.and_eq_true] at hindex
  exact h cs List.infix_rfl hindex.2

namespace Path

section

variable {cs : List Char} {step : Component}

theorem isWordChar_of_isDigit {c : Char} (h : Text.isDigit c = true) : isWordChar c = true := by
  simp [isWordChar, h]

theorem not_isDigit_of_isNameStart {c : Char} (h : isNameStart c = true) :
    Text.isDigit c = false := by
  rw [isNameStart, Bool.or_eq_true, decide_eq_true_eq] at h
  rcases h with hletter | rfl
  · unfold Char.isAlpha Char.isUpper Char.isLower at hletter
    simp only [Text.isDigit, Char.le_def] at hletter ⊢
    grind
  · decide

theorem isIndex_of_isName (h : isName cs = true) : isIndex cs = false := by
  cases cs with
  | nil => cases h
  | cons c cs =>
    rw [isName, Bool.and_eq_true] at h
    simp [isIndex, not_isDigit_of_isNameStart h.1]

theorem isWordChar_of_isIndex (h : isIndex cs = true) : ∀ c ∈ cs, isWordChar c = true := by
  rw [isIndex, Bool.and_eq_true, List.all_eq_true] at h
  exact fun c hc => isWordChar_of_isDigit (h.2 c hc)

/-- Where no digits in a row are too many, none are in a piece. -/
theorem Piece.fits_of_runsFit {p : Piece} (hproper : p.IsProper) (hruns : Text.RunsFit p.text) :
    p.Fits := by
  cases p with
  | dot => trivial
  | word cs => exact hruns.length_le
  | bracket digits =>
    have hdigits : digits <:+: (Piece.bracket digits).text := ⟨['['], [']'], by simp [text]⟩
    exact (hruns.mono hdigits).length_le hproper

theorem isWordChar_of_isProper (h : (Piece.word cs).IsProper) : ∀ c ∈ cs, isWordChar c = true :=
  h.elim isWordChar_of_isName isWordChar_of_isIndex

theorem ne_nil_of_isProper (h : (Piece.word cs).IsProper) : cs ≠ [] := by
  rintro rfl
  rcases h with h | h <;> cases h

theorem nameStep_eq_ok_iff :
    nameStep cs = .ok step ↔ isName cs = true ∧ (Piece.word cs).step? = some step := by
  unfold nameStep Piece.step?
  cases h : isName cs with
  | true => simp [isIndex_of_isName h]
  | false => simp

theorem indexStep_eq_ok_iff :
    indexStep cs = .ok step ↔
      cs.length ≤ Text.maxDigits ∧ Component.index (Text.decimal cs) = step := by
  unfold indexStep
  split
  · next h => simp [Nat.not_le.2 h]
  · next h => simp [Nat.not_lt.1 h]

theorem wordStep_eq_ok_iff :
    wordStep cs = .ok step ↔ (Piece.word cs).IsProper ∧ (Piece.word cs).Fits ∧
      (Piece.word cs).step? = some step := by
  unfold wordStep
  cases h : isIndex cs with
  | true => simp [indexStep_eq_ok_iff, Piece.IsProper, Piece.Fits, Piece.step?, h]
  | false => simp [nameStep_eq_ok_iff, Piece.IsProper, Piece.Fits, h]

theorem bracketStep_eq_ok_iff :
    bracketStep cs = .ok step ↔ (Piece.bracket cs).IsProper ∧ (Piece.bracket cs).Fits ∧
      (Piece.bracket cs).step? = some step := by
  unfold bracketStep
  cases h : isIndex cs with
  | true => simp [indexStep_eq_ok_iff, Piece.IsProper, Piece.Fits, Piece.step?, h]
  | false => simp [Piece.IsProper, h]

end

/-! Reading pieces. -/

section

variable {position : Nat} {inside : Bool} {word cs rest : List Char}

theorem ne_of_isWordChar {c : Char} (h : isWordChar c = true) : c ≠ '[' ∧ c ≠ ']' ∧ c ≠ '.' := by
  refine ⟨?_, ?_, ?_⟩ <;> rintro rfl <;> exact absurd h (by decide)

/-- Characters of words are only gathered. -/
theorem scan_append (h : ∀ c ∈ cs, isWordChar c = true) :
    scan position inside word (cs ++ rest) =
      scan (position + cs.length) inside (cs.reverse ++ word) rest := by
  induction cs generalizing position word with
  | nil => rfl
  | cons c cs ih =>
    obtain ⟨hopen, hclose, hdot⟩ := ne_of_isWordChar (h c List.mem_cons_self)
    rw [List.cons_append, scan, if_neg hopen, if_neg hclose, if_neg (by simp [hdot]),
      ih fun c hc => h c (List.mem_cons_of_mem _ hc), List.length_cons, List.reverse_cons,
      List.append_assoc, List.singleton_append]
    congr 1
    omega

/-- The step of a word that ends where some text begins. -/
def stepBefore (rest word : List Char) : Except PathFault Component :=
  if rest.head? = some '[' then nameStep word else wordStep word

/-- A word that ends is a step, and the scan goes on behind it. -/
theorem scan_word (hword : word ≠ []) (hrest : ∀ c ∈ rest.head?, c = '.' ∨ c = '[') :
    scan position false word rest = do
      return (← stepBefore rest word.reverse) :: (← scan position false [] rest) := by
  have hne : word.isEmpty = false := by simpa using hword
  cases rest with
  | nil =>
    simp only [scan, stepBefore, hne]
    cases wordStep word.reverse <;> rfl
  | cons c rest =>
    rcases hrest c rfl with rfl | rfl
    · simp [scan, stepBefore, hne]
    · simp [scan, stepBefore, hne]

theorem scan_bracket (h : isIndex cs = true) :
    scan position false [] ('[' :: (cs ++ ']' :: rest)) = do
      return (← indexStep cs) :: (← scan (position + cs.length + 2) false [] rest) := by
  have hopen : scan position false [] ('[' :: (cs ++ ']' :: rest)) =
      scan (position + 1) true [] (cs ++ ']' :: rest) := by simp [scan]
  have hclose (position : Nat) : scan position true cs.reverse (']' :: rest) = do
      return (← bracketStep cs) :: (← scan (position + 1) false [] rest) := by simp [scan]
  rw [hopen, scan_append (isWordChar_of_isIndex h), List.append_nil, hclose, bracketStep, if_pos h,
    show position + 1 + cs.length + 1 = position + cs.length + 2 by omega]

variable {p : Piece} {ps : List Piece}

/-- Behind a word that is kept apart there is nothing, a dot or a bracket. -/
theorem head?_text (h : ∀ ds, ps.head? ≠ some (.word ds)) :
    ∀ c ∈ (ps.flatMap Piece.text).head?, c = '.' ∨ c = '[' := by
  intro c hc
  cases ps with
  | nil => cases hc
  | cons q ps =>
    cases q with
    | dot =>
      cases hc
      exact .inl rfl
    | word ds => exact absurd rfl (h ds)
    | bracket ds =>
      cases hc
      exact .inr rfl

theorem scan_word_append (hproper : (Piece.word cs).IsProper)
    (h : ∀ c ∈ rest.head?, c = '.' ∨ c = '[') :
    scan position false [] (cs ++ rest) = do
      return (← stepBefore rest cs) :: (← scan (position + cs.length) false [] rest) := by
  have hne : cs.reverse ≠ [] := by simpa using ne_nil_of_isProper hproper
  rw [scan_append (isWordChar_of_isProper hproper), List.append_nil, scan_word hne h,
    List.reverse_reverse]

theorem Piece.EndsAt.dot_or_bracket (h : (Piece.word cs).EndsAt rest) :
    ∀ c ∈ rest.head?, c = '.' ∨ c = '[' :=
  fun c hc => (h c hc).imp_right And.left

/-- Pieces that may follow a piece begin where it is over. -/
theorem endsAt_text (h : ∀ q ∈ ps.head?, p.MayPrecede q) :
    p.EndsAt (ps.flatMap Piece.text) := by
  cases p with
  | dot | bracket => trivial
  | word cs =>
    intro c hc
    cases ps with
    | nil => cases hc
    | cons q ps =>
      cases q with
      | dot =>
        cases hc
        exact .inl rfl
      | word ds => exact (h _ rfl).elim
      | bracket ds =>
        cases hc
        exact .inr ⟨rfl, h _ rfl⟩

/-- A word that is over is the step that it is by itself. -/
theorem stepBefore_eq_wordStep (h : (Piece.word cs).EndsAt rest) :
    stepBefore rest cs = wordStep cs := by
  unfold stepBefore
  split
  · next hopen =>
    have hname : isName cs = true := by
      rcases h '[' hopen with hdot | ⟨_, hname⟩
      · exact absurd hdot (by decide)
      · exact hname
    rw [wordStep, isIndex_of_isName hname, if_neg Bool.false_ne_true]
  · rfl

/-- A piece is read up to where it is over, and the scan goes on behind it. -/
theorem exists_scan_append (hproper : p.IsProper) (hfits : p.Fits) (hends : p.EndsAt rest)
    (position : Nat) :
    ∃ behind, scan position false [] (p.text ++ rest) =
      (scan behind false [] rest).map (p.step?.toList ++ ·) := by
  cases p with
  | dot =>
    refine ⟨position + 1, ?_⟩
    have hdot : scan position false [] (Piece.dot.text ++ rest) =
        scan (position + 1) false [] rest := by simp [Piece.text, scan]
    rw [hdot]
    cases scan (position + 1) false [] rest <;> rfl
  | word cs =>
    refine ⟨position + cs.length, ?_⟩
    obtain ⟨step, hstep⟩ : ∃ step, (Piece.word cs).step? = some step := ⟨_, rfl⟩
    have hword := wordStep_eq_ok_iff.2 ⟨hproper, hfits, hstep⟩
    change scan position false [] (cs ++ _) = _
    rw [scan_word_append hproper hends.dot_or_bracket, stepBefore_eq_wordStep hends, hword, hstep]
    cases scan (position + cs.length) false [] rest <;> rfl
  | bracket digits =>
    refine ⟨position + digits.length + 2, ?_⟩
    change scan position false [] ('[' :: (digits ++ [']']) ++ _) = _
    rw [List.cons_append, List.append_assoc, List.singleton_append, scan_bracket hproper,
      indexStep_eq_ok_iff.2 ⟨hfits, rfl⟩]
    cases scan (position + digits.length + 2) false [] rest <;> rfl

/-- A piece that may stand before others is read, and the scan goes on behind it. -/
theorem exists_scan_eq_map (hproper : p.IsProper) (hfits : p.Fits)
    (hnext : ∀ q ∈ ps.head?, p.MayPrecede q) (position : Nat) :
    ∃ behind, scan position false [] (p.text ++ ps.flatMap Piece.text) =
      (scan behind false [] (ps.flatMap Piece.text)).map (p.step?.toList ++ ·) :=
  exists_scan_append hproper hfits (endsAt_text hnext) position

/-- The scan reads the pieces of a spelling one by one. -/
theorem IsSpelling.scan_eq_ok (h : IsSpelling ps) (hfits : ∀ p ∈ ps, p.Fits) (position : Nat) :
    scan position false [] (ps.flatMap Piece.text) = .ok (ps.filterMap Piece.step?) := by
  obtain ⟨hproper, hchained⟩ := h
  induction ps generalizing position with
  | nil => simp [scan]
  | cons p ps ih =>
    rw [List.forall_mem_cons] at hproper hfits
    rw [List.isChain_cons] at hchained
    obtain ⟨behind, hscan⟩ := exists_scan_eq_map hproper.1 hfits.1 hchained.1 position
    rw [List.flatMap_cons, hscan, ih hfits.2 behind hproper.2 hchained.2]
    cases p <;> rfl

theorem IsSpelling.fits (h : IsSpelling ps) (hfits : Text.RunsFit (ps.flatMap Piece.text)) :
    ∀ p ∈ ps, p.Fits := by
  intro p hp
  have hpiece : p.text <:+: ps.flatMap Piece.text := by
    rw [List.flatMap_def]
    exact List.infix_of_mem_flatten (List.mem_map_of_mem hp)
  exact p.fits_of_runsFit (h.proper p hp) (hfits.mono hpiece)

end

/-! What the scan accepts is spelled. -/

/-- Pieces spell a text as a path. -/
structure Spells (ps : List Piece) (cs : List Char) (path : Path) : Prop where
  isSpelling : IsSpelling ps
  text : ps.flatMap Piece.text = cs
  steps : ps.filterMap Piece.step? = path

namespace Spells

variable {ps : List Piece} {word digits cs : List Char} {step : Component} {path : Path}

theorem nil : Spells [] [] [] := ⟨⟨nofun, .nil⟩, rfl, rfl⟩

theorem cons_dot (h : Spells ps cs path) : Spells (.dot :: ps) ('.' :: cs) path := by
  refine ⟨⟨List.forall_mem_cons.2 ⟨trivial, h.isSpelling.proper⟩, List.isChain_cons.2
    ⟨fun q _ => ?_, h.isSpelling.chained⟩⟩, congrArg ('.' :: ·) h.text, h.steps⟩
  cases q <;> trivial

theorem cons_bracket (h : Spells ps cs path) (hstep : bracketStep digits = .ok step) :
    Spells (.bracket digits :: ps) ('[' :: (digits ++ ']' :: cs)) (step :: path) := by
  obtain ⟨hproper, _, hstep⟩ := bracketStep_eq_ok_iff.1 hstep
  refine ⟨⟨List.forall_mem_cons.2 ⟨hproper, h.isSpelling.proper⟩, List.isChain_cons.2
    ⟨fun q _ => ?_, h.isSpelling.chained⟩⟩, ?_, ?_⟩
  · cases q <;> trivial
  · rw [List.flatMap_cons, h.text]
    simp [Piece.text]
  · rw [List.filterMap_cons_some hstep, h.steps]

theorem last_word (hstep : wordStep word = .ok step) : Spells [.word word] word [step] := by
  obtain ⟨hproper, _, hstep⟩ := wordStep_eq_ok_iff.1 hstep
  refine ⟨⟨List.forall_mem_singleton.2 hproper, .singleton _⟩, by simp [Piece.text], ?_⟩
  rw [List.filterMap_cons_some hstep, List.filterMap_nil]

theorem cons_word {p : Piece} (h : Spells (p :: ps) cs path) (hproper : (Piece.word word).IsProper)
    (hp : (Piece.word word).MayPrecede p) (hstep : (Piece.word word).step? = some step) :
    Spells (.word word :: p :: ps) (word ++ cs) (step :: path) := by
  refine ⟨⟨List.forall_mem_cons.2 ⟨hproper, h.isSpelling.proper⟩,
    List.isChain_cons_cons.2 ⟨hp, h.isSpelling.chained⟩⟩, ?_, ?_⟩
  · rw [List.flatMap_cons, h.text]
    rfl
  · rw [List.filterMap_cons_some hstep, h.steps]

theorem word_dot (h : Spells ps cs path) (hstep : wordStep word = .ok step) :
    Spells (.word word :: .dot :: ps) (word ++ '.' :: cs) (step :: path) := by
  obtain ⟨hproper, _, hstep⟩ := wordStep_eq_ok_iff.1 hstep
  exact h.cons_dot.cons_word hproper trivial hstep

theorem word_bracket (h : Spells (.bracket digits :: ps) cs path)
    (hstep : nameStep word = .ok step) :
    Spells (.word word :: .bracket digits :: ps) (word ++ cs) (step :: path) := by
  obtain ⟨hname, hstep⟩ := nameStep_eq_ok_iff.1 hstep
  exact h.cons_word (.inl hname) hname hstep

end Spells

section

variable {position : Nat} {inside : Bool} {word cs : List Char} {path : Path} {f : PathFault}

/-- What the scan makes of the rest of a text is spelled together with what it holds: a word, or an
open bracket with what has been read in it. -/
theorem exists_spells_of_scans (h : Scans inside word cs path) :
    if inside then ∃ digits ps, Spells (.bracket digits :: ps) ('[' :: (word.reverse ++ cs)) path
    else ∃ ps, Spells ps (word.reverse ++ cs) path := by
  induction h with
  | nothing => exact ⟨[], .nil⟩
  | lastWord hstep =>
    rw [List.append_nil]
    exact ⟨_, .last_word hstep⟩
  | opening _ ih =>
    obtain ⟨digits, ps, hps⟩ := ih
    exact ⟨_, hps⟩
  | nameOpening hstep _ ih =>
    obtain ⟨digits, ps, hps⟩ := ih
    exact ⟨_, hps.word_bracket hstep⟩
  | closing hstep _ ih =>
    obtain ⟨ps, hps⟩ := ih
    exact ⟨_, _, hps.cons_bracket hstep⟩
  | dot _ ih =>
    obtain ⟨ps, hps⟩ := ih
    exact ⟨_, hps.cons_dot⟩
  | wordDot hstep _ ih =>
    obtain ⟨ps, hps⟩ := ih
    exact ⟨_, hps.word_dot hstep⟩
  | char _ ih =>
    rw [List.reverse_cons, List.append_assoc, List.singleton_append] at ih
    exact ih

/-! What goes wrong with a text is told, unless reading it comes to too long a number. -/

/-- Reading a text piece by piece comes to a number with too many digits, as many as are counted. -/
inductive ComesToLong : List Char → Nat → Prop
  | here {p : Piece} {rest : List Char} (proper : p.IsProper) (long : ¬p.Fits)
    (ends : p.EndsAt rest) : ComesToLong (p.text ++ rest) p.content.length
  | behind {p : Piece} {rest : List Char} {count : Nat} (proper : p.IsProper) (fits : p.Fits)
    (ends : p.EndsAt rest) (others : ComesToLong rest count) : ComesToLong (p.text ++ rest) count

theorem scan_of_comesToLong {count : Nat} (h : ComesToLong cs count) (position : Nat) :
    scan position false [] cs = .error (.indexTooLong count) := by
  induction h generalizing position with
  | @here p rest proper long ends =>
    have htooLong {digits : List Char} (h : ¬digits.length ≤ Text.maxDigits) :
        indexStep digits = .error (.indexTooLong digits.length) := if_pos (Nat.not_le.1 h)
    cases p with
    | dot => exact absurd trivial long
    | word cs =>
      obtain ⟨hindex, hlong⟩ := Classical.not_imp.1 long
      change scan position false [] (cs ++ _) = _
      rw [scan_word_append proper ends.dot_or_bracket, stepBefore_eq_wordStep ends, wordStep,
        if_pos hindex, htooLong hlong]
      rfl
    | bracket digits =>
      change scan position false [] ('[' :: (digits ++ [']']) ++ _) = _
      rw [List.cons_append, List.append_assoc, List.singleton_append, scan_bracket proper,
        htooLong long]
      rfl
  | behind proper fits ends _ ih =>
    obtain ⟨behind, hscan⟩ := exists_scan_append proper fits ends position
    rw [hscan, ih behind]
    rfl

theorem not_runsFit_of_comesToLong {count : Nat} (h : ComesToLong cs count) :
    ¬Text.RunsFit cs := by
  induction h with
  | @here p rest proper long ends =>
    intro hruns
    have hpiece : p.text <:+: p.text ++ rest := (List.prefix_append _ _).isInfix
    exact long (p.fits_of_runsFit proper (hruns.mono hpiece))
  | behind _ _ _ _ ih => exact fun hruns => ih (hruns.mono (List.suffix_append _ _).isInfix)

/-- A path fails with its first step, or with the others. -/
theorem cons_eq_error_iff {first : Except PathFault Component} {others : Except PathFault Path} :
    (do return (← first) :: (← others) : Except PathFault Path) = .error f ↔
      first = .error f ∨ ∃ step, first = .ok step ∧ others = .error f := by
  constructor
  · intro h
    rcases bind_eq_error_iff.1 h with h | ⟨step, hstep, h⟩
    · exact .inl h
    · rcases bind_eq_error_iff.1 h with h | ⟨_, _, h⟩
      · exact .inr ⟨step, hstep, h⟩
      · cases h
  · rintro (rfl | ⟨step, rfl, rfl⟩)
    · rfl
    · rfl

/-- What is wrong with a text is told, or it is that reading comes to too long a number. -/
def Explains (f : PathFault) (cs : List Char) : Prop :=
  f.isTold = true ∨ ∃ count, f = .indexTooLong count ∧ ComesToLong cs count

namespace Explains

variable {p : Piece} {rest : List Char} {step : Component}

theorem behind (h : Explains f rest) (hproper : p.IsProper) (hfits : p.Fits)
    (hends : p.EndsAt rest) : Explains f (p.text ++ rest) := by
  rcases h with htold | ⟨count, hf, hlong⟩
  · exact .inl htold
  · exact .inr ⟨count, hf, .behind hproper hfits hends hlong⟩

theorem of_nameStep (h : nameStep word = .error f) : Explains f cs := by
  unfold nameStep at h
  split at h
  · cases h
  · cases h
    exact .inl rfl

/-- A number cannot be read only because it is too long. -/
theorem of_indexStep (h : indexStep p.content = .error f) (hproper : p.IsProper)
    (hlong : Text.maxDigits < p.content.length → ¬p.Fits) (hends : p.EndsAt rest) :
    Explains f (p.text ++ rest) := by
  unfold indexStep at h
  split at h
  · next hdigits =>
    cases h
    exact .inr ⟨_, rfl, .here hproper (hlong hdigits) hends⟩
  · cases h

theorem of_wordStep (h : wordStep word = .error f)
    (hends : ∀ c ∈ rest.head?, c = '.') : Explains f (word ++ rest) := by
  unfold wordStep at h
  split at h
  · next hindex =>
    have hlong (hdigits : Text.maxDigits < word.length) : ¬(Piece.word word).Fits :=
      fun hfits => absurd (hfits hindex) (Nat.not_le.2 hdigits)
    exact of_indexStep (p := .word word) h (.inr hindex) hlong fun c hc => .inl (hends c hc)
  · exact of_nameStep h

theorem of_bracketStep (h : bracketStep word = .error f) :
    Explains f ('[' :: (word ++ ']' :: rest)) := by
  unfold bracketStep at h
  split at h
  · next hindex =>
    have hexplains : Explains f ((Piece.bracket word).text ++ rest) :=
      of_indexStep h hindex Nat.not_le.2 trivial
    rw [Piece.text, List.cons_append, List.append_assoc, List.singleton_append] at hexplains
    exact hexplains
  · cases h
    exact .inl rfl

theorem word_bracket (hrest : Explains f ('[' :: rest)) (h : nameStep word = .ok step) :
    Explains f (word ++ '[' :: rest) := by
  obtain ⟨hname, _⟩ := nameStep_eq_ok_iff.1 h
  have hfits : (Piece.word word).Fits :=
    fun hindex => absurd hindex (by simp [isIndex_of_isName hname])
  refine hrest.behind (p := .word word) (.inl hname) hfits ?_
  rintro c ⟨⟩
  exact .inr ⟨rfl, hname⟩

theorem cons_bracket (hrest : Explains f rest) (h : bracketStep word = .ok step) :
    Explains f ('[' :: (word ++ ']' :: rest)) := by
  obtain ⟨hproper, hfits, _⟩ := bracketStep_eq_ok_iff.1 h
  have hbehind := hrest.behind hproper hfits trivial
  rw [Piece.text, List.cons_append, List.append_assoc, List.singleton_append] at hbehind
  exact hbehind

theorem cons_dot (hrest : Explains f rest) : Explains f ('.' :: rest) :=
  hrest.behind (p := .dot) trivial trivial trivial

theorem word_dot (hrest : Explains f rest) (h : wordStep word = .ok step) :
    Explains f (word ++ '.' :: rest) := by
  obtain ⟨hproper, hfits, _⟩ := wordStep_eq_ok_iff.1 h
  refine hrest.cons_dot.behind hproper hfits ?_
  rintro c ⟨⟩
  exact .inl rfl

end Explains

/-- Where the scan fails in the rest of a text, the reason stands there together with what the scan
holds: a word, or an open bracket with what has been read in it. -/
theorem explains_of_scan (h : scan position inside word cs = .error f) :
    if inside then Explains f ('[' :: (word.reverse ++ cs)) else Explains f (word.reverse ++ cs) := by
  induction cs generalizing position inside word with
  | nil =>
    rw [scan] at h
    split at h
    · next hinside =>
      cases h
      rw [if_pos hinside]
      exact .inl rfl
    · next hinside =>
      rw [if_neg hinside]
      split at h
      · cases h
      · rcases bind_eq_error_iff.1 h with hstep | ⟨_, _, h⟩
        · exact .of_wordStep hstep fun c hc => absurd hc (Option.not_mem_none c)
        · cases h
  | cons c rest ih =>
    rw [scan] at h
    split at h
    · next hopen =>
      subst hopen
      cases inside with
      | true =>
        cases h
        exact .inl rfl
      | false =>
        rw [if_neg Bool.false_ne_true] at h ⊢
        split at h
        · next hempty =>
          rw [List.isEmpty_iff.1 hempty]
          exact ih h
        · rcases cons_eq_error_iff.1 h with hstep | ⟨step, hstep, hothers⟩
          · exact .of_nameStep hstep
          · exact .word_bracket (ih hothers) hstep
    · split at h
      · next hclose =>
        subst hclose
        cases inside with
        | false =>
          cases h
          exact .inl rfl
        | true =>
          rw [if_pos rfl] at h ⊢
          rcases cons_eq_error_iff.1 h with hstep | ⟨step, hstep, hothers⟩
          · exact .of_bracketStep hstep
          · exact .cons_bracket (ih hothers) hstep
      · split at h
        · next hdot =>
          rw [Bool.and_eq_true, decide_eq_true_eq, Bool.not_eq_true'] at hdot
          obtain ⟨rfl, rfl⟩ := hdot
          rw [if_neg Bool.false_ne_true]
          split at h
          · next hempty =>
            rw [List.isEmpty_iff.1 hempty]
            exact .cons_dot (ih h)
          · rcases cons_eq_error_iff.1 h with hstep | ⟨step, hstep, hothers⟩
            · refine .of_wordStep hstep ?_
              rintro c ⟨⟩
              rfl
            · exact .word_dot (ih hothers) hstep
        · have hmore := ih h
          rw [List.reverse_cons, List.append_assoc, List.singleton_append] at hmore
          exact hmore

end

/-! Whole texts. -/

theorem withoutRoot_suffix (cs : List Char) : withoutRoot cs <:+ cs := by
  unfold withoutRoot
  split
  · exact ⟨['$', '.'], rfl⟩
  · exact ⟨['$'], rfl⟩
  · exact List.suffix_rfl

theorem isPathChar_of_isWordChar {c : Char} (h : isWordChar c = true) : isPathChar c = true := by
  simp [isPathChar, h]

theorem isPathChar_of_mem_text {p : Piece} (hp : p.IsProper) :
    ∀ c ∈ p.text, isPathChar c = true := by
  cases p with
  | dot => simp [Piece.text, isPathChar]
  | word cs => exact fun c hc => isPathChar_of_isWordChar (isWordChar_of_isProper hp c hc)
  | bracket digits =>
    intro c hc
    rw [Piece.text, List.mem_cons, List.mem_append, List.mem_singleton] at hc
    rcases hc with rfl | hc | rfl
    · decide
    · exact isPathChar_of_isWordChar (isWordChar_of_isIndex hp c hc)
    · decide

theorem isPathChar_of_mem_flatMap_text {ps : List Piece} (h : ∀ p ∈ ps, p.IsProper) :
    ∀ c ∈ ps.flatMap Piece.text, isPathChar c = true := by
  intro c hc
  obtain ⟨p, hp, hc⟩ := List.mem_flatMap.1 hc
  exact isPathChar_of_mem_text (h p hp) c hc

theorem range_of_isPathChar {c : Char} (h : isPathChar c = true) : '.' ≤ c ∧ c ≤ 'z' := by
  unfold isPathChar isWordChar isNameStart Char.isAlpha Char.isUpper Char.isLower at h
  simp only [Text.isDigit, Bool.or_eq_true, Bool.and_eq_true, decide_eq_true_eq,
    Char.le_def] at h ⊢
  rcases h with ((((h | rfl) | h) | rfl) | rfl) | rfl
  · grind
  · decide
  · grind
  all_goals decide

theorem not_isBlank_of_isPathChar {c : Char} (h : isPathChar c = true) :
    Text.isBlank c = false := by
  have hlow : 0x2E ≤ c.toNat := (range_of_isPathChar h).1
  have hhigh : c.toNat ≤ 0x7A := (range_of_isPathChar h).2
  rw [Bool.eq_false_iff]
  intro hblank
  simp only [Text.isBlank, Bool.or_eq_true, Bool.and_eq_true, decide_eq_true_eq,
    beq_iff_eq] at hblank
  omega

/-- A text that is not empty behind its root sign, and holds there what a path may hold, is
scanned. -/
theorem parseProper_eq_bind {s : String} (hne : withoutRoot s.toList ≠ [])
    (hall : ∀ c ∈ withoutRoot s.toList, isPathChar c = true) :
    parseProper s = scan 0 false [] (withoutRoot s.toList) >>= fun path =>
      if path.isEmpty then .error .blank
      else if maxDepth < path.length then .error .tooDeep
      else return path := by
  have hblank : Text.allBlank s = false := by
    rw [Text.allBlank, List.all_eq_false]
    obtain ⟨c, hc⟩ := List.exists_mem_of_ne_nil _ hne
    exact ⟨c, (withoutRoot_suffix _).subset hc, by simp [not_isBlank_of_isPathChar (hall c hc)]⟩
  have hchars : (withoutRoot s.toList).all isPathChar = true := List.all_eq_true.2 hall
  simp [parseProper, hblank, hchars, hne]

/-- A path that is not too deep is spelled by a text behind its root sign. -/
def IsSpelledBy (path : Path) (s : LooseText) : Prop :=
  ∃ (t : String) (ps : List Piece), s = t ∧ Spells ps (withoutRoot t.toList) path ∧
    1 ≤ path.length ∧ path.length ≤ maxDepth

theorem Spells.parseProper_eq_ok {s : String} {path : Path} {ps : List Piece}
    (h : Spells ps (withoutRoot s.toList) path) (hfits : ∀ p ∈ ps, p.Fits) (hpath : 1 ≤ path.length)
    (hdepth : path.length ≤ maxDepth) : parseProper s = .ok path := by
  have hscan := h.isSpelling.scan_eq_ok hfits 0
  rw [h.text, h.steps] at hscan
  have hempty : path.isEmpty = false := by
    rw [List.isEmpty_eq_false_iff]
    exact List.ne_nil_of_length_pos hpath
  have hne : withoutRoot s.toList ≠ [] := by
    intro hnil
    rw [hnil] at hscan
    cases hscan
    cases hempty
  have hchars := isPathChar_of_mem_flatMap_text h.isSpelling.proper
  rw [h.text] at hchars
  rw [parseProper_eq_bind hne hchars, hscan, ok_bind, hempty, if_neg Bool.false_ne_true,
    if_neg (Nat.not_lt.2 hdepth)]
  rfl

theorem isSpelledBy_of_parseProper {s : String} {path : Path} (h : parseProper s = .ok path) :
    IsSpelledBy path s := by
  unfold parseProper at h
  split at h
  · cases h
  · dsimp only at h
    split at h
    · cases h
    · rw [bind_eq_ok_iff] at h
      obtain ⟨found, hscan, h⟩ := h
      split at h
      · cases h
      · next hne =>
        split at h
        · cases h
        · next hdepth =>
          cases h
          obtain ⟨ps, hps⟩ := exists_spells_of_scans (scans_of_scan hscan)
          rw [List.isEmpty_iff] at hne
          exact ⟨s, ps, rfl, hps, List.length_pos_of_ne_nil hne, Nat.not_lt.1 hdepth⟩

/-- A text is no path for a reason that is told, or because it holds what a path may hold and comes to
too long a number. -/
theorem isTold_or_comesToLong_of_parseProper {s : String} {f : PathFault}
    (h : parseProper s = .error f) :
    f.isTold = true ∨ ∃ count, f = .indexTooLong count ∧
      (∀ c ∈ withoutRoot s.toList, isPathChar c = true) ∧
      ComesToLong (withoutRoot s.toList) count := by
  unfold parseProper at h
  split at h
  · cases h
    exact .inl rfl
  · dsimp only at h
    split at h
    · cases h
      exact .inl rfl
    · next hchars =>
      rw [Bool.or_eq_true, not_or, Bool.not_eq_true', Bool.not_eq_false] at hchars
      rcases bind_eq_error_iff.1 h with hscan | ⟨path, _, h⟩
      · rcases explains_of_scan hscan with htold | ⟨count, hf, hlong⟩
        · exact .inl htold
        · exact .inr ⟨count, hf, List.all_eq_true.1 hchars.2, hlong⟩
      · split at h
        · cases h
          exact .inl rfl
        · split at h
          · cases h
            exact .inl rfl
          · cases h

/-- A text is told to be a path, with its canonical form and its steps, just if it spells one; any
other text is told to be none. -/
theorem judge_tells_spelled_paths (s : LooseText)
    (hfits : ∀ run : List Char, run.map CodePoint.char <:+: s.points → run.all Text.isDigit = true →
      run.length ≤ Text.maxDigits) :
    (∀ path, IsSpelledBy path s → judge (.str s) = .ok (.valid path)) ∧
      ((∀ path, ¬IsSpelledBy path s) → ∃ fault, judge (.str s) = .ok (.invalid fault)) := by
  have hruns {t : String} (ht : s = t) : Text.RunsFit t.toList := by
    subst ht
    exact fun run hrun => hfits run (hrun.map CodePoint.char)
  constructor
  · rintro path ⟨t, ps, rfl, hps, hpath, hdepth⟩
    have hrest := (hruns rfl).mono (withoutRoot_suffix t.toList).isInfix
    have hfits := hps.isSpelling.fits (hps.text ▸ hrest)
    unfold judge
    rw [ofJson_str, parse_ofString, hps.parseProper_eq_ok hfits hpath hdepth]
  · intro hnone
    have hinvalid {f : PathFault} (hparse : parse s = .error f) (htold : f.isTold = true) :
        ∃ fault, judge (.str s) = .ok (.invalid fault) := by
      unfold judge
      rw [ofJson_str, hparse]
      exact ⟨f, if_pos htold⟩
    unfold parse at hinvalid
    cases ht : s.toString? with
    | none =>
      rw [ht] at hinvalid
      exact hinvalid rfl rfl
    | some t =>
      rw [ht] at hinvalid
      have hs : s = t := LooseText.eq_ofString_of_toString? ht
      cases hparse : parseProper t with
      | ok path => exact absurd (hs ▸ isSpelledBy_of_parseProper hparse) (hnone path)
      | error f =>
        rcases isTold_or_comesToLong_of_parseProper hparse with htold | ⟨_, _, _, hlong⟩
        · exact hinvalid hparse htold
        · have hfits := (hruns hs).mono (withoutRoot_suffix t.toList).isInfix
          exact absurd hfits (not_runsFit_of_comesToLong hlong)

/-- A path may be spelled with a root sign and with its positions in both ways. -/
theorem judge_of_both_ways :
    judge (.str ("$.a[0].1" : String)) =
      .ok (.valid [.property "a", .index 0, .index 1]) := by
  refine (judge_tells_spelled_paths ("$.a[0].1" : String) ?_).1 _ ?_
  · intro run hrun _
    have hlength := hrun.length_le
    rw [List.length_map] at hlength
    exact hlength.trans (by decide)
  · have hlast : wordStep ['1'] = .ok (.index 1) := rfl
    have hbracket : bracketStep ['0'] = .ok (.index 0) := rfl
    have hname : nameStep ['a'] = .ok (.property "a") := rfl
    have hspells := ((Spells.last_word hlast).cons_dot.cons_bracket hbracket).word_bracket hname
    exact ⟨"$.a[0].1", _, rfl, hspells, by decide, by decide⟩

end Path

end VersionedGraph
