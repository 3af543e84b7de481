import Mathlib
import VersionedGraph.Text.Pattern

/-!
# What wildcard patterns describe

A pattern describes the texts that come of its signs, one after the other
(`Text.Pattern.Describes`), and the sweep over all suffixes of a text finds out whether it does
(`Text.Pattern.covers_iff`). Runs of any characters before and behind a pattern leave it to describe
a part of the text, and a pattern without wildcards describes what it is itself, up to the case of
letters.
-/

namespace VersionedGraph

namespace Text.Pattern

/-- What a pattern describes: the texts that come of its signs, one after the other. -/
inductive Describes : List Sign → List Char → Prop where
  | nil : Describes [] []
  | anyRun {signs : List Sign} {text : List Char} (run : List Char) (h : Describes signs text) :
    Describes (.anyRun :: signs) (run ++ text)
  | anyChar {signs : List Sign} {text : List Char} (c : Char) (h : Describes signs text) :
    Describes (.anyChar :: signs) (c :: text)
  | letter {signs : List Sign} {text : List Char} {c d : Char} (hcd : sameLetter c d = true)
    (h : Describes signs text) : Describes (.letter c :: signs) (d :: text)

/-! The answers of a sweep, suffix by suffix. -/

theorem length_orLater (bs : List Bool) : (orLater bs).length = bs.length := by
  induction bs with
  | nil => rfl
  | cons b bs ih => rw [orLater_cons, List.length_cons, ih, List.length_cons]

section

variable (signs : List Sign) (c d : Char) (text : List Char)

theorem length_sweep : (sweep signs text).length = text.length + 1 := by
  induction signs with
  | nil => simp [sweep_noSigns]
  | cons sign signs ih =>
    cases sign <;> simp [sweep_anyRun, sweep_anyChar, sweep_letter, length_orLater, ih]

theorem sweep_eq_cons_tail : sweep signs text = covers signs text :: (sweep signs text).tail := by
  have hne : sweep signs text ≠ [] := List.ne_nil_of_length_eq_add_one (length_sweep signs text)
  rw [covers_eq]
  cases hsweep : sweep signs text with
  | nil => exact absurd hsweep hne
  | cons b bs => rfl

theorem sweep_nil : sweep signs [] = [covers signs []] := by
  rw [sweep_eq_cons_tail, List.eq_nil_of_length_eq_zero (l := (sweep signs []).tail)]
  simp [length_sweep]

/-- The answers for the suffixes do not depend on what stands before them. -/
theorem sweep_cons : sweep signs (c :: text) = covers signs (c :: text) :: sweep signs text := by
  rw [sweep_eq_cons_tail, List.cons_inj_right]
  induction signs with
  | nil => rfl
  | cons sign signs ih =>
    cases sign with
    | anyRun => rw [sweep_anyRun, sweep_eq_cons_tail, ih]; rfl
    | anyChar =>
      rw [sweep_anyChar, ih, sweep_anyChar, sweep_eq_cons_tail signs text]
      rfl
    | letter d =>
      rw [sweep_letter, ih, sweep_letter, sweep_eq_cons_tail signs text]
      rfl

@[simp] theorem covers_nil : covers [] text = text.isEmpty := by
  cases text <;> rfl

@[simp] theorem covers_anyRun_nil : covers (.anyRun :: signs) [] = covers signs [] := by
  rw [covers_eq, sweep_anyRun, sweep_nil]
  exact Bool.or_false _

@[simp] theorem covers_anyRun_cons :
    covers (.anyRun :: signs) (c :: text) =
      (covers signs (c :: text) || covers (.anyRun :: signs) text) := by
  rw [covers_eq, sweep_anyRun, sweep_cons]
  rfl

@[simp] theorem covers_anyChar_nil : covers (.anyChar :: signs) [] = false := by
  rw [covers_eq, sweep_anyChar, sweep_nil]
  rfl

@[simp] theorem covers_anyChar_cons :
    covers (.anyChar :: signs) (c :: text) = covers signs text := by
  rw [covers_eq, sweep_anyChar, sweep_cons, sweep_eq_cons_tail signs text]
  rfl

@[simp] theorem covers_letter_nil : covers (.letter c :: signs) [] = false := rfl

@[simp] theorem covers_letter_cons :
    covers (.letter c :: signs) (d :: text) = (sameLetter c d && covers signs text) := by
  rw [covers_eq, sweep_letter, sweep_cons, sweep_eq_cons_tail signs text]
  rfl

end

variable {signs others : List Sign} {cs text : List Char}

theorem Describes.covers (h : Describes signs text) : covers signs text = true := by
  induction h with
  | nil => rfl
  | @anyRun signs text run _ ih =>
    induction run with
    | nil =>
      cases text with
      | nil => rw [List.nil_append, covers_anyRun_nil, ih]
      | cons c text => rw [List.nil_append, covers_anyRun_cons, ih, Bool.true_or]
    | cons c run ihrun => rw [List.cons_append, covers_anyRun_cons, ihrun, Bool.or_true]
  | anyChar c _ ih => rwa [covers_anyChar_cons]
  | letter hcd _ ih => rw [covers_letter_cons, hcd, ih, Bool.and_self]

theorem describes_of_covers (h : Pattern.covers signs text = true) : Describes signs text := by
  induction signs generalizing text with
  | nil =>
    rw [covers_nil, List.isEmpty_iff] at h
    subst h
    exact .nil
  | cons sign signs ih =>
    cases sign with
    | anyRun =>
      induction text with
      | nil =>
        rw [covers_anyRun_nil] at h
        exact .anyRun [] (ih h)
      | cons c text ihtext =>
        rw [covers_anyRun_cons, Bool.or_eq_true] at h
        rcases h with h | h
        · exact .anyRun [] (ih h)
        · cases ihtext h with
          | anyRun run hrest => exact .anyRun (c :: run) hrest
    | anyChar =>
      cases text with
      | nil => simp at h
      | cons c text => exact .anyChar c (ih (by rwa [covers_anyChar_cons] at h))
    | letter c =>
      cases text with
      | nil => simp at h
      | cons d text =>
        rw [covers_letter_cons, Bool.and_eq_true] at h
        exact .letter h.1 (ih h.2)

theorem covers_iff : Pattern.covers signs text = true ↔ Describes signs text :=
  ⟨describes_of_covers, Describes.covers⟩

theorem describes_append : Describes (signs ++ others) text ↔
    ∃ part rest, text = part ++ rest ∧ Describes signs part ∧ Describes others rest := by
  constructor
  · intro h
    induction signs generalizing text with
    | nil => exact ⟨[], text, rfl, .nil, h⟩
    | cons sign signs ih =>
      cases h with
      | anyRun run h =>
        obtain ⟨part, rest, rfl, hpart, hrest⟩ := ih h
        exact ⟨run ++ part, rest, (List.append_assoc ..).symm, .anyRun run hpart, hrest⟩
      | anyChar c h =>
        obtain ⟨part, rest, rfl, hpart, hrest⟩ := ih h
        exact ⟨c :: part, rest, rfl, .anyChar c hpart, hrest⟩
      | @letter _ _ _ d hcd h =>
        obtain ⟨part, rest, rfl, hpart, hrest⟩ := ih h
        exact ⟨d :: part, rest, rfl, .letter hcd hpart, hrest⟩
  · rintro ⟨part, rest, rfl, hpart, hrest⟩
    induction hpart with
    | nil => exact hrest
    | anyRun run _ ih =>
      rw [List.append_assoc]
      exact .anyRun run ih
    | anyChar c _ ih => exact .anyChar c ih
    | letter hcd _ ih => exact .letter hcd ih

theorem describes_anyRun (run : List Char) : Describes [.anyRun] run := by
  simpa using Describes.anyRun run .nil

theorem describes_before_anyRun :
    Describes (signs ++ [.anyRun]) text ↔ ∃ part, part <+: text ∧ Describes signs part := by
  rw [describes_append]
  constructor
  · rintro ⟨part, rest, rfl, hpart, -⟩
    exact ⟨part, List.prefix_append part rest, hpart⟩
  · rintro ⟨part, ⟨rest, rfl⟩, hpart⟩
    exact ⟨part, rest, rfl, hpart, describes_anyRun rest⟩

theorem describes_anyRun_cons :
    Describes (.anyRun :: signs) text ↔ ∃ part, part <:+ text ∧ Describes signs part := by
  constructor
  · intro h
    cases h with
    | anyRun run h => exact ⟨_, List.suffix_append run _, h⟩
  · rintro ⟨part, ⟨run, rfl⟩, hpart⟩
    exact .anyRun run hpart

theorem describes_between_anyRuns :
    Describes (.anyRun :: (signs ++ [.anyRun])) text ↔
      ∃ part, part <:+: text ∧ Describes signs part := by
  rw [describes_anyRun_cons]
  simp only [describes_before_anyRun]
  constructor
  · rintro ⟨rest, hrest, part, hpart, h⟩
    exact ⟨part, hpart.isInfix.trans hrest.isInfix, h⟩
  · rintro ⟨part, ⟨before, after, rfl⟩, h⟩
    exact ⟨part ++ after, ⟨before, (List.append_assoc ..).symm⟩, part, List.prefix_append .., h⟩

/-! Signs that stand for themselves. -/

theorem sameLetter_iff {c d : Char} : sameLetter c d = true ↔ c.toLower = d.toLower :=
  decide_eq_true_iff

/-- A pattern without wildcards describes one text, up to the case of letters. -/
theorem describes_letters (hrun : '%' ∉ cs) (hchar : '_' ∉ cs) :
    Describes (cs.map Sign.ofChar) text ↔ text.map Char.toLower = cs.map Char.toLower := by
  induction cs generalizing text with
  | nil =>
    rw [List.map_nil, List.map_nil, List.map_eq_nil_iff]
    constructor
    · intro h
      cases h
      rfl
    · rintro rfl
      exact .nil
  | cons c cs ih =>
    have hsign : Sign.ofChar c = .letter c := by
      rw [Sign.ofChar, if_neg (List.ne_of_not_mem_cons hrun).symm,
        if_neg (List.ne_of_not_mem_cons hchar).symm]
    have hrest (text : List Char) := @ih text (List.not_mem_of_not_mem_cons hrun)
      (List.not_mem_of_not_mem_cons hchar)
    rw [List.map_cons, hsign]
    constructor
    · intro h
      cases h with
      | letter hcd h =>
        rw [List.map_cons, List.map_cons, (hrest _).1 h, sameLetter_iff.1 hcd]
    · intro h
      cases text with
      | nil => cases h
      | cons d text =>
        rw [List.map_cons, List.map_cons, List.cons.injEq] at h
        exact .letter (sameLetter_iff.2 h.1.symm) ((hrest _).2 h.2)

/-! Capitals on both sides. -/

/-- A sign with its letter made a capital. -/
def Sign.upper : Sign → Sign
  | .letter c => .letter c.toUpper
  | sign => sign

theorem sameLetter_toUpper (c d : Char) : sameLetter c.toUpper d.toUpper = sameLetter c d := by
  rw [sameLetter, Char.toLower_toUpper_eq_toLower, Char.toLower_toUpper_eq_toLower, sameLetter]

theorem sweep_upper (signs : List Sign) (text : List Char) :
    sweep (signs.map Sign.upper) (text.map Char.toUpper) = sweep signs text := by
  induction signs with
  | nil => simp [sweep_noSigns]
  | cons sign signs ih =>
    cases sign with
    | anyRun => exact congrArg orLater ih
    | anyChar => exact congrArg (fun bs => bs.tail ++ [false]) ih
    | letter c =>
      rw [List.map_cons, Sign.upper, sweep_letter, sweep_letter, ih, List.zipWith_map_left]
      simp only [sameLetter_toUpper]

theorem toUpper_eq_iff {c x : Char} (hx : x.isAlpha = false) : c.toUpper = x ↔ c = x := by
  by_cases hlower : c.isLower
  · have hupper : c.toUpper.isAlpha = true := by
      rw [Char.isAlpha_toUpper_eq_isAlpha, Char.isAlpha, hlower, Bool.or_true]
    have hc : c.isAlpha = true := by rwa [Char.isAlpha_toUpper_eq_isAlpha] at hupper
    refine iff_of_false ?_ ?_
    · rintro rfl
      rw [hupper] at hx
      cases hx
    · rintro rfl
      rw [hc] at hx
      cases hx
  · rw [Char.toUpper_eq_of_not_isLower hlower]

theorem seen_toUpper (c : Char) : seen c.toUpper = (seen c).toUpper := by
  simp only [seen, toUpper_eq_iff (x := Char.ofNat 0xFFFE) (by decide),
    toUpper_eq_iff (x := Char.ofNat 0xFFFF) (by decide)]
  split
  · decide
  · rfl

theorem ofChar_toUpper (c : Char) : Sign.ofChar c.toUpper = (Sign.ofChar c).upper := by
  simp only [Sign.ofChar, toUpper_eq_iff (x := '%') (by decide),
    toUpper_eq_iff (x := '_') (by decide)]
  split_ifs <;> rfl

theorem seenText_upperAscii (s : String) :
    seenText (upperAscii s) = (seenText s).map Char.toUpper := by
  have hnul (c : Char) : (c.toUpper ≠ Char.ofNat 0) ↔ (c ≠ Char.ofNat 0) :=
    (toUpper_eq_iff (by decide)).not
  rw [seenText, beforeNul, upperAscii, String.toList_map, List.takeWhile_map, seenText, beforeNul,
    List.map_map, List.map_map]
  simp only [Function.comp_def, hnul, seen_toUpper]

theorem isLike_upperAscii (pattern s : String) :
    isLike (upperAscii pattern) (upperAscii s) = isLike pattern s := by
  rw [isLike, isLike, covers, ofText, seenText_upperAscii, seenText_upperAscii, List.map_map]
  have hsigns : (seenText pattern).map (Sign.ofChar ∘ Char.toUpper) =
      (ofText pattern).map Sign.upper := by
    rw [ofText, List.map_map]
    simp only [Function.comp_def, ofChar_toUpper]
  rw [hsigns, sweep_upper]
  rfl

end Text.Pattern

end VersionedGraph
