import Mathlib.Data.List.DropRight
import VersionedGraph.Json.Reader
import VersionedGraph.Json.Writer
import VersionedGraph.Proofs.Doubles
import VersionedGraph.Proofs.Path

/-!
# Numerals are read back

Integers and finite doubles are written as numerals of the grammar that the reader of documents
knows (`Json.IsNumeral`), and the reader takes a numeral from the front of a text as a whole when
nothing behind it could belong to it (`Json.scanNumber?_append`). An integer is told from a double
by its characters, and its numeral has its value (`Json.toInt_leading_intText`).
-/

namespace VersionedGraph

namespace Text

/-- One or more decimal digits. -/
structure AreDigits (cs : List Char) : Prop where
  nonempty : cs ≠ []
  isDigit : ∀ c ∈ cs, isDigit c = true

theorem areDigits_toDigits (n : Nat) : AreDigits (Nat.toDigits 10 n) :=
  ⟨Nat.toDigits_ne_nil, isDigit_of_mem_toDigits⟩

theorem ne_of_isDigit {c d : Char} (hd : isDigit d = true) (hc : isDigit c = false) : d ≠ c := by
  rintro rfl
  rw [hc] at hd
  cases hd

theorem not_isAsciiBlank_of_isDigit {c : Char} (h : isDigit c = true) : isAsciiBlank c = false := by
  rw [isDigit, Bool.and_eq_true, decide_eq_true_eq, decide_eq_true_eq] at h
  have hlow : 48 ≤ c.toNat := h.1
  have hhigh : c.toNat ≤ 57 := h.2
  simp only [isAsciiBlank, Bool.or_eq_false_iff, Bool.and_eq_false_iff, decide_eq_false_iff_not,
    beq_eq_false_iff_ne]
  omega

/-- Digits are taken as a whole when no other one stands behind them. -/
theorem takeWhile_append_digits {digits : List Char} (h : ∀ c ∈ digits, isDigit c = true)
    (rest : List Char) (hrest : rest.head?.all (!isDigit ·) = true) :
    (digits ++ rest).takeWhile isDigit = digits ∧ (digits ++ rest).dropWhile isDigit = rest := by
  rw [List.takeWhile_append_of_pos h, List.dropWhile_append_of_pos h]
  cases rest with
  | nil => simp
  | cons c rest =>
    have hc : ¬isDigit c = true := by simpa using hrest
    simp [hc]

/-- A number that is not zero does not begin with a zero. -/
theorem exists_toDigits_eq_cons {n : Nat} (hn : n ≠ 0) :
    ∃ d ds, Nat.toDigits 10 n = d :: ds ∧ d ≠ '0' := by
  induction n using Nat.strongRecOn with
  | ind n ih =>
    rw [Nat.toDigits_eq_if (by decide)]
    split
    · exact ⟨_, _, rfl, by simpa using hn⟩
    · obtain ⟨d, ds, hdigits, hd⟩ := ih (n / 10) (by omega) (by omega)
      exact ⟨d, _, by rw [hdigits, List.cons_append], hd⟩

end Text

namespace Json

open Text (AreDigits)

/-- The integer part of a numeral: digits that do not begin with a zero, unless it is the only
one. -/
structure IsWhole (cs : List Char) : Prop where
  areDigits : AreDigits cs
  head : cs = ['0'] ∨ cs.head? ≠ some '0'

inductive IsFraction : List Char → Prop where
  | absent : IsFraction []
  | digits {ds : List Char} (h : AreDigits ds) : IsFraction ('.' :: ds)

inductive IsExponent : List Char → Prop where
  | absent : IsExponent []
  | digits (negative : Bool) {ds : List Char} (h : AreDigits ds) :
    IsExponent ('e' :: (if negative then '-' else '+') :: ds)

def signText (negative : Bool) : List Char :=
  if negative then ['-'] else []

/-- A numeral as numbers are written in documents. -/
inductive IsNumeral : List Char → Prop where
  | intro (negative : Bool) {whole fraction exponent : List Char} (hwhole : IsWhole whole)
    (hfraction : IsFraction fraction) (hexponent : IsExponent exponent) :
    IsNumeral (signText negative ++ whole ++ fraction ++ exponent)

/-- What may stand behind a value in a document: nothing, a comma, or a closing bracket. -/
def IsEnd (rest : List Char) : Prop :=
  rest.head?.all (fun c => c = ',' || c = ']' || c = '}') = true

section

variable {rest whole fraction exponent lexeme : List Char} {p : Char → Bool}

theorem IsEnd.head (h : IsEnd rest) (hp : [',', ']', '}'].all p = true) :
    rest.head?.all p = true := by
  cases rest with
  | nil => rfl
  | cons c rest =>
    simp only [IsEnd, List.head?_cons, Option.all_some, Bool.or_eq_true, decide_eq_true_eq] at h
    simp only [List.all_cons, List.all_nil, Bool.and_eq_true] at hp
    rcases h with (rfl | rfl) | rfl
    · exact hp.1
    · exact hp.2.1
    · exact hp.2.2.1

theorem IsExponent.head (h : IsExponent exponent) (hrest : IsEnd rest)
    (hp : ['e', ',', ']', '}'].all p = true) : (exponent ++ rest).head?.all p = true := by
  rw [List.all_cons, Bool.and_eq_true] at hp
  cases h with
  | absent => exact hrest.head hp.2
  | digits => exact hp.1

theorem IsFraction.head (h : IsFraction fraction) (hexponent : IsExponent exponent)
    (hrest : IsEnd rest) (hp : ['.', 'e', ',', ']', '}'].all p = true) :
    (fraction ++ (exponent ++ rest)).head?.all p = true := by
  rw [List.all_cons, Bool.and_eq_true] at hp
  cases h with
  | absent => exact hexponent.head hrest hp.2
  | digits => exact hp.1

theorem scanWhole?_append (h : IsWhole whole) (hrest : rest.head?.all (!Text.isDigit ·) = true) :
    scanWhole? (whole ++ rest) = some (whole, rest) := by
  obtain ⟨d, ds, rfl⟩ := List.exists_cons_of_ne_nil h.areDigits.nonempty
  have hd := h.areDigits.isDigit d List.mem_cons_self
  have hds : ∀ c ∈ ds, Text.isDigit c = true := fun c hc =>
    h.areDigits.isDigit c (List.mem_cons_of_mem d hc)
  obtain ⟨htake, hdrop⟩ := Text.takeWhile_append_digits hds rest hrest
  rcases h.head with hzero | hhead
  · obtain ⟨rfl, rfl⟩ := List.cons.inj hzero
    rfl
  · have hne : d ≠ '0' := fun hd => hhead (congrArg some hd)
    rw [List.cons_append, scanWhole?, if_pos hd, htake, hdrop]
    exact fun hd => hne hd

theorem scanFraction_append (h : IsFraction fraction)
    (hdigit : rest.head?.all (!Text.isDigit ·) = true)
    (hpoint : rest.head?.all (fun c => c ≠ '.') = true) :
    scanFraction (fraction ++ rest) = (fraction, rest) := by
  cases h with
  | absent =>
    cases rest with
    | nil => rfl
    | cons c rest =>
      have hc : c ≠ '.' := by simpa using hpoint
      simp [scanFraction, hc]
  | digits h =>
    obtain ⟨htake, hdrop⟩ := Text.takeWhile_append_digits h.isDigit rest hdigit
    have hne := h.nonempty
    simp only [List.cons_append, scanFraction, htake, hdrop]

theorem scanExponent_append (h : IsExponent exponent) (hrest : IsEnd rest) :
    scanExponent (exponent ++ rest) = (exponent, rest) := by
  cases h with
  | absent =>
    cases rest with
    | nil => rfl
    | cons c rest =>
      have hc : ¬(c = 'e' ∨ c = 'E') := by
        have hc := hrest.head (p := fun c => c ≠ 'e' && c ≠ 'E') rfl
        simpa using hc
      rw [List.nil_append, scanExponent, if_neg (by simpa using hc)]
  | digits negative h =>
    obtain ⟨htake, hdrop⟩ := Text.takeWhile_append_digits h.isDigit rest
      (hrest.head rfl)
    have hne := h.nonempty
    cases negative <;> simp [scanExponent, splitSign, htake, hdrop]

/-- A numeral is taken from the front of a text as a whole. -/
theorem scanNumber?_append (h : IsNumeral lexeme) (hrest : IsEnd rest) :
    scanNumber? (lexeme ++ rest) = some (lexeme, rest) := by
  obtain ⟨negative, hwhole, hfraction, hexponent⟩ := h
  have hwhole' := scanWhole?_append hwhole (hfraction.head hexponent hrest rfl)
  have hfraction' := scanFraction_append hfraction (hexponent.head hrest rfl)
    (hexponent.head hrest rfl)
  have hexponent' := scanExponent_append hexponent hrest
  cases negative with
  | true =>
    simp [scanNumber?, signText, hwhole', hfraction', hexponent']
  | false =>
    obtain ⟨d, ds, rfl⟩ := List.exists_cons_of_ne_nil hwhole.areDigits.nonempty
    have hsign : d ≠ '-' := Text.ne_of_isDigit (hwhole.areDigits.isDigit d List.mem_cons_self) rfl
    rw [List.cons_append] at hwhole'
    simp [scanNumber?, signText, hsign, hwhole', hfraction', hexponent']

theorem scanWord?_append (h : IsNumeral lexeme) (rest : List Char) :
    scanWord? (lexeme ++ rest) = none := by
  obtain ⟨negative, hwhole, hfraction, hexponent⟩ := h
  obtain ⟨d, ds, rfl⟩ := List.exists_cons_of_ne_nil hwhole.areDigits.nonempty
  have hd := hwhole.areDigits.isDigit d List.mem_cons_self
  have hne {c : Char} (hc : Text.isDigit c = false) : d ≠ c := Text.ne_of_isDigit hd hc
  cases negative with
  | true => simp [scanWord?, signText, hne (c := 'I') rfl]
  | false =>
    simp [scanWord?, signText, hne (c := 'n') rfl, hne (c := 't') rfl, hne (c := 'f') rfl,
      hne (c := 'N') rfl, hne (c := 'I') rfl, hne (c := '-') rfl]

end

theorem isWhole_toDigits (n : Nat) : IsWhole (Nat.toDigits 10 n) where
  areDigits := Text.areDigits_toDigits n
  head := by
    rcases eq_or_ne n 0 with rfl | hn
    · exact .inl rfl
    · obtain ⟨d, ds, hdigits, hd⟩ := Text.exists_toDigits_eq_cons hn
      exact .inr (by simpa [hdigits] using hd)

theorem intText_eq (n : Int) :
    intText n = signText (n < 0) ++ Nat.toDigits 10 n.natAbs := by
  unfold intText signText
  by_cases hn : n < 0 <;> simp [hn]

theorem isNumeral_intText (n : Int) : IsNumeral (intText n) := by
  have h := IsNumeral.intro (n < 0) (isWhole_toDigits n.natAbs) .absent .absent
  rwa [List.append_nil, List.append_nil, ← intText_eq] at h

/-- A numeral is that of an integer when it has neither of the later parts. -/
theorem isIntegerLexeme_append (negative : Bool) {whole fraction exponent : List Char}
    (hwhole : IsWhole whole) (hfraction : IsFraction fraction) (hexponent : IsExponent exponent) :
    isIntegerLexeme (signText negative ++ whole ++ fraction ++ exponent) =
      (fraction ++ exponent).isEmpty := by
  have hdigits : whole.any (fun c => c = '.' || c = 'e' || c = 'E') = false := by
    rw [List.any_eq_false]
    intro c hc
    have hdigit := hwhole.areDigits.isDigit c hc
    simp [Text.ne_of_isDigit hdigit (c := '.') rfl, Text.ne_of_isDigit hdigit (c := 'e') rfl,
      Text.ne_of_isDigit hdigit (c := 'E') rfl]
  have hsign : (signText negative).any (fun c => c = '.' || c = 'e' || c = 'E') = false := by
    cases negative <;> decide
  rw [isIntegerLexeme, List.any_append, List.any_append, List.any_append, hsign, hdigits]
  cases hfraction <;> cases hexponent <;> simp

theorem isIntegerLexeme_intText (n : Int) : isIntegerLexeme (intText n) = true := by
  have h := isIntegerLexeme_append (n < 0) (isWhole_toDigits n.natAbs) .absent .absent
  rwa [List.append_nil, List.append_nil, ← intText_eq] at h

/-- A numeral that has nothing but digits. -/
theorem leading_digits (negative : Bool) {ds : List Char} (h : AreDigits ds) :
    Numeral.leading (signText negative ++ ds) = ⟨negative, ds, [], 0⟩ := by
  obtain ⟨htake, hdrop⟩ := Text.takeWhile_append_digits h.isDigit [] rfl
  rw [List.append_nil] at htake hdrop
  have hsign : Numeral.takeSign ((signText negative ++ ds).dropWhile Text.isAsciiBlank) =
      (negative, ds) := by
    unfold signText
    cases negative with
    | true =>
      rw [if_pos rfl, List.singleton_append, List.dropWhile_cons_of_neg (by decide)]
      rfl
    | false =>
      obtain ⟨d, ds, rfl⟩ := List.exists_cons_of_ne_nil h.nonempty
      have hd := h.isDigit d List.mem_cons_self
      have hblank := Text.not_isAsciiBlank_of_isDigit hd
      rw [if_neg (by decide), List.nil_append, List.dropWhile_cons_of_neg (by simp [hblank]),
        Numeral.takeSign]
      · exact fun _ hcons => Text.ne_of_isDigit hd rfl (List.cons.inj hcons).1
      · exact fun _ hcons => Text.ne_of_isDigit hd rfl (List.cons.inj hcons).1
  simp only [Numeral.leading, hsign, htake, hdrop]
  rfl

/-- The numeral of an integer has its value. -/
theorem toInt_leading_intText (n : Int) : (Numeral.leading (intText n)).toInt = n := by
  have h := leading_digits (n < 0) (Text.areDigits_toDigits n.natAbs)
  rw [intText_eq, h, Numeral.toInt, Text.decimal_toDigits]
  simp only [decide_eq_true_eq]
  split <;> omega

theorem isWhole_singleton {d : Char} (hd : Text.isDigit d = true) : IsWhole [d] where
  areDigits := ⟨by simp, by simpa using hd⟩
  head := by
    rcases eq_or_ne d '0' with rfl | hne
    · exact .inl rfl
    · exact .inr (by simpa using hne)

end Json

namespace Decimal

open Json (IsWhole IsFraction IsExponent IsNumeral)
open Text (AreDigits)

variable {digits : List Char}

theorem stripped_eq_rdropWhile (digits : List Char) :
    stripped digits =
      if digits.rdropWhile (· = '0') = [] then ['0'] else digits.rdropWhile (· = '0') := by
  unfold stripped List.rdropWhile
  cases (digits.reverse.dropWhile (· = '0')).reverse <;> rfl

theorem areDigits_stripped (h : ∀ c ∈ digits, Text.isDigit c = true) :
    AreDigits (stripped digits) := by
  rw [stripped_eq_rdropWhile]
  split
  · exact Text.areDigits_toDigits 0
  · next hne => exact ⟨hne, fun c hc => h c ((List.rdropWhile_prefix _ _).subset hc)⟩

/-- Digits that do not begin with a zero do not lose the first one. -/
theorem head?_stripped (hne : digits ≠ []) (h : digits.head? ≠ some '0') :
    (stripped digits).head? ≠ some '0' := by
  obtain ⟨d, ds, rfl⟩ := List.exists_cons_of_ne_nil hne
  have hd : d ≠ '0' := by simpa using h
  have hkept : (d :: ds).rdropWhile (· = '0') ≠ [] := fun hnil =>
    hd (by simpa using List.rdropWhile_eq_nil_iff.1 hnil d List.mem_cons_self)
  rw [stripped_eq_rdropWhile, if_neg hkept]
  obtain ⟨e, es, heq⟩ := List.exists_cons_of_ne_nil hkept
  obtain ⟨_, htail⟩ := List.rdropWhile_prefix (fun c => decide (c = '0')) (d :: ds)
  rw [heq] at htail ⊢
  rw [← (List.cons.inj htail).1] at hd
  simpa using hd

theorem exists_plain_eq (h : AreDigits digits) {power : Int}
    (hhead : power ≤ 0 ∨ digits.head? ≠ some '0') :
    ∃ whole fraction, IsWhole whole ∧ IsFraction fraction ∧ fraction ≠ [] ∧
      plain digits power = whole ++ fraction := by
  have hzeros (n : Nat) : ∀ c ∈ List.replicate n '0', Text.isDigit c = true := by
    intro c hc
    rw [(List.mem_replicate.1 hc).2]
    decide
  unfold plain
  split
  · refine ⟨['0'], '.' :: (List.replicate (-power - 1).toNat '0' ++ digits),
      Json.isWhole_toDigits 0, .digits ⟨by simp [h.nonempty], ?_⟩, by simp, rfl⟩
    exact List.forall_mem_append.2 ⟨hzeros _, h.isDigit⟩
  · obtain ⟨d, ds, rfl⟩ := List.exists_cons_of_ne_nil h.nonempty
    have hfront : ∀ c ∈ (d :: ds).take (power.toNat + 1), Text.isDigit c = true :=
      fun c hc => h.isDigit c (List.mem_of_mem_take hc)
    refine ⟨_, _, ⟨⟨by simp, List.forall_mem_append.2 ⟨hfront, hzeros _⟩⟩, ?_⟩, .digits ?_,
      by simp, rfl⟩
    · rcases hhead with hpower | hne
      · -- A digit that stands alone before the point may be a zero.
        have hzero : power.toNat = 0 := by omega
        rcases eq_or_ne d '0' with rfl | hne
        · exact .inl (by simp [hzero])
        · exact .inr (by simpa using hne)
      · exact .inr (by simpa using hne)
    · split
      · exact Text.areDigits_toDigits 0
      · next hback =>
        exact ⟨by simpa using hback, fun c hc => h.isDigit c (List.mem_of_mem_drop hc)⟩

theorem exists_mantissa_eq (h : AreDigits digits) :
    ∃ whole fraction, IsWhole whole ∧ IsFraction fraction ∧
      mantissa false digits = whole ++ fraction := by
  obtain ⟨d, ds, rfl⟩ := List.exists_cons_of_ne_nil h.nonempty
  have hd := Json.isWhole_singleton (h.isDigit d List.mem_cons_self)
  cases ds with
  | nil => exact ⟨[d], [], hd, .absent, rfl⟩
  | cons e es =>
    refine ⟨[d], '.' :: e :: es, hd, .digits ⟨by simp, ?_⟩, rfl⟩
    exact fun c hc => h.isDigit c (List.mem_cons_of_mem d hc)

theorem isExponent_exponentText (e : Int) : IsExponent (exponentText e) := by
  have hdigits := Text.areDigits_toDigits e.natAbs
  have hpadded : AreDigits (if (Nat.toDigits 10 e.natAbs).length < 2
      then '0' :: Nat.toDigits 10 e.natAbs else Nat.toDigits 10 e.natAbs) := by
    split
    · exact ⟨List.cons_ne_nil _ _, List.forall_mem_cons.2 ⟨by decide, hdigits.isDigit⟩⟩
    · exact hdigits
  simpa [exponentText] using IsExponent.digits (e < 0) hpadded

/-- A decimal is written as a numeral, provided that its first digit is no zero. -/
theorem isNumeral_layout {d : Decimal} (hdigits : AreDigits d.digits)
    (hhead : d.power ≤ 0 ∨ d.digits.head? ≠ some '0') :
    IsNumeral (d.layout Binary64.documentStyle).toList ∧
      Json.isIntegerLexeme (d.layout Binary64.documentStyle).toList = false := by
  have hstripped := areDigits_stripped hdigits.isDigit
  have hhead' := hhead.imp_right (head?_stripped hdigits.nonempty)
  have hbody : ∃ whole fraction exponent, IsWhole whole ∧ IsFraction fraction ∧
      IsExponent exponent ∧ fraction ++ exponent ≠ [] ∧
      (if -4 ≤ d.power && d.power ≤ 15 then plain (stripped d.digits) d.power
        else mantissa false (stripped d.digits) ++ exponentText d.power) =
        whole ++ fraction ++ exponent := by
    split
    · obtain ⟨whole, fraction, hwhole, hfraction, hne, h⟩ := exists_plain_eq hstripped hhead'
      exact ⟨whole, fraction, [], hwhole, hfraction, .absent, by simpa using hne, by simp [h]⟩
    · obtain ⟨whole, fraction, hwhole, hfraction, h⟩ := exists_mantissa_eq hstripped
      exact ⟨whole, fraction, _, hwhole, hfraction, isExponent_exponentText d.power,
        by simp [exponentText], by rw [h]⟩
  obtain ⟨whole, fraction, exponent, hwhole, hfraction, hexponent, hne, hbody⟩ := hbody
  have htext : (d.layout Binary64.documentStyle).toList =
      Json.signText d.negative ++ whole ++ fraction ++ exponent := by
    rw [List.append_assoc, List.append_assoc, ← List.append_assoc whole, ← hbody, layout,
      String.toList_ofList]
    cases d.negative <;> rfl
  rw [htext, Json.isIntegerLexeme_append d.negative hwhole hfraction hexponent]
  exact ⟨.intro d.negative hwhole hfraction hexponent, by simpa using hne⟩

end Decimal

namespace Binary64

/-- A double that is a number is written as a numeral, and not as that of an integer. -/
theorem isNumeral_shortest (x : Binary64) :
    Json.IsNumeral (x.shortest.layout documentStyle).toList ∧
      Json.isIntegerLexeme (x.shortest.layout documentStyle).toList = false := by
  rcases eq_or_ne x.magnitude 0 with hx | hx
  · rw [shortest, if_pos hx]
    exact Decimal.isNumeral_layout (Text.areDigits_toDigits 0) (.inl le_rfl)
  · obtain ⟨count, n, hn, h⟩ := exists_shortest_eq hx
    rw [h, Decimal.ofNumeral]
    split
    · exact Decimal.isNumeral_layout (Text.areDigits_toDigits 1) (.inr (by simp))
    · refine Decimal.isNumeral_layout (Text.areDigits_toDigits n) (.inr ?_)
      obtain ⟨d, ds, hdigits, hd⟩ := Text.exists_toDigits_eq_cons hn
      simpa [hdigits] using hd

end Binary64

end VersionedGraph
