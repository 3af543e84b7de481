import Mathlib.Algebra.Order.Ring.Int
import VersionedGraph.Number.Decimal

/-!
# Rounding to doubles and to digits

A double has room for fifty-three bits of a significand, so the double nearest to an integer is the
integer itself just when a power of two can be divided out until no more bits are left
(`Binary64.scaled_ofInt_eq_iff`).

In the other direction, the digits that a double is written with are those of a number which is not
zero (`Binary64.exists_shortest_eq`): a number of too few digits does not read back, and the number
that is rounded to all digits is at least one.
-/

namespace VersionedGraph

namespace Binary64

theorem twoTo_pos (n : Nat) : 0 < twoTo n := Nat.two_pow_pos n

theorem twoTo_add (m n : Nat) : twoTo (m + n) = twoTo m * twoTo n := Nat.pow_add 2 m n

theorem tenTo_pos (n : Nat) : 0 < tenTo n := Nat.pow_pos (by decide)

theorem tenTo_add (m n : Nat) : tenTo (m + n) = tenTo m * tenTo n := Nat.pow_add 10 m n

theorem tenTo_le {m n : Nat} (h : m ≤ n) : tenTo m ≤ tenTo n := Nat.pow_le_pow_right (by decide) h

theorem twoTo_le_tenTo {m n : Nat} (h : m ≤ 3 * n) : twoTo m ≤ tenTo n :=
  calc 2 ^ m ≤ 2 ^ (3 * n) := Nat.pow_le_pow_right (by decide) h
    _ = (2 ^ 3) ^ n := Nat.pow_mul 2 3 n
    _ ≤ 10 ^ n := Nat.pow_le_pow_left (by decide) n

theorem roundEven_cases (num : Nat) {den : Nat} (hden : 0 < den) :
    roundEven num den = num / den ∨ roundEven num den = num / den + 1 ∧ num % den ≠ 0 := by
  unfold roundEven
  dsimp only
  split
  · exact .inl rfl
  · next h =>
    refine .inr ⟨rfl, fun hzero => h ?_⟩
    rw [hzero, Nat.mul_zero, decide_eq_true hden, Bool.true_or]

theorem le_roundEven (num : Nat) {den : Nat} (hden : 0 < den) : num / den ≤ roundEven num den := by
  rcases roundEven_cases num hden with h | ⟨h, -⟩
  · exact h.ge
  · exact h ▸ Nat.le_succ _

/-- Rounding a quotient keeps it just when the division leaves no rest. -/
theorem roundEven_mul_eq_iff {num den : Nat} (hden : 0 < den) :
    roundEven num den * den = num ↔ den ∣ num := by
  constructor
  · exact fun h => ⟨_, h.symm.trans (Nat.mul_comm _ _)⟩
  · intro h
    rcases roundEven_cases num hden with hdown | ⟨-, hrest⟩
    · rw [hdown, Nat.div_mul_cancel h]
    · exact absurd (Nat.mod_eq_zero_of_dvd h) hrest

theorem toNat_ofMagnitudeBits (negative : Bool) {bits : Nat} (h : bits ≤ 2047 * 2 ^ 52) :
    (ofMagnitudeBits negative bits).bits.toNat = if negative then bits + 2 ^ 63 else bits := by
  unfold ofMagnitudeBits
  dsimp only
  rw [show min bits (2047 * twoTo 52) = bits from Nat.min_eq_left h, UInt64.toNat_ofNat']
  split
  · exact Nat.mod_eq_of_lt (by simp only [twoTo, Nat.pow_eq]; omega)
  · exact Nat.mod_eq_of_lt (by omega)

theorem isNegative_ofMagnitudeBits (negative : Bool) {bits : Nat} (h : bits ≤ 2047 * 2 ^ 52) :
    (ofMagnitudeBits negative bits).isNegative = negative := by
  unfold isNegative
  rw [toNat_ofMagnitudeBits negative h]
  cases negative <;> simp [twoTo]
  omega

theorem fields_ofMagnitudeBits (negative : Bool) {bits : Nat} (h : bits ≤ 2047 * 2 ^ 52) :
    (ofMagnitudeBits negative bits).exponentField = bits / 2 ^ 52 ∧
      (ofMagnitudeBits negative bits).fraction = bits % 2 ^ 52 := by
  unfold exponentField fraction
  rw [toNat_ofMagnitudeBits negative h]
  simp only [twoTo, Nat.pow_eq]
  split <;> omega

/-- The bits of a significand with fifty-two bits below its leading one, or of the next power of
two. -/
theorem magnitude_ofMagnitudeBits (negative : Bool) {dropped kept : Nat} (hleast : 2 ^ 52 ≤ kept)
    (hgreatest : kept ≤ 2 ^ 53) (hdropped : dropped < 2045) :
    (ofMagnitudeBits negative (dropped * 2 ^ 52 + kept)).magnitude = kept * twoTo dropped := by
  obtain ⟨hexponent, hfraction⟩ := fields_ofMagnitudeBits negative
    (show dropped * 2 ^ 52 + kept ≤ 2047 * 2 ^ 52 by omega)
  rcases Nat.lt_or_eq_of_le hgreatest with hlt | rfl
  · rw [show (dropped * 2 ^ 52 + kept) / 2 ^ 52 = dropped + 1 by omega] at hexponent
    rw [show (dropped * 2 ^ 52 + kept) % 2 ^ 52 = kept - 2 ^ 52 by omega] at hfraction
    rw [magnitude, significand, hexponent, hfraction, if_neg (Nat.succ_ne_zero _),
      Nat.add_sub_cancel]
    congr 1
    exact Nat.sub_add_cancel hleast
  · rw [show (dropped * 2 ^ 52 + 2 ^ 53) / 2 ^ 52 = dropped + 2 by omega] at hexponent
    rw [show (dropped * 2 ^ 52 + 2 ^ 53) % 2 ^ 52 = 0 by omega] at hfraction
    rw [magnitude, significand, hexponent, hfraction, if_neg (Nat.succ_ne_zero _), Nat.zero_add,
      show dropped + 2 - 1 = 1 + dropped by omega, twoTo_add, ← Nat.mul_assoc]
    rfl

theorem log2_mul_twoTo {a : Nat} (ha : a ≠ 0) (k : Nat) : (a * twoTo k).log2 = a.log2 + k := by
  have hbounds := (Nat.log2_eq_iff ha).1 rfl
  have hne : a * twoTo k ≠ 0 := Nat.mul_ne_zero ha (twoTo_pos k).ne'
  rw [Nat.log2_eq_iff hne, Nat.add_right_comm, Nat.pow_add, Nat.pow_add]
  exact ⟨Nat.mul_le_mul_right _ hbounds.1, Nat.mul_lt_mul_of_pos_right hbounds.2 (twoTo_pos k)⟩

/-- Of an integer with a 64-bit form as many bits are kept as a significand has. -/
theorem magnitude_ofInt {n : Int} (hn : n ≠ 0) (h : n.natAbs < 2 ^ 63) :
    (ofInt n).magnitude =
        roundEven (n.natAbs * twoTo 1074) (twoTo (n.natAbs.log2 + 1022)) *
          twoTo (n.natAbs.log2 + 1022) ∧
      (ofInt n).isNegative = decide (n < 0) := by
  have ha : n.natAbs ≠ 0 := by omega
  have hlog : n.natAbs.log2 < 63 := (Nat.log2_lt ha).2 h
  have hdropped : (n.natAbs * twoTo 1074 / 1).log2 - 52 = n.natAbs.log2 + 1022 := by
    rw [Nat.div_one, log2_mul_twoTo ha 1074]
    omega
  have hquotient : n.natAbs * twoTo 1074 / twoTo (n.natAbs.log2 + 1022) =
      n.natAbs * 2 ^ 52 / twoTo n.natAbs.log2 := by
    rw [show 1074 = 52 + 1022 from rfl, twoTo_add, twoTo_add, ← Nat.mul_assoc]
    exact Nat.mul_div_mul_right _ _ (twoTo_pos 1022)
  have hbounds := (Nat.log2_eq_iff ha).1 rfl
  have hleast : 2 ^ 52 ≤ n.natAbs * 2 ^ 52 / twoTo n.natAbs.log2 := by
    rw [Nat.le_div_iff_mul_le (twoTo_pos _), Nat.mul_comm]
    exact Nat.mul_le_mul_right _ hbounds.1
  have hgreatest : n.natAbs * 2 ^ 52 / twoTo n.natAbs.log2 < 2 ^ 53 := by
    rw [Nat.div_lt_iff_lt_mul (twoTo_pos _)]
    simp only [twoTo, Nat.pow_eq]
    rw [Nat.pow_succ] at hbounds
    omega
  have hkept := roundEven_cases (n.natAbs * twoTo 1074) (twoTo_pos (n.natAbs.log2 + 1022))
  rw [hquotient] at hkept
  unfold ofInt ofRatio
  dsimp only
  rw [hdropped, Nat.one_mul]
  generalize roundEven (n.natAbs * twoTo 1074) (twoTo (n.natAbs.log2 + 1022)) = kept at *
  exact ⟨magnitude_ofMagnitudeBits _ (by omega) (by omega) (by omega),
    isNegative_ofMagnitudeBits _ (by simp only [twoTo, Nat.pow_eq]; omega)⟩

/-- The bits that are dropped of an integer are zeros just when those that are kept are enough. -/
theorem twoTo_dvd_iff {a : Nat} (ha : a ≠ 0) :
    twoTo (a.log2 + 1022) ∣ a * twoTo 1074 ↔ ∃ m e : Nat, m < 2 ^ 53 ∧ a = m * 2 ^ e := by
  have hbounds := (Nat.log2_eq_iff ha).1 rfl
  rw [show 1074 = 52 + 1022 from rfl, twoTo_add, twoTo_add, ← Nat.mul_assoc,
    Nat.mul_dvd_mul_iff_right (twoTo_pos 1022)]
  rcases Nat.lt_or_ge a.log2 53 with hlow | hhigh
  · have hsmall : a < 2 ^ 53 := hbounds.2.trans_le (Nat.pow_le_pow_right Nat.two_pos hlow)
    refine iff_of_true ?_ ⟨a, 0, hsmall, by rw [Nat.pow_zero, Nat.mul_one]⟩
    exact (Nat.pow_dvd_pow 2 (Nat.le_of_lt_succ hlow)).mul_left a
  · obtain ⟨e, he⟩ := Nat.exists_eq_add_of_le hhigh
    have hlog : a.log2 = e + 1 + 52 := by omega
    rw [hlog, twoTo_add, Nat.mul_dvd_mul_iff_right (twoTo_pos 52)]
    constructor
    · rintro ⟨m, hm⟩
      refine ⟨m, e + 1, ?_, hm.trans (Nat.mul_comm _ _)⟩
      have hlt : m * 2 ^ (e + 1) < 2 ^ 53 * 2 ^ (e + 1) :=
        calc m * 2 ^ (e + 1) = a := (Nat.mul_comm _ _).trans hm.symm
          _ < 2 ^ (a.log2 + 1) := hbounds.2
          _ = 2 ^ 53 * 2 ^ (e + 1) := by
            rw [hlog, ← Nat.pow_add]
            congr 1
            omega
      exact Nat.lt_of_mul_lt_mul_right hlt
    · rintro ⟨m, e', hm, h⟩
      have hlt : 2 ^ a.log2 < 2 ^ (53 + e') := by
        rw [Nat.pow_add]
        exact hbounds.1.trans_lt (h ▸ Nat.mul_lt_mul_of_pos_right hm (twoTo_pos e'))
      have hle : e + 1 ≤ e' := by
        have := (Nat.pow_lt_pow_iff_right (by decide)).1 hlt
        omega
      exact h ▸ (Nat.pow_dvd_pow 2 hle).mul_left m

/-- Fifty-three bits are enough for an integer but for a power of two. -/
def HasRoomFor (n : Int) : Prop :=
  ∃ m e : Nat, m < 2 ^ 53 ∧ n.natAbs = m * 2 ^ e

/-- The nearest double of an integer with a 64-bit form is the integer itself just when there is
room for it. -/
theorem scaled_ofInt_eq_iff {n : Int} (h : n.natAbs < 2 ^ 63) :
    (ofInt n).scaled = n * twoTo 1074 ↔ HasRoomFor n := by
  rcases eq_or_ne n 0 with rfl | hn
  · exact iff_of_true (by decide +kernel) ⟨0, 0, by decide, rfl⟩
  obtain ⟨hmagnitude, hnegative⟩ := magnitude_ofInt hn h
  have ha : n.natAbs ≠ 0 := by omega
  rw [HasRoomFor, ← twoTo_dvd_iff ha, ← roundEven_mul_eq_iff (twoTo_pos _), ← hmagnitude, scaled,
    hnegative]
  generalize twoTo 1074 = unit
  rcases lt_or_ge n 0 with hlt | hge
  · have habs : n = -(n.natAbs : Int) := by omega
    rw [if_pos (decide_eq_true hlt)]
    conv_lhs => rhs; rw [habs]
    rw [neg_mul, neg_inj]
    norm_cast
  · have habs : n = (n.natAbs : Int) := by omega
    rw [if_neg (by simpa using hge)]
    conv_lhs => rhs; rw [habs]
    norm_cast

section

variable {x : Binary64}

theorem ne_zero_of_readsBack {negative : Bool} {n : Nat} {unit : Int} (hx : x.magnitude ≠ 0)
    (h : ofDecimal negative n unit = x) : n ≠ 0 := by
  rintro rfl
  rw [ofDecimal, if_pos rfl] at h
  apply hx
  rw [← h]
  cases negative <;> rfl

/-- A double that is not zero times `10 ^ 400` is at least one, with as many digits as it has. -/
theorem tenTo_le_of_leadingPower {length : Nat} (hx : x.magnitude ≠ 0)
    (h : x.leadingPower = (length : Int) - 400) :
    tenTo length * twoTo 1074 ≤ x.magnitude * tenTo 400 := by
  have hroom : twoTo 1074 ≤ x.magnitude * tenTo 400 :=
    (twoTo_le_tenTo (by decide)).trans (Nat.le_mul_of_pos_left _ (Nat.pos_of_ne_zero hx))
  unfold leadingPower at h
  have hpos := twoTo_pos 1074
  generalize twoTo 1074 = least at *
  generalize x.magnitude * tenTo 400 = great at *
  rw [← Nat.le_div_iff_mul_le hpos]
  rcases Nat.eq_zero_or_pos length with rfl | hlong
  · exact (Nat.one_le_div_iff hpos).2 hroom
  · by_contra hlt
    have hshort := (Nat.length_toDigits_le_iff (by decide) hlong).2 (Nat.lt_of_not_le hlt)
    omega

/-- In units of a power of ten that is not above its first digit, the absolute value is at least
one. -/
theorem inUnits_snd_le {unit : Int} (hx : x.magnitude ≠ 0) (h : unit ≤ x.leadingPower) :
    (x.inUnits unit).2 ≤ (x.inUnits unit).1 := by
  obtain ⟨length, hlength⟩ : ∃ length : Nat, x.leadingPower = (length : Int) - 400 := by
    have hdigits : 0 < (Nat.toDigits 10 (x.magnitude * tenTo 400 / twoTo 1074)).length :=
      Nat.length_toDigits_pos
    refine ⟨(Nat.toDigits 10 (x.magnitude * tenTo 400 / twoTo 1074)).length - 1, ?_⟩
    unfold leadingPower
    omega
  have hle := tenTo_le_of_leadingPower hx hlength
  rw [hlength] at h
  unfold inUnits
  generalize twoTo 1074 = least at *
  refine Nat.le_of_mul_le_mul_right ?_ (tenTo_pos 400)
  split
  · next hsign =>
    calc least * tenTo unit.toNat * tenTo 400
        = tenTo (unit.toNat + 400) * least := by
          rw [tenTo_add, Nat.mul_comm (tenTo _ * tenTo _), Nat.mul_assoc]
      _ ≤ tenTo length * least := Nat.mul_le_mul_right _ (tenTo_le (by omega))
      _ ≤ x.magnitude * tenTo 400 := hle
  · next hsign =>
    calc least * tenTo 400
        ≤ least * tenTo ((-unit).toNat + length) := Nat.mul_le_mul_left _ (tenTo_le (by omega))
      _ = tenTo (-unit).toNat * (tenTo length * least) := by
          rw [tenTo_add, Nat.mul_comm least, Nat.mul_assoc]
      _ ≤ tenTo (-unit).toNat * (x.magnitude * tenTo 400) := Nat.mul_le_mul_left _ hle
      _ = x.magnitude * tenTo (-unit).toNat * tenTo 400 := by
          rw [← Nat.mul_assoc, Nat.mul_comm (tenTo _)]

theorem inUnits_snd_pos (unit : Int) : 0 < (x.inUnits unit).2 := by
  have hpos := twoTo_pos 1074
  unfold inUnits
  generalize twoTo 1074 = least at *
  split
  · exact Nat.mul_pos hpos (tenTo_pos _)
  · exact hpos

theorem exists_rounded_eq (hx : x.magnitude ≠ 0) {count : Nat} (hcount : 0 < count) :
    ∃ n, n ≠ 0 ∧ x.rounded count = .ofNumeral x.isNegative count n x.leadingPower := by
  refine ⟨_, ?_, rfl⟩
  have hle := inUnits_snd_le hx (show x.leadingPower - count + 1 ≤ x.leadingPower by omega)
  have hpos := x.inUnits_snd_pos (x.leadingPower - count + 1)
  rw [Nat.div_ne_zero_iff]
  omega

theorem exists_nearestReadingBack?_eq (hx : x.magnitude ≠ 0) {count : Nat} {d : Decimal}
    (h : x.nearestReadingBack? count = some d) :
    ∃ n, n ≠ 0 ∧ d = .ofNumeral x.isNegative count n x.leadingPower := by
  have hpos := x.inUnits_snd_pos (x.leadingPower - count + 1)
  unfold nearestReadingBack? at h
  dsimp only at h
  generalize x.inUnits (x.leadingPower - count + 1) = units at h hpos
  split at h
  · next hbelow =>
    have hne := ne_zero_of_readsBack hx (of_decide_eq_true hbelow)
    refine ⟨_, ?_, (Option.some.inj h).symm⟩
    split
    · exact fun hzero => hne (Nat.le_zero.1 (hzero ▸ le_roundEven units.1 hpos))
    · exact hne
  · split at h
    · exact ⟨_, Nat.succ_ne_zero _, (Option.some.inj h).symm⟩
    · cases h

/-- The shortest text of a double that is not zero has the digits of a number that is not zero. -/
theorem exists_shortest_eq (hx : x.magnitude ≠ 0) :
    ∃ count n, n ≠ 0 ∧ x.shortest = .ofNumeral x.isNegative count n x.leadingPower := by
  rw [shortest, if_neg hx]
  cases hfound : ((List.range 17).map (· + 1)).findSome? x.nearestReadingBack? with
  | none =>
    rw [Option.getD_none]
    exact ⟨17, exists_rounded_eq hx (by decide)⟩
  | some d =>
    obtain ⟨count, _, hcount⟩ := List.exists_of_findSome?_eq_some hfound
    rw [Option.getD_some]
    exact ⟨count, exists_nearestReadingBack?_eq hx hcount⟩

end

end Binary64

end VersionedGraph
