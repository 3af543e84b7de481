import VersionedGraph.Binding
import VersionedGraph.Json.Writer
import VersionedGraph.Proofs.Doubles

/-!
# The characters of numbers

A number is written with digits, signs, points and few letters, in documents as well as where it is
kept as a text (`Decimal.isMark_of_mem_layout`). So its text is not mistaken for a quoted one or
for a name.
-/

namespace VersionedGraph

/-- The characters that the texts of finite numbers are made of: digits to any base with the mark
for what is none, points and signs. -/
def Decimal.isMark (c : Char) : Bool :=
  c.isDigit || "abcdef*.+-".toList.contains c

theorem Text.isMark_of_mem_toDigits {n : Nat} {c : Char} (h : c ∈ Nat.toDigits 10 n) :
    Decimal.isMark c = true := by
  rw [Decimal.isMark, Nat.isDigit_of_mem_toDigits (by decide) (by decide) h, Bool.true_or]

theorem Text.isMark_digitChar (n : Nat) : Decimal.isMark (Nat.digitChar n) = true := by
  rcases Nat.lt_or_ge n 16 with hlt | hge
  · revert n
    decide
  · obtain ⟨m, rfl⟩ := Nat.exists_eq_add_of_le' hge
    rw [show Nat.digitChar (m + 16) = '*' from rfl]
    decide

theorem Json.isMark_of_mem_intText {n : Int} {c : Char} (h : c ∈ intText n) :
    Decimal.isMark c = true := by
  unfold intText at h
  split at h
  · rcases List.mem_cons.1 h with rfl | h
    · decide
    · exact Text.isMark_of_mem_toDigits h
  · exact Text.isMark_of_mem_toDigits h

theorem Json.ofList_intText (n : Int) : String.ofList (intText n) = toString n := by
  rw [Int.toString_eq_repr]
  cases n with
  | ofNat m =>
    rw [intText, if_neg (by simp), Int.repr, ← String.toList_inj, Nat.toList_repr]
    simp
  | negSucc m =>
    rw [intText, if_pos (Int.negSucc_lt_zero m), Int.repr, ← String.toList_inj,
      String.toList_append, Nat.toList_repr]
    simp

namespace Decimal

variable {digits : List Char}

theorem isMark_of_mem_stripped (h : ∀ c ∈ digits, isMark c = true) {c : Char}
    (hc : c ∈ stripped digits) : isMark c = true := by
  unfold stripped at hc
  split at hc
  · rw [List.mem_singleton.1 hc]
    decide
  · rw [List.mem_reverse] at hc
    exact h c (List.mem_reverse.1 ((List.dropWhile_suffix _).subset hc))

theorem isMark_of_mem_plain (h : ∀ c ∈ digits, isMark c = true) {power : Int} {c : Char}
    (hc : c ∈ plain digits power) : isMark c = true := by
  have hzeros (n : Nat) (hc : c ∈ List.replicate n '0') : isMark c = true := by
    rw [(List.mem_replicate.1 hc).2]
    decide
  unfold plain at hc
  split at hc
  · simp only [List.mem_cons, List.mem_append, or_assoc] at hc
    rcases hc with rfl | rfl | hc | hc
    · decide
    · decide
    · exact hzeros _ hc
    · exact h c hc
  · simp only [List.mem_cons, List.mem_append, or_assoc] at hc
    rcases hc with hc | hc | rfl | hc
    · exact h c (List.mem_of_mem_take hc)
    · exact hzeros _ hc
    · decide
    · split at hc
      · rw [List.mem_singleton.1 hc]
        decide
      · exact h c (List.mem_of_mem_drop hc)

theorem isMark_of_mem_mantissa (h : ∀ c ∈ digits, isMark c = true) {pointed : Bool} {c : Char}
    (hc : c ∈ mantissa pointed digits) : isMark c = true := by
  unfold mantissa at hc
  split at hc
  · rw [List.mem_singleton.1 hc]
    decide
  · next d =>
    split at hc
    · simp only [List.mem_cons, List.not_mem_nil, or_false] at hc
      rcases hc with rfl | rfl | rfl
      · exact h c List.mem_cons_self
      · decide
      · decide
    · exact h c hc
  · next d ds _ =>
    rcases List.mem_cons.1 hc with rfl | hc
    · exact h c List.mem_cons_self
    · rcases List.mem_cons.1 hc with rfl | hc
      · decide
      · exact h c (List.mem_cons_of_mem d hc)

theorem isMark_of_mem_exponentText {e : Int} {c : Char} (hc : c ∈ exponentText e) :
    isMark c = true := by
  unfold exponentText at hc
  rcases List.mem_cons.1 hc with rfl | hc
  · decide
  · rcases List.mem_cons.1 hc with rfl | hc
    · split <;> decide
    · split at hc
      · rcases List.mem_cons.1 hc with rfl | hc
        · decide
        · exact Text.isMark_of_mem_toDigits hc
      · exact Text.isMark_of_mem_toDigits hc

/-- A decimal is written with marks only. -/
theorem isMark_of_mem_layout {d : Decimal} (h : ∀ c ∈ d.digits, isMark c = true) {style : Style}
    {c : Char} (hc : c ∈ (d.layout style).toList) : isMark c = true := by
  have hbody (hc : c ∈ if style.leastPlain ≤ d.power && d.power ≤ style.greatestPlain then
      plain (stripped d.digits) d.power
      else mantissa style.pointedMantissa (stripped d.digits) ++ exponentText d.power) :
      isMark c = true := by
    split at hc
    · exact isMark_of_mem_plain (fun _ => isMark_of_mem_stripped h) hc
    · rcases List.mem_append.1 hc with hc | hc
      · exact isMark_of_mem_mantissa (fun _ => isMark_of_mem_stripped h) hc
      · exact isMark_of_mem_exponentText hc
  unfold layout at hc
  rw [String.toList_ofList] at hc
  split at hc
  · rcases List.mem_cons.1 hc with rfl | hc
    · decide
    · exact hbody hc
  · exact hbody hc

theorem isMark_of_mem_ofNumeral {negative : Bool} {count n : Nat} {power : Int} {c : Char}
    (hc : c ∈ (ofNumeral negative count n power).digits) : isMark c = true := by
  unfold ofNumeral at hc
  split at hc
  · rw [List.mem_singleton.1 hc]
    decide
  · exact Text.isMark_of_mem_toDigits hc

end Decimal

namespace Binary64

open Decimal (isMark)

variable {x : Binary64} {c : Char}

theorem isMark_of_mem_shortest (hc : c ∈ x.shortest.digits) : isMark c = true := by
  rcases eq_or_ne x.magnitude 0 with hx | hx
  · rw [shortest, if_pos hx] at hc
    rw [List.mem_singleton.1 hc]
    decide
  · obtain ⟨count, n, -, h⟩ := exists_shortest_eq hx
    rw [h] at hc
    exact Decimal.isMark_of_mem_ofNumeral hc

/-- A document has only the words for doubles without digits besides. -/
theorem isMark_of_mem_floatText (hc : c ∈ Json.floatText x) :
    isMark c = true ∨ c ∈ "Infinity".toList ∨ c ∈ "NaN".toList := by
  unfold Json.floatText shortestText at hc
  split at hc
  · exact .inr (.inr hc)
  · split at hc
    · split at hc
      · rw [String.toList_append] at hc
        rcases List.mem_append.1 hc with hc | hc
        · rw [List.mem_singleton.1 hc]
          exact .inl (by decide)
        · exact .inr (.inl hc)
      · exact .inr (.inl hc)
    · exact .inl (Decimal.isMark_of_mem_layout (fun _ => isMark_of_mem_shortest) hc)

theorem isMark_of_mem_leadingDigits {count : Nat} {e : Extended}
    (hc : c ∈ e.leadingDigits count) : isMark c = true := by
  induction count generalizing e with
  | zero => cases hc
  | succ count ih =>
    rcases List.mem_cons.1 hc with rfl | hc
    · exact Text.isMark_digitChar _
    · exact ih hc

theorem isMark_of_mem_patternText (hc : c ∈ x.patternText.toList) :
    isMark c = true ∨ c ∈ "Inf".toList := by
  unfold patternText at hc
  split at hc
  · split at hc
    · rw [show "-Inf".toList = '-' :: "Inf".toList from rfl] at hc
      rcases List.mem_cons.1 hc with rfl | hc
      · exact .inl (by decide)
      · exact .inr hc
    · exact .inr hc
  · split at hc
    · refine .inl (Decimal.isMark_of_mem_layout ?_ hc)
      intro c hc
      rw [List.mem_singleton.1 hc]
      decide
    · exact .inl (Decimal.isMark_of_mem_layout (fun _ => isMark_of_mem_leadingDigits) hc)

end Binary64

end VersionedGraph
