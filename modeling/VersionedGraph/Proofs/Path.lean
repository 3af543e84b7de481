import Mathlib.Algebra.Group.Nat.Defs
import Mathlib.Data.List.Induction
import VersionedGraph.Clause.Reader
import VersionedGraph.Proofs.Outcome

/-!
# Paths as they are bound

The names in a path that was read from a text are identifiers, so the one text that the path is
bound as leads a query back to the same steps. The ways for the scan to come to a path are told once
(`Path.Scans`), and what it comes to is shown way by way.
-/

namespace VersionedGraph

namespace Text

theorem isDigit_of_mem_toDigits {n : Nat} : ∀ c ∈ Nat.toDigits 10 n, isDigit c = true := by
  intro c hc
  have hdigit := Nat.isDigit_of_mem_toDigits (by decide) (by decide) hc
  rw [Char.isDigit, Bool.and_eq_true, decide_eq_true_eq, decide_eq_true_eq] at hdigit
  rw [isDigit, Bool.and_eq_true, decide_eq_true_eq, decide_eq_true_eq]
  exact hdigit

theorem decimal_lt {digits : List Char} (h : digits.all isDigit = true) :
    decimal digits < 10 ^ digits.length := by
  induction digits using List.reverseRecOn with
  | nil => decide
  | append_singleton digits c ih =>
    rw [List.all_append, Bool.and_eq_true, List.all_cons, Bool.and_eq_true, isDigit,
      Bool.and_eq_true, decide_eq_true_eq, decide_eq_true_eq] at h
    have hfront := ih h.1
    have hlast : c.toNat ≤ '9'.toNat := h.2.1.2
    have hvalue : c.toNat - '0'.toNat < 10 := by
      change c.toNat ≤ 57 at hlast
      change c.toNat - 48 < 10
      omega
    rw [decimal_append_singleton, List.length_append, List.length_singleton, Nat.pow_succ]
    omega

theorem decimal_toDigits (n : Nat) : decimal (Nat.toDigits 10 n) = n :=
  Nat.ofDigitChars_ten_toDigits

end Text

namespace Path

theorem isWordChar_of_isName {cs : List Char} (h : isName cs = true) :
    ∀ c ∈ cs, isWordChar c = true := by
  cases cs with
  | nil => cases h
  | cons c cs =>
    rw [isName, Bool.and_eq_true, List.all_eq_true] at h
    rw [List.forall_mem_cons]
    exact ⟨by simp [isWordChar, h.1], h.2⟩

/-- A name is an identifier, and a position has no more digits than a number may have. -/
def Component.IsProper : Component → Prop
  | .property name => isName name.toList = true
  | .index position => (Nat.toDigits 10 position).length ≤ Text.maxDigits

/-- A path of steps that can be written, neither empty nor too deep. -/
structure IsProper (path : Path) : Prop where
  steps : ∀ step ∈ path, step.IsProper
  nonempty : 1 ≤ path.length
  depth : path.length ≤ maxDepth

section

variable {word : List Char} {step : Component}

theorem isProper_of_nameStep (h : nameStep word = .ok step) : step.IsProper := by
  unfold nameStep at h
  split at h
  · next hword =>
    cases h
    rw [Component.IsProper, String.toList_ofList]
    exact hword
  · cases h

/-- Written anew, a number that was read has no more digits than before. -/
theorem isProper_of_indexStep (hindex : isIndex word = true) (h : indexStep word = .ok step) :
    step.IsProper := by
  rw [isIndex, Bool.and_eq_true, Bool.not_eq_true', List.isEmpty_eq_false_iff] at hindex
  unfold indexStep at h
  split at h
  · cases h
  · next hfits =>
    cases h
    have hdigits : (Nat.toDigits 10 (Text.decimal word)).length ≤ word.length :=
      (Nat.length_toDigits_le_iff (by decide) (List.length_pos_of_ne_nil hindex.1)).2
        (Text.decimal_lt hindex.2)
    exact Nat.le_trans hdigits (Nat.not_lt.1 hfits)

theorem isProper_of_wordStep (h : wordStep word = .ok step) : step.IsProper := by
  unfold wordStep at h
  split at h
  · next hindex => exact isProper_of_indexStep hindex h
  · exact isProper_of_nameStep h

theorem isProper_of_bracketStep (h : bracketStep word = .ok step) : step.IsProper := by
  unfold bracketStep at h
  split at h
  · next hindex => exact isProper_of_indexStep hindex h
  · cases h

end

/-- A way for the scan to come to a path, inside of a bracket or not, with the characters of the
current word, the last one first, and what is left of the text. -/
inductive Scans : Bool → List Char → List Char → Path → Prop
  | nothing : Scans false [] [] []
  | lastWord {word : List Char} {step : Component} (h : wordStep word.reverse = .ok step) :
    Scans false word [] [step]
  | opening {rest : List Char} {path : Path} (more : Scans true [] rest path) :
    Scans false [] ('[' :: rest) path
  | nameOpening {word rest : List Char} {step : Component} {path : Path}
    (h : nameStep word.reverse = .ok step) (more : Scans true [] rest path) :
    Scans false word ('[' :: rest) (step :: path)
  | closing {word rest : List Char} {step : Component} {path : Path}
    (h : bracketStep word.reverse = .ok step) (more : Scans false [] rest path) :
    Scans true word (']' :: rest) (step :: path)
  | dot {rest : List Char} {path : Path} (more : Scans false [] rest path) :
    Scans false [] ('.' :: rest) path
  | wordDot {word rest : List Char} {step : Component} {path : Path}
    (h : wordStep word.reverse = .ok step) (more : Scans false [] rest path) :
    Scans false word ('.' :: rest) (step :: path)
  | char {inside : Bool} {c : Char} {word rest : List Char} {path : Path}
    (more : Scans inside (c :: word) rest path) : Scans inside word (c :: rest) path

theorem scans_of_scan {position : Nat} {inside : Bool} {word cs : List Char} {path : Path}
    (h : scan position inside word cs = .ok path) : Scans inside word cs path := by
  induction cs generalizing position inside word path with
  | nil =>
    rw [scan] at h
    cases inside with
    | true => cases h
    | false =>
      rw [if_neg Bool.false_ne_true] at h
      split at h
      · next hempty =>
        cases h
        rw [List.isEmpty_iff.1 hempty]
        exact .nothing
      · simp only [bind_eq_ok_iff, pure_eq_ok_iff] at h
        obtain ⟨step, hstep, rfl⟩ := h
        exact .lastWord hstep
  | cons c rest ih =>
    rw [scan] at h
    split at h
    · next hopen =>
      subst hopen
      cases inside with
      | true => cases h
      | false =>
        rw [if_neg Bool.false_ne_true] at h
        split at h
        · next hempty =>
          rw [List.isEmpty_iff.1 hempty]
          exact .opening (ih h)
        · simp only [bind_eq_ok_iff, pure_eq_ok_iff] at h
          obtain ⟨step, hstep, others, hothers, rfl⟩ := h
          exact .nameOpening hstep (ih hothers)
    · split at h
      · next hclose =>
        subst hclose
        cases inside with
        | false => cases h
        | true =>
          rw [if_pos rfl] at h
          simp only [bind_eq_ok_iff, pure_eq_ok_iff] at h
          obtain ⟨step, hstep, others, hothers, rfl⟩ := h
          exact .closing hstep (ih hothers)
      · split at h
        · next hdot =>
          rw [Bool.and_eq_true, decide_eq_true_eq, Bool.not_eq_true'] at hdot
          obtain ⟨rfl, rfl⟩ := hdot
          split at h
          · next hempty =>
            rw [List.isEmpty_iff.1 hempty]
            exact .dot (ih h)
          · simp only [bind_eq_ok_iff, pure_eq_ok_iff] at h
            obtain ⟨step, hstep, others, hothers, rfl⟩ := h
            exact .wordDot hstep (ih hothers)
        · exact .char (ih h)

theorem Scans.isProper {inside : Bool} {word cs : List Char} {path : Path}
    (h : Scans inside word cs path) : ∀ step ∈ path, step.IsProper := by
  induction h with
  | nothing => exact nofun
  | lastWord hstep => exact List.forall_mem_singleton.2 (isProper_of_wordStep hstep)
  | nameOpening hstep _ ih => exact List.forall_mem_cons.2 ⟨isProper_of_nameStep hstep, ih⟩
  | closing hstep _ ih => exact List.forall_mem_cons.2 ⟨isProper_of_bracketStep hstep, ih⟩
  | wordDot hstep _ ih => exact List.forall_mem_cons.2 ⟨isProper_of_wordStep hstep, ih⟩
  | opening _ ih => exact ih
  | dot _ ih => exact ih
  | char _ ih => exact ih

theorem isProper_of_parse {s : LooseText} {path : Path} (h : parse s = .ok path) :
    path.IsProper := by
  unfold parse at h
  split at h
  · unfold parseProper at h
    split at h
    · cases h
    · dsimp only at h
      split at h
      · cases h
      · rw [bind_eq_ok_iff] at h
        obtain ⟨found, hfound, h⟩ := h
        split at h
        · cases h
        · next hne =>
          split at h
          · cases h
          · next hdepth =>
            cases h
            rw [List.isEmpty_iff] at hne
            exact ⟨(scans_of_scan hfound).isProper, List.length_pos_of_ne_nil hne, Nat.not_lt.1 hdepth⟩
  · cases h

/-- Every name in the path is an identifier. -/
def Named (path : Path) : Prop :=
  ∀ name, Component.property name ∈ path → isName name.toList = true

theorem IsProper.named {path : Path} (h : path.IsProper) : path.Named :=
  fun name hname => h.steps (.property name) hname

theorem named_of_ofJson {p : Json} {path : Path} (h : ofJson p = .ok path) : path.Named := by
  cases p with
  | str s => exact (isProper_of_parse h).named
  | _ => cases h

end Path

namespace Clause

theorem readSteps_property {name rest : List Char} (hname : Path.isName name = true)
    (hrest : rest.head?.all (fun c => c = '.' || c = '[') = true) :
    readSteps ('.' :: (name ++ rest)) =
      (readSteps rest).map (.property (String.ofList name) :: ·) := by
  have hplain : ∀ c ∈ name, (c ≠ '.' && c ≠ '[') = true := by
    intro c hc
    have hproper := Path.isWordChar_of_isName hname c hc
    rw [Bool.and_eq_true, decide_eq_true_eq, decide_eq_true_eq]
    constructor <;> rintro rfl <;> exact absurd hproper (by decide)
  have hstop : rest.takeWhile (fun c => c ≠ '.' && c ≠ '[') = [] ∧
      rest.dropWhile (fun c => c ≠ '.' && c ≠ '[') = rest := by
    cases rest with
    | nil => exact ⟨rfl, rfl⟩
    | cons c rest =>
      have hc : ¬((c ≠ '.' && c ≠ '[') = true) := by
        simp only [List.head?_cons, Option.all_some, Bool.or_eq_true, decide_eq_true_eq] at hrest
        rcases hrest with rfl | rfl <;> decide
      exact ⟨List.takeWhile_cons_of_neg hc, List.dropWhile_cons_of_neg hc⟩
  have hne : name.isEmpty = false := by
    cases name with
    | nil => cases hname
    | cons first others => rfl
  rw [readSteps, List.takeWhile_append_of_pos hplain, List.dropWhile_append_of_pos hplain, hstop.1,
    hstop.2, List.append_nil, hne]
  rfl

theorem readSteps_index (position : Nat) (rest : List Char) :
    readSteps ('[' :: (Nat.toDigits 10 position ++ ']' :: rest)) =
      (readSteps rest).map (.index position :: ·) := by
  have hdigits := Text.isDigit_of_mem_toDigits (n := position)
  have hstop : ¬(Text.isDigit ']' = true) := by decide
  have hne : (Nat.toDigits 10 position).isEmpty = false := by
    simp [Nat.toDigits_ne_nil]
  rw [readSteps, List.takeWhile_append_of_pos hdigits, List.dropWhile_append_of_pos hdigits,
    List.takeWhile_cons_of_neg hstop, List.dropWhile_cons_of_neg hstop, List.append_nil,
    Text.decimal_toDigits, hne]
  rfl

theorem readSteps_render {path : Path} (h : path.Named) :
    readSteps (path.flatMap Path.Component.render) = some path := by
  induction path with
  | nil => rw [List.flatMap_nil, readSteps]
  | cons step path ih =>
    have hpath := ih fun name hname => h name (List.mem_cons_of_mem step hname)
    rw [List.flatMap_cons]
    cases step with
    | property name =>
      have hname := h name List.mem_cons_self
      have hrest : (path.flatMap Path.Component.render).head?.all
          (fun c => c = '.' || c = '[') = true := by
        cases path with
        | nil => rfl
        | cons step path => cases step <;> rfl
      rw [Path.Component.render, List.cons_append, readSteps_property hname hrest, hpath,
        String.ofList_toList]
      rfl
    | index position =>
      rw [Path.Component.render, List.cons_append, List.cons_append, List.append_assoc,
        List.singleton_append, readSteps_index, hpath]
      rfl

theorem readPath_canonical {path : Path} (h : path.Named) :
    readPath (.text path.canonical) = some path := by
  rw [readPath, LooseText.replaced_ofString, Path.toList_canonical]
  exact readSteps_render h

end Clause

end VersionedGraph
