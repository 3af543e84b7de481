import VersionedGraph.Fault
import VersionedGraph.Proofs.Accepted
import VersionedGraph.Proofs.CanonicalPath

/-!
# Numbers that are too long

What is wrong with the text of a path is told, and makes a request invalid, with one exception: a
number with more digits than can be read. Such a number breaks reading off, wherever it stands in the
text, as soon as it is reached and nothing before it is wrong (`Path.MeetsLongNumber`). Everything
that reads paths breaks off with it, the compiler of property filters as well, and nothing else makes
them fail otherwise than by an invalid request (`Path.only_long_numbers_break_off`).
-/

namespace VersionedGraph

/-- What is wrong with the text of a path is told just if it makes a request invalid. -/
theorem PathFault.kind_of_isTold {f : PathFault} (h : f.isTold = true) :
    (Fault.path f).kind = .validation := by
  cases f with
  | indexTooLong digits | misuse fault => cases h
  | _ => rfl

namespace FilterFault

theorem kind_of_field {f : FilterFault} (h : f.field? = some "value") :
    (Fault.filter f).kind = .validation := by
  cases f with
  | badPath fault => exact absurd (Option.some.inj h) (by decide)
  | misuse fault => cases h
  | _ => rfl

end FilterFault

namespace Path

variable {s : LooseText} {count : Nat} {f : PathFault}

/-- A text holds what a path may hold, and reading it comes to a number with too many digits, as many
as are counted. -/
def MeetsLongNumber (s : LooseText) (count : Nat) : Prop :=
  ∃ t : String, s = t ∧ (∀ c ∈ withoutRoot t.toList, isPathChar c = true) ∧
    ComesToLong (withoutRoot t.toList) count

theorem MeetsLongNumber.parse_eq_error (h : MeetsLongNumber s count) :
    parse s = .error (.indexTooLong count) := by
  obtain ⟨t, rfl, hchars, hlong⟩ := h
  have hscan := scan_of_comesToLong hlong 0
  have hne : withoutRoot t.toList ≠ [] := by
    intro hnil
    rw [hnil] at hscan
    cases hscan
  rw [parse_ofString, parseProper_eq_bind hne hchars, hscan]
  rfl

/-- A text is no path for a reason that is told, or because it meets too long a number. -/
theorem isTold_or_meetsLongNumber_of_parse (h : parse s = .error f) :
    f.isTold = true ∨ ∃ count, f = .indexTooLong count ∧ MeetsLongNumber s count := by
  unfold parse at h
  cases ht : s.toString? with
  | none =>
    rw [ht] at h
    cases h
    exact .inl rfl
  | some t =>
    rw [ht] at h
    rcases isTold_or_comesToLong_of_parseProper h with htold | ⟨count, hf, hchars, hlong⟩
    · exact .inl htold
    · exact .inr ⟨count, hf, t, LooseText.eq_ofString_of_toString? ht, hchars, hlong⟩

theorem judge_of_parse_eq_error (h : parse s = .error f) :
    judge (.str s) = if f.isTold then .ok (.invalid f) else .error f := by
  unfold judge
  rw [ofJson_str, h]

end Path

namespace PropertyFilter

variable {f : PropertyFilter} {fault : FilterFault}

/-- A filter on rows by a name that they cannot have is refused for that name. -/
theorem fails_or_badRowName_of_compile {rowName : LooseText}
    (h : f.compile (.str rowName) = .error fault) :
    fault = .badRowName rowName ∨ f.Fails fault := by
  by_cases hname : rowName.toString?.any Filter.isRowName = true
  · obtain ⟨name, htext, hname⟩ := (Option.any_eq_true _ _).1 hname
    rw [LooseText.eq_ofString_of_toString? htext] at h
    exact .inr (fails_of_compile_eq_error hname h)
  · have hcheck : Filter.checkRowName (.str rowName) = .error (.badRowName rowName) := if_neg hname
    rw [compile_eq_error_iff, Filter.leaf, hcheck] at h
    cases h
    exact .inl rfl

theorem compile_of_path_eq_error {rowName : String} {pathFault : PathFault}
    (hname : Filter.isRowName rowName = true) (h : Path.ofJson f.path = .error pathFault) :
    f.compile (.str rowName) = .error (.badPath pathFault) := by
  rw [compile_eq_error_iff, Filter.leaf, Filter.checkRowName_of_isRowName hname, ok_bind,
    Filter.path, h]
  rfl

end PropertyFilter

namespace Path

/-- Digits alone, one more than can be read or any more. -/
theorem meetsLongNumber_of_digits {n : Nat} (h : Text.maxDigits < n) :
    MeetsLongNumber (String.ofList (List.replicate n '1')) n := by
  have hdigits : ∀ c ∈ List.replicate n '1', Text.isDigit c = true := by
    intro c hc
    rw [List.eq_of_mem_replicate hc]
    rfl
  have hindex : isIndex (List.replicate n '1') = true := by
    rw [isIndex, Bool.and_eq_true, List.all_eq_true]
    exact ⟨by simpa using Nat.ne_zero_of_lt h, hdigits⟩
  have hchars : ∀ c ∈ List.replicate n '1', isPathChar c = true := fun c hc =>
    isPathChar_of_isWordChar (isWordChar_of_isDigit (hdigits c hc))
  have hlong : ¬(Piece.word (List.replicate n '1')).Fits := fun hfits => by
    have hle := hfits hindex
    rw [List.length_replicate] at hle
    exact absurd h (Nat.not_lt.2 hle)
  have hcomes : ComesToLong ((Piece.word (List.replicate n '1')).text ++ [])
      (Piece.word (List.replicate n '1')).content.length :=
    .here (.inr hindex) hlong fun c hc => absurd hc (Option.not_mem_none c)
  rw [Piece.text, Piece.content, List.append_nil, List.length_replicate] at hcomes
  refine ⟨_, rfl, ?_⟩
  rw [String.toList_ofList, withoutRoot_of_isPathChar hchars]
  exact ⟨hchars, hcomes⟩

/-- A text that meets too long a number gets no verdict, has no canonical form and makes every filter
on it break off, and none of this is an invalid request. Any other text is told to be a path or what
is wrong with it. Filters are refused as invalid unless their path meets too long a number. -/
theorem only_long_numbers_break_off (s : LooseText) :
    (∀ count, MeetsLongNumber s count →
      judge (.str s) = .error (.indexTooLong count) ∧
      (parse s).map canonical = .error (.indexTooLong count) ∧
      (Fault.path (.indexTooLong count)).kind = .badValue ∧
      ∀ (op : Filter.Operator) (value : Json) (rowName : String),
        Filter.isRowName rowName = true →
        PropertyFilter.compile ⟨.str s, op, value⟩ (.str rowName) =
          .error (.badPath (.indexTooLong count)) ∧
        (Fault.filter (.badPath (.indexTooLong count))).kind = .badValue) ∧
    ((∀ count, ¬MeetsLongNumber s count) →
      (∃ path, judge (.str s) = .ok (.valid path) ∧
        (parse s).map canonical = .ok path.canonical) ∨
      ∃ fault, judge (.str s) = .ok (.invalid fault) ∧ (parse s).map canonical = .error fault ∧
        (Fault.path fault).kind = .validation) ∧
    ∀ (op : Filter.Operator) (value : Json) (rowName : LooseText) (fault : FilterFault),
      PropertyFilter.compile ⟨.str s, op, value⟩ (.str rowName) = .error fault →
      (Fault.filter fault).kind = .validation ∨
        ∃ count, MeetsLongNumber s count ∧ fault = .badPath (.indexTooLong count) := by
  refine ⟨fun count hlong => ?_, fun hnone => ?_, fun op value rowName fault h => ?_⟩
  · have hparse := hlong.parse_eq_error
    refine ⟨?_, ?_, rfl, fun op value rowName hname =>
      ⟨PropertyFilter.compile_of_path_eq_error hname hparse, rfl⟩⟩
    · rw [judge_of_parse_eq_error hparse]
      rfl
    · rw [hparse]
      rfl
  · cases hparse : parse s with
    | ok path => exact .inl ⟨path, judge_eq_valid_iff.2 hparse, rfl⟩
    | error fault =>
      rcases isTold_or_meetsLongNumber_of_parse hparse with htold | ⟨count, _, hlong⟩
      · refine .inr ⟨fault, ?_, rfl, PathFault.kind_of_isTold htold⟩
        rw [judge_of_parse_eq_error hparse, if_pos htold]
      · exact absurd hlong (hnone count)
  · rcases PropertyFilter.fails_or_badRowName_of_compile h with rfl | hfails
    · exact .inl rfl
    · cases hfails with
      | path hparse =>
        rcases isTold_or_meetsLongNumber_of_parse hparse with htold | ⟨count, rfl, hlong⟩
        · exact .inl (PathFault.kind_of_isTold htold)
        · exact .inr ⟨count, hlong, rfl⟩
      | value _ hfield => exact .inl (FilterFault.kind_of_field hfield)

/-- Digits that are one too many get no verdict, no canonical form and no filter, while a text that
ends inside brackets is refused. -/
theorem digits_break_off_and_open_bracket_is_told :
    let digits : LooseText := String.ofList (List.replicate 4301 '1')
    let opened : LooseText := ("a..b[0" : String)
    (MeetsLongNumber digits 4301 ∧ judge (.str digits) = .error (.indexTooLong 4301)) ∧
      (∀ count, ¬MeetsLongNumber opened count) ∧
      ((∃ path, judge (.str opened) = .ok (.valid path) ∧
        (parse opened).map canonical = .ok path.canonical) ∨
        ∃ fault, judge (.str opened) = .ok (.invalid fault) ∧
          (parse opened).map canonical = .error fault ∧
          (Fault.path fault).kind = .validation) ∧
      Filter.isRowName "e" = true ∧
      PropertyFilter.compile ⟨.str digits, .present, .null⟩ (.str ("e" : String)) =
        .error (.badPath (.indexTooLong 4301)) ∧
      PropertyFilter.compile ⟨.str opened, .present, .null⟩ (.str ("e" : String)) =
        .error (.badPath .unclosed) ∧
      (Fault.filter (.badPath .unclosed)).kind = .validation := by
  intro digits opened
  have hlong : MeetsLongNumber digits 4301 := meetsLongNumber_of_digits (by decide)
  have hopened : parse opened = .error .unclosed := rfl
  have hshort (count : Nat) : ¬MeetsLongNumber opened count := fun h => by
    have hparse := h.parse_eq_error
    rw [hopened] at hparse
    cases hparse
  have hrefused : PropertyFilter.compile ⟨.str opened, .present, .null⟩ (.str ("e" : String)) =
      .error (.badPath .unclosed) := rfl
  have hname : Filter.isRowName "e" = true := by decide
  obtain ⟨hbreaks, _, _⟩ := only_long_numbers_break_off digits
  obtain ⟨_, hverdict, hfilters⟩ := only_long_numbers_break_off opened
  obtain ⟨hjudge, _, _, hcompile⟩ := hbreaks 4301 hlong
  refine ⟨⟨hlong, hjudge⟩, hshort, hverdict hshort, hname, (hcompile _ _ _ hname).1, hrefused, ?_⟩
  rcases hfilters _ _ _ _ hrefused with hkind | ⟨count, hlong, _⟩
  · exact hkind
  · exact absurd hlong (hshort count)

/-- Digits that are one too many are neither told to be no path, nor refused as an invalid request,
by any reader. -/
theorem digits_are_not_told_to_be_too_many :
    let digits : LooseText := String.ofList (List.replicate 4301 '1')
    (¬∃ verdict, judge (.str digits) = .ok verdict) ∧
      (∃ fault, (parse digits).map canonical = .error fault ∧
        (Fault.path fault).kind ≠ .validation) ∧
      ∃ fault, PropertyFilter.compile ⟨.str digits, .present, .null⟩ (.str ("e" : String)) =
        .error fault ∧ (Fault.filter fault).kind ≠ .validation := by
  intro digits
  have hlong : MeetsLongNumber digits 4301 := meetsLongNumber_of_digits (by decide)
  have hparse := hlong.parse_eq_error
  have hcompile := PropertyFilter.compile_of_path_eq_error
    (f := ⟨.str digits, .present, .null⟩) (by decide : Filter.isRowName "e" = true) hparse
  refine ⟨?_, ⟨.indexTooLong 4301, ?_, nofun⟩, _, hcompile, nofun⟩
  · rintro ⟨verdict, hverdict⟩
    rw [judge_of_parse_eq_error hparse] at hverdict
    cases hverdict
  · rw [hparse]
    rfl

end Path

end VersionedGraph
