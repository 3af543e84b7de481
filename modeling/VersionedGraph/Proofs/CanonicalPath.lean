import VersionedGraph.Proofs.Indexing

/-!
# Canonical paths are read back

The canonical text of a path writes each of its steps in one way, names behind dots and positions in
brackets, so that no two of them clash. If the path can be written at all, its canonical text is
therefore told to be that very path. Every path that is read from a text can be written, which makes
the canonical text of a text the canonical text of itself and tells paths apart
(`Path.canonical_is_read_back`).
-/

namespace VersionedGraph

namespace Path

namespace Segment

/-- A step as the canonical text has it. -/
def ofStep : Component → Segment
  | .property word => name word
  | .index position => bracketed position

theorem step_ofStep (step : Component) : (ofStep step).step = step := by
  cases step <;> rfl

theorem text_ofStep (step : Component) : (ofStep step).text = step.render := by
  cases step <;> rfl

theorem isProper_ofStep {step : Component} : (ofStep step).IsProper ↔ step.IsProper := by
  cases step <;> rfl

theorem not_clashes_ofStep (first second : Component) :
    ¬(ofStep first).Clashes (ofStep second) := by
  cases first <;> exact not_false

end Segment

section

variable {path : Path}

theorem IsProper.exists_spells_canonical (h : path.IsProper) :
    ∃ ps, Spells ps (withoutRoot path.canonical.toList) path ∧ ∀ p ∈ ps, p.Fits := by
  have hproper : ∀ a ∈ path.map Segment.ofStep, a.IsProper :=
    List.forall_mem_map.2 fun step hstep => Segment.isProper_ofStep.2 (h.steps step hstep)
  have htext : (path.map Segment.ofStep).flatMap Segment.text =
      path.flatMap Component.render := by
    rw [List.flatMap_map]
    exact congrArg (path.flatMap ·) (funext Segment.text_ofStep)
  have hsteps : (path.map Segment.ofStep).map Segment.step = path := by
    rw [List.map_map]
    exact List.map_id'' Segment.step_ofStep path
  have happart : (path.map Segment.ofStep).IsChain fun a b => ¬a.Clashes b :=
    List.isChain_map_of_isChain _ (fun first second _ => Segment.not_clashes_ofStep first second)
      (List.pairwise_of_forall fun _ _ => trivial).isChain
  have hrest := @withoutRoot_segments _ "$" _ (by simp) hproper (.inl htext)
  obtain ⟨ps, hwrites, hspelled⟩ := Segment.exists_writes hproper hrest
  have hcanonical : path.canonical.toList = "$".toList ++ path.flatMap Component.render :=
    toList_canonical path
  rw [← hcanonical] at hspelled
  refine ⟨ps, ⟨⟨hwrites.proper, hwrites.chained_iff.2 happart⟩, hspelled, ?_⟩, hwrites.fits⟩
  rw [hwrites.steps, hsteps]

/-- The canonical text of a path is read as that path. -/
theorem IsProper.parse_canonical (h : path.IsProper) : parse path.canonical = .ok path := by
  obtain ⟨ps, hspells, hfits⟩ := h.exists_spells_canonical
  rw [parse_ofString]
  exact hspells.parseProper_eq_ok hfits h.nonempty h.depth

theorem judge_eq_valid_iff {s : LooseText} : judge (.str s) = .ok (.valid path) ↔
    parse s = .ok path := by
  unfold judge
  rw [ofJson_str]
  constructor
  · intro h
    cases hparse : parse s with
    | ok found =>
      rw [hparse] at h
      exact congrArg Except.ok (congrArg Verdict.components (Except.ok.inj h))
    | error fault =>
      rw [hparse] at h
      dsimp only at h
      split at h
      · exact absurd (congrArg Verdict.isValid (Except.ok.inj h)) Bool.false_ne_true
      · cases h
  · intro h
    rw [h]

/-- The canonical text of a path is told to be that path, with all its steps and in the same form,
just if the path can be written. What a text is canonically is canonical itself, and two texts have
the same canonical form just if they have the same steps. -/
theorem canonical_is_read_back :
    (∀ path : Path, judge (.str path.canonical) = .ok (.valid path) ↔ path.IsProper) ∧
      (∀ (s : LooseText) (text : String), (parse s).map canonical = .ok text →
        (parse text).map canonical = .ok text) ∧
      ∀ (s s' : LooseText) (path path' : Path), parse s = .ok path → parse s' = .ok path' →
        (path.canonical = path'.canonical ↔ path = path') := by
  refine ⟨fun path => ?_, fun s text htext => ?_, fun s s' path path' hs hs' => ?_⟩
  · rw [judge_eq_valid_iff]
    exact ⟨isProper_of_parse, IsProper.parse_canonical⟩
  · obtain ⟨path, hpath, rfl⟩ := map_eq_ok_iff.1 htext
    rw [(isProper_of_parse hpath).parse_canonical]
    rfl
  · refine ⟨fun hsame => ?_, congrArg canonical⟩
    have hread := (isProper_of_parse hs).parse_canonical
    rw [hsame, (isProper_of_parse hs').parse_canonical] at hread
    exact (Except.ok.inj hread).symm

/-- Both ways of writing the second position are read as the same path, and its canonical text is
read as that path again. -/
theorem canonical_text_of_both_ways :
    let path : Path := [.property "a", .index 0, .index 12]
    path.canonical = "$.a[0][12]" ∧ path.IsProper ∧
      judge (.str path.canonical) = .ok (.valid path) ∧
      (parse ("a[0].12" : String)).map canonical = .ok "$.a[0][12]" ∧
      (parse ("$.a[0][12]" : String)).map canonical = .ok "$.a[0][12]" ∧
      (path.canonical = "$.a[0][12]" ↔ path = [.property "a", .index 0, .index 12]) := by
  intro path
  have hdotted : parse ("a[0].12" : String) = .ok path := rfl
  have hbracketed : parse ("a[0][12]" : String) = .ok path := rfl
  have hproper : path.IsProper := isProper_of_parse hdotted
  obtain ⟨htold, hagain, hsame⟩ := canonical_is_read_back
  exact ⟨rfl, hproper, (htold path).2 hproper, rfl, hagain _ _ (congrArg _ hdotted),
    hsame _ _ _ _ hdotted hbracketed⟩

end

end Path

end VersionedGraph
