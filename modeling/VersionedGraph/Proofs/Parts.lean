import VersionedGraph.Proofs.Finding
import VersionedGraph.Proofs.Wildcards

/-!
# Looking for parts of a text

Three operators look for their value at the front, at the back or anywhere in a text. The value is
put between percent signs as it is, and the whole is a pattern. So what is found are the texts that
have a part which the value describes as a pattern (`PropertyFilter.parts_are_found`). That part is
the value itself, up to the case of letters, if the value has no wildcards.
-/

namespace VersionedGraph

namespace LooseText

theorem firstHalves?_eq_none_iff {s : LooseText} :
    s.firstHalves? = none ↔ ∀ point ∈ s.points, ∃ c, point = .char c := by
  constructor
  · intro h point hpoint
    rw [← ofString_replaced h, ofString] at hpoint
    obtain ⟨c, -, rfl⟩ := List.mem_map.1 hpoint
    exact ⟨c, rfl⟩
  · intro h
    have hchars : s.points.map (CodePoint.char ∘ CodePoint.replaced) = s.points := by
      rw [← List.map_id s.points, List.map_map]
      refine List.map_congr_left fun point hpoint => ?_
      obtain ⟨c, rfl⟩ := h point hpoint
      rfl
    have hs : ofString s.replaced = s := by
      rw [ofString, replaced, String.toList_ofList, List.map_map, hchars]
    rw [← hs, firstHalves?_ofString]

/-- The characters of a text as patterns see them. -/
def asMatched (s : LooseText) : List Char :=
  s.points.map fun point => Text.Pattern.seen point.replaced

theorem asMatched_append (s t : LooseText) : (s ++ t).asMatched = s.asMatched ++ t.asMatched :=
  List.map_append

/-- A text without a null character is matched as a whole. -/
theorem seenText_replaced {s : LooseText} (h : .char (Char.ofNat 0) ∉ s.points) :
    Text.Pattern.seenText s.replaced = s.asMatched := by
  have hall : (s.points.map (·.replaced)).takeWhile (· ≠ Char.ofNat 0) =
      s.points.map (·.replaced) := by
    rw [List.takeWhile_eq_self_iff, List.forall_mem_map]
    intro point hpoint
    rw [decide_eq_true_eq]
    cases point with
    | char c =>
      rintro rfl
      exact h hpoint
    | half offset =>
      have hreplaced : Char.ofNat 0xFFFD ≠ Char.ofNat 0 := by decide
      exact hreplaced
  rw [Text.Pattern.seenText, Text.beforeNul, replaced, String.toList_ofList, hall, asMatched,
    List.map_map]
  rfl

end LooseText

namespace Filter

open Text.Pattern

/-- Where in a text a filter looks for its value. -/
inductive Site where
  | front
  | back
  | anywhere

namespace Site

def operator : Site → Operator
  | front => .startsWith
  | back => .endsWith
  | anywhere => .contains

/-- Whether a part of a text stands where it is looked for. -/
def Takes : Site → (part text : List Char) → Prop
  | front => List.IsPrefix
  | back => List.IsSuffix
  | anywhere => List.IsInfix

instance : (site : Site) → (part text : List Char) → Decidable (site.Takes part text)
  | front, part, text => inferInstanceAs (Decidable (part <+: text))
  | back, part, text => inferInstanceAs (Decidable (part <:+ text))
  | anywhere, part, text => inferInstanceAs (Decidable (part <:+: text))

/-- How many percent signs the value is put between. -/
def wildcards : Site → Nat
  | front => 1
  | back => 1
  | anywhere => 2

def folding : Site → Condition.Folding
  | front => .unchanged
  | back => .unchanged
  | anywhere => .upper

def wrap : Site → LooseText → LooseText
  | front, v => v ++ "%"
  | back, v => "%" ++ v
  | anywhere, v => "%" ++ v ++ "%"

/-- The signs of a value with those of the percent signs that it is put between. -/
def around : Site → List Sign → List Sign
  | front, signs => signs ++ [.anyRun]
  | back, signs => .anyRun :: signs
  | anywhere, signs => .anyRun :: (signs ++ [.anyRun])

variable (site : Site) {v : LooseText}

theorem test_eq (v : LooseText) :
    test site.operator (.str v) = .ok (.like site.folding (site.wrap v)) := by
  cases site <;> rfl

theorem describes_around {signs : List Sign} {text : List Char} :
    Describes (site.around signs) text ↔ ∃ part, site.Takes part text ∧ Describes signs part := by
  cases site with
  | front => exact describes_before_anyRun
  | back => exact describes_anyRun_cons
  | anywhere => exact describes_between_anyRuns

theorem asMatched_wrap :
    (site.wrap v).asMatched.map Sign.ofChar = site.around (v.asMatched.map Sign.ofChar) := by
  have hpercent : (LooseText.ofString "%").asMatched.map Sign.ofChar = [.anyRun] := by decide
  cases site <;>
    simp only [wrap, around, LooseText.asMatched_append, List.map_append, hpercent] <;> rfl

theorem mem_wrap {point : CodePoint} (hne : point ≠ .char '%') :
    point ∈ (site.wrap v).points ↔ point ∈ v.points := by
  cases site <;> simp [wrap, LooseText.points_append, LooseText.ofString, hne]

theorem firstHalves?_wrap : (site.wrap v).firstHalves? = none ↔ v.firstHalves? = none := by
  rw [LooseText.firstHalves?_eq_none_iff, LooseText.firstHalves?_eq_none_iff]
  refine forall_congr' fun point => ?_
  by_cases hpercent : point = .char '%'
  · exact iff_of_true (fun _ => ⟨'%', hpercent⟩) fun _ => ⟨'%', hpercent⟩
  · rw [site.mem_wrap hpercent]

theorem utf8ByteSize_wrap :
    (site.wrap v).replaced.utf8ByteSize = v.replaced.utf8ByteSize + site.wildcards := by
  have hpercent : (LooseText.ofString "%").replaced.utf8ByteSize = 1 := by decide
  cases site <;>
    simp only [wrap, wildcards, LooseText.replaced_append, String.utf8ByteSize_append, hpercent] <;>
    omega

theorem isLike_fold (pattern s : String) :
    Text.isLike (site.folding.fold pattern) (site.folding.fold s) = Text.isLike pattern s := by
  cases site with
  | front | back => rfl
  | anywhere => exact isLike_upperAscii pattern s

/-- A text matches the pattern for a value if the value describes a part of it. -/
theorem isLike_wrap {s : LooseText} (hs : .char (Char.ofNat 0) ∉ s.points)
    (hv : .char (Char.ofNat 0) ∉ v.points) :
    Text.isLike (site.folding.fold (site.wrap v).replaced) (site.folding.fold s.replaced) = true ↔
      ∃ part, site.Takes part s.asMatched ∧ Describes (v.asMatched.map Sign.ofChar) part := by
  have hwrapped : .char (Char.ofNat 0) ∉ (site.wrap v).points := by
    rwa [site.mem_wrap (by decide)]
  rw [isLike_fold, Text.isLike, ofText, LooseText.seenText_replaced hs,
    LooseText.seenText_replaced hwrapped, asMatched_wrap, covers_iff, describes_around]

/-- A value without wildcards describes the part of a text that is the value itself. -/
theorem takes_literal {cs text : List Char} (hrun : '%' ∉ cs) (hchar : '_' ∉ cs) :
    (∃ part, site.Takes part text ∧ Describes (cs.map Sign.ofChar) part) ↔
      site.Takes (cs.map Char.toLower) (text.map Char.toLower) := by
  simp only [describes_letters hrun hchar, eq_comm (b := cs.map Char.toLower)]
  cases site with
  | front => exact List.prefix_map_iff.symm
  | back => exact List.suffix_map_iff.symm
  | anywhere => exact List.infix_map_iff.symm

/-- A value can be handed over and makes no overlong pattern. -/
def Serves (v : LooseText) : Prop :=
  v.firstHalves? = none ∧ v.replaced.utf8ByteSize + site.wildcards ≤ maxBytes

theorem serves_iff {v : LooseText} : site.Serves v ↔
    (Condition.Test.like site.folding (site.wrap v)).fault? = none ∧
      Json.handOver ([Scalar.text (site.wrap v)].map Scalar.toJson) = .ok () := by
  rw [Json.handOver_eq_ok_iff, List.map_singleton, List.forall_mem_singleton, Scalar.toJson,
    Json.bindFault?, Option.map_eq_none_iff, firstHalves?_wrap, Condition.Test.fault?, isTooLong,
    utf8ByteSize_wrap, Serves, and_comm]
  refine and_congr_left fun _ => ?_
  by_cases hlong : maxBytes < v.replaced.utf8ByteSize + site.wildcards
  · simp [hlong]
  · simp [hlong, Nat.not_lt.1 hlong]

end Site

end Filter

namespace PropertyFilter

open Text.Pattern

variable {properties : String} {p : Json} {s v : LooseText}

/-- Stored properties hold a text at a path. -/
def HoldsText (properties : String) (p : Json) (s : LooseText) : Prop :=
  ∃ path d body, Path.ofJson p = .ok path ∧ queryDocument? properties = some d ∧
    d.find? path = some (.text body) ∧ Json.unquote body = s

/-- What is stored for a value holds the texts in it. -/
theorem holdsText_storedText {j : Json} {path : Path} (hopen : j.IsOpen)
    (hlength : (Json.write Json.spaced j).length < 2 ^ 32) (hpath : Path.ofJson p = .ok path)
    (hat : j.at? path = some (.str s)) (hs : Json.unquote (Json.escaped s) = s) :
    HoldsText (Json.storedText j) p s :=
  ⟨path, .ofJson j, Json.escaped s, hpath, by rw [queryDocument?_storedText, if_pos hopen],
    Json.find?_ofJson (Path.named_of_ofJson hpath) hlength hat, hs⟩

/-- Where a text is held, a filter for a part of it comes out if its value is short enough and
proper, and finds the text if the value describes a part of it where it is looked for. -/
theorem finds_site_iff (site : Filter.Site) (h : HoldsText properties p s)
    (hs : .char (Char.ofNat 0) ∉ s.points) (hv : .char (Char.ofNat 0) ∉ v.points) (found : Bool) :
    Finds ⟨p, site.operator, .str v⟩ properties found ↔ site.Serves v ∧
      (found = true ↔ ∃ part, site.Takes part s.asMatched ∧
        Describes (v.asMatched.map Sign.ofChar) part) := by
  obtain ⟨path, d, body, hpath, hdocument, hheld, rfl⟩ := h
  have hscalar : d.scalarAt path = .text (Json.unquote body) := by
    have hall : (Json.unquote body).points.takeWhile (· ≠ .char (Char.ofNat 0)) =
        (Json.unquote body).points := by
      rw [List.takeWhile_eq_self_iff]
      intro point hpoint
      rw [decide_eq_true_eq]
      rintro rfl
      exact hs hpoint
    rw [Json.Document.scalarAt, hheld]
    change Scalar.text ⟨_⟩ = _
    rw [hall]
  rw [finds_iff_of_test hpath (site.test_eq v) hdocument, hscalar, ← site.isLike_wrap hs hv,
    site.serves_iff]
  refine and_congr_right fun _ => ?_
  change decide (some (Text.isLike _ _) = some true) = found ↔ _
  simp only [Option.some_inj, Bool.decide_eq_true]
  exact eq_comm.trans Bool.eq_iff_iff

/-- A filter for a part of a text finds the texts that have a part there which its value describes,
wildcards and all. Without wildcards that is the value itself, up to the case of letters. -/
theorem parts_are_found (site : Filter.Site) (h : HoldsText properties p s)
    (hs : .char (Char.ofNat 0) ∉ s.points) (hv : .char (Char.ofNat 0) ∉ v.points) :
    (∀ found, Finds ⟨p, site.operator, .str v⟩ properties found ↔ site.Serves v ∧
      (found = true ↔ ∃ part, site.Takes part s.asMatched ∧
        Describes (v.asMatched.map Sign.ofChar) part)) ∧
    ('%' ∉ v.asMatched → '_' ∉ v.asMatched →
      ((∃ part, site.Takes part s.asMatched ∧ Describes (v.asMatched.map Sign.ofChar) part) ↔
        site.Takes (v.asMatched.map Char.toLower) (s.asMatched.map Char.toLower))) :=
  ⟨finds_site_iff site h hs hv, site.takes_literal⟩

/-! Parts of some texts. -/

def mixedTexts : Json :=
  .obj [("x", .str "axb"), ("y", .str "50% off"), ("z", .str "\uffff"), ("h", .str ⟨[.half 0]⟩)]

def mixedProperties : String := Json.storedText mixedTexts

theorem holdsText_mixedTexts {path : Path} (hpath : Path.ofJson p = .ok path)
    (hat : mixedTexts.at? path = some (.str s)) (hs : Json.unquote (Json.escaped s) = s) :
    HoldsText mixedProperties p s :=
  holdsText_storedText (by decide +kernel) (by decide +kernel) hpath hat hs

theorem holdsText_x : HoldsText mixedProperties (.str "x") "axb" :=
  @holdsText_mixedTexts _ _ [.property "x"] rfl rfl (by decide)

theorem holdsText_y : HoldsText mixedProperties (.str "y") "50% off" :=
  @holdsText_mixedTexts _ _ [.property "y"] rfl rfl (by decide)

theorem parts_of_mixed_texts :
    HoldsText mixedProperties (.str "x") "axb" ∧
      HoldsText mixedProperties (.str "y") "50% off" ∧
      Finds ⟨.str "x", .endsWith, .str "XB"⟩ mixedProperties true ∧
      Finds ⟨.str "x", .endsWith, .str "AX"⟩ mixedProperties false ∧
      Finds ⟨.str "y", .contains, .str "0_ O"⟩ mixedProperties true := by
  have hx {v : LooseText} (hv : .char (Char.ofNat 0) ∉ v.points) :=
    parts_are_found .back holdsText_x (by decide) hv
  have hy {v : LooseText} (hv : .char (Char.ofNat 0) ∉ v.points) :=
    parts_are_found .anywhere holdsText_y (by decide) hv
  refine ⟨holdsText_x, holdsText_y, ?_, ?_, ?_⟩
  · refine ((hx (by decide)).1 true).2 ⟨⟨rfl, by decide⟩, iff_of_true rfl ?_⟩
    rw [(hx (by decide)).2 (by decide) (by decide)]
    decide
  · refine ((hx (by decide)).1 false).2 ⟨⟨rfl, by decide⟩, iff_of_false Bool.false_ne_true ?_⟩
    rw [(hx (by decide)).2 (by decide) (by decide)]
    decide
  · refine ((hy (by decide)).1 true).2 ⟨⟨rfl, by decide⟩, iff_of_true rfl ?_⟩
    exact ⟨"0% o".toList, by decide, covers_iff.1 (by decide)⟩

/-- A value that is too long makes an overlong pattern. -/
theorem not_finds_long {v : String} (h : HoldsText properties p s)
    (hs : .char (Char.ofNat 0) ∉ s.points) (hv : Char.ofNat 0 ∉ v.toList)
    (hlong : maxBytes ≤ v.utf8ByteSize) (site : Filter.Site) (found : Bool) :
    ¬Finds ⟨p, site.operator, .str v⟩ properties found := by
  have hpoints : .char (Char.ofNat 0) ∉ (LooseText.ofString v).points := by
    rintro hnul
    obtain ⟨c, hc, hchar⟩ := List.mem_map.1 hnul
    exact hv (CodePoint.char.inj hchar ▸ hc)
  rw [finds_site_iff site h hs hpoints]
  rintro ⟨⟨-, hroom⟩, -⟩
  rw [LooseText.replaced_ofString] at hroom
  have hwildcards : 1 ≤ site.wildcards := by cases site <;> decide
  omega

theorem utf8ByteSize_replicate (n : Nat) :
    (String.ofList (List.replicate n 'a')).utf8ByteSize = n := by
  induction n with
  | zero => rfl
  | succ n ih =>
    have hsplit : String.ofList (List.replicate (n + 1) 'a') =
        "a" ++ String.ofList (List.replicate n 'a') := by
      rw [List.replicate_succ, ← List.singleton_append, String.ofList_append]
    rw [hsplit, String.utf8ByteSize_append, ih, Nat.add_comm]
    rfl

/-- Parts are found that are not the value itself: by wildcards in it, and where a character that is
none is seen as the replacement character. A value that is too long, or half a surrogate pair, is
not even looked for. -/
theorem parts_found_besides_the_value :
    (HoldsText mixedProperties (.str "x") "axb" ∧
      ¬Filter.Site.front.Takes ("a_b".toList.map Char.toLower) ("axb".toList.map Char.toLower) ∧
      Finds ⟨.str "x", .startsWith, .str "a_b"⟩ mixedProperties true) ∧
    (HoldsText mixedProperties (.str "y") "50% off" ∧
      ¬Filter.Site.anywhere.Takes ("5%F".toList.map Char.toLower)
        ("50% off".toList.map Char.toLower) ∧
      Finds ⟨.str "y", .contains, .str "5%F"⟩ mixedProperties true) ∧
    (HoldsText mixedProperties (.str "z") "\uffff" ∧
      ¬Filter.Site.back.Takes ("\ufffd".toList.map Char.toLower)
        ("\uffff".toList.map Char.toLower) ∧
      Finds ⟨.str "z", .endsWith, .str "\ufffd"⟩ mixedProperties true) ∧
    (∀ found, ¬Finds ⟨.str "x", .startsWith, .str (String.ofList (List.replicate 50000 'a'))⟩
      mixedProperties found) ∧
    (HoldsText mixedProperties (.str "h") ⟨[.half 0]⟩ ∧
      ∀ found, ¬Finds ⟨.str "h", .contains, .str ⟨[.half 0]⟩⟩ mixedProperties found) := by
  have hz : HoldsText mixedProperties (.str "z") "\uffff" :=
    @holdsText_mixedTexts _ _ [.property "z"] rfl rfl (by decide)
  have hh : HoldsText mixedProperties (.str "h") ⟨[.half 0]⟩ :=
    @holdsText_mixedTexts _ _ [.property "h"] rfl rfl (by decide)
  have hfinds {p : Json} {s v : LooseText} {site : Filter.Site}
      (h : HoldsText mixedProperties p s) (hs : .char (Char.ofNat 0) ∉ s.points)
      (hv : .char (Char.ofNat 0) ∉ v.points) (hserves : site.Serves v) {part : List Char}
      (htakes : site.Takes part s.asMatched)
      (hcovers : covers (v.asMatched.map Sign.ofChar) part = true) :
      Finds ⟨p, site.operator, .str v⟩ mixedProperties true :=
    (finds_site_iff site h hs hv true).2
      ⟨hserves, iff_of_true rfl ⟨part, htakes, covers_iff.1 hcovers⟩⟩
  refine ⟨⟨holdsText_x, by decide, ?_⟩, ⟨holdsText_y, by decide, ?_⟩, ⟨hz, by decide, ?_⟩,
    fun found => ?_, hh, fun found hfound => ?_⟩
  · exact @hfinds _ _ "a_b" .front holdsText_x (by decide) (by decide) ⟨rfl, by decide⟩
      "axb".toList (by decide) (by decide)
  · exact @hfinds _ _ "5%F" .anywhere holdsText_y (by decide) (by decide) ⟨rfl, by decide⟩
      "50% of".toList (by decide) (by decide)
  · exact @hfinds _ _ "\ufffd" .back hz (by decide) (by decide) ⟨rfl, by decide⟩
      "\ufffd".toList (by decide) (by decide)
  · refine not_finds_long holdsText_x (by decide) ?_ (utf8ByteSize_replicate 50000).ge .front found
    rw [String.toList_ofList]
    exact fun hnul => absurd (List.eq_of_mem_replicate hnul) (by decide)
  · obtain ⟨⟨hproper, -⟩, -⟩ :=
      (finds_site_iff .anywhere hh (by decide) (by decide) found).1 hfound
    cases hproper

end PropertyFilter

end VersionedGraph
