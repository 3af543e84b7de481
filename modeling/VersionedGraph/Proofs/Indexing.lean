import VersionedGraph.Proofs.Spelling

/-!
# Both ways of writing positions

A position is written in brackets or, like a name, behind a dot. Which of the two is chosen for each
position makes no difference to the path, as long as no position behind a dot stands right before
one in brackets: there the scan takes for a name what ends at the bracket, and the text is told to
be no path (`Path.judge_tells_segments`).
-/

namespace VersionedGraph

namespace Path

/-! Pieces that do not follow one another. -/

namespace Piece

/-- Words are kept apart. -/
def Apart : Piece → Piece → Prop
  | word _, word _ => False
  | _, _ => True

theorem eq_of_not_mayPrecede {p q : Piece} (hp : p.IsProper) (hapart : p.Apart q)
    (h : ¬p.MayPrecede q) : ∃ cs digits, p = word cs ∧ q = bracket digits ∧ isName cs = false := by
  cases p with
  | word cs =>
    cases q with
    | bracket digits => exact ⟨cs, digits, rfl, rfl, Bool.eq_false_iff.2 h⟩
    | dot => exact absurd trivial h
    | word ds => exact hapart.elim
  | dot => cases q <;> exact absurd trivial h
  | bracket digits => cases q <;> exact absurd trivial h

end Piece

/-- Where a position stands right before a bracket, the scan says that it is no name. -/
theorem exists_scan_eq_badName {ps : List Piece} (hproper : ∀ p ∈ ps, p.IsProper)
    (hfits : ∀ p ∈ ps, p.Fits) (hapart : ps.IsChain Piece.Apart)
    (h : ¬ps.IsChain Piece.MayPrecede) (position : Nat) :
    ∃ cs, .word cs ∈ ps ∧ isName cs = false ∧
      scan position false [] (ps.flatMap Piece.text) = .error (.badName (String.ofList cs)) := by
  induction ps generalizing position with
  | nil => exact absurd .nil h
  | cons p ps ih =>
    rw [List.forall_mem_cons] at hproper hfits
    rw [List.isChain_cons] at hapart h
    rw [List.flatMap_cons]
    by_cases hnext : ∀ q ∈ ps.head?, p.MayPrecede q
    · obtain ⟨behind, hscan⟩ := exists_scan_eq_map hproper.1 hfits.1 hnext position
      obtain ⟨cs, hcs, hname, hothers⟩ :=
        ih hproper.2 hfits.2 hapart.2 (fun hchain => h ⟨hnext, hchain⟩) behind
      refine ⟨cs, List.mem_cons_of_mem _ hcs, hname, ?_⟩
      rw [hscan, hothers]
      rfl
    · push Not at hnext
      obtain ⟨q, hq, hprecede⟩ := hnext
      obtain ⟨cs, digits, rfl, rfl, hname⟩ :=
        Piece.eq_of_not_mayPrecede hproper.1 (hapart.1 q hq) hprecede
      obtain ⟨others, rfl⟩ : ∃ others, ps = .bracket digits :: others :=
        ⟨ps.tail, (List.cons_head?_tail hq).symm⟩
      refine ⟨cs, List.mem_cons_self, hname, ?_⟩
      change scan position false [] (cs ++ _) = _
      rw [scan_word_append hproper.1 (head?_text (by simp))]
      have hbefore : stepBefore ((Piece.bracket digits :: others).flatMap Piece.text) cs =
          .error (.badName (String.ofList cs)) := by
        change nameStep cs = _
        rw [nameStep, hname, if_neg Bool.false_ne_true]
      rw [hbefore]
      rfl

/-! Segments. -/

/-- A step as it is written: a name or a position behind a dot, or a position in brackets. -/
inductive Segment where
  | name (word : String)
  | dotted (position : Nat)
  | bracketed (position : Nat)

namespace Segment

def step : Segment → Component
  | name word => .property word
  | dotted position | bracketed position => .index position

def text : Segment → List Char
  | name word => '.' :: word.toList
  | dotted position => '.' :: Nat.toDigits 10 position
  | bracketed position => '[' :: (Nat.toDigits 10 position ++ [']'])

/-- Names are identifiers and positions are not too long. -/
def IsProper : Segment → Prop
  | name word => isName word.toList = true
  | dotted position | bracketed position => (Nat.toDigits 10 position).length ≤ Text.maxDigits

/-- A position behind a dot stands right before one in brackets. -/
def Clashes : Segment → Segment → Prop
  | dotted _, bracketed _ => True
  | _, _ => False

/-- What is written of a segment without the dot before it. -/
def last : Segment → Piece
  | name word => .word word.toList
  | dotted position => .word (Nat.toDigits 10 position)
  | bracketed position => .bracket (Nat.toDigits 10 position)

def lead : Segment → List Piece
  | name _ | dotted _ => [.dot]
  | bracketed _ => []

def pieces (a : Segment) : List Piece :=
  a.lead ++ [a.last]

variable {a b : Segment} {segments : List Segment}

theorem flatMap_text_pieces (a : Segment) : a.pieces.flatMap Piece.text = a.text := by
  cases a <;> simp [pieces, lead, last, text, Piece.text]

theorem isIndex_toDigits (n : Nat) : isIndex (Nat.toDigits 10 n) = true := by
  rw [isIndex, Bool.and_eq_true, List.all_eq_true]
  exact ⟨by simp [Nat.toDigits_ne_nil], Text.isDigit_of_mem_toDigits⟩

theorem step?_last (h : a.IsProper) : a.last.step? = some a.step := by
  cases a with
  | name word => simp [last, Piece.step?, step, isIndex_of_isName h]
  | dotted n => simp [last, Piece.step?, step, isIndex_toDigits, Text.decimal_toDigits]
  | bracketed n => simp [last, Piece.step?, step, Text.decimal_toDigits]

theorem filterMap_step?_pieces (h : a.IsProper) : a.pieces.filterMap Piece.step? = [a.step] := by
  have hlead : a.lead.filterMap Piece.step? = [] := by cases a <;> rfl
  rw [pieces, List.filterMap_append, hlead, List.nil_append,
    List.filterMap_cons_some (step?_last h), List.filterMap_nil]

theorem isProper_last (h : a.IsProper) : a.last.IsProper ∧ a.last.Fits := by
  cases a with
  | name word => exact ⟨.inl h, fun hindex => absurd hindex (by simp [isIndex_of_isName h])⟩
  | dotted n => exact ⟨.inr (isIndex_toDigits n), fun _ => h⟩
  | bracketed n => exact ⟨isIndex_toDigits n, h⟩

theorem isProper_pieces (h : a.IsProper) : ∀ p ∈ a.pieces, p.IsProper ∧ p.Fits := by
  have hlead : ∀ p ∈ a.lead, p.IsProper ∧ p.Fits := by
    cases a with
    | name | dotted => exact List.forall_mem_singleton.2 ⟨trivial, trivial⟩
    | bracketed => exact nofun
  exact List.forall_mem_append.2 ⟨hlead, List.forall_mem_singleton.2 (isProper_last h)⟩

/-- What stands right behind a segment is the dot of another one, or its bracket. -/
theorem forall_head?_pieces_iff {R : Piece → Prop} (hdot : R .dot) :
    (∀ q ∈ (segments.flatMap pieces).head?, R q) ↔
      ∀ b ∈ segments.head?, ∀ n, b = bracketed n → R b.last := by
  cases segments with
  | nil => simp
  | cons b segments => cases b <;> simp [pieces, lead, hdot]

/-- Only at the end of a segment are there pieces that may not follow one another. -/
theorem isChain_pieces_iff {R : Piece → Piece → Prop} (hdot : ∀ p, R .dot p)
    (hlast : ∀ p : Piece, R p .dot) :
    (segments.flatMap pieces).IsChain R ↔
      segments.IsChain fun a b => ∀ n, b = bracketed n → R a.last b.last := by
  induction segments with
  | nil => simp
  | cons a segments ih =>
    have hpieces : (a.last :: segments.flatMap pieces).IsChain R ↔
        (a :: segments).IsChain fun a b => ∀ n, b = bracketed n → R a.last b.last := by
      rw [List.isChain_cons, List.isChain_cons, forall_head?_pieces_iff (hlast _), ih]
    rw [← hpieces, List.flatMap_cons, pieces, List.append_assoc, List.singleton_append]
    cases a with
    | bracketed n => exact Iff.rfl
    | name | dotted => exact List.isChain_cons_cons.trans (and_iff_right (hdot _))

theorem isChain_apart (segments : List Segment) :
    (segments.flatMap pieces).IsChain Piece.Apart := by
  have hdot (p : Piece) : Piece.Apart .dot p := by cases p <;> trivial
  have hlast (p : Piece) : p.Apart .dot := by cases p <;> trivial
  refine (isChain_pieces_iff hdot hlast).2 (List.pairwise_of_forall fun a b => ?_).isChain
  rintro n rfl
  cases a <;> trivial

/-- The pieces of segments may follow one another just if no segments clash. -/
theorem isChain_mayPrecede_iff (h : ∀ a ∈ segments, a.IsProper) :
    (segments.flatMap pieces).IsChain Piece.MayPrecede ↔
      segments.IsChain fun a b => ¬a.Clashes b := by
  have hdot (p : Piece) : Piece.MayPrecede .dot p := by cases p <;> trivial
  have hlast (p : Piece) : p.MayPrecede .dot := by cases p <;> trivial
  rw [isChain_pieces_iff hdot hlast]
  refine List.IsChain.iff_of_mem_imp fun a b ha _ => ?_
  cases b with
  | name | dotted => exact iff_of_true nofun (by cases a <;> exact not_false)
  | bracketed n =>
    have hbracket : (∀ m, bracketed n = bracketed m → a.last.MayPrecede (bracketed n).last) ↔
        a.last.MayPrecede (bracketed n).last := ⟨fun h => h n rfl, fun h _ _ => h⟩
    rw [hbracket]
    cases a with
    | name word => exact iff_of_true (h _ ha) not_false
    | dotted m =>
      refine iff_of_false (fun hname => ?_) (not_not_intro trivial)
      have hindex : isIndex (Nat.toDigits 10 m) = false := isIndex_of_isName hname
      rw [isIndex_toDigits] at hindex
      cases hindex
    | bracketed m => exact iff_of_true trivial not_false

theorem flatMap_pieces_text (segments : List Segment) :
    (segments.flatMap pieces).flatMap Piece.text = segments.flatMap text := by
  rw [List.flatMap_assoc]
  exact congrArg (segments.flatMap ·) (funext flatMap_text_pieces)

theorem filterMap_pieces_step? (h : ∀ a ∈ segments, a.IsProper) :
    (segments.flatMap pieces).filterMap Piece.step? = segments.map step := by
  induction segments with
  | nil => rfl
  | cons a segments ih =>
    rw [List.forall_mem_cons] at h
    rw [List.flatMap_cons, List.filterMap_append, filterMap_step?_pieces h.1, ih h.2]
    rfl

theorem eq_dotted_of_mem_pieces (h : a.IsProper) {cs : List Char} (hcs : .word cs ∈ a.pieces)
    (hname : isName cs = false) : ∃ n, a = dotted n ∧ cs = Nat.toDigits 10 n := by
  cases a with
  | name word =>
    obtain rfl : cs = word.toList := by simpa [pieces, lead, last] using hcs
    cases hname.symm.trans h
  | dotted n => exact ⟨n, rfl, by simpa [pieces, lead, last] using hcs⟩
  | bracketed n => simp [pieces, lead, last] at hcs

/-- Pieces are what segments are written as, perhaps without their leading dot. -/
structure Writes (segments : List Segment) (ps : List Piece) : Prop where
  proper : ∀ p ∈ ps, p.IsProper
  fits : ∀ p ∈ ps, p.Fits
  apart : ps.IsChain Piece.Apart
  chained_iff : ps.IsChain Piece.MayPrecede ↔ segments.IsChain fun a b => ¬a.Clashes b
  steps : ps.filterMap Piece.step? = segments.map step
  dotted : ∀ cs, .word cs ∈ ps → isName cs = false →
    ∃ n, Segment.dotted n ∈ segments ∧ cs = Nat.toDigits 10 n

theorem writes_pieces (h : ∀ a ∈ segments, a.IsProper) :
    Writes segments (segments.flatMap pieces) := by
  have hall : ∀ p ∈ segments.flatMap pieces, p.IsProper ∧ p.Fits := by
    intro p hp
    obtain ⟨a, ha, hp⟩ := List.mem_flatMap.1 hp
    exact isProper_pieces (h a ha) p hp
  refine ⟨fun p hp => (hall p hp).1, fun p hp => (hall p hp).2, isChain_apart segments,
    isChain_mayPrecede_iff h, filterMap_pieces_step? h, fun cs hcs hname => ?_⟩
  obtain ⟨a, ha, hcs⟩ := List.mem_flatMap.1 hcs
  obtain ⟨n, rfl, hn⟩ := eq_dotted_of_mem_pieces (h a ha) hcs hname
  exact ⟨n, ha, hn⟩

theorem Writes.tail {ps : List Piece} (h : Writes segments (.dot :: ps)) : Writes segments ps where
  proper := (List.forall_mem_cons.1 h.proper).2
  fits := (List.forall_mem_cons.1 h.fits).2
  apart := h.apart.of_cons
  chained_iff := by
    rw [← h.chained_iff, List.isChain_cons]
    exact (and_iff_right fun q _ => by cases q <;> trivial).symm
  steps := h.steps
  dotted := fun cs hcs => h.dotted cs (List.mem_cons_of_mem _ hcs)

/-- A dot that segments begin with may be left out. -/
theorem exists_writes (h : ∀ a ∈ segments, a.IsProper) {cs : List Char}
    (hcs : segments.flatMap text = cs ∨ segments.flatMap text = '.' :: cs) :
    ∃ ps, Writes segments ps ∧ ps.flatMap Piece.text = cs := by
  have hwrites := writes_pieces h
  rw [← flatMap_pieces_text] at hcs
  rcases hcs with hcs | hcs
  · exact ⟨_, hwrites, hcs⟩
  · cases segments with
    | nil => cases hcs
    | cons a segments =>
      cases a with
      | name | dotted => exact ⟨_, hwrites.tail, (List.cons.inj hcs).2⟩
      | bracketed n => exact absurd (List.cons.inj hcs).1 (by decide)

theorem text_ne_dot_dot (h : ∀ a ∈ segments, a.IsProper) (cs : List Char) :
    segments.flatMap text ≠ '.' :: '.' :: cs := by
  have hword {ds rest : List Char} (hds : (Piece.word ds).IsProper) :
      '.' :: (ds ++ rest) ≠ '.' :: '.' :: cs := by
    intro heq
    cases ds with
    | nil => exact ne_nil_of_isProper hds rfl
    | cons d ds =>
      have hd : d = '.' := (List.cons.inj (List.cons.inj heq).2).1
      exact (ne_of_isWordChar (isWordChar_of_isProper hds d List.mem_cons_self)).2.2 hd
  cases segments with
  | nil => exact nofun
  | cons a segments =>
    have hlast := (isProper_last (h a List.mem_cons_self)).1
    rw [List.flatMap_cons]
    cases a with
    | name | dotted => exact hword hlast
    | bracketed n => exact fun heq => absurd (List.cons.inj heq).1 (by decide)

end Segment

theorem withoutRoot_of_isPathChar {cs : List Char} (h : ∀ c ∈ cs, isPathChar c = true) :
    withoutRoot cs = cs := by
  unfold withoutRoot
  split
  · exact absurd (h '$' List.mem_cons_self) (by decide)
  · exact absurd (h '$' List.mem_cons_self) (by decide)
  · rfl

section

variable {segments : List Segment} {root : String} {cs : List Char}

/-- What follows a root sign is segments, with or without their leading dot. -/
theorem withoutRoot_segments (hroot : root ∈ ["", "$", "$."]) (h : ∀ a ∈ segments, a.IsProper)
    (hcs : segments.flatMap Segment.text = cs ∨ segments.flatMap Segment.text = '.' :: cs) :
    segments.flatMap Segment.text = withoutRoot (root.toList ++ cs) ∨
      segments.flatMap Segment.text = '.' :: withoutRoot (root.toList ++ cs) := by
  obtain ⟨ps, hwrites, htext⟩ := Segment.exists_writes h hcs
  have hchars : ∀ c ∈ cs, isPathChar c = true := by
    rw [← htext]
    exact isPathChar_of_mem_flatMap_text hwrites.proper
  simp only [List.mem_cons, List.not_mem_nil, or_false] at hroot
  rcases hroot with rfl | rfl | rfl
  · change _ = withoutRoot cs ∨ _ = '.' :: withoutRoot cs
    rw [withoutRoot_of_isPathChar hchars]
    exact hcs
  · -- A dot right behind the sign belongs to it.
    by_cases hdot : ∃ rest, cs = '.' :: rest
    · obtain ⟨rest, rfl⟩ := hdot
      exact .inr (hcs.resolve_right (Segment.text_ne_dot_dot h rest))
    · have hsign : withoutRoot ('$' :: cs) = cs := by
        unfold withoutRoot
        split
        · next rest heq => exact absurd ⟨rest, (List.cons.inj heq).2⟩ hdot
        · next rest _ heq => exact (List.cons.inj heq).2.symm
        · next hnot => exact (hnot cs rfl).elim
      change _ = withoutRoot ('$' :: cs) ∨ _ = '.' :: withoutRoot ('$' :: cs)
      rw [hsign]
      exact hcs
  · exact hcs

/-- Segments in any mixture of both ways of writing positions, behind any root sign and with or
without a leading dot, are told to be the path of their steps, unless a position behind a dot stands
right before one in brackets. Then they are told to be no path, since that position is no name. -/
theorem judge_tells_segments (hroot : root ∈ ["", "$", "$."])
    (h : ∀ a ∈ segments, a.IsProper) (hlength : 1 ≤ segments.length)
    (hdepth : segments.length ≤ maxDepth)
    (hcs : segments.flatMap Segment.text = cs ∨ segments.flatMap Segment.text = '.' :: cs) :
    ((segments.IsChain fun a b => ¬a.Clashes b) →
      judge (.str (root ++ String.ofList cs : String)) =
        .ok (.valid (segments.map Segment.step))) ∧
    (¬(segments.IsChain fun a b => ¬a.Clashes b) →
      ∃ n, .dotted n ∈ segments ∧
        judge (.str (root ++ String.ofList cs : String)) = .ok (.invalid (.badName n.repr))) := by
  have hrest := withoutRoot_segments hroot h hcs
  obtain ⟨ps, hwrites, htext⟩ := Segment.exists_writes h hrest
  have htoList : (root ++ String.ofList cs : String).toList = root.toList ++ cs := by simp
  unfold judge
  rw [ofJson_str, parse_ofString]
  constructor
  · intro hclashes
    have hspells : Spells ps (withoutRoot (root.toList ++ cs)) (segments.map Segment.step) :=
      ⟨⟨hwrites.proper, hwrites.chained_iff.2 hclashes⟩, htext, hwrites.steps⟩
    rw [← htoList] at hspells
    rw [hspells.parseProper_eq_ok hwrites.fits (by simpa using hlength) (by simpa using hdepth)]
  · intro hclashes
    obtain ⟨word, hword, hname, hscan⟩ := exists_scan_eq_badName hwrites.proper hwrites.fits
      hwrites.apart (fun hchained => hclashes (hwrites.chained_iff.1 hchained)) 0
    obtain ⟨n, hn, rfl⟩ := hwrites.dotted word hword hname
    rw [htext, ← htoList] at hscan
    have hne : withoutRoot (root ++ String.ofList cs : String).toList ≠ [] := by
      intro hnil
      rw [hnil] at hscan
      cases hscan
    have hchars := isPathChar_of_mem_flatMap_text hwrites.proper
    rw [htext, ← htoList] at hchars
    rw [parseProper_eq_bind hne hchars, hscan]
    exact ⟨n, hn, rfl⟩

/-- A position in brackets may stand before one behind a dot, but not the other way round. -/
theorem judge_of_mixed_ways :
    judge (.str ("$." ++ String.ofList "a[0].1".toList : String)) =
        .ok (.valid [.property "a", .index 0, .index 1]) ∧
      ∃ n, Segment.dotted n ∈ [.name "a", .dotted 0, .bracketed 1] ∧
        judge (.str ("" ++ String.ofList "a.0[1]".toList : String)) =
          .ok (.invalid (.badName n.repr)) := by
  have hbracketFirst : ∀ a ∈ [Segment.name "a", .bracketed 0, .dotted 1], a.IsProper := by
    simp [Segment.IsProper, Text.maxDigits, isName, isNameStart, Nat.toDigits_of_lt_base]
  have hdottedFirst : ∀ a ∈ [Segment.name "a", .dotted 0, .bracketed 1], a.IsProper := by
    simp [Segment.IsProper, Text.maxDigits, isName, isNameStart, Nat.toDigits_of_lt_base]
  constructor
  · refine (@judge_tells_segments [.name "a", .bracketed 0, .dotted 1] "$." _ (by simp)
      hbracketFirst (by decide) (by decide) (.inr rfl)).1 ?_
    simp [Segment.Clashes]
  · refine (@judge_tells_segments [.name "a", .dotted 0, .bracketed 1] "" _ (by simp)
      hdottedFirst (by decide) (by decide) (.inr rfl)).2 ?_
    simp [Segment.Clashes]

/-- With its first position in brackets too, the text would be a path. -/
theorem dotted_clashes_with_bracketed :
    [Segment.name "a", .dotted 0, .bracketed 1].flatMap Segment.text = ".a.0[1]".toList ∧
      judge (.str ("a.0[1]" : String)) ≠ .ok (.valid [.property "a", .index 0, .index 1]) ∧
      judge (.str ("a[0][1]" : String)) = .ok (.valid [.property "a", .index 0, .index 1]) :=
  ⟨rfl, nofun, rfl⟩

end

end Path

end VersionedGraph
