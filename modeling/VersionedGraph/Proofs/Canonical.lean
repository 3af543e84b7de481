import Mathlib.Data.List.Nodup
import VersionedGraph.Proofs.Closure
import VersionedGraph.Proofs.Comparisons
import VersionedGraph.Proofs.EntryOrder
import VersionedGraph.Proofs.NumberText
import VersionedGraph.Proofs.Quoting
import VersionedGraph.Proofs.Write

/-!
# What the canonical text tells

Lists of the same grants have one canonical text (`Acl.canonicalText_eq_of_mem_iff`). Conversely the
text tells the grants: whatever drafts have been stored under the text of some grants, their entries
are exactly these grants (`Acl.mem_entries_iff_of_keeps`). Drafts may hold other values than texts,
but one that is stored names its type and permission by texts, and an id that is no text is not
written like one.
-/

namespace VersionedGraph

theorem eraseDupsBy_map {α β : Type} (same : β → β → Bool) (f : α → β) (items : List α) :
    (items.map f).eraseDupsBy same =
      (items.eraseDupsBy fun a b => same (f a) (f b)).map f := by
  match items with
  | [] => rfl
  | a :: rest =>
    have shorter : (rest.filter fun b => decide (same (f b) (f a) = false)).length ≤ rest.length :=
      List.length_filter_le _ _
    have ih := eraseDupsBy_map same f (rest.filter fun b => decide (same (f b) (f a) = false))
    rw [List.map_cons, List.eraseDupsBy_cons, List.filter_map, Function.comp_def, ih,
      List.eraseDupsBy_cons, List.map_cons]
termination_by items.length
decreasing_by
  simp only [List.length_cons]
  omega

namespace Json

theorem writeItems_cons (sep : Separators) (v : Json) (rest : List Json) :
    writeItems sep (v :: rest) = write sep v ++ rest.flatMap fun w => sep.item ++ write sep w := by
  induction rest generalizing v with
  | nil => simp [writeItems]
  | cons w rest ih => rw [writeItems, ih, List.flatMap_cons, List.append_assoc, List.append_assoc]

/-- What is no text is not written like one. -/
theorem atomText_ne_quote {a : Atom} (h : ∀ s, a ≠ .text s) {c : Char} (hc : c ≠ '"')
    (t : LooseText) (rest rest' : List Char) :
    atomText a.toJson ++ c :: rest ≠ quote t ++ rest' := by
  have hquote : '"' ∉ atomText a.toJson := by
    cases a with
    | null => decide
    | bool b => cases b <;> decide
    | int n =>
      intro hmem
      exact absurd (isMark_of_mem_intText hmem) (by decide)
    | float x =>
      intro hmem
      rcases Binary64.isMark_of_mem_floatText hmem with hmark | hword | hword
      · exact absurd hmark (by decide)
      · exact absurd hword (by decide)
      · exact absurd hword (by decide)
    | text s => exact absurd rfl (h s)
  intro heq
  cases htext : atomText a.toJson with
  | nil =>
    rw [htext] at heq
    exact hc (List.cons.inj heq).1
  | cons d ds =>
    rw [htext] at heq hquote
    rw [(List.cons.inj heq).1] at hquote
    exact hquote List.mem_cons_self

/-- A text with an `r` in it is kept only of that text itself. -/
theorem eq_of_columnText?_eq_some {a : Atom} {s : String} (hr : 'r' ∈ s.toList)
    (h : a.toJson.columnText? = some s) : ∃ t : LooseText, a = .text t ∧ t.replaced = s := by
  cases a with
  | null => cases h
  | bool b =>
    cases b
    · cases h
      exact absurd hr (by decide)
    · cases h
      exact absurd hr (by decide)
  | int n =>
    have hs : toString n = s := Option.some.inj h
    rw [← hs, ← ofList_intText, String.toList_ofList] at hr
    exact absurd (isMark_of_mem_intText hr) (by decide)
  | float x =>
    have hs : (if x.isNaN then Scalar.null else .real x).patternText? = some s := h
    split at hs
    · cases hs
    · rw [← Option.some.inj hs] at hr
      rcases Binary64.isMark_of_mem_patternText hr with hmark | hword
      · exact absurd hmark (by decide)
      · exact absurd hword (by decide)
  | text t => exact ⟨t, rfl, Option.some.inj h⟩

end Json

theorem LooseText.ofString_replaced {s : LooseText} (h : s.firstHalves? = none) :
    ofString s.replaced = s := by
  have hchars : ∀ points : List CodePoint,
      (points.dropWhile fun p => p.char?.isSome).takeWhile (fun p => !p.char?.isSome) = [] →
      (points.map (·.replaced)).map CodePoint.char = points := by
    intro points hnone
    induction points with
    | nil => rfl
    | cons p points ih =>
      cases p with
      | char c =>
        rw [List.map_cons, List.map_cons, CodePoint.replaced_char]
        rw [List.dropWhile_cons_of_pos rfl] at hnone
        rw [ih hnone]
      | half offset => cases hnone
  unfold firstHalves? at h
  dsimp only at h
  split at h
  · next hnone =>
    rw [ofString, replaced, String.toList_ofList, hchars s.points hnone]
  · cases h

/-- Only texts without halves of surrogate pairs can be handed over. -/
theorem Json.firstHalves?_of_handOver {values : List Json} {place : Nat}
    (h : handOver values place = .ok ()) {s : LooseText} (hs : .str s ∈ values) :
    s.firstHalves? = none :=
  Option.map_eq_none_iff.1 (Json.handOver_eq_ok_iff.1 h _ hs)

theorem PrincipalType.name_of_ofName? {s : String} {t : PrincipalType} (h : ofName? s = some t) :
    t.name = s := by
  simpa using List.find?_some h

theorem Permission.name_of_ofName? {s : String} {p : Permission} (h : ofName? s = some p) :
    p.name = s := by
  simpa using List.find?_some h

namespace AclDraft

/-- A draft that is stored names the type and the permission of its entry, and what is a text in it
stays the same. -/
structure Settles (d : AclDraft) (e : AclEntry) : Prop where
  type : d.principalType = .text e.principal.type.name
  id : ∀ s, d.principalId = .text s → s = e.principal.id
  permission : d.permission = .text e.permission.name

theorem stored_eq_ok_iff {column : String} {field : Json} {s : String} :
    stored column field = .ok s ↔ field.columnText? = some s := by
  unfold stored
  cases field.columnText? <;> simp

theorem settles_of_settle {d : AclDraft} {e : AclEntry} (h : d.settle = .ok e) : d.Settles e := by
  unfold settle at h
  simp only [bind_eq_ok_iff] at h
  obtain ⟨_, hhanded, type, htype, id, hid, permission, hpermission, h⟩ := h
  have hproper {a : Atom} (ha : a.toJson ∈ [d.principalType.toJson, d.principalId.toJson,
      d.permission.toJson]) {s : LooseText} (hs : a = .text s) :
      LooseText.ofString s.replaced = s := by
    rw [hs] at ha
    exact LooseText.ofString_replaced (Json.firstHalves?_of_handOver hhanded ha)
  cases ht : PrincipalType.ofName? type with
  | none => simp [ht] at h
  | some t =>
    cases hp : Permission.ofName? permission with
    | none => simp [ht, hp] at h
    | some p =>
      simp only [ht, hp, pure_eq_ok_iff] at h
      subst h
      have htypeName := PrincipalType.name_of_ofName? ht
      have hpermissionName := Permission.name_of_ofName? hp
      rw [← htypeName] at htype
      rw [← hpermissionName] at hpermission
      refine ⟨?_, ?_, ?_⟩
      · obtain ⟨s, hs, hname⟩ := Json.eq_of_columnText?_eq_some (by cases t <;> decide)
          (stored_eq_ok_iff.1 htype)
        rw [hs, ← hproper (by simp) hs, hname]
      · intro s hs
        rw [← hproper (by simp) hs]
        rw [hs] at hid
        exact congrArg LooseText.ofString (Option.some.inj (stored_eq_ok_iff.1 hid))
      · obtain ⟨s, hs, hname⟩ := Json.eq_of_columnText?_eq_some (by cases p <;> decide)
          (stored_eq_ok_iff.1 hpermission)
        rw [hs, ← hproper (by simp) hs, hname]

theorem settle_ofEntry (e : AclEntry) : (ofEntry e).settle = .ok e := by
  have hhanded := Json.handOver_texts [e.principal.type.name, e.principal.id, e.permission.name] 1
  unfold settle
  simp only [ofEntry, Atom.toJson, List.map_cons, List.map_nil] at hhanded ⊢
  rw [hhanded]
  simp [stored, PrincipalType.ofName?_name, Permission.ofName?_name]

theorem map_ofEntry (entries : List AclEntry) :
    entries.map ofEntry = (entries.map AclEntry.plain).map ofPlain := by
  rw [List.map_map]
  rfl

/-- The type and the permission of a draft are texts of characters, and so is its id if it is a
text. -/
structure IsProper (d : AclDraft) : Prop where
  type : ∃ t : String, d.principalType = .text t
  id : ∀ s, d.principalId = .text s → ∃ t : String, s = t
  permission : ∃ t : String, d.permission = .text t

theorem isProper_ofPlain (g : PlainGrant) : (ofPlain g).IsProper :=
  ⟨⟨_, rfl⟩, fun _ hs => ⟨g.id, (Atom.text.inj hs).symm⟩, ⟨_, rfl⟩⟩

section

variable {d : AclDraft} {e : AclEntry} {g : PlainGrant} {rest rest' : List Char}

theorem Settles.isProper (h : d.Settles e) : d.IsProper :=
  ⟨⟨_, h.type⟩, fun s hs => ⟨_, h.id s hs⟩, ⟨_, h.permission⟩⟩

theorem write_append (d : AclDraft) (rest : List Char) :
    Json.write Json.tight d.toJson ++ rest =
      '{' :: (Json.quote "permission" ++ ':' :: (Json.atomText d.permission.toJson ++
        ',' :: (Json.quote "principal_id" ++ ':' :: (Json.atomText d.principalId.toJson ++
          ',' :: (Json.quote "principal_type" ++ ':' :: (Json.atomText d.principalType.toJson ++
            '}' :: rest)))))) := by
  have hatom (a : Atom) : Json.write Json.tight a.toJson = Json.atomText a.toJson := by
    cases a <;> rfl
  have hitem : Json.tight.item = [','] := rfl
  have hname : Json.tight.name = [':'] := rfl
  simp [toJson, Json.write, Json.writeFields, hatom, hitem, hname]

/-- A draft whose texts are of characters is told by its text, whatever stands behind it. -/
theorem IsProper.eq_ofPlain_of_write (h : d.IsProper)
    (hwrite : Json.write Json.tight d.toJson ++ rest =
      Json.write Json.tight (ofPlain g).toJson ++ rest') :
    d = ofPlain g ∧ rest = rest' := by
  rcases d with ⟨type, id, permission⟩
  obtain ⟨⟨t, rfl⟩, hproper, ⟨p, rfl⟩⟩ := h
  rw [write_append, write_append] at hwrite
  simp only [ofPlain, List.cons.injEq, true_and, List.append_cancel_left_eq] at hwrite
  obtain ⟨hpermission, hwrite⟩ := Json.quote_inj hwrite
  simp only [List.cons.injEq, true_and, List.append_cancel_left_eq] at hwrite
  -- A number or a word in the place of the id would not begin with a quote.
  have htext : ∃ s, id = .text s := by
    by_contra hnone
    rw [not_exists] at hnone
    exact Json.atomText_ne_quote hnone (by decide) _ _ _ hwrite
  obtain ⟨s, rfl⟩ := htext
  obtain ⟨i, rfl⟩ := hproper s rfl
  obtain ⟨hid, hwrite⟩ := Json.quote_inj hwrite
  simp only [List.cons.injEq, true_and, List.append_cancel_left_eq] at hwrite
  obtain ⟨htype, hwrite⟩ := Json.quote_inj hwrite
  refine ⟨?_, (List.cons.inj hwrite).2⟩
  rw [ofPlain, hpermission, hid, htype]

theorem eq_map_ofPlain_of_continuation {drafts : List AclDraft} {grants : List PlainGrant}
    (h : ∀ d ∈ drafts, d.IsProper)
    (hwrite : (drafts.map toJson).flatMap (fun v => Json.tight.item ++ Json.write Json.tight v) ++
      [']'] = ((grants.map ofPlain).map toJson).flatMap
        (fun v => Json.tight.item ++ Json.write Json.tight v) ++ [']']) :
    drafts = grants.map ofPlain := by
  have hitem : Json.tight.item = [','] := rfl
  induction drafts generalizing grants with
  | nil =>
    cases grants with
    | nil => rfl
    | cons g grants => simp [hitem] at hwrite
  | cons d drafts ih =>
    cases grants with
    | nil => simp [hitem] at hwrite
    | cons g grants =>
      obtain ⟨hproper, hothers⟩ := List.forall_mem_cons.1 h
      simp only [List.map_cons, List.flatMap_cons, List.append_assoc,
        List.append_cancel_left_eq] at hwrite
      obtain ⟨hd, hwrite⟩ := hproper.eq_ofPlain_of_write hwrite
      rw [List.map_cons, hd, ih hothers hwrite]

/-- Drafts whose texts are of characters are told by the text of their list. -/
theorem eq_map_ofPlain_of_tightText {drafts : List AclDraft} {grants : List PlainGrant}
    (h : ∀ d ∈ drafts, d.IsProper)
    (htext : Json.tightText (.arr (drafts.map toJson)) =
      Json.tightText (.arr ((grants.map ofPlain).map toJson))) :
    drafts = grants.map ofPlain := by
  have hwrite := congrArg String.toList htext
  simp only [Json.tightText, String.toList_ofList, Json.write, List.cons_append,
    List.cons.injEq, true_and] at hwrite
  cases drafts with
  | nil =>
    cases grants with
    | nil => rfl
    | cons g grants =>
      rw [List.map_cons, List.map_cons, Json.writeItems_cons, List.append_assoc,
        write_append] at hwrite
      cases hwrite
  | cons d drafts =>
    cases grants with
    | nil =>
      rw [List.map_cons, Json.writeItems_cons, List.append_assoc, write_append] at hwrite
      cases hwrite
    | cons g grants =>
      obtain ⟨hproper, hothers⟩ := List.forall_mem_cons.1 h
      rw [List.map_cons, List.map_cons, List.map_cons, Json.writeItems_cons, Json.writeItems_cons,
        List.append_assoc, List.append_assoc] at hwrite
      obtain ⟨hd, hwrite⟩ := hproper.eq_ofPlain_of_write hwrite
      rw [List.map_cons, hd, eq_map_ofPlain_of_continuation hothers hwrite]

/-- The entries that are stored are those that drafts propose, and no two are alike. -/
theorem mapM_settle_of_settleAll {drafts : List AclDraft} {known entries : List AclEntry}
    (hknown : known.Nodup) (h : settleAll known drafts = .ok entries) :
    entries.Nodup ∧ ∃ proposed, drafts.mapM settle = .ok proposed ∧
      entries = known ++ proposed := by
  induction drafts generalizing known with
  | nil =>
    cases h
    exact ⟨hknown, [], rfl, (List.append_nil _).symm⟩
  | cons d rest ih =>
    simp only [settleAll, bind_eq_ok_iff] at h
    obtain ⟨e, he, h⟩ := h
    split at h
    · cases h
    · next hnew =>
      have hfresh : (known ++ [e]).Nodup := by
        rw [List.nodup_append]
        refine ⟨hknown, List.nodup_singleton e, ?_⟩
        rintro a ha b hb rfl
        rw [List.mem_singleton.1 hb] at ha
        exact hnew (List.contains_iff_mem.2 ha)
      obtain ⟨hnodup, proposed, hproposed, rfl⟩ := ih hfresh h
      refine ⟨hnodup, e :: proposed, ?_, by simp⟩
      rw [List.mapM_cons, he, ok_bind, hproposed, ok_bind]
      rfl

end

end AclDraft

namespace Acl

open AclDraft (ofEntry ofPlain)

variable {drafts : List AclDraft} {text text' : String}

theorem canonicalText_eq_of_ok (h : canonicalText drafts = .ok text) :
    text = Json.tightText (.arr (((distinct drafts).mergeSort AclDraft.precedes).map
      AclDraft.toJson)) := by
  simp only [canonicalText, bind_eq_ok_iff, pure_eq_ok_iff] at h
  obtain ⟨sorted, hsorted, rfl⟩ := h
  unfold canonicalDrafts at hsorted
  split at hsorted
  · cases hsorted
  · cases hsorted
    rfl

section

variable {grants grants' : List PlainGrant}

theorem distinct_map_ofPlain (grants : List PlainGrant) :
    distinct (grants.map ofPlain) = grants.eraseDups.map ofPlain := by
  rw [distinct, eraseDupsBy_map]
  congr 2
  funext g h
  exact AclDraft.sameAs_ofPlain

/-- Drafts of three texts are put in the order of these. -/
theorem mergeSort_distinct_map_ofPlain (grants : List PlainGrant) :
    (distinct (grants.map ofPlain)).mergeSort AclDraft.precedes =
      (grants.eraseDups.mergeSort PlainGrant.precedes).map ofPlain := by
  rw [distinct_map_ofPlain]
  refine (List.map_mergeSort ?_).symm
  intro g _ h _
  exact AclDraft.precedes_ofPlain.symm

/-- Drafts of three texts always have a canonical form. -/
theorem exists_canonicalText_ofPlain (grants : List PlainGrant) :
    ∃ text, canonicalText (grants.map ofPlain) = .ok text := by
  have hnone : Sorting.fault? AclDraft.isBelow (distinct (grants.map ofPlain)) = none := by
    refine Sorting.fault?_eq_none fun d hd d' hd' => ?_
    rw [distinct_map_ofPlain] at hd hd'
    obtain ⟨g, _, rfl⟩ := List.mem_map.1 hd
    obtain ⟨h, _, rfl⟩ := List.mem_map.1 hd'
    exact ⟨_, AclDraft.isBelow_ofPlain⟩
  unfold canonicalText canonicalDrafts
  rw [hnone]
  exact ⟨_, rfl⟩

/-- Lists of grants have the same text just if they have the same grants, however these are ordered
and repeated. -/
theorem canonicalText_eq_iff (h : canonicalText (grants.map ofPlain) = .ok text)
    (h' : canonicalText (grants'.map ofPlain) = .ok text') :
    text = text' ↔ ∀ g, g ∈ grants ↔ g ∈ grants' := by
  rw [canonicalText_eq_of_ok h, canonicalText_eq_of_ok h', mergeSort_distinct_map_ofPlain,
    mergeSort_distinct_map_ofPlain]
  constructor
  · intro htext g
    have hproper : ∀ d ∈ (grants.eraseDups.mergeSort PlainGrant.precedes).map ofPlain,
        d.IsProper :=
      List.forall_mem_map.2 fun g _ => AclDraft.isProper_ofPlain g
    have hsorted := AclDraft.eq_map_ofPlain_of_tightText hproper htext
    rw [List.map_inj_right fun _ _ => AclDraft.ofPlain_inj.1] at hsorted
    rw [← List.mem_eraseDups, ← (List.mergeSort_perm _ PlainGrant.precedes).mem_iff, hsorted,
      (List.mergeSort_perm _ _).mem_iff, List.mem_eraseDups]
  · intro hmem
    have hperm : grants.eraseDups.Perm grants'.eraseDups := by
      rw [List.perm_ext_iff_of_nodup (nodup_eraseDups grants) (nodup_eraseDups grants')]
      intro g
      rw [List.mem_eraseDups, List.mem_eraseDups, hmem]
    have hsorted : grants.eraseDups.mergeSort PlainGrant.precedes =
        grants'.eraseDups.mergeSort PlainGrant.precedes :=
      mergeSort_ne_gt_eq hperm
    rw [hsorted]

end

section

variable {grants grants' : List AclEntry}

/-- Lists of the same entries have the same text, however they are ordered and repeated. -/
theorem canonicalText_eq_of_mem_iff (h : canonicalText (grants.map ofEntry) = .ok text)
    (h' : canonicalText (grants'.map ofEntry) = .ok text') (hmem : ∀ e, e ∈ grants ↔ e ∈ grants') :
    text = text' := by
  rw [AclDraft.map_ofEntry] at h h'
  refine (canonicalText_eq_iff h h').2 fun g => ?_
  simp only [List.mem_map, hmem]

/-- A list that is stored for drafts with the text of some grants has exactly these grants, each
once. -/
theorem mem_entries_iff_of_keeps {acl : AccessList} (h : acl.Keeps drafts)
    (hdrafts : canonicalText drafts = .ok text)
    (hgrants : canonicalText (grants.map ofEntry) = .ok text) :
    acl.entries.Nodup ∧ ∀ e, e ∈ acl.entries ↔ e ∈ grants := by
  obtain ⟨hnodup, proposed, hproposed, hentries⟩ :=
    AclDraft.mapM_settle_of_settleAll List.nodup_nil h.entries
  rw [List.nil_append] at hentries
  rw [← hentries] at hproposed
  have hsorted : (distinct drafts).mergeSort AclDraft.precedes =
      ((grants.map AclEntry.plain).eraseDups.mergeSort PlainGrant.precedes).map ofPlain := by
    refine AclDraft.eq_map_ofPlain_of_tightText ?_ ?_
    · intro d hd
      obtain ⟨e, _, he⟩ := exists_of_mem_of_mapM_eq_ok hproposed
        ((List.mergeSort_perm _ _).mem_iff.1 hd)
      exact (AclDraft.settles_of_settle he).isProper
    · rw [← canonicalText_eq_of_ok hdrafts, ← mergeSort_distinct_map_ofPlain,
        ← AclDraft.map_ofEntry, ← canonicalText_eq_of_ok hgrants]
  have hmem (d : AclDraft) : d ∈ distinct drafts ↔ ∃ e ∈ grants, ofEntry e = d := by
    rw [← (List.mergeSort_perm _ AclDraft.precedes).mem_iff, hsorted, List.mem_map]
    simp only [(List.mergeSort_perm _ PlainGrant.precedes).mem_iff, List.mem_eraseDups]
    rw [← List.mem_map, ← AclDraft.map_ofEntry, List.mem_map]
  refine ⟨hnodup, fun e => ?_⟩
  rw [mem_iff_of_mapM_eq_ok hproposed]
  constructor
  · rintro ⟨d, hd, he⟩
    obtain ⟨g, hg, rfl⟩ := (hmem d).1 hd
    rw [AclDraft.settle_ofEntry] at he
    cases he
    exact hg
  · intro he
    exact ⟨ofEntry e, (hmem _).2 ⟨e, he, rfl⟩, AclDraft.settle_ofEntry e⟩

end

end Acl

end VersionedGraph
