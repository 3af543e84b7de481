import VersionedGraph.Proofs.Access
import VersionedGraph.Proofs.Canonical

/-!
# What interning keeps

Access lists are only ever added, each for drafts that were handed over and under a digest that no
other list has (`Reachable.nodup_digests`), so a list stays what it is and stays where its digest
finds it. Unless two of the texts that were hashed collide, two calls with grants have the same id
just when they have the same grants, however far apart they are, and from then on the entries under
an id are the grants in order, each once (`Store.interned_ids_agree`).
-/

namespace VersionedGraph

namespace Acl

variable {lists : List (List AclDraft)} {drafts drafts' : List AclDraft} {digest : String}

/-- The texts that are hashed for some lists of drafts. -/
def hashedTexts (lists : List (List AclDraft)) : List String :=
  lists.filterMap fun drafts => (canonicalText drafts).toOption

/-- No two of the texts that are hashed for some lists of drafts have the same digest. -/
def CollisionFree (lists : List (List AclDraft)) : Prop :=
  ∀ text ∈ hashedTexts lists, ∀ text' ∈ hashedTexts lists,
    Sha256.hexDigest text.toUTF8.toList = Sha256.hexDigest text'.toUTF8.toList → text = text'

instance : Decidable (CollisionFree lists) :=
  inferInstanceAs (Decidable (∀ text ∈ hashedTexts lists, ∀ text' ∈ hashedTexts lists,
    Sha256.hexDigest text.toUTF8.toList = Sha256.hexDigest text'.toUTF8.toList → text = text'))

theorem exists_canonicalText_of_digest (h : Acl.digest drafts = .ok digest) :
    ∃ text, canonicalText drafts = .ok text ∧ Sha256.hexDigest text.toUTF8.toList = digest := by
  simpa only [Acl.digest, bind_eq_ok_iff, pure_eq_ok_iff] using h

/-- Drafts with the same digest have the same text. -/
theorem CollisionFree.exists_canonicalText (h : CollisionFree lists) (hdrafts : drafts ∈ lists)
    (hdrafts' : drafts' ∈ lists) (hdigest : Acl.digest drafts = .ok digest)
    (hdigest' : Acl.digest drafts' = .ok digest) :
    ∃ text, canonicalText drafts = .ok text ∧ canonicalText drafts' = .ok text := by
  obtain ⟨text, htext, hhash⟩ := exists_canonicalText_of_digest hdigest
  obtain ⟨text', htext', hhash'⟩ := exists_canonicalText_of_digest hdigest'
  have hmem {ds : List AclDraft} {x : String} (hds : ds ∈ lists) (hx : canonicalText ds = .ok x) :
      x ∈ hashedTexts lists :=
    List.mem_filterMap.2 ⟨ds, hds, by rw [hx]; rfl⟩
  have hsame := h text (hmem hdrafts htext) text' (hmem hdrafts' htext') (hhash.trans hhash'.symm)
  exact ⟨text, htext, hsame ▸ htext'⟩

end Acl

/-- A call hands over some grants: the entries themselves, or a value that holds their fields. -/
inductive Action.Interns (grants : List AclEntry) : Action (Option Int) → Prop
  | entries : Interns grants (internAcl (grants.map AclDraft.ofEntry))
  | fields {value : Json} (h : AclDraft.listOfJson value = .ok (grants.map AclDraft.ofEntry)) :
    Interns grants (internGiven value)

namespace Store

/-- The entries under an id are some grants, each once and in order. -/
def Lists (s : Store) (id : Int) (grants : List AclEntry) : Prop :=
  ∃ entries, s.aclEntries (.int id) = .ok entries ∧ AclEntry.Ascending entries ∧
    ∀ e, e ∈ entries ↔ e ∈ grants

section

variable {s t : Store} {drafts? : Option (List AclDraft)} {digest : String} {id : Int}
  {acl : AccessList}

theorem Written.acls_cases (h : s.Written drafts? t) :
    t.acls = s.acls ∨ ∃ drafts acl, drafts? = some drafts ∧ acl.Keeps drafts ∧
      s.aclByDigest? acl.digest = none ∧ t.acls = s.acls ++ [acl] := by
  cases h with
  | aside rows unnamed acls groups => exact .inl acls
  | interned acl handed keeps new => exact .inr ⟨_, acl, handed, keeps, new, rfl⟩
  | revised hr => exact .inl hr.same_aside.1

theorem Written.acls_grow (h : s.Written drafts? t) : s.acls <+: t.acls := by
  rcases h.acls_cases with hsame | ⟨_, acl, _, _, _, hadded⟩
  · exact ⟨[], by rw [List.append_nil, hsame]⟩
  · exact ⟨[acl], hadded.symm⟩

/-- No operation takes an access list away or changes one. -/
theorem acls_grow_after (s : Store) (log : List (Operation × Stamp)) :
    s.acls <+: (s.after log).acls := by
  induction log generalizing s with
  | nil => exact List.prefix_refl _
  | cons entry rest ih =>
    exact (entry.1.written_apply s entry.2).acls_grow.trans (ih (entry.1.apply s entry.2))

theorem acl?_of_grown (hgrown : s.acls <+: t.acls) (h : s.acl? id = some acl) :
    t.acl? id = some acl := by
  obtain ⟨more, hmore⟩ := hgrown
  unfold acl? at h ⊢
  split at h
  · next hpos =>
    obtain ⟨hlt, _⟩ := List.getElem?_eq_some_iff.1 h
    rw [if_pos hpos, ← hmore, List.getElem?_append_left hlt, h]
  · cases h

theorem mem_acls_of_acl? (h : s.acl? id = some acl) : acl ∈ s.acls := by
  unfold acl? at h
  split at h
  · exact List.mem_of_getElem? h
  · cases h

theorem aclByDigest?_of_grown (hgrown : s.acls <+: t.acls)
    (h : s.aclByDigest? digest = some id) : t.aclByDigest? digest = some id := by
  obtain ⟨more, hmore⟩ := hgrown
  unfold aclByDigest? numberedAcls at h ⊢
  obtain ⟨a, ha, rfl⟩ := Option.map_eq_some_iff.1 h
  rw [← hmore, List.zipIdx_append, List.map_append, List.find?_append, ha]
  rfl

theorem exists_acl?_of_aclByDigest? (h : s.aclByDigest? digest = some id) :
    ∃ acl, s.acl? id = some acl ∧ acl.digest = digest := by
  unfold aclByDigest? at h
  obtain ⟨⟨_, acl⟩, ha, rfl⟩ := Option.map_eq_some_iff.1 h
  refine ⟨acl, mem_numberedAcls_iff.1 (List.mem_of_find?_eq_some ha), ?_⟩
  simpa using List.find?_some ha

theorem aclByDigest?_eq_none_iff :
    s.aclByDigest? digest = none ↔ digest ∉ s.acls.map AccessList.digest := by
  have hplaced : s.acls = s.numberedAcls.map Prod.snd := by
    simp [numberedAcls, Function.comp_def]
  rw [aclByDigest?, Option.map_eq_none_iff, List.find?_eq_none, hplaced, List.map_map]
  simp

/-- No two access lists have the same digest. -/
theorem Reachable.nodup_digests (h : s.Reachable) : (s.acls.map AccessList.digest).Nodup := by
  refine h.induction (P := fun s => (s.acls.map AccessList.digest).Nodup) List.nodup_nil ?_
  intro s t drafts? hnodup hw
  rcases hw.acls_cases with hsame | ⟨_, acl, _, _, hnew, hadded⟩
  · rw [hsame]
    exact hnodup
  · rw [hadded, List.map_append]
    refine hnodup.append (List.nodup_singleton _) ?_
    rw [List.map_singleton, List.disjoint_singleton]
    exact aclByDigest?_eq_none_iff.1 hnew

/-- Every access list keeps one of some lists of drafts. -/
def KeepsOf (s : Store) (lists : List (List AclDraft)) : Prop :=
  ∀ acl ∈ s.acls, ∃ drafts ∈ lists, acl.Keeps drafts

/-- The drafts that operations hand over, in order. -/
def draftsOf (log : List (Operation × Stamp)) : List (List AclDraft) :=
  log.filterMap fun entry => entry.1.drafts?

theorem draftsOf_append (log log' : List (Operation × Stamp)) :
    draftsOf (log ++ log') = draftsOf log ++ draftsOf log' :=
  List.filterMap_append

variable {lists : List (List AclDraft)} {grants : List AclEntry}

theorem keepsOf_empty : empty.KeepsOf lists := fun _ h => nomatch h

theorem KeepsOf.written (h : s.KeepsOf lists) (hw : s.Written drafts? t)
    (hhanded : ∀ drafts ∈ drafts?, drafts ∈ lists) : t.KeepsOf lists := by
  rcases hw.acls_cases with hsame | ⟨drafts, acl, hdrafts, hkeeps, _, hadded⟩
  · unfold KeepsOf
    rw [hsame]
    exact h
  · intro a ha
    rw [hadded] at ha
    rcases List.mem_append.1 ha with ha | ha
    · exact h a ha
    · rw [List.mem_singleton.1 ha]
      exact ⟨drafts, hhanded drafts hdrafts, hkeeps⟩

theorem KeepsOf.after (h : s.KeepsOf lists) {log : List (Operation × Stamp)}
    (hhanded : ∀ drafts ∈ draftsOf log, drafts ∈ lists) : (s.after log).KeepsOf lists := by
  induction log generalizing s with
  | nil => exact h
  | cons entry rest ih =>
    have hmem {drafts : List AclDraft} : drafts ∈ draftsOf (entry :: rest) ↔
        entry.1.drafts? = some drafts ∨ drafts ∈ draftsOf rest := by
      simp [draftsOf]
    refine ih (h.written (entry.1.written_apply s entry.2) ?_) ?_
    · intro drafts hdrafts
      exact hhanded drafts (hmem.2 (.inl hdrafts))
    · intro drafts hdrafts
      exact hhanded drafts (hmem.2 (.inr hdrafts))

theorem aclEntries_eq (hfits : fitsWord id = true) (h : s.acl? id = some acl) :
    s.aclEntries (.int id) = .ok (acl.entries.mergeSort AclEntry.precedes) := by
  have hcell : (Json.int id).lookupCell = .ok (some (.integer id)) := by
    simp [Json.lookupCell, Json.handOver, Json.firstBindFault?, Json.bindFault?, hfits, bind,
      Except.bind, pure, Except.pure]
  rw [aclEntries, hcell, ok_bind, Option.bind_some, Cell.integer?, Option.bind_some, h]
  rfl

section

variable (hkept : s.KeepsOf lists) (hfree : Acl.CollisionFree lists)
  (hgrants : grants.map AclDraft.ofEntry ∈ lists)
  (hdigest : Acl.digest (grants.map AclDraft.ofEntry) = .ok digest)
  (hfound : s.aclByDigest? digest = some id)

include hkept hfree hgrants hdigest hfound

/-- What the digest of some grants finds has exactly these grants. -/
theorem mem_entries_of_aclByDigest? :
    ∃ acl, s.acl? id = some acl ∧ acl.entries.Nodup ∧ ∀ e, e ∈ acl.entries ↔ e ∈ grants := by
  obtain ⟨acl, hacl, rfl⟩ := exists_acl?_of_aclByDigest? hfound
  obtain ⟨drafts, hdrafts, hkeeps⟩ := hkept acl (mem_acls_of_acl? hacl)
  obtain ⟨text, hdrafts', hgrants'⟩ :=
    hfree.exists_canonicalText hdrafts hgrants hkeeps.digest hdigest
  exact ⟨acl, hacl, Acl.mem_entries_iff_of_keeps hkeeps hdrafts' hgrants'⟩

/-- Once some grants are found under an id, the list there has exactly these grants, whatever comes
after. -/
theorem lists_of_aclByDigest? (hfits : fitsWord id = true) (log : List (Operation × Stamp)) :
    (s.after log).Lists id grants := by
  obtain ⟨acl, hacl, hnodup, hmem⟩ :=
    mem_entries_of_aclByDigest? hkept hfree hgrants hdigest hfound
  refine ⟨_, aclEntries_eq hfits (acl?_of_grown (acls_grow_after s log) hacl),
    AclEntry.ascending_mergeSort hnodup, fun e => ?_⟩
  rw [(List.mergeSort_perm _ _).mem_iff, hmem]

end

/-- A new list is found by its digest under the next id. -/
theorem aclByDigest?_added (hnew : s.aclByDigest? digest = none) (entries : List AclEntry) :
    ({ s with acls := s.acls ++ [⟨digest, entries⟩] } : Store).aclByDigest? digest =
      some s.nextAclId := by
  unfold aclByDigest? numberedAcls at hnew ⊢
  rw [Option.map_eq_none_iff] at hnew
  rw [List.zipIdx_append, List.map_append, List.find?_append, hnew]
  simp [nextAclId]

end

end Store

namespace Action

variable {s t : Store} {grants : List AclEntry} {call : Action (Option Int)} {id : Option Int}

/-- A value that holds nothing does not hold the fields of an entry. -/
theorem eq_nil_of_isVacant {value : Json} {drafts : List AclDraft} (hvacant : value.isVacant = true)
    (h : AclDraft.listOfJson value = .ok drafts) : drafts = [] := by
  simp only [AclDraft.listOfJson, bind_eq_ok_iff, mapM_eq_ok_iff] at h
  obtain ⟨items, hitems, hall⟩ := h
  have hnone : items = [] := by
    cases value with
    | str s =>
      rw [← Except.ok.inj hitems, Json.characters, List.isEmpty_iff.1 hvacant, List.map_nil]
    | arr given => rw [← Except.ok.inj hitems, List.isEmpty_iff.1 hvacant]
    | obj fields => rw [← Except.ok.inj hitems, List.isEmpty_iff.1 hvacant, List.map_nil]
    | _ => cases hitems
  rw [hnone] at hall
  exact List.forall₂_nil_left_iff.1 hall

/-- A call with grants that succeeds finds their digest under its answer from then on. -/
theorem Interns.spec (h : Interns grants call) (hne : grants ≠ []) (hyields : call.Yields s id t) :
    ∃ n digest, id = some n ∧ Acl.digest (grants.map AclDraft.ofEntry) = .ok digest ∧
      t.aclByDigest? digest = some n ∧ s.Written (some (grants.map AclDraft.ofEntry)) t := by
  have hdrafts : (internAcl (grants.map AclDraft.ofEntry)).Yields s id t := by
    cases h with
    | entries => exact hyields
    | @fields value hvalue =>
      unfold internGiven at hyields
      split at hyields
      · next hvacant =>
        exact absurd (List.map_eq_nil_iff.1 (eq_nil_of_isVacant hvacant hvalue)) hne
      · rw [hvalue] at hyields
        simpa using hyields
  have hsome : grants.map AclDraft.ofEntry ≠ [] := by simpa using hne
  have hwritten := written_internAcl (s := s) (grants.map AclDraft.ofEntry)
  rw [storeAfter_of_yields hdrafts] at hwritten
  obtain ⟨digest, hdigest, ⟨n, hfound, rfl, rfl⟩ | ⟨hnew, rfl, entries, _, rfl⟩⟩ :=
    (internAcl_yields_iff hsome).1 hdrafts
  · exact ⟨n, digest, rfl, hdigest, hfound, hwritten⟩
  · exact ⟨s.nextAclId, digest, rfl, hdigest, Store.aclByDigest?_added hnew entries, hwritten⟩

end Action

namespace Store

/-- Two calls with grants anywhere in a run have the same id just when their grants are the same. At
any time after a call its grants are listed under its id, which is to be an id as rows have it. -/
theorem interned_ids_agree {before between : List (Operation × Stamp)}
    {grants grants' : List AclEntry} {call call' : Action (Option Int)} {id id' : Option Int}
    {t t' : Store} (hcall : Action.Interns grants call) (hcall' : Action.Interns grants' call')
    (hne : grants ≠ []) (hne' : grants' ≠ []) (hyields : call.Yields (empty.after before) id t)
    (hyields' : call'.Yields (t.after between) id' t')
    (hfree : Acl.CollisionFree (grants.map AclDraft.ofEntry :: grants'.map AclDraft.ofEntry ::
      draftsOf (before ++ between))) :
    ∃ m n, id = some m ∧ id' = some n ∧ (m = n ↔ ∀ e, e ∈ grants ↔ e ∈ grants') ∧
      (fitsWord m = true → ∀ log, (t.after log).Lists m grants) ∧
      (fitsWord n = true → ∀ log, (t'.after log).Lists n grants') := by
  obtain ⟨m, digest, rfl, hdigest, hfound, hwritten⟩ := hcall.spec hne hyields
  obtain ⟨n, digest', rfl, hdigest', hfound', hwritten'⟩ := hcall'.spec hne' hyields'
  -- Every list that is stored up to the second call is for drafts that were handed over by then.
  generalize hlists : grants.map AclDraft.ofEntry :: grants'.map AclDraft.ofEntry ::
    draftsOf (before ++ between) = lists at hfree
  have hgrants : grants.map AclDraft.ofEntry ∈ lists := by simp [← hlists]
  have hgrants' : grants'.map AclDraft.ofEntry ∈ lists := by simp [← hlists]
  have hlog : ∀ drafts ∈ draftsOf before ++ draftsOf between, drafts ∈ lists := by
    intro drafts hdrafts
    rw [← hlists, draftsOf_append]
    exact List.mem_cons_of_mem _ (List.mem_cons_of_mem _ hdrafts)
  have hkept : t.KeepsOf lists :=
    (keepsOf_empty.after fun _ h => hlog _ (List.mem_append_left _ h)).written hwritten
      (by simpa using hgrants)
  have hkept' : t'.KeepsOf lists :=
    (hkept.after fun _ h => hlog _ (List.mem_append_right _ h)).written hwritten'
      (by simpa using hgrants')
  have hstill : t'.aclByDigest? digest = some m :=
    aclByDigest?_of_grown ((acls_grow_after t between).trans hwritten'.acls_grow) hfound
  refine ⟨m, n, rfl, rfl, ⟨?_, ?_⟩, lists_of_aclByDigest? hkept hfree hgrants hdigest hfound,
    lists_of_aclByDigest? hkept' hfree hgrants' hdigest' hfound'⟩
  · rintro rfl e
    obtain ⟨acl, hacl, _, hmem⟩ :=
      mem_entries_of_aclByDigest? hkept' hfree hgrants hdigest hstill
    obtain ⟨acl', hacl', _, hmem'⟩ :=
      mem_entries_of_aclByDigest? hkept' hfree hgrants' hdigest' hfound'
    rw [hacl] at hacl'
    cases hacl'
    rw [← hmem, hmem']
  · intro hmem
    obtain ⟨text, htext, rfl⟩ := Acl.exists_canonicalText_of_digest hdigest
    obtain ⟨text', htext', rfl⟩ := Acl.exists_canonicalText_of_digest hdigest'
    rw [Acl.canonicalText_eq_of_mem_iff htext htext' hmem, hfound'] at hstill
    exact (Option.some.inj hstill).symm

/-- A team may write under one access list, a user may read under the other one. -/
def teamwork : Store where
  acls :=
    [⟨"447077056f2c07ac2772a186e7c07fb95037f2f413b8c01c444a652fc73d7088",
        [⟨⟨.group, "team"⟩, .write⟩]⟩,
      ⟨"3bfd9d180461bbfaa7b55c8c8e79ca48a600c6daef4f11ea9c93adf7c4a32de3",
        [⟨⟨.user, "ann"⟩, .read⟩]⟩]

/-- After the list of the team, the user's entry is handed over twice by its fields, and once more
by itself when a group has been made. -/
theorem interned_ids_agree_in_teamwork :
    let ann : AclEntry := ⟨⟨.user, "ann"⟩, .read⟩
    let team : AclEntry := ⟨⟨.group, "team"⟩, .write⟩
    let before : List (Operation × Stamp) := [(.internAcl (.arr [team.toJson]), ⟨"", 1⟩)]
    let between : List (Operation × Stamp) :=
      [(.createGroup { name := .str "g", id := .str "g" }, ⟨"", 2⟩)]
    let first := Action.internGiven (.arr [ann.toJson, ann.toJson])
    let second := Action.internAcl ([ann].map AclDraft.ofEntry)
    first.Yields (empty.after before) (some 2) teamwork ∧
      second.Yields (teamwork.after between) (some 2) (teamwork.after between) ∧
        teamwork.Lists 2 [ann] := by
  intro ann team before between first second
  have hfirst : first.Yields (empty.after before) (some 2) teamwork :=
    Action.yields_iff.2 (by decide +kernel)
  have hsecond : second.Yields (teamwork.after between) (some 2) (teamwork.after between) :=
    Action.yields_iff.2 (by decide +kernel)
  have hfields : AclDraft.listOfJson (.arr [ann.toJson, ann.toJson]) =
      .ok ([ann, ann].map AclDraft.ofEntry) := rfl
  have hfree : Acl.CollisionFree ([ann, ann].map AclDraft.ofEntry :: [ann].map AclDraft.ofEntry ::
      draftsOf (before ++ between)) := by
    decide +kernel
  obtain ⟨m, n, hm, hn, _, hlists, _⟩ := interned_ids_agree (.fields hfields) .entries
    (List.cons_ne_nil _ _) (List.cons_ne_nil _ _) hfirst hsecond hfree
  cases hm
  obtain ⟨entries, hentries, hascending, hmem⟩ := hlists (by decide) []
  exact ⟨hfirst, hsecond, entries, hentries, hascending, by simpa using hmem⟩

end Store

end VersionedGraph
