import VersionedGraph.Proofs.Granting
import VersionedGraph.Proofs.Interning
import VersionedGraph.Proofs.Preimage

/-!
# What a new resource grants

The access list of a new resource has the entries that were handed over and one by which its creator
may write, and it is public just if an empty list was handed over. Whether the list is made for it or
was there before, whoever made it, it grants what these entries say to the creator and to everybody
else, and nothing more (`Store.resource_grants_its_entries`).
-/

namespace VersionedGraph

namespace AclDraft

variable {known entries : List AclEntry}

/-- Entries that are handed over are stored as they are, as long as no two of them are alike. -/
theorem settleAll_map_ofEntry (h : (known ++ entries).Nodup) :
    settleAll known (entries.map ofEntry) = .ok (known ++ entries) := by
  induction entries generalizing known with
  | nil =>
    rw [List.append_nil]
    rfl
  | cons e rest ih =>
    have hnew : known.contains e ≠ true := fun hmem =>
      (List.nodup_append.1 h).2.2 e (List.contains_iff_mem.1 hmem) e List.mem_cons_self rfl
    rw [List.append_cons] at h ⊢
    rw [List.map_cons, settleAll, settle_ofEntry, ok_bind, if_neg hnew, ih h]

theorem sameAs_ofEntry {a b : AclEntry} : (ofEntry a).sameAs (ofEntry b) = decide (a = b) := by
  rw [ofEntry_eq, ofEntry_eq, sameAs_ofPlain]
  exact decide_eq_decide.2 AclEntry.plain_inj

end AclDraft

namespace Acl

open AclDraft (ofEntry)

theorem distinct_map_ofEntry (entries : List AclEntry) :
    distinct (entries.map ofEntry) = entries.eraseDups.map ofEntry := by
  rw [distinct, eraseDupsBy_map]
  congr 2
  funext a b
  exact AclDraft.sameAs_ofEntry

theorem exists_digest_ofEntry (entries : List AclEntry) :
    ∃ hash, digest (entries.map ofEntry) = .ok hash := by
  obtain ⟨text, htext⟩ := exists_canonicalText_ofPlain (entries.map AclEntry.plain)
  rw [← AclDraft.map_ofEntry] at htext
  rw [digest, htext]
  exact ⟨_, rfl⟩

/-- The texts for one list of drafts cannot collide. -/
theorem collisionFree_singleton (drafts : List AclDraft) : CollisionFree [drafts] := by
  have hsame : ∀ text ∈ hashedTexts [drafts], canonicalText drafts = .ok text := by
    intro text htext
    obtain ⟨_, hdrafts, hsome⟩ := List.mem_filterMap.1 htext
    rw [List.mem_singleton.1 hdrafts] at hsome
    exact toOption_eq_some_iff.1 hsome
  intro text htext text' htext' _
  exact Except.ok.inj ((hsame text htext).symm.trans (hsame text' htext'))

/-- The entry by which its creator may write to a resource. -/
def creatorEntry (creator : String) : AclEntry :=
  ⟨⟨.user, creator⟩, .write⟩

end Acl

namespace Action

open AclDraft (ofEntry)
open Acl (creatorEntry)

variable {s t : Store} {id : Option Int} {creator : String} {explicit : Option (List AclEntry)}
  {call : Action (Option Int)}

/-- Entries are always interned. -/
theorem exists_internAcl_yields (s : Store) {entries : List AclEntry} (hne : entries ≠ []) :
    ∃ n t, (internAcl (entries.map ofEntry)).Yields s (some n) t := by
  obtain ⟨digest, hdigest⟩ := Acl.exists_digest_ofEntry entries
  have hsome : entries.map ofEntry ≠ [] := by simpa using hne
  cases hfound : s.aclByDigest? digest with
  | some n => exact ⟨n, s, (internAcl_yields_iff hsome).2 ⟨digest, hdigest, .inl ⟨n, hfound, rfl, rfl⟩⟩⟩
  | none =>
    have hsettled : AclDraft.settleAll [] (Acl.distinct (entries.map ofEntry)) =
        .ok entries.eraseDups := by
      rw [Acl.distinct_map_ofEntry]
      exact AclDraft.settleAll_map_ofEntry (nodup_eraseDups entries)
    exact ⟨s.nextAclId, _, (internAcl_yields_iff hsome).2
      ⟨digest, hdigest, .inr ⟨hfound, rfl, _, hsettled, rfl⟩⟩⟩

/-- Interning leaves the groups as they are. -/
theorem memberships_of_internAcl_yields {drafts : List AclDraft} (hne : drafts ≠ [])
    (h : (internAcl drafts).Yields s id t) : t.memberships = s.memberships := by
  obtain ⟨_, _, ⟨_, _, _, rfl⟩ | ⟨_, _, _, _, rfl⟩⟩ := (internAcl_yields_iff hne).1 h
  · rfl
  · rfl

/-- The drafts for a new resource are of the entries that were handed over and of the creator's. -/
theorem exists_resourceDrafts_eq (creator : String) (explicit : Option (List AclEntry)) :
    ∃ entries : List AclEntry,
      resourceDrafts (ofEntry (creatorEntry creator)) (explicit.map (List.map ofEntry)) =
        entries.map ofEntry ∧
      ∀ e, e ∈ entries ↔ e ∈ explicit.getD [] ∨ e = creatorEntry creator := by
  cases explicit with
  | none => exact ⟨[creatorEntry creator], rfl, by simp⟩
  | some given =>
    rw [Option.map_some, resourceDrafts, Acl.distinct_map_ofEntry]
    have hany : (given.eraseDups.map ofEntry).any (ofEntry (creatorEntry creator)).sameAs = true ↔
        creatorEntry creator ∈ given := by
      simp [AclDraft.sameAs_ofEntry]
    by_cases hmem : creatorEntry creator ∈ given
    · refine ⟨given.eraseDups, if_pos (hany.2 hmem), fun e => ?_⟩
      rw [List.mem_eraseDups, Option.getD_some]
      exact ⟨.inl, fun h => h.elim id fun h => h ▸ hmem⟩
    · refine ⟨creatorEntry creator :: given.eraseDups, if_neg (hany.not.2 hmem), fun e => ?_⟩
      rw [List.mem_cons, List.mem_eraseDups, Option.getD_some, or_comm]

/-- The access list of a new resource for grants that are handed in one by one. -/
def internHanded (creator : Json) (given : List HandedGrant) : Action (Option Int) := do
  match ← ((given.mapM HandedGrant.toDraft).mapError .misuse : Except Fault _) with
  | [] => return none
  | given =>
    let creator ← ((creatorDraft creator).mapError .misuse : Except Fault _)
    internAcl (resourceDrafts creator (some given))

theorem internResourceAcl_arr (creator : Json) (items : List Json) :
    internResourceAcl creator (.arr items) = internHanded creator (items.map .fields) := by
  have hgiven : givenDrafts (.arr items) = (items.mapM AclDraft.ofJson).map some := by
    unfold givenDrafts
    change (items.mapM AclDraft.ofJson >>= fun drafts => pure (some drafts)) = _
    cases items.mapM AclDraft.ofJson <;> rfl
  have hhanded : (items.map HandedGrant.fields).mapM HandedGrant.toDraft =
      items.mapM AclDraft.ofJson := List.mapM_map
  unfold internResourceAcl internHanded
  rw [hgiven, hhanded]
  cases items.mapM AclDraft.ofJson with
  | error fault => rfl
  | ok drafts => cases drafts <;> rfl

/-- A call makes the access list of a new resource from some entries or, when there are none, from
the creator's alone. The entries come as a value that holds their fields, or one by one. -/
inductive CreatesFor (creator : String) : Option (List AclEntry) → Action (Option Int) → Prop
  | fields {given : Json} {explicit : Option (List AclEntry)}
    (h : givenDrafts given = .ok (explicit.map (List.map ofEntry))) :
    CreatesFor creator explicit (internResourceAcl (.str creator) given)
  | handed {given : List HandedGrant} {entries : List AclEntry}
    (h : List.Forall₂ HandedGrant.Shows given (entries.map AclEntry.plain)) :
    CreatesFor creator (some entries) (internHanded (.str creator) given)

theorem creatorDraft_str (creator : String) :
    creatorDraft (.str creator) = .ok (ofEntry (creatorEntry creator)) := rfl

namespace CreatesFor

theorem yields_none (h : CreatesFor creator (some []) call) : call.Yields s none s := by
  cases h with
  | fields h =>
    unfold internResourceAcl
    rw [h]
    exact yields_pure.2 ⟨rfl, rfl⟩
  | handed h =>
    cases h
    exact yields_pure.2 ⟨rfl, rfl⟩

/-- Unless an empty list was handed over, the drafts for the resource are interned. -/
theorem yields_iff (h : CreatesFor creator explicit call) (hne : explicit ≠ some []) :
    call.Yields s id t ↔ (internAcl (resourceDrafts (ofEntry (creatorEntry creator))
      (explicit.map (List.map ofEntry)))).Yields s id t := by
  cases h with
  | fields h =>
    unfold internResourceAcl
    rw [h, creatorDraft_str]
    rcases explicit with _ | ⟨_ | ⟨e, rest⟩⟩
    · simp [Except.mapError]
    · exact absurd rfl hne
    · simp [Except.mapError]
  | @handed given entries h =>
    unfold internHanded
    rw [Acl.mapM_toDraft_eq_ok h, ← AclDraft.map_ofEntry, creatorDraft_str]
    cases entries with
    | nil => exact absurd rfl hne
    | cons e rest => simp [Except.mapError]

end CreatesFor

end Action

namespace Store

open AclDraft (ofEntry)
open Acl (creatorEntry)

/-- A user is named by a user's entry, or belongs to a group that is named by a group's entry. -/
def NamesUser (s : Store) (entries : List AclEntry) (user : String) : Prop :=
  (∃ e ∈ entries, e.principal = ⟨.user, user⟩) ∨
    ∃ e ∈ entries, ∃ group, s.BelongsTo user group ∧ e.principal = ⟨.group, group⟩

section

variable {s t : Store} {id : Int} {acl : AccessList} {user : String} {entries : List AclEntry}

theorem effectiveGroups_congr (h : t.memberships = s.memberships) (user : String) :
    t.effectiveGroups user = s.effectiveGroups user := by
  unfold effectiveGroups groupsWith
  rw [h]

/-- To be named by an entry is to be granted reading, whatever the entry permits. -/
theorem exists_grants_read_iff :
    (∃ e ∈ entries, s.Grants e user .read) ↔ s.NamesUser entries user := by
  have hread (e : AclEntry) : e.permission = .read ∨ e.permission = .write := by
    cases e.permission with
    | read => exact .inl rfl
    | write => exact .inr rfl
  constructor
  · rintro ⟨e, he, hprincipal | hgroup, _⟩
    · exact .inl ⟨e, he, hprincipal⟩
    · exact .inr ⟨e, he, hgroup⟩
  · rintro (⟨e, he, hprincipal⟩ | ⟨e, he, hgroup⟩)
    · exact ⟨e, he, .inl hprincipal, hread e⟩
    · exact ⟨e, he, .inr hgroup, hread e⟩

/-- Who belongs to few enough groups is told what the entries of an access list say. -/
theorem exists_firstAnswer_hasPermission (hacl : s.acl? id = some acl)
    (hfew : {group | s.BelongsTo user group}.ncard < maxPrincipals) (cap : Json)
    (permission : Permission) :
    ∃ allowed, Resolver.firstAnswer cap
        (Resolver.hasPermission s (.str user) (.int id) permission) = .ok allowed ∧
      (allowed = true ↔ ∃ e ∈ acl.entries, s.Grants e user permission) := by
  have hfits : (s.principalsOf user).length ≤ maxPrincipals := by
    rw [length_principalsOf]
    omega
  obtain ⟨allowed, hallowed, hiff⟩ := exists_hasPermission_eq_ok
    (accessibleIds_str permission hfits) (.inr rfl) (some id)
  refine ⟨allowed, ?_, hiff.trans ?_⟩
  · rw [Resolver.firstAnswer_hasPermission]
    exact hallowed
  · constructor
    · rintro (hnone | ⟨_, _, hid, ⟨⟩⟩)
      · cases hnone
      · obtain ⟨found, e, hfound, he, hgrants⟩ := mem_grantedIds_iff.1 hid
        rw [hacl] at hfound
        cases hfound
        exact ⟨e, he, hgrants⟩
    · rintro ⟨e, he, hgrants⟩
      exact .inr ⟨rfl, id, mem_grantedIds_iff.2 ⟨acl, e, hacl, he, hgrants⟩, rfl⟩

/-- Who belongs to too many groups cannot be told anything about an access list. -/
theorem firstAnswer_hasPermission_of_many
    (hmany : maxPrincipals ≤ {group | s.BelongsTo user group}.ncard) (cap : Json) (id : Int)
    (permission : Permission) :
    Resolver.firstAnswer cap (Resolver.hasPermission s (.str user) (.int id) permission) =
      .error .tooManyPrincipals := by
  have hcrowd : maxPrincipals < (s.principalsOf user).length := by
    rw [length_principalsOf]
    omega
  rw [Resolver.firstAnswer_hasPermission, hasPermission, isAllowed,
    accessibleIds_of_many permission hcrowd]
  rfl

end

/-- A call for a new resource succeeds with an access list, or with none just if it hands over an
empty list. The access list has the entries that were handed over and the creator's, each once. Of
those who belong to few enough groups, which stay as they are, the creator may read and write, and
just those may read who are named by an entry. Others cannot be told, and nobody in particular may do
nothing. -/
theorem resource_grants_its_entries {log : List (Operation × Stamp)} {creator : String}
    {explicit : Option (List AclEntry)} {call : Action (Option Int)}
    (hcall : Action.CreatesFor creator explicit call)
    (hfree : Acl.CollisionFree (Action.resourceDrafts (ofEntry (creatorEntry creator))
      (explicit.map (List.map ofEntry)) :: draftsOf log)) (cap : Json) :
    ∃ id t, call.Yields (empty.after log) id t ∧ (id = none ↔ explicit = some []) ∧
      (id = none → t = empty.after log) ∧ t.memberships = (empty.after log).memberships ∧
      ∀ n, id = some n → ∃ acl, t.acl? n = some acl ∧ acl.entries.Nodup ∧
        (∀ e, e ∈ acl.entries ↔ e ∈ explicit.getD [] ∨ e = creatorEntry creator) ∧
        ({group | t.BelongsTo creator group}.ncard < maxPrincipals → ∀ permission,
          Resolver.firstAnswer cap
            (Resolver.hasPermission t (.str creator) (.int n) permission) = .ok true) ∧
        (∀ user, {group | t.BelongsTo user group}.ncard < maxPrincipals →
          ∃ allowed, Resolver.firstAnswer cap
              (Resolver.hasPermission t (.str user) (.int n) .read) = .ok allowed ∧
            (allowed = true ↔ t.NamesUser acl.entries user)) ∧
        (∀ user, maxPrincipals ≤ {group | t.BelongsTo user group}.ncard → ∀ permission,
          Resolver.firstAnswer cap (Resolver.hasPermission t (.str user) (.int n) permission) =
            .error .tooManyPrincipals) ∧
        ∀ permission,
          Resolver.firstAnswer cap (Resolver.hasPermission t .null (.int n) permission) =
            .ok false := by
  obtain ⟨entries, hdrafts, hmem⟩ := Action.exists_resourceDrafts_eq creator explicit
  rw [hdrafts] at hfree
  by_cases hempty : explicit = some []
  · subst hempty
    exact ⟨none, _, hcall.yields_none, ⟨fun _ => rfl, fun _ => rfl⟩, fun _ => rfl, rfl, nofun⟩
  have hne : entries ≠ [] := List.ne_nil_of_mem ((hmem _).2 (.inr rfl))
  obtain ⟨n, t, hyields⟩ := Action.exists_internAcl_yields (empty.after log) hne
  refine ⟨some n, t, (hcall.yields_iff hempty).2 (hdrafts ▸ hyields),
    ⟨nofun, fun h => absurd h hempty⟩, nofun,
    Action.memberships_of_internAcl_yields (by simpa using hne) hyields, ?_⟩
  rintro _ ⟨⟩
  -- The list that is found under the digest is for drafts with the same text, whoever handed them
  -- over, so it has the same entries.
  obtain ⟨_, digest, ⟨⟩, hdigest, hfound, hwritten⟩ :=
    Action.Interns.entries.spec hne hyields
  have hkept : t.KeepsOf (entries.map ofEntry :: draftsOf log) :=
    (keepsOf_empty.after fun _ h => List.mem_cons_of_mem _ h).written hwritten
      (by simp)
  obtain ⟨acl, hacl, hnodup, hsame⟩ :=
    mem_entries_of_aclByDigest? hkept hfree List.mem_cons_self hdigest hfound
  have hentries (e : AclEntry) : e ∈ acl.entries ↔ e ∈ explicit.getD [] ∨ e = creatorEntry creator :=
    (hsame e).trans (hmem e)
  refine ⟨acl, hacl, hnodup, hentries, fun hfew permission => ?_, fun user hfew => ?_,
    fun user hmany permission => firstAnswer_hasPermission_of_many hmany cap n permission,
    fun permission => ?_⟩
  · obtain ⟨allowed, hallowed, hiff⟩ := exists_firstAnswer_hasPermission hacl hfew cap permission
    have hgrants : t.Grants (creatorEntry creator) creator permission := ⟨.inl rfl, .inr rfl⟩
    rw [hallowed, hiff.2 ⟨_, (hentries _).2 (.inr rfl), hgrants⟩]
  · obtain ⟨allowed, hallowed, hiff⟩ := exists_firstAnswer_hasPermission hacl hfew cap .read
    exact ⟨allowed, hallowed, hiff.trans exists_grants_read_iff⟩
  · rw [Resolver.firstAnswer_hasPermission]
    rfl

/-- A user in a group. -/
def teamed : List (Operation × Stamp) :=
  [(.createGroup { name := .str "g", id := .str "g" }, ⟨"", 1⟩),
    (.addMember (.str "g") (.str "user") (.str "u"), ⟨"", 2⟩)]

/-- Another user makes a resource that the group may read. -/
theorem resource_for_group :
    let reading : AclEntry := ⟨⟨.group, "g"⟩, .read⟩
    let call := Action.internResourceAcl (.str "v") (.arr [reading.toJson, reading.toJson])
    let may (t : Store) (user : String) (n : Int) (permission : Permission) : Except Fault Bool :=
      Resolver.firstAnswer (.int 1000) (Resolver.hasPermission t (.str user) (.int n) permission)
    Action.CreatesFor "v" (some [reading, reading]) call ∧
      Acl.CollisionFree (Action.resourceDrafts (ofEntry (creatorEntry "v"))
        (some ([reading, reading].map ofEntry)) :: draftsOf teamed) ∧
      ∃ n t, call.Yields (empty.after teamed) (some n) t ∧ may t "v" n .write = .ok true ∧
        may t "u" n .read = .ok true ∧ may t "w" n .read = .ok false := by
  intro reading call may
  have hcall : Action.CreatesFor "v" (some [reading, reading]) call := .fields rfl
  have hfree : Acl.CollisionFree (Action.resourceDrafts (ofEntry (creatorEntry "v"))
      (some ([reading, reading].map ofEntry)) :: draftsOf teamed) :=
    Acl.collisionFree_singleton _
  obtain ⟨id, t, hyields, hnone, _, hgroups, hspec⟩ :=
    resource_grants_its_entries hcall hfree (.int 1000)
  obtain ⟨n, rfl⟩ := Option.ne_none_iff_exists'.1 (hnone.not.2 nofun)
  obtain ⟨acl, _, _, hentries, hcreator, hreads, _⟩ := hspec n rfl
  have hfound := effectiveGroups_congr hgroups
  have hv : t.effectiveGroups "v" = [] := (hfound "v").trans (by decide +kernel)
  have hu : t.effectiveGroups "u" = ["g"] := (hfound "u").trans (by decide +kernel)
  have hw : t.effectiveGroups "w" = [] := (hfound "w").trans (by decide +kernel)
  have hfew {user : String} {groups : List String} (h : t.effectiveGroups user = groups)
      (hcount : groups.length < maxPrincipals) :
      {group | t.BelongsTo user group}.ncard < maxPrincipals := by
    rwa [ncard_belongsTo, h]
  refine ⟨hcall, hfree, n, t, hyields, hcreator (hfew hv (by decide)) .write, ?_, ?_⟩
  · obtain ⟨allowed, hallowed, hiff⟩ := hreads "u" (hfew hu (by decide))
    have hmember : t.BelongsTo "u" "g" := mem_effectiveGroups_iff.1 (hu ▸ List.mem_singleton_self _)
    have hlisted : reading ∈ acl.entries := (hentries reading).2 (.inl List.mem_cons_self)
    exact hallowed.trans (congrArg _ (hiff.2 (.inr ⟨reading, hlisted, "g", hmember, rfl⟩)))
  · obtain ⟨allowed, hallowed, hiff⟩ := hreads "w" (hfew hw (by decide))
    have hnot : ¬t.NamesUser acl.entries "w" := by
      rintro (⟨e, he, hprincipal⟩ | ⟨_, _, group, hmember, _⟩)
      · rcases (hentries e).1 he with he | rfl
        · have hreading : e = reading := by simpa using he
          rw [hreading] at hprincipal
          exact absurd hprincipal (by decide)
        · exact absurd hprincipal (by decide)
      · rw [← mem_effectiveGroups_iff, hw] at hmember
        cases hmember
    exact hallowed.trans (congrArg _ (Bool.eq_false_iff.2 (hiff.not.2 hnot)))

/-- A creator who is in as many groups as a query asks for principals cannot be told that writing is
granted, and half of a surrogate pair cannot be a creator at all. -/
theorem creator_in_many_groups_is_not_told :
    let s : Store := empty.after (joining "u" ((List.range 997).map Nat.repr))
    let call := Action.internResourceAcl (.str "u") .null
    s.Reachable ∧ Action.CreatesFor "u" none call ∧ ∃ n t, call.Yields s (some n) t ∧
      Resolver.firstAnswer (.int 1000) (Resolver.hasPermission t (.str "u") (.int n) .write) =
        .error .tooManyPrincipals ∧
      ∀ id t, ¬(Action.internResourceAcl (.str ⟨[.half 0]⟩) .null).Yields empty id t := by
  intro s call
  have hcall : Action.CreatesFor "u" none call := .fields rfl
  obtain ⟨hreachable, hacls, hmany⟩ := many_joined (s := s) rfl
  clear_value s
  have hne : [creatorEntry "u"] ≠ [] := List.cons_ne_nil _ _
  obtain ⟨n, t, hyields⟩ := Action.exists_internAcl_yields s hne
  have hgroups := Action.memberships_of_internAcl_yields (List.cons_ne_nil _ _) hyields
  refine ⟨hreachable, hcall, n, t, (hcall.yields_iff nofun).2 hyields,
    firstAnswer_hasPermission_of_many ?_ _ n .write, fun id t h => ?_⟩
  · rw [length_principalsOf, ncard_belongsTo] at hmany
    rw [ncard_belongsTo, effectiveGroups_congr hgroups]
    omega
  · have hfails : ((Action.internResourceAcl (.str ⟨[.half 0]⟩) .null).run.run empty).1.toOption =
        none := by
      decide +kernel
    rw [Action.yields_iff] at h
    exact nomatch hfails.symm.trans h.1

end Store

end VersionedGraph
