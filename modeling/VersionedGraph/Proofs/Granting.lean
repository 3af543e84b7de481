import Mathlib.Data.Set.Card
import VersionedGraph.Proofs.Access
import VersionedGraph.Proofs.Closure
import VersionedGraph.Proofs.Groups

/-!
# What users are granted

A user belongs to the groups that have the user as a member and to those that have a group as a
member that the user belongs to (`Store.BelongsTo`). The store finds exactly these groups, whether
or not groups contain each other, and a new request finds exactly the access lists with an entry
that grants what is asked for to the user or to one of these groups, unless there are too many
groups to ask for (`Store.accessibleIds_are_granted`).
-/

namespace VersionedGraph

namespace Store

/-- A user belongs to a group, directly or through other groups. -/
inductive BelongsTo (s : Store) (user : String) : String → Prop
  | direct {group : String} (member : ⟨group, .user, user⟩ ∈ s.memberships) :
    BelongsTo s user group
  | nested {inner group : String} (within : BelongsTo s user inner)
    (member : ⟨group, .group, inner⟩ ∈ s.memberships) : BelongsTo s user group

/-- An entry grants a permission to a user, in person or as one who belongs to a group. Who may
write may read. -/
structure Grants (s : Store) (e : AclEntry) (user : String) (permission : Permission) : Prop where
  principal : e.principal = ⟨.user, user⟩ ∨ ∃ group, s.BelongsTo user group ∧
    e.principal = ⟨.group, group⟩
  permission : e.permission = permission ∨ e.permission = .write

variable {s : Store} {user : String}

theorem mem_groupsWith {p : Principal} {group : String} :
    group ∈ s.groupsWith p ↔ ⟨group, p⟩ ∈ s.memberships := by
  unfold groupsWith
  rw [List.mem_map]
  constructor
  · rintro ⟨m, hm, rfl⟩
    rw [List.mem_filter, decide_eq_true_eq] at hm
    obtain ⟨hm, rfl⟩ := hm
    exact hm
  · exact fun h => ⟨_, List.mem_filter.2 ⟨h, decide_eq_true rfl⟩, rfl⟩

/-- What is reached from the groups that have the user as a member are those the user belongs to. -/
theorem exists_reaches_iff_belongsTo {group : String} :
    (∃ first ∈ s.groupsWith ⟨.user, user⟩,
        Relation.ReflTransGen (Closure.LeadsTo fun g => s.groupsWith ⟨.group, g⟩) first group) ↔
      s.BelongsTo user group := by
  constructor
  · rintro ⟨first, hfirst, hreaches⟩
    induction hreaches with
    | refl => exact .direct (mem_groupsWith.1 hfirst)
    | tail _ hnext ih => exact .nested ih (mem_groupsWith.1 hnext)
  · intro h
    induction h with
    | direct member => exact ⟨_, mem_groupsWith.2 member, .refl⟩
    | nested _ member ih =>
      obtain ⟨first, hfirst, hreaches⟩ := ih
      exact ⟨first, hfirst, hreaches.tail (mem_groupsWith.2 member)⟩

/-- The groups that are found are those the user belongs to. As many levels are looked at as there
are memberships, and all groups in question have members. -/
theorem mem_effectiveGroups_iff {group : String} :
    group ∈ s.effectiveGroups user ↔ s.BelongsTo user group := by
  have hworld {p : Principal} {g : String} (hg : g ∈ s.groupsWith p) :
      g ∈ s.memberships.map (·.group) :=
    List.mem_map.2 ⟨_, mem_groupsWith.1 hg, rfl⟩
  unfold effectiveGroups
  rw [mem_closure_iff (s.memberships.map (·.group)) (fun _ => hworld) (fun _ _ _ => hworld)
    (List.length_map _).le]
  exact exists_reaches_iff_belongsTo

theorem coe_toFinset_effectiveGroups (s : Store) (user : String) :
    ((s.effectiveGroups user).toFinset : Set String) = {group | s.BelongsTo user group} := by
  ext group
  rw [Finset.mem_coe, List.mem_toFinset, mem_effectiveGroups_iff]
  rfl

theorem ncard_belongsTo (s : Store) (user : String) :
    {group | s.BelongsTo user group}.ncard = (s.effectiveGroups user).length := by
  have hnodup : (s.effectiveGroups user).Nodup := nodup_closure
  rw [← coe_toFinset_effectiveGroups, Set.ncard_coe_finset, List.toFinset_card_of_nodup hnodup]

theorem length_principalsOf (s : Store) (user : String) :
    (s.principalsOf user).length = {group | s.BelongsTo user group}.ncard + 1 := by
  rw [principalsOf, List.length_cons, List.length_map, ncard_belongsTo]

theorem mem_principalsOf_iff {p : Principal} :
    p ∈ s.principalsOf user ↔
      p = ⟨.user, user⟩ ∨ ∃ group, s.BelongsTo user group ∧ p = ⟨.group, group⟩ := by
  rw [principalsOf, List.mem_cons, List.mem_map]
  refine or_congr_right (exists_congr fun group => ?_)
  rw [mem_effectiveGroups_iff, eq_comm]

theorem name_mem_grantedBy_iff {held permission : Permission} :
    held.name ∈ permission.grantedBy.map Permission.name ↔
      held = permission ∨ held = .write := by
  cases held <;> cases permission <;> decide

theorem nodup_numberedAcls (s : Store) : (s.numberedAcls.map Prod.fst).Nodup := by
  have hplaces : s.numberedAcls.map Prod.fst =
      (List.range s.acls.length).map fun i : Nat => (i : Int) + 1 := by
    rw [numberedAcls, List.map_map, List.range_eq_range', ← List.zipIdx_map_snd 0 s.acls,
      List.map_map]
    rfl
  rw [hplaces]
  exact List.nodup_range.map fun i j hij => by omega

theorem nodup_grantedIds (s : Store) (user : String) (permission : Permission) :
    (s.grantedIds user permission).Nodup :=
  (s.nodup_numberedAcls).sublist (List.filter_sublist.map Prod.fst)

theorem mem_grantedIds_iff {permission : Permission} {id : Int} :
    id ∈ s.grantedIds user permission ↔
      ∃ acl e, s.acl? id = some acl ∧ e ∈ acl.entries ∧ s.Grants e user permission := by
  have hgrants (e : AclEntry) : ((s.principalsOf user).contains e.principal &&
      (permission.grantedBy.map Permission.name).contains e.permission.name) = true ↔
        s.Grants e user permission := by
    rw [Bool.and_eq_true, List.contains_iff_mem, List.contains_iff_mem, mem_principalsOf_iff,
      name_mem_grantedBy_iff]
    exact ⟨fun h => ⟨h.1, h.2⟩, fun h => ⟨h.principal, h.permission⟩⟩
  unfold grantedIds aclIdsGranting
  rw [List.mem_map]
  constructor
  · rintro ⟨⟨id, acl⟩, hmem, rfl⟩
    rw [List.mem_filter, List.any_eq_true] at hmem
    obtain ⟨hmem, e, he, hgrants'⟩ := hmem
    exact ⟨acl, e, mem_numberedAcls_iff.1 hmem, he, (hgrants e).1 hgrants'⟩
  · rintro ⟨acl, e, hacl, he, hgrants'⟩
    refine ⟨(id, acl), List.mem_filter.2 ⟨mem_numberedAcls_iff.2 hacl, ?_⟩, rfl⟩
    exact List.any_eq_true.2 ⟨e, he, (hgrants e).2 hgrants'⟩

end Store

namespace Resolver

variable {s : Store} {caller : Json} {permission : Permission} {cap : Json}

/-- What a resolver answers to the first thing that it is asked. -/
def firstAnswer {α : Type} (cap : Json) (inquiry : Inquiry α) : Except Fault α :=
  (inquiry.run.run { cap }).1

/-- A resolver that remembers nothing asks the store. -/
theorem exists_run_accessibleIds (s : Store) (caller : Json) (permission : Permission)
    (cap : Json) :
    ∃ r : Resolver, r.cap = cap ∧ (accessibleIds s caller permission).run.run { cap } =
      (s.accessibleIds caller permission, r) := by
  unfold accessibleIds
  cases hnull : caller.isNull with
  | true =>
    rw [Store.accessibleIds, if_pos hnull]
    exact ⟨_, rfl, rfl⟩
  | false =>
    cases hknown : Atom.ofJson caller with
    | error fault =>
      have hrefused : s.accessibleIds caller permission = .error (.misuse fault) := by
        rw [Store.accessibleIds, hknown, hnull]
        rfl
      rw [hrefused]
      exact ⟨_, rfl, rfl⟩
    | ok key =>
      cases s.accessibleIds caller permission <;> exact ⟨_, rfl, rfl⟩

theorem firstAnswer_accessibleIds :
    firstAnswer cap (accessibleIds s caller permission) = s.accessibleIds caller permission := by
  obtain ⟨r, _, hrun⟩ := exists_run_accessibleIds s caller permission cap
  exact congrArg Prod.fst hrun

/-- What is made of the access lists within reach does not depend on the memory. -/
theorem firstAnswer_bind {α : Type} {f : List Int → Inquiry α} {g : List Int → Except Fault α}
    (h : ∀ ids r, r.cap = cap → ((f ids).run.run r).1 = g ids) :
    firstAnswer cap (accessibleIds s caller permission >>= f) =
      s.accessibleIds caller permission >>= g := by
  obtain ⟨r, hcap, hrun⟩ := exists_run_accessibleIds s caller permission cap
  unfold firstAnswer
  rw [ExceptT.run_bind, StateT.run_bind, hrun]
  cases s.accessibleIds caller permission with
  | error fault => rfl
  | ok ids => exact h ids r hcap

theorem firstAnswer_hasPermission {acl : Json} :
    firstAnswer cap (hasPermission s caller acl permission) =
      s.hasPermission caller acl permission := by
  unfold hasPermission Store.hasPermission isAllowed
  split
  · rfl
  · split
    · rfl
    · refine firstAnswer_bind fun ids r _ => ?_
      split <;> rfl

theorem firstAnswer_filter :
    firstAnswer cap (filter s caller permission) = (do
      let ids ← s.accessibleIds caller permission
      (Acl.filterFor ids (!caller.isNull) cap).mapError .misuse) := by
  unfold filter
  refine firstAnswer_bind fun ids r hcap => ?_
  rw [← hcap]
  rfl

end Resolver

namespace Store

variable {s : Store} {user : String} {permission : Permission}

/-- A new request finds exactly the access lists that grant a permission to a user, each once, as
long as the user belongs to fewer groups than a query asks for principals; otherwise it finds out
that they are too many. Nobody in particular is granted nothing. -/
theorem accessibleIds_are_granted (s : Store) (cap : Json) (permission : Permission) :
    Resolver.firstAnswer cap (Resolver.accessibleIds s .null permission) = .ok [] ∧
      ∀ user : String,
        ({group | s.BelongsTo user group}.ncard < maxPrincipals →
          ∃ ids, Resolver.firstAnswer cap (Resolver.accessibleIds s (.str user) permission) =
              .ok ids ∧ ids.Nodup ∧
            ∀ id, id ∈ ids ↔
              ∃ acl e, s.acl? id = some acl ∧ e ∈ acl.entries ∧ s.Grants e user permission) ∧
        (maxPrincipals ≤ {group | s.BelongsTo user group}.ncard →
          Resolver.firstAnswer cap (Resolver.accessibleIds s (.str user) permission) =
            .error .tooManyPrincipals) := by
  refine ⟨Resolver.firstAnswer_accessibleIds, fun user => ⟨fun hfew => ?_, fun hmany => ?_⟩⟩
  · have hfits : (s.principalsOf user).length ≤ maxPrincipals := by
      rw [length_principalsOf]
      omega
    refine ⟨s.grantedIds user permission, ?_, s.nodup_grantedIds user permission,
      fun id => mem_grantedIds_iff⟩
    rw [Resolver.firstAnswer_accessibleIds, accessibleIds_str permission hfits]
  · rw [Resolver.firstAnswer_accessibleIds]
    refine accessibleIds_of_many permission ?_
    rw [length_principalsOf]
    omega

/-- Two groups that contain each other. A user is in one of them, and the other one may write under
the first access list. The second one is for another user. -/
def circle : Store where
  groups := [⟨some "g", "g", none, 1, none⟩, ⟨some "h", "h", none, 2, none⟩]
  memberships := [⟨"g", .user, "u"⟩, ⟨"h", .group, "g"⟩, ⟨"g", .group, "h"⟩]
  acls :=
    [⟨"612d03d1dd3af2c1c0fd2ba5bf1d87043846a65306774eaff25e039c0d54df23",
        [⟨⟨.group, "h"⟩, .write⟩]⟩,
      ⟨"858010bd6f54a234bb632843824715b8865cb0a2fa0c396cb2ecd91779ecc616",
        [⟨⟨.user, "v"⟩, .read⟩]⟩]

theorem reachable_circle : circle.Reachable := by
  refine ⟨[(.createGroup { name := .str "g", id := .str "g" }, ⟨"", 1⟩),
    (.createGroup { name := .str "h", id := .str "h" }, ⟨"", 2⟩),
    (.addMember (.str "g") (.str "user") (.str "u"), ⟨"", 3⟩),
    (.addMember (.str "h") (.str "group") (.str "g"), ⟨"", 4⟩),
    (.addMember (.str "g") (.str "group") (.str "h"), ⟨"", 5⟩),
    (.internAcl (.arr [AclEntry.toJson ⟨⟨.group, "h"⟩, .write⟩]), ⟨"", 6⟩),
    (.internAcl (.arr [AclEntry.toJson ⟨⟨.user, "v"⟩, .read⟩]), ⟨"", 7⟩)], ?_⟩
  decide +kernel

/-- The user may read what the group around may write, and nothing that is for others. -/
theorem accessibleIds_in_circle :
    circle.Reachable ∧ {group | circle.BelongsTo "u" group}.ncard < maxPrincipals ∧
      ∃ ids, Resolver.firstAnswer (.int 1000) (Resolver.accessibleIds circle (.str "u") .read) =
          .ok ids ∧ ids.Nodup ∧ 1 ∈ ids ∧ 2 ∉ ids := by
  have hfew : {group | circle.BelongsTo "u" group}.ncard < maxPrincipals := by
    rw [ncard_belongsTo]
    decide +kernel
  have hgranted := (accessibleIds_are_granted circle (.int 1000) .read).2 "u"
  obtain ⟨ids, hids, hnodup, hmem⟩ := hgranted.1 hfew
  refine ⟨reachable_circle, hfew, ids, hids, hnodup, (hmem 1).2 ?_, fun h => ?_⟩
  · have hinner : circle.BelongsTo "u" "g" := .direct (by decide)
    have houter : circle.BelongsTo "u" "h" := .nested hinner (by decide)
    exact ⟨_, _, rfl, List.mem_singleton_self _, .inr ⟨"h", houter, rfl⟩, .inr rfl⟩
  · obtain ⟨acl, e, hacl, he, hprincipal, _⟩ := (hmem 2).1 h
    cases hacl
    cases List.mem_singleton.1 he
    rcases hprincipal with heq | ⟨group, _, heq⟩
    · exact absurd heq (by decide)
    · cases heq

/-- Nothing keeps a user from joining as many groups as a query asks for principals. -/
theorem many_joined {s : Store}
    (hs : s = empty.after (joining "u" ((List.range 997).map Nat.repr))) :
    s.Reachable ∧ s.acls = [] ∧ maxPrincipals < (s.principalsOf "u").length := by
  have hjoined : s = empty.joined "u" ((List.range 997).map Nat.repr) :=
    hs.trans (after_joining_numerals empty "u" 997)
  refine ⟨⟨_, hs.symm⟩, ?_⟩
  rw [hjoined]
  exact ⟨rfl, lt_principalsOf_numerals empty "u" 997⟩

/-- A user who is in as many groups as a query asks for principals is not even told that nothing is
granted. -/
theorem accessibleIds_for_member_of_many_groups :
    let s : Store := empty.after (joining "u" ((List.range 997).map Nat.repr))
    s.Reachable ∧ (∀ id, s.acl? id = none) ∧
      Resolver.firstAnswer (.int 1000) (Resolver.accessibleIds s (.str "u") .read) =
        .error .tooManyPrincipals := by
  intro s
  obtain ⟨hreachable, hacls, hmany⟩ := many_joined (s := s) rfl
  clear_value s
  refine ⟨hreachable, fun id => ?_, ?_⟩
  · rw [acl?, hacls]
    split <;> rfl
  · rw [Resolver.firstAnswer_accessibleIds, accessibleIds_of_many .read hmany]

end Store

end VersionedGraph
