import VersionedGraph.Proofs.Canonical
import VersionedGraph.Proofs.Failure

/-!
# Access lists without complaints

There is no complaint about a list just if it is short enough and each of its items is an object
that names a type of principals, an id and a permission. Such a list is always interned, whatever is
stored: its items can be told apart and put in order, no two of them are stored alike, and the store
has nothing against any of them. What no check of the list looks for is whether its ids are proper
texts, and an id with half of a surrogate pair is the one thing that the store refuses
(`Store.checked_lists_are_interned`).
-/

namespace VersionedGraph

theorem Json.bind_principalType_eq_some_iff {v : Json} {type : PrincipalType} :
    v.text?.bind PrincipalType.ofName? = some type ↔ v = .str type.name := by
  constructor
  · intro h
    obtain ⟨name, hname, htype⟩ := Option.bind_eq_some_iff.1 h
    cases v with
    | str s => rw [PrincipalType.name_of_ofName? htype, LooseText.eq_ofString_of_toString? hname]
    | _ => cases hname
  · rintro rfl
    simp [Json.text?, PrincipalType.ofName?_name]

theorem Json.bind_permission_eq_some_iff {v : Json} {permission : Permission} :
    v.text?.bind Permission.ofName? = some permission ↔ v = .str permission.name := by
  constructor
  · intro h
    obtain ⟨name, hname, hpermission⟩ := Option.bind_eq_some_iff.1 h
    cases v with
    | str s => rw [Permission.name_of_ofName? hpermission, LooseText.eq_ofString_of_toString? hname]
    | _ => cases hname
  · rintro rfl
    simp [Json.text?, Permission.ofName?_name]

/-- A grant whose type and permission exist, for an id of any code points. -/
structure NamedGrant where
  type : PrincipalType
  id : LooseText
  permission : Permission
  deriving DecidableEq

namespace NamedGrant

def draft (g : NamedGrant) : AclDraft :=
  ⟨.text g.type.name, .text g.id, .text g.permission.name⟩

/-- An item holds a grant if it is an object with the texts of the grant among its fields. -/
structure HeldBy (g : NamedGrant) (item : Json) : Prop where
  type : item.field? "principal_type" = some (.str g.type.name)
  id : item.field? "principal_id" = some (.str g.id)
  permission : item.field? "permission" = some (.str g.permission.name)

variable {g h : NamedGrant}

theorem HeldBy.ofJson_eq_ok {item : Json} (hheld : g.HeldBy item) :
    AclDraft.ofJson item = .ok g.draft := by
  obtain ⟨htype, hid, hpermission⟩ := hheld
  cases item with
  | obj fields =>
    rw [AclDraft.ofJson, Json.part_obj_of_lookup htype, ok_bind, Json.part_obj_of_lookup hid,
      ok_bind, Json.part_obj_of_lookup hpermission]
    rfl
  | _ => cases htype

theorem draft_inj : g.draft = h.draft ↔ g = h := by
  rcases g with ⟨type, id, permission⟩
  rcases h with ⟨type', id', permission'⟩
  simp [draft, LooseText.ofString_inj, PrincipalType.name_inj, Permission.name_inj]

theorem sameAs_draft : g.draft.sameAs h.draft = decide (g = h) := by
  rw [Bool.eq_iff_iff, decide_eq_true_iff, ← draft_inj]
  simp only [AclDraft.sameAs, draft, Atom.sameAs, Bool.and_eq_true, decide_eq_true_eq,
    AclDraft.mk.injEq, Atom.text.injEq]
  rw [and_assoc, and_left_comm]

/-- Texts are always put in order. -/
theorem exists_isBelow_draft (g h : NamedGrant) :
    ∃ below, AclDraft.isBelow g.draft h.draft = .ok below := by
  have htexts : ∀ f ∈ AclDraft.paired g.draft h.draft, ∃ s t, f = (.text s, .text t) := by
    simp [AclDraft.paired, draft]
  unfold AclDraft.isBelow
  cases hdifference : AclDraft.difference? g.draft h.draft with
  | none => exact ⟨false, rfl⟩
  | some f =>
    obtain ⟨s, t, rfl⟩ := htexts f (List.mem_of_find?_eq_some hdifference)
    exact ⟨_, rfl⟩

theorem distinct_map_draft (grants : List NamedGrant) :
    Acl.distinct (grants.map draft) = grants.eraseDups.map draft := by
  rw [Acl.distinct, eraseDupsBy_map]
  congr 2
  funext g h
  exact sameAs_draft

theorem exists_digest_draft (grants : List NamedGrant) :
    ∃ digest, Acl.digest (grants.map draft) = .ok digest := by
  have hnone : Sorting.fault? AclDraft.isBelow (Acl.distinct (grants.map draft)) = none := by
    refine Sorting.fault?_eq_none fun d hd d' hd' => ?_
    rw [distinct_map_draft] at hd hd'
    obtain ⟨g, _, rfl⟩ := List.mem_map.1 hd
    obtain ⟨h, _, rfl⟩ := List.mem_map.1 hd'
    exact exists_isBelow_draft g h
  unfold Acl.digest Acl.canonicalText Acl.canonicalDrafts
  rw [hnone]
  exact ⟨_, rfl⟩

/-- The entry that is stored for a grant tells the grant. -/
theorem draft_eq_of_settle {e : AclEntry} (hsettled : g.draft.settle = .ok e) :
    g.draft = AclDraft.ofEntry e := by
  obtain ⟨htype, hid, hpermission⟩ := AclDraft.settles_of_settle hsettled
  rw [draft] at htype hid hpermission ⊢
  rw [AclDraft.ofEntry, ← hid g.id rfl]
  exact congrArg₂ (fun type permission => AclDraft.mk type (.text g.id) permission) htype hpermission

/-- The only thing that the store may have against a grant is that its id is no proper text. -/
theorem exists_unencodable_of_settle {f : Fault} (hfault : g.draft.settle = .error f) :
    ∃ position halves, g.id.firstHalves? = some (position, halves) ∧
      f = .unbindable (.unencodable position halves) := by
  cases hhalves : g.id.firstHalves? with
  | none =>
    have hproper : g.draft = AclDraft.ofEntry ⟨⟨g.type, g.id.replaced⟩, g.permission⟩ := by
      rw [draft, AclDraft.ofEntry, LooseText.ofString_replaced hhalves]
    rw [hproper, AclDraft.settle_ofEntry] at hfault
    cases hfault
  | some found =>
    have hrefused : Json.firstBindFault? 1 [.str g.type.name, .str g.id, .str g.permission.name] =
        some (.unencodable found.1 found.2) := by
      simp [Json.firstBindFault?, Json.bindFault?, hhalves]
    have hsettle : g.draft.settle = .error (.unbindable (.unencodable found.1 found.2)) := by
      rw [AclDraft.settle]
      change (Json.handOver [.str g.type.name, .str g.id, .str g.permission.name] >>= _) = _
      rw [Json.handOver, hrefused]
      rfl
    rw [hsettle] at hfault
    cases hfault
    exact ⟨found.1, found.2, rfl, rfl⟩

end NamedGrant

namespace Action

variable {s t : Store} {f : Fault} {α : Type}

theorem fault?_of_yields {x : Action α} {a : α} (h : x.Yields s a t) : x.fault? s = none := by
  unfold Yields at h
  unfold fault?
  rw [h]

theorem fault?_atomically (x : Action α) (s : Store) :
    (atomically x).fault? s = x.fault? s := by
  unfold fault? atomically
  simp only [ExceptT.run, StateT.run]
  cases x s with
  | mk result t => cases result <;> rfl

/-- An entry is refused for its draft, or because the list has it already. -/
theorem fault?_addEntry_cases {acl : AccessList} {d : AclDraft}
    (h : (addEntry s.nextAclId d).fault? { s with acls := s.acls ++ [acl] } = some f) :
    d.settle = .error f ∨ ∃ e ∈ acl.entries, d.settle = .ok e := by
  cases hsettled : d.settle with
  | error f' =>
    refine .inl ?_
    rw [addEntry, hsettled] at h
    exact congrArg Except.error (Option.some.inj h)
  | ok e =>
    refine .inr ⟨e, ?_, rfl⟩
    by_contra hnew
    have hfresh : acl.entries.contains e = false :=
      Bool.eq_false_iff.2 (List.contains_iff_mem.not.2 hnew)
    have hyields : (addEntry s.nextAclId d).Yields { s with acls := s.acls ++ [acl] } () _ :=
      addEntry_yields_iff.2 ⟨e, hsettled, hfresh, rfl⟩
    rw [fault?_of_yields hyields] at h
    cases h

/-- Of different grants that are stored one by one, one is refused only for its id. -/
theorem exists_fault?_of_forM_addEntry {acl : AccessList} {grants : List NamedGrant}
    (hnodup : grants.Nodup)
    (hnew : ∀ e ∈ acl.entries, ∀ g ∈ grants, g.draft ≠ AclDraft.ofEntry e)
    (h : ((grants.map NamedGrant.draft).forM (addEntry s.nextAclId)).fault?
      { s with acls := s.acls ++ [acl] } = some f) :
    ∃ g ∈ grants, g.draft.settle = .error f := by
  induction grants generalizing acl with
  | nil => cases h
  | cons g rest ih =>
    obtain ⟨hg, hrest⟩ := List.nodup_cons.1 hnodup
    rcases fault?_bind_cases h with h | ⟨_, _, hadded, h⟩
    · rcases fault?_addEntry_cases h with hfault | ⟨e, he, hsettled⟩
      · exact ⟨g, List.mem_cons_self, hfault⟩
      · exact absurd (NamedGrant.draft_eq_of_settle hsettled) (hnew e he g List.mem_cons_self)
    · obtain ⟨e, hsettled, _, rfl⟩ := addEntry_yields_iff.1 hadded
      have hstill : ∀ e' ∈ acl.entries ++ [e], ∀ g' ∈ rest,
          g'.draft ≠ AclDraft.ofEntry e' := by
        intro e' he' g' hg' hsame
        rcases List.mem_append.1 he' with he' | he'
        · exact hnew e' he' g' (List.mem_cons_of_mem _ hg') hsame
        · rw [List.mem_singleton.1 he', ← NamedGrant.draft_eq_of_settle hsettled,
            NamedGrant.draft_inj] at hsame
          exact hg (hsame ▸ hg')
      obtain ⟨g', hg', hfault⟩ := ih hrest hstill h
      exact ⟨g', List.mem_cons_of_mem _ hg', hfault⟩

/-- Grants are interned unless one of them has an id that is no proper text. -/
theorem exists_unencodable_of_internAcl {grants : List NamedGrant}
    (h : (internAcl (grants.map NamedGrant.draft)).fault? s = some f) :
    ∃ g ∈ grants, ∃ position halves, g.id.firstHalves? = some (position, halves) ∧
      f = .unbindable (.unencodable position halves) := by
  obtain ⟨digest, hdigest⟩ := NamedGrant.exists_digest_draft grants
  unfold internAcl at h
  rw [hdigest, NamedGrant.distinct_map_draft] at h
  split at h
  · cases h
  · rw [fault?_atomically] at h
    rcases fault?_bind_cases h with h | ⟨_, _, _, h⟩
    · cases h
    · rcases fault?_bind_cases h with h | ⟨_, _, _, h⟩
      · cases h
      · split at h
        · cases h
        · rcases fault?_bind_cases h with h | ⟨id, _, hadded, h⟩
          · cases h
          · obtain ⟨rfl, rfl⟩ := addAcl_yields_iff.1 hadded
            rcases fault?_bind_cases h with h | ⟨_, _, _, h⟩
            · obtain ⟨g, hg, hfault⟩ :=
                exists_fault?_of_forM_addEntry (nodup_eraseDups grants)
                  (fun _ he => absurd he List.not_mem_nil) h
              exact ⟨g, List.mem_eraseDups.1 hg, NamedGrant.exists_unencodable_of_settle hfault⟩
            · cases h

end Action

namespace Acl

/-- An item that can be taken for a grant: an object, since other values have no fields, that names
a type, an id which is not empty, and a permission. -/
structure IsGrant (item : Json) : Prop where
  type : item.field? "principal_type" = some (.str "user") ∨
    item.field? "principal_type" = some (.str "group")
  id : ∃ id : LooseText, item.field? "principal_id" = some (.str id) ∧ id ≠ ""
  permission : item.field? "permission" = some (.str "read") ∨
    item.field? "permission" = some (.str "write")

theorem isGrant_iff {item : Json} :
    IsGrant item ↔ ∃ g : NamedGrant, g.id ≠ "" ∧ g.HeldBy item := by
  constructor
  · rintro ⟨htype, ⟨id, hid, hne⟩, hpermission⟩
    obtain ⟨type, htype⟩ : ∃ type : PrincipalType,
        item.field? "principal_type" = some (.str type.name) :=
      htype.elim (fun h => ⟨.user, h⟩) fun h => ⟨.group, h⟩
    obtain ⟨permission, hpermission⟩ : ∃ permission : Permission,
        item.field? "permission" = some (.str permission.name) :=
      hpermission.elim (fun h => ⟨.read, h⟩) fun h => ⟨.write, h⟩
    exact ⟨⟨type, id, permission⟩, hne, htype, hid, hpermission⟩
  · rintro ⟨⟨type, id, permission⟩, hne, htype, hid, hpermission⟩
    refine ⟨?_, ⟨id, hid, hne⟩, ?_⟩
    · cases type with
      | user => exact .inl htype
      | group => exact .inr htype
    · cases permission with
      | read => exact .inl hpermission
      | write => exact .inr hpermission

theorem fieldOrNull_eq_str_iff {item : Json} {name : String} {s : LooseText} :
    item.fieldOrNull name = .str s ↔ item.field? name = some (.str s) := by
  unfold Json.fieldOrNull
  cases item.field? name <;> simp

theorem isEmpty_eq_false_iff {id : LooseText} : id.isEmpty = false ↔ id ≠ "" := by
  rcases id with ⟨_ | ⟨p, points⟩⟩
  · exact ⟨nofun, fun h => absurd rfl h⟩
  · exact ⟨nofun, fun _ => rfl⟩

/-- An item is complained about, wherever it stands, unless it can be taken for a grant. -/
theorem entryComplaints_eq_nil_iff {position : Nat} {item : Json} :
    entryComplaints position item = [] ↔ IsGrant item := by
  cases item with
  | obj fields =>
    have hnone {c : Bool} {complaint : Complaint} :
        (if c then [] else [complaint]) = [] ↔ c = true := by
      cases c <;> simp
    have hgrant : IsGrant (.obj fields) ↔
        (∃ type : PrincipalType,
          (Json.obj fields).fieldOrNull "principal_type" = .str type.name) ∧
        (∃ id : LooseText,
          (Json.obj fields).fieldOrNull "principal_id" = .str id ∧ id.isEmpty = false) ∧
        ∃ permission : Permission,
          (Json.obj fields).fieldOrNull "permission" = .str permission.name := by
      simp only [fieldOrNull_eq_str_iff, isEmpty_eq_false_iff]
      rw [isGrant_iff]
      constructor
      · rintro ⟨g, hne, htype, hid, hpermission⟩
        exact ⟨⟨_, htype⟩, ⟨g.id, hid, hne⟩, _, hpermission⟩
      · rintro ⟨⟨type, htype⟩, ⟨id, hid, hne⟩, permission, hpermission⟩
        exact ⟨⟨type, id, permission⟩, hne, htype, hid, hpermission⟩
    simp only [entryComplaints, List.append_eq_nil_iff, hnone, Option.isSome_iff_exists,
      Json.bind_principalType_eq_some_iff, Json.bind_permission_eq_some_iff, hgrant, and_assoc]
    refine and_congr_right fun _ => and_congr_left fun _ => ?_
    cases (Json.obj fields).fieldOrNull "principal_id" <;> simp
  | _ => exact ⟨nofun, fun h => h.id.elim nofun⟩

theorem complaintsFrom_eq_nil_iff {position : Nat} {items : List Json} :
    complaintsFrom position items = [] ↔ ∀ item ∈ items, IsGrant item := by
  induction items generalizing position with
  | nil => simp [complaintsFrom]
  | cons item rest ih =>
    rw [complaintsFrom, List.append_eq_nil_iff, entryComplaints_eq_nil_iff, ih,
      List.forall_mem_cons]

theorem complaintsOf_eq_nil_iff {items : List Json} :
    complaintsOf (.arr items) = .ok [] ↔ items.length ≤ 100 ∧ ∀ item ∈ items, IsGrant item := by
  have hcomplaints : complaintsOf (.arr items) = .ok (complaints items) := rfl
  rw [hcomplaints, Except.ok.injEq, complaints, List.append_eq_nil_iff, complaintsFrom_eq_nil_iff,
    ite_eq_right_iff, maxEntries]
  refine and_congr_left fun _ => ?_
  simp

/-- The grants of a list without complaints. -/
theorem exists_listOfJson_eq {items : List Json} (h : ∀ item ∈ items, IsGrant item) :
    ∃ grants : List NamedGrant, List.Forall₂ NamedGrant.HeldBy grants items ∧
      AclDraft.listOfJson (.arr items) = .ok (grants.map NamedGrant.draft) := by
  obtain ⟨grants, hheld⟩ : ∃ grants, List.Forall₂ NamedGrant.HeldBy grants items := by
    induction items with
    | nil => exact ⟨[], .nil⟩
    | cons item rest ih =>
      obtain ⟨hitem, hrest⟩ := List.forall_mem_cons.1 h
      obtain ⟨g, _, hg⟩ := isGrant_iff.1 hitem
      obtain ⟨grants, hgrants⟩ := ih hrest
      exact ⟨g :: grants, .cons hg hgrants⟩
  have hlist : AclDraft.listOfJson (.arr items) = items.mapM AclDraft.ofJson := rfl
  refine ⟨grants, hheld, ?_⟩
  rw [hlist, mapM_eq_ok_iff, List.forall₂_map_right_iff]
  exact hheld.flip.imp fun _ _ => NamedGrant.HeldBy.ofJson_eq_ok

/-- An item with the fields of a grant, and one more that nobody asks for. -/
def itemOf (type : String) (id : LooseText) (permission : String) : Json :=
  .obj [("principal_id", .str id), ("note", .arr []), ("permission", .str permission),
    ("principal_type", .str type)]

end Acl

namespace Store

/-- There is no complaint about a list just if it has no more than a hundred items and all of them
can be taken for grants. Then, whatever is stored, the list is interned as long as its ids are
proper texts, and it has no id of its own just if it is empty; if it is not interned, this is for an
id with halves of surrogate pairs and nothing else, and the store stays as it was. -/
theorem checked_lists_are_interned (items : List Json) :
    (Acl.complaintsOf (.arr items) = .ok [] ↔
      items.length ≤ 100 ∧ ∀ item ∈ items, Acl.IsGrant item) ∧
    (Acl.complaintsOf (.arr items) = .ok [] → ∀ s : Store,
      ((∀ item ∈ items, ∃ id : String, item.field? "principal_id" = some (.str id)) →
        ∃ id t, (Action.internGiven (.arr items)).Yields s id t ∧ (id = none ↔ items = [])) ∧
      ∀ f, (Action.internGiven (.arr items)).fault? s = some f →
        (Action.internGiven (.arr items)).storeAfter s = s ∧
        ∃ item ∈ items, ∃ id position halves, item.field? "principal_id" = some (.str id) ∧
          id.firstHalves? = some (position, halves) ∧
          f = .unbindable (.unencodable position halves)) := by
  refine ⟨Acl.complaintsOf_eq_nil_iff, fun hchecked s => ?_⟩
  obtain ⟨grants, hheld, hdrafts⟩ :=
    Acl.exists_listOfJson_eq (Acl.complaintsOf_eq_nil_iff.1 hchecked).2
  have hfault {f : Fault} (h : (Action.internGiven (.arr items)).fault? s = some f) :
      ∃ item ∈ items, ∃ id position halves, item.field? "principal_id" = some (.str id) ∧
        id.firstHalves? = some (position, halves) ∧
        f = .unbindable (.unencodable position halves) := by
    unfold Action.internGiven at h
    split at h
    · cases h
    · rw [hdrafts] at h
      obtain ⟨g, hg, position, halves, hhalves, rfl⟩ :=
        Action.exists_unencodable_of_internAcl h
      obtain ⟨item, hitem, hholds⟩ := exists_mem_of_forall₂ hheld hg
      exact ⟨item, hitem, g.id, position, halves, hholds.id, hhalves, rfl⟩
  refine ⟨fun hproper => ?_, fun f h => ⟨Action.spares_internGiven _ f h, hfault h⟩⟩
  have hnone : (Action.internGiven (.arr items)).fault? s = none := by
    by_contra hsome
    obtain ⟨f, hf⟩ := Option.ne_none_iff_exists'.1 hsome
    obtain ⟨item, hitem, id, _, _, hid, hhalves, _⟩ := hfault hf
    obtain ⟨name, hname⟩ := hproper item hitem
    rw [hid] at hname
    cases hname
    rw [LooseText.firstHalves?_ofString] at hhalves
    cases hhalves
  obtain ⟨id, t, hyields⟩ := Action.exists_yields_of_fault?_eq_none hnone
  refine ⟨id, t, hyields, ?_⟩
  cases hheld with
  | nil =>
    obtain ⟨rfl, _⟩ := Action.yields_pure.1 hyields
    exact ⟨fun _ => rfl, fun _ => rfl⟩
  | @cons g item grants rest _ _ =>
    have hinterned : (Action.internAcl ((g :: grants).map NamedGrant.draft)).Yields s id t := by
      unfold Action.internGiven at hyields
      rw [if_neg (by simp [Json.isVacant]), hdrafts] at hyields
      simpa using hyields
    have hsome : ∃ n, id = some n := by
      obtain ⟨_, _, ⟨n, _, hid, _⟩ | ⟨_, hid, _⟩⟩ :=
        (Action.internAcl_yields_iff (List.cons_ne_nil _ _)).1 hinterned
      · exact ⟨n, hid⟩
      · exact ⟨_, hid⟩
    obtain ⟨n, rfl⟩ := hsome
    exact iff_of_false (Option.some_ne_none n) (List.cons_ne_nil _ _)

/-- A user and a group of one name, the user twice. -/
theorem checked_list_of_namesakes :
    let items := [Acl.itemOf "user" "ann" "read", Acl.itemOf "group" "ann" "write",
      Acl.itemOf "user" "ann" "read"]
    Acl.complaintsOf (.arr items) = .ok [] ∧
      (∀ item ∈ items, ∃ id : String, item.field? "principal_id" = some (.str id)) ∧
      ∃ n t, (Action.internGiven (.arr items)).Yields empty (some n) t := by
  intro items
  have hchecked : Acl.complaintsOf (.arr items) = .ok [] := rfl
  have hproper : ∀ item ∈ items, ∃ id : String, item.field? "principal_id" = some (.str id) := by
    simp only [items, List.forall_mem_cons]
    exact ⟨⟨"ann", rfl⟩, ⟨"ann", rfl⟩, ⟨"ann", rfl⟩, nofun⟩
  obtain ⟨id, t, hyields, hnone⟩ := ((checked_lists_are_interned items).2 hchecked empty).1 hproper
  obtain ⟨n, rfl⟩ := Option.ne_none_iff_exists'.1 (hnone.not.2 (List.cons_ne_nil _ _))
  exact ⟨hchecked, hproper, n, t, hyields⟩

/-- Half of a surrogate pair is not complained about as an id, and it is not interned. -/
theorem checked_half_is_not_interned :
    let items := [Acl.itemOf "user" ⟨[.half 0]⟩ "read"]
    Acl.complaintsOf (.arr items) = .ok [] ∧ empty.Reachable ∧
      ∀ id t, ¬(Action.internGiven (.arr items)).Yields empty id t := by
  intro items
  refine ⟨rfl, ⟨[], rfl⟩, fun id t h => ?_⟩
  have hfails : ((Action.internGiven (.arr items)).run.run empty).1.toOption = none := by
    decide +kernel
  rw [Action.yields_iff] at h
  exact nomatch hfails.symm.trans h.1

end Store

end VersionedGraph
