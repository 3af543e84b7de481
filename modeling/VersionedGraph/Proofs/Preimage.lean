import VersionedGraph.Proofs.Canonical

/-!
# What is hashed of a list of grants

What is handed in for a list of grants, entries themselves or objects with their fields, in any order
and any of them repeatedly, has bytes that are hashed for it. They tell the grants and nothing else:
two lists have the same bytes just if the same grants are in both (`Acl.preimage_tells_grants`). No
text in a grant, with quotes or marks of any kind, can stand for other grants.
-/

namespace VersionedGraph

theorem Text.toList_loop_eq (bytes : ByteArray) (i : Nat) (read : List UInt8) :
    ByteArray.toList.loop bytes i read = read.reverse ++ bytes.data.toList.drop i := by
  fun_induction ByteArray.toList.loop bytes i read with
  | case1 i read h ih =>
    have hlt : i < bytes.data.toList.length := by simpa using h
    have hget : bytes.get! i = bytes.data.toList[i] := by
      rw [Array.getElem_toList]
      exact getElem!_pos bytes.data i h
    rw [ih, List.drop_eq_getElem_cons hlt, hget, List.reverse_cons, List.append_assoc,
      List.singleton_append]
  | case2 i read h =>
    have hle : bytes.data.toList.length ≤ i := by simpa using h
    rw [List.drop_eq_nil_of_le hle, List.append_nil]

/-- A text is told by its bytes. -/
theorem Text.utf8_inj {s t : String} : s.toUTF8.toList = t.toUTF8.toList ↔ s = t := by
  refine ⟨fun h => ?_, fun h => h ▸ rfl⟩
  unfold ByteArray.toList at h
  rw [toList_loop_eq, toList_loop_eq, List.drop_zero, List.drop_zero,
    List.append_cancel_left_eq, Array.toList_inj] at h
  exact String.toByteArray_inj.1 (ByteArray.ext h)

/-- A grant as it is handed in: a draft, or a value that holds its fields. -/
inductive HandedGrant where
  | draft (d : AclDraft)
  | fields (value : Json)

namespace HandedGrant

def toDraft : HandedGrant → Except Misuse AclDraft
  | draft d => .ok d
  | fields value => AclDraft.ofJson value

/-- What is handed in shows three texts: a draft of them, or an object with them among its fields. -/
inductive Shows : HandedGrant → PlainGrant → Prop
  | draft (g : PlainGrant) : Shows (.draft (.ofPlain g)) g
  | fields {object : List (LooseText × Json)} {g : PlainGrant}
    (type : object.lookup ("principal_type" : LooseText) = some (.str g.type))
    (id : object.lookup ("principal_id" : LooseText) = some (.str g.id))
    (permission : object.lookup ("permission" : LooseText) = some (.str g.permission)) :
    Shows (.fields (.obj object)) g

theorem Shows.toDraft_eq_ok {handed : HandedGrant} {g : PlainGrant} (h : handed.Shows g) :
    handed.toDraft = .ok (.ofPlain g) := by
  cases h with
  | draft => rfl
  | fields type id permission =>
    rw [toDraft, AclDraft.ofJson, Json.part_obj_of_lookup type, ok_bind,
      Json.part_obj_of_lookup id, ok_bind, Json.part_obj_of_lookup permission]
    rfl

end HandedGrant

namespace Acl

/-- The bytes that are hashed for grants that are handed in. -/
def preimage (handed : List HandedGrant) : Except Misuse (List UInt8) := do
  return (← canonicalText (← handed.mapM HandedGrant.toDraft)).toUTF8.toList

/-- The digest of grants that are handed in. -/
def digestOf (handed : List HandedGrant) : Except Misuse String := do
  digest (← handed.mapM HandedGrant.toDraft)

theorem digestOf_drafts (drafts : List AclDraft) :
    digestOf (drafts.map .draft) = digest drafts := by
  have hdrafts : (drafts.map HandedGrant.draft).mapM HandedGrant.toDraft = .ok drafts := by
    rw [mapM_eq_ok_iff, List.forall₂_map_left_iff]
    exact List.forall₂_same.2 fun _ _ => rfl
  rw [digestOf, hdrafts, ok_bind]

theorem digestOf_fields (items : List Json) :
    digestOf (items.map .fields) = AclDraft.listOfJson (.arr items) >>= digest := by
  rw [digestOf, List.mapM_map]
  rfl

section

variable {handed handed' : List HandedGrant} {grants grants' : List PlainGrant}

theorem mapM_toDraft_eq_ok (h : List.Forall₂ HandedGrant.Shows handed grants) :
    handed.mapM HandedGrant.toDraft = .ok (grants.map AclDraft.ofPlain) := by
  rw [mapM_eq_ok_iff, List.forall₂_map_right_iff]
  exact h.imp fun _ _ => HandedGrant.Shows.toDraft_eq_ok

/-- Grants that are handed in are hashed, and what is hashed for them is the same just if they are
the same, in any form and order and however often each of them is handed in. -/
theorem preimage_tells_grants (h : List.Forall₂ HandedGrant.Shows handed grants)
    (h' : List.Forall₂ HandedGrant.Shows handed' grants') :
    ∃ bytes bytes', preimage handed = .ok bytes ∧ preimage handed' = .ok bytes' ∧
      digestOf handed = .ok (Sha256.hexDigest bytes) ∧
      digestOf handed' = .ok (Sha256.hexDigest bytes') ∧
      (bytes = bytes' ↔ ∀ g, g ∈ grants ↔ g ∈ grants') ∧
      ((∀ g, g ∈ grants ↔ g ∈ grants') → digestOf handed = digestOf handed') := by
  obtain ⟨text, htext⟩ := exists_canonicalText_ofPlain grants
  obtain ⟨text', htext'⟩ := exists_canonicalText_ofPlain grants'
  have hbytes : text.toUTF8.toList = text'.toUTF8.toList ↔ ∀ g, g ∈ grants ↔ g ∈ grants' :=
    Text.utf8_inj.trans (canonicalText_eq_iff htext htext')
  refine ⟨text.toUTF8.toList, text'.toUTF8.toList, ?_, ?_, ?_, ?_, hbytes, fun hmem => ?_⟩
  · rw [preimage, mapM_toDraft_eq_ok h, ok_bind, htext]
    rfl
  · rw [preimage, mapM_toDraft_eq_ok h', ok_bind, htext']
    rfl
  · rw [digestOf, mapM_toDraft_eq_ok h, ok_bind, digest, htext]
    rfl
  · rw [digestOf, mapM_toDraft_eq_ok h', ok_bind, digest, htext']
    rfl
  · rw [digestOf, digestOf, mapM_toDraft_eq_ok h, mapM_toDraft_eq_ok h', ok_bind, ok_bind, digest,
      digest, htext, htext', (canonicalText_eq_iff htext htext').2 hmem]

end

/-- An id that looks like further fields is hashed as an id. Handed in as an object that has one more
field, before a grant that is repeated, or behind it as a draft, it makes the same digest; under its
beginning alone it would make other bytes. -/
theorem preimage_of_id_like_fields :
    let sly : PlainGrant := ⟨"user", "a\",\"principal_type\":\"group", "read"⟩
    let short : PlainGrant := ⟨"user", "a", "read"⟩
    let ann : PlainGrant := ⟨"user", "ann", "write"⟩
    let object : List (LooseText × Json) := [("permission", .str "read"), ("note", .null),
      ("principal_id", .str "a\",\"principal_type\":\"group"), ("principal_type", .str "user")]
    let handed := [.fields (.obj object), .draft (.ofPlain ann), .draft (.ofPlain ann)]
    let handed' := [.draft (.ofPlain ann), .draft (.ofPlain sly)]
    List.Forall₂ HandedGrant.Shows handed [sly, ann, ann] ∧
      List.Forall₂ HandedGrant.Shows handed' [ann, sly] ∧
      digestOf handed = digestOf handed' ∧
      ∃ bytes bytes', preimage handed = .ok bytes ∧
        preimage [.draft (.ofPlain ann), .draft (.ofPlain short)] = .ok bytes' ∧
        bytes ≠ bytes' := by
  intro sly short ann object handed handed'
  have hshows : List.Forall₂ HandedGrant.Shows handed [sly, ann, ann] :=
    .cons (.fields rfl rfl rfl) (.cons (.draft ann) (.cons (.draft ann) .nil))
  have hshows' : List.Forall₂ HandedGrant.Shows handed' [ann, sly] :=
    .cons (.draft ann) (.cons (.draft sly) .nil)
  have hshort : List.Forall₂ HandedGrant.Shows [.draft (.ofPlain ann), .draft (.ofPlain short)]
      [ann, short] :=
    .cons (.draft ann) (.cons (.draft short) .nil)
  obtain ⟨_, _, _, _, _, _, _, hdigest⟩ := preimage_tells_grants hshows hshows'
  obtain ⟨bytes, bytes', hbytes, hbytes', _, _, hsame, _⟩ := preimage_tells_grants hshows hshort
  refine ⟨hshows, hshows', hdigest fun g => ?_, bytes, bytes', hbytes, hbytes', fun heq => ?_⟩
  · simp only [List.mem_cons, List.not_mem_nil, or_false, or_self]
    exact or_comm
  · have hmem : sly ∈ [ann, short] := (hsame.1 heq sly).1 List.mem_cons_self
    exact absurd hmem (by decide)

end Acl

end VersionedGraph
