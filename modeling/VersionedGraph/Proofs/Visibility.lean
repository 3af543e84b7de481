import VersionedGraph.Proofs.Crossing

/-!
# What stores look like to a caller

Two stores look alike to a caller when they have the same access lists and groups and the rows of
one are those of the other, but for latest rows that the caller may not read in either: such a row
has a counterpart that takes its place in the chain and keeps its access list, and whatever else is
written on it may differ (`Store.LooksLike`). Then what an id names, whom an access list lets read,
and the hops that the caller may cross are the same in both.
-/

namespace VersionedGraph

/-- A latest row takes the place of another one: it has the same place in the same chain and the
same access list. -/
structure Version.StandsFor {ι ε π : Type} (a b : Version ι ε π) : Prop where
  id : a.id = b.id
  version : a.version = b.version
  previous : a.previous = b.previous
  acl : a.acl = b.acl
  latest : a.isLatest = true
  latest' : b.isLatest = true

theorem Version.StandsFor.symm {ι ε π : Type} {a b : Version ι ε π} (h : a.StandsFor b) :
    b.StandsFor a :=
  ⟨h.id.symm, h.version.symm, h.previous.symm, h.acl.symm, h.latest', h.latest⟩

namespace Store

/-- The rows of a store are in another one, or are kept from a caller and others take their
places there. -/
def ShowsIn (user : Json) (s t : Store) : Prop :=
  ∀ (k : Kind), ∀ a ∈ s.rows k,
    a ∈ t.rows k ∨ ¬s.CanRead user a.acl ∧ ∃ b ∈ t.rows k, a.StandsFor b

/-- Two stores differ only in what is written on latest rows that a caller may not read. -/
structure LooksLike (user : Json) (s t : Store) : Prop where
  acls : s.acls = t.acls
  groups : s.groups = t.groups
  memberships : s.memberships = t.memberships
  shows : ShowsIn user s t
  shows' : ShowsIn user t s

variable {s t : Store} {user : Json} {k : Kind}

/-- Access is a matter of access lists and groups only. -/
theorem accessibleIds_congr (hacls : s.acls = t.acls) (hgroups : s.groups = t.groups)
    (hmemberships : s.memberships = t.memberships) : s.accessibleIds = t.accessibleIds := by
  obtain ⟨_, _, _, _, acls, groups, memberships⟩ := s
  obtain ⟨_, _, _, _, acls', groups', memberships'⟩ := t
  obtain rfl : acls = acls' := hacls
  obtain rfl : groups = groups' := hgroups
  obtain rfl : memberships = memberships' := hmemberships
  rfl

namespace LooksLike

theorem refl (user : Json) (s : Store) : LooksLike user s s :=
  ⟨rfl, rfl, rfl, fun _ _ ha => .inl ha, fun _ _ ha => .inl ha⟩

theorem symm (h : LooksLike user s t) : LooksLike user t s :=
  ⟨h.acls.symm, h.groups.symm, h.memberships.symm, h.shows', h.shows⟩

theorem accessibleIds (h : LooksLike user s t) : s.accessibleIds = t.accessibleIds :=
  accessibleIds_congr h.acls h.groups h.memberships

theorem readFilter (h : LooksLike user s t) : s.readFilter = t.readFilter := by
  unfold Store.readFilter
  rw [h.accessibleIds]

theorem hasPermission (h : LooksLike user s t) : s.hasPermission = t.hasPermission := by
  unfold Store.hasPermission
  rw [h.accessibleIds]

theorem canRead (h : LooksLike user s t) : s.CanRead = t.CanRead := by
  unfold Store.CanRead
  rw [h.hasPermission]

/-- A row that may be read is in both stores. -/
theorem mem_of_canRead (h : LooksLike user s t) {a : Row k} (ha : a ∈ s.rows k)
    (hread : s.CanRead user a.acl) : a ∈ t.rows k := by
  rcases h.shows k a ha with ha | ⟨hbarred, _⟩
  · exact ha
  · exact absurd hread hbarred

theorem exists_counterpart (h : LooksLike user s t) {a : Row k} (ha : a ∈ s.rows k) :
    ∃ b ∈ t.rows k, b.id = a.id ∧ b.previous = a.previous ∧ b.isLatest = a.isLatest := by
  rcases h.shows k a ha with ha | ⟨_, b, hb, hstands⟩
  · exact ⟨a, ha, rfl, rfl, rfl⟩
  · exact ⟨b, hb, hstands.id.symm, hstands.previous.symm, hstands.latest'.trans hstands.latest.symm⟩

theorem precedes (h : LooksLike user s t) {x y : String} (hxy : s.Precedes k x y) :
    t.Precedes k x y := by
  obtain ⟨a, ha, hid, hprevious⟩ := hxy
  obtain ⟨b, hb, hbid, hbprevious, _⟩ := h.exists_counterpart ha
  exact ⟨b, hb, hbid.trans hid, hbprevious.trans hprevious⟩

/-- Chains have the same ids in both stores. -/
theorem sameChain (h : LooksLike user s t) (k : Kind) : s.SameChain k = t.SameChain k := by
  have hprecedes : s.Precedes k = t.Precedes k := by
    funext x y
    exact propext ⟨h.precedes, h.symm.precedes⟩
  unfold SameChain
  rw [hprecedes]

/-- What an id names in one store it names in the other, provided that the row is there. -/
theorem latest? (h : LooksLike user s t) (hs : s.Versioned k) (ht : t.Versioned k) {id : String}
    (hshared : ∀ a, s.latest? k id = some a → a ∈ t.rows k) : s.latest? k id = t.latest? k id := by
  cases hs' : s.latest? k id with
  | some a =>
    obtain ⟨_, hlatest, hchain⟩ := hs.latest?_eq_some_iff.1 hs'
    rw [h.sameChain] at hchain
    exact (ht.latest?_eq_some_iff.2 ⟨hshared a hs', hlatest, hchain⟩).symm
  | none =>
    cases ht' : t.latest? k id with
    | none => rfl
    | some b =>
      obtain ⟨hb, hlatest, hchain⟩ := ht.latest?_eq_some_iff.1 ht'
      obtain ⟨a, ha, hid, _, hmark⟩ := h.symm.exists_counterpart hb
      have hfound := hs.latest?_eq_some_iff.2
        ⟨ha, hmark.trans hlatest, by rw [h.sameChain, hid]; exact hchain⟩
      rw [hs'] at hfound
      cases hfound

/-- What a value names is found alike, provided that the row is in both stores. -/
theorem readable (h : LooksLike user s t) (hs : s.Versioned .entity) (ht : t.Versioned .entity)
    {id : Json} {includeDeleted : Bool}
    (hshared : ∀ text a, id.lookupText = .ok (some text) → s.latest? .entity text = some a →
      a ∈ t.rows .entity) :
    s.readable user includeDeleted id = t.readable user includeDeleted id := by
  have hlatest : s.getLatest .entity id = t.getLatest .entity id := by
    unfold getLatest
    cases htext : id.lookupText with
    | error f => rfl
    | ok text? =>
      cases text? with
      | none => rfl
      | some text =>
        rw [ok_bind, ok_bind, Option.bind_some, Option.bind_some,
          h.latest? hs ht fun a => hshared text a htext]
  unfold Store.readable Store.checkAccess
  rw [hlatest, h.hasPermission]

/-- What a caller can start from in one store it can start from in the other, provided that the row
is there. -/
theorem accepts (h : LooksLike user s t) (hs : s.Versioned .entity) {id : Json}
    {includeDeleted : Bool}
    (hshared : ∀ text a, id.lookupText = .ok (some text) → s.latest? .entity text = some a →
      a ∈ t.rows .entity)
    {a : Row .entity} (ha : s.Accepts user includeDeleted id a) :
    t.Accepts user includeDeleted id a := by
  obtain ⟨⟨text, htext, hchain⟩, hmem, hlatest, hdeleted, hread⟩ := ha
  have hrow : s.latest? .entity text = some a :=
    hs.latest?_eq_some_iff.2 ⟨hmem, hlatest, hchain⟩
  rw [h.sameChain] at hchain
  rw [h.canRead] at hread
  exact ⟨⟨text, htext, hchain⟩, hshared text a htext hrow, hlatest, hdeleted, hread⟩

/-- The hops that a caller may cross are the same in both stores. -/
theorem hop (h : LooksLike user s t) {rule : HopRule} (hrule : rule.canRead = s.CanRead user) :
    s.Hop rule = t.Hop rule := by
  have hforward {s t : Store} (h : LooksLike user s t) (hrule : rule.canRead = s.CanRead user)
      {d : HopDirection} {id : String} {l : Row .link} {v : Row .entity}
      (hop : s.Hop rule d id l v) : t.Hop rule d id l v := by
    have hlink := hop.admitsLink.canRead
    have hentity := hop.admitsEntity.canRead
    rw [hrule] at hlink hentity
    refine { hop with
      link := h.mem_of_canRead hop.link hlink, near := ?_
      entity := h.mem_of_canRead hop.entity hentity, far := ?_ }
    · rw [← h.sameChain]
      exact hop.near
    · rw [← h.sameChain]
      exact hop.far
  funext d id l v
  refine propext ⟨hforward h hrule, hforward h.symm ?_⟩
  rw [hrule, h.canRead]

theorem crosses (h : LooksLike user s t) {rule : HopRule} (hrule : rule.canRead = s.CanRead user)
    (directions : List HopDirection) : s.Crosses rule directions = t.Crosses rule directions := by
  unfold Crosses
  rw [h.hop hrule]

end LooksLike

end Store

end VersionedGraph
