import Mathlib
import VersionedGraph.Proofs.Spoiling

/-!
# Traversals and their reverses

A hop from an entity that passes the rule itself is a hop back when links are crossed the other way:
link and entities are the same, and each end stands for any version of its entity either way. So
walks between two such entities can be gone back, and each of the two is listed around the other
one, at the same depth (`Store.Reachable.traverse_reverses`).
-/

namespace VersionedGraph

namespace HopDirection

def reverse : HopDirection → HopDirection
  | outbound => inbound
  | inbound => outbound

@[simp] theorem near_reverse (d : HopDirection) (ends : Endpoints String) :
    d.reverse.near ends = d.far ends := by
  cases d <;> rfl

@[simp] theorem far_reverse (d : HopDirection) (ends : Endpoints String) :
    d.reverse.far ends = d.near ends := by
  cases d <;> rfl

end HopDirection

namespace Direction

def reverse : Direction → Direction
  | outbound => inbound
  | inbound => outbound
  | both => both

@[simp] theorem reverse_reverse (direction : Direction) :
    direction.reverse.reverse = direction := by
  cases direction <;> rfl

theorem reverse_mem_hops {direction : Direction} {d : HopDirection} (h : d ∈ direction.hops) :
    d.reverse ∈ direction.reverse.hops := by
  cases direction <;> cases d <;> simp_all [hops, reverse, HopDirection.reverse]

end Direction

namespace Store

variable {s : Store} {rule : HopRule} {direction : Direction} {u v : Row .entity}

/-- A latest entity that passes a rule, as hops lead to. -/
structure Passes (s : Store) (rule : HopRule) (u : Row .entity) : Prop where
  entity : u ∈ s.rows .entity
  latest : u.isLatest = true
  admits : rule.Admits u

theorem Hop.reverse {d : HopDirection} {l : Row .link} (hu : s.Passes rule u)
    (hop : s.Hop rule d u.id l v) : s.Hop rule d.reverse v.id l u where
  link := hop.link
  linkLatest := hop.linkLatest
  near := by
    rw [HopDirection.near_reverse]
    exact hop.far
  entity := hu.entity
  entityLatest := hu.latest
  far := by
    rw [HopDirection.far_reverse]
    exact hop.near
  admitsLink := hop.admitsLink
  admitsEntity := hu.admits

theorem exists_walk_back (hu : s.Passes rule u) {walk : List NeighborRow}
    (h : Walk (s.Crosses rule direction.hops) u walk v) :
    ∃ back, Walk (s.Crosses rule direction.reverse.hops) v back u ∧ back.length = walk.length := by
  refine (h.exists_reverse (s.Passes rule) ?_ hu).2
  rintro u n _ hu ⟨rfl, d, hd, hop⟩
  exact ⟨⟨hop.entity, hop.entityLatest, hop.admitsEntity⟩, ⟨n.link, u⟩, rfl, d.reverse,
    Direction.reverse_mem_hops hd, hop.reverse hu⟩

/-- There and back the shortest walks have the same number of hops. -/
theorem exists_isShortest_back (hu : s.Passes rule u) (hv : s.Passes rule v)
    {walk : List NeighborRow} (h : Walk.IsShortest (s.Crosses rule direction.hops) u walk v) :
    ∃ back, Walk.IsShortest (s.Crosses rule direction.reverse.hops) v back u ∧
      back.length = walk.length := by
  obtain ⟨back, hback, hlength⟩ := exists_walk_back hu h.walk
  refine ⟨back, ⟨hback, fun other hother => ?_⟩, hlength⟩
  obtain ⟨forth, hforth, hlength'⟩ := exists_walk_back hv hother
  rw [Direction.reverse_reverse] at hforth
  rw [hlength, ← hlength']
  exact h.least forth hforth

/-- Of two entities that pass the rule of a traversal, a traversal from the first lists the second
just where one from the second that crosses links the other way lists the first, at the same depth.
If one of them fails, the other one fails with the same fault, unless what one of the two comes
across is spoiled. -/
theorem Reachable.traverse_reverses (h : s.Reachable) (settings : SearchSettings)
    (r : TraversalRequest) (direction : Direction) {id id' : Json}
    (hu : s.Accepts r.user r.includeDeleted id u) (hv : s.Accepts r.user r.includeDeleted id' v)
    (hadmits : (r.rule s).Admits u) (hadmits' : (r.rule s).Admits v) :
    Alike (r.Spoiled s settings u direction) (r.Spoiled s settings v direction.reverse)
      (fun t t' => ∀ n, (∃ x ∈ t.visits, x.entity.id = v.id ∧ x.depth = n) ↔
        ∃ x ∈ t'.visits, x.entity.id = u.id ∧ x.depth = n)
      (s.traverse settings { r with start := id, direction := .str direction.name })
      (s.traverse settings { r with start := id', direction := .str direction.reverse.name }) := by
  have hs := h.versioned
  have hpasses : s.Passes (r.rule s) u := ⟨hu.entity, hu.latest, hadmits⟩
  have hpasses' : s.Passes (r.rule s) v := ⟨hv.entity, hv.latest, hadmits'⟩
  rw [traverse_eq_bind (r := { r with start := id, direction := .str direction.name }) (hs .entity)
      hu (Direction.given?_name direction),
    traverse_eq_bind (r := { r with start := id', direction := .str direction.reverse.name })
      (hs .entity) hv (Direction.given?_name direction.reverse)]
  refine Alike.bind_same fun depth hdepth => ?_
  refine Alike.bind_same fun request hrequest => ?_
  cases hdecode : u.decode with
  | error f => exact .left (.inl hdecode) _
  | ok record =>
    cases hdecode' : v.decode with
    | error f => exact .right _ (.inl hdecode')
    | ok record' =>
      rw [ok_bind, ok_bind]
      refine Alike.bind_same fun access haccess => ?_
      have hrule : request.rule access.Lets = r.rule s := rule_of_request hrequest haccess
      have hsearches := searches_alike depth r.allPaths hs hs hrule hrule
        hu.entity hu.latest hdecode hv.entity hv.latest hdecode' direction.hops_ne_nil
        direction.reverse.hops_ne_nil
      have hspoiled {start : Row .entity} {direction : Direction} (f : Fault)
          (hf : s.SpoiledFrom request.filters (r.rule s) direction.hops start depth f) :
          r.Spoiled s settings start direction f := .inr ⟨depth, request, hdepth, hrequest, hf⟩
      refine (hsearches.imp hspoiled hspoiled).bind fun search search' _ _ hfinished => .ok ?_
      intro n
      have hforth := at_row_iff (n := n) (hs .entity) hu.entity hu.latest hdecode hfinished.1
        hv.entity
      have hback := at_row_iff (n := n) (hs .entity) hv.entity hv.latest hdecode' hfinished.2
        hu.entity
      refine hforth.trans (Iff.trans (and_congr_right fun _ => ?_) hback.symm)
      constructor
      · rintro ⟨walk, hwalk, rfl⟩
        exact exists_isShortest_back hpasses hpasses' hwalk
      · rintro ⟨walk, hwalk, rfl⟩
        have hforth := exists_isShortest_back hpasses' hpasses hwalk
        rw [Direction.reverse_reverse] at hforth
        exact hforth

/-- From the later version of the cited note the links lead back to the one that cites it. -/
theorem traversal_back_across_stale_citation :
    ∃ t t', staleCitation.traverse {} { start := .str "a" } = .ok t ∧
      staleCitation.traverse {} { start := .str "b", direction := .str "inbound" } = .ok t' ∧
      (∀ n, (∃ x ∈ t.visits, x.entity.id = "c" ∧ x.depth = n) ↔
        ∃ x ∈ t'.visits, x.entity.id = "a" ∧ x.depth = n) ∧
      t'.visits.map (fun x => (x.entity.id, x.depth)) = [("c", 0), ("a", 1)] := by
  let request : TraversalRequest := { start := .str "a" }
  have hciting : staleCitation.Accepts .null false (.str "a") staleCitation.citing :=
    ⟨⟨"a", rfl, .refl _⟩, staleCitation.citing_mem, rfl, .inr rfl, rfl⟩
  have hrevised : staleCitation.Accepts .null false (.str "b") staleCitation.revised :=
    ⟨⟨"b", rfl, staleCitation.sameChain⟩, staleCitation.revised_mem, rfl, .inr rfl, rfl⟩
  have hadmits (row : Row .entity) (hdeleted : row.isDeleted = false) (hacl : row.acl = none) :
      (request.rule staleCitation).Admits row := by
    refine ⟨.inr hdeleted, ⟨[], rfl, .inl rfl⟩, nofun, ?_⟩
    rw [hacl]
    rfl
  have halike := Reachable.traverse_reverses staleCitation.reachable {} request .outbound hciting
    hrevised (hadmits _ rfl rfl) (hadmits _ rfl rfl)
  have hforth : (staleCitation.traverse {}
      { request with direction := .str Direction.outbound.name }).map
        (fun t => t.visits.map fun x => (x.entity.id, x.depth)) = .ok [("a", 0), ("c", 1)] := by cbv
  have hback : (staleCitation.traverse {}
      { request with start := .str "b", direction := .str Direction.outbound.reverse.name }).map
        (fun t => t.visits.map fun x => (x.entity.id, x.depth)) = .ok [("c", 0), ("a", 1)] := by cbv
  obtain ⟨t, t', ht, ht', hlisted, _, hvisits⟩ := halike.exists_of_map hforth hback
  exact ⟨t, t', ht, ht', hlisted, hvisits⟩

/-- A note cites two others, and each of the three has a number, which is infinite for the last. -/
def infiniteCitation : Store where
  entities :=
    [⟨"a", "note", (), "\x7b\"x\": 1\x7d", .integer 1, none, .integer 1, none, false, true, none⟩,
      ⟨"b", "note", (), "\x7b\"x\": 1\x7d", .integer 1, none, .integer 2, none, false, true, none⟩,
      ⟨"c", "note", (), "\x7b\"x\": Infinity\x7d", .integer 1, none, .integer 3, none, false, true,
        none⟩]
  links :=
    [⟨"l", "cites", ⟨"a", "b"⟩, "{}", .integer 1, none, .integer 4, none, false, true, none⟩,
      ⟨"m", "cites", ⟨"a", "c"⟩, "{}", .integer 1, none, .integer 5, none, false, true, none⟩]

theorem reachable_infiniteCitation : infiniteCitation.Reachable := by
  let note (x : Json) : Operation :=
    .create (k := .entity) { typeId := .str "note", ends := (), properties := .obj [("x", x)] }
  let cites (target : String) : Operation :=
    .create (k := .link) { typeId := .str "cites", ends := ⟨.str "a", .str target⟩ }
  refine ⟨[(note (.int 1), ⟨"a", 1⟩), (note (.int 1), ⟨"b", 2⟩),
    (note (.float (.infinity false)), ⟨"c", 3⟩), (cites "b", ⟨"l", 4⟩), (cites "c", ⟨"m", 5⟩)], ?_⟩
  decide +kernel

/-- From a note the links lead back to the one that cites it, but a traversal from there cannot
filter by the infinite number of the other note that it cites. -/
theorem no_traversal_forth_beside_infinite_number :
    let isOne : FilterExpr := .leaf ⟨.str "x", .eq, .int 1⟩
    let forth : TraversalRequest := { start := .str "a", entityFilter := some isOne }
    let back := { forth with start := .str "b", direction := .str "inbound" }
    infiniteCitation.Reachable ∧
    (∃ u v, infiniteCitation.Accepts .null false (.str "a") u ∧
      infiniteCitation.Accepts .null false (.str "b") v ∧
      (forth.rule infiniteCitation).Admits u ∧ (forth.rule infiniteCitation).Admits v) ∧
    ¬((∃ t x, infiniteCitation.traverse {} forth = .ok t ∧ x ∈ t.visits ∧ x.entity.id = "b" ∧
        x.depth = 1) ↔
      ∃ t x, infiniteCitation.traverse {} back = .ok t ∧ x ∈ t.visits ∧ x.entity.id = "a" ∧
        x.depth = 1) := by
  intro isOne forth back
  let one : CompiledFilter :=
    ⟨"e", some (.leaf [.property "x"] (.compare .real .equal (.integer 1)))⟩
  have hone : (one.holdsOn "\x7b\"x\": 1\x7d").toOption = some true := by decide +kernel
  have hadmits (row : Row .entity) (hdeleted : row.isDeleted = false) (hacl : row.acl = none)
      (hproperties : row.properties = "\x7b\"x\": 1\x7d") :
      (forth.rule infiniteCitation).Admits row := by
    refine ⟨.inr hdeleted, ⟨[], rfl, .inl rfl⟩, ?_, ?_⟩
    · intro f hf
      cases hf
      refine ⟨one, rfl, ?_⟩
      rw [hproperties]
      exact toOption_eq_some_iff.1 hone
    · rw [hacl]
      rfl
  have hforth : (infiniteCitation.traverse {} forth).toBool = false := by decide +kernel
  have hback : (infiniteCitation.traverse {} back).toOption.map
      (fun t => t.visits.map fun x => (x.entity.id, x.depth)) = some [("b", 0), ("a", 1)] := by
    decide +kernel
  obtain ⟨t, ht, hvisits⟩ := Option.map_eq_some_iff.1 hback
  have hlisted : ("a", 1) ∈ t.visits.map fun x => (x.entity.id, x.depth) := by simp [hvisits]
  obtain ⟨x, hx, hreached⟩ := List.mem_map.1 hlisted
  obtain ⟨hid, hdepth⟩ := Prod.mk.inj hreached
  refine ⟨reachable_infiniteCitation,
    ⟨infiniteCitation.entities[0], infiniteCitation.entities[1],
      ⟨⟨"a", rfl, .refl _⟩, List.getElem_mem _, rfl, .inr rfl, rfl⟩,
      ⟨⟨"b", rfl, .refl _⟩, List.getElem_mem _, rfl, .inr rfl, rfl⟩,
      hadmits _ rfl rfl rfl, hadmits _ rfl rfl rfl⟩, fun hiff => ?_⟩
  obtain ⟨t', _, ht', _⟩ := hiff.2 ⟨t, x, toOption_eq_some_iff.1 ht, hx, hid, hdepth⟩
  rw [ht'] at hforth
  cases hforth

end Store

end VersionedGraph
