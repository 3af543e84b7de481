import VersionedGraph.Store.Chain
import VersionedGraph.Store.Criterion

/-!
# Neighbors

A hop crosses a latest link from the entity at one end to the latest version of the entity at the
other. The link may name any version at either end: at the near end every version of the chain
counts as the entity itself, and from the version named at the far end the latest one is looked up
by going forward. Neighbors come in the order in which their links were created.

A hop is checked in two steps, its link and its entity, and which of them comes first does not
change which hops an answer lists. It does change which rows a filter is evaluated on, and so
whether one that cannot be evaluated does harm: a link that comes first is checked even if it leads
to no latest entity, and what comes second only if the first step succeeds. The side that is asked
clearly more comes first (`HopQuery.first`).
-/

namespace VersionedGraph

/-- The two ways of crossing a link. -/
inductive HopDirection where
  | outbound
  | inbound
  deriving DecidableEq, Inhabited

namespace HopDirection

def name : HopDirection → String
  | outbound => "outbound"
  | inbound => "inbound"

def ofName? (s : String) : Option HopDirection :=
  [outbound, inbound].find? fun d => d.name = s

theorem ofName?_name (d : HopDirection) : ofName? d.name = some d := by
  cases d <;> rfl

/-- The hop direction given by a value, which must be the name of one. A value with parts is not
even compared with names. -/
def ofJson (value : Json) : Except Fault HopDirection := do
  let _ ← (Atom.ofJson value).mapError .misuse
  match value.text?.bind ofName? with
  | some d => return d
  | none => throw (.hopDirection value)

def near : HopDirection → Endpoints String → String
  | outbound, ends => ends.source
  | inbound, ends => ends.target

def far : HopDirection → Endpoints String → String
  | outbound, ends => ends.target
  | inbound, ends => ends.source

end HopDirection

namespace Condition

mutual

/-- The number of separate conditions that a condition comes to: the parts of a conjunction count
one by one. -/
def conjuncts : Condition → Nat
  | leaf _ _ => 1
  | all children => childConjuncts children
  | any _ => 1

def childConjuncts : List Condition → Nat
  | [] => 0
  | c :: rest => conjuncts c + childConjuncts rest

end

theorem childConjuncts_eq_foldr (cs : List Condition) :
    childConjuncts cs = (cs.map conjuncts).foldr (· + ·) 0 := by
  induction cs with
  | nil => rfl
  | cons c cs ih => simp [childConjuncts, ih]

end Condition

/-- What links and entities of a hop must meet. -/
structure HopQuery where
  includeDeleted : Bool := false
  /-- The types that links must be of one of, all types if empty. -/
  linkTypes : List Json := []
  /-- The types that entities must be of one of, all types if empty. -/
  entityTypes : List Json := []
  /-- What the access lists of both must pass. -/
  access : AclClause Int := .deferred
  filters : List CompiledFilter := []

namespace HopQuery

def typesOf (q : HopQuery) : Kind → List Json
  | .link => q.linkTypes
  | .entity => q.entityTypes

def filtersOn (q : HopQuery) (k : Kind) : List CompiledFilter :=
  q.filters.filter fun c => c.rowName = k.rowName && !c.isEmpty

/-- What the rows of a kind must meet, their columns before their properties. -/
def criteria (q : HopQuery) (k : Kind) : List (Criterion k) :=
  (if q.includeDeleted then [] else [.undeleted]) ++
    (if (q.typesOf k).isEmpty then [] else [.typeAmong (q.typesOf k)]) ++
    [.access q.access] ++ (q.filtersOn k).map .properties

def weight {k : Kind} : Criterion k → Nat
  | .properties filter => (filter.condition?.map Condition.conjuncts).getD 0
  | .access clause => if clause.isInline then 1 else 0
  | _ => 1

/-- How many separate things are asked of the rows of a kind. Of entities it is asked besides that
they are latest versions. -/
def demands (q : HopQuery) (k : Kind) : Nat :=
  ((q.criteria k).map weight).foldr (· + ·) (if k = .entity then 1 else 0)

/-- The numbers of demands from which on rows of a kind are expected to be fewer. -/
def demandSteps : List Nat := [2, 5, 9, 15, 22, 40]

/-- How few the rows are expected to be of which some number of things are asked. -/
def rarity (demands : Nat) : Nat :=
  (demandSteps.filter (· ≤ demands)).length

/-- The kind of rows that are checked first: entities if they are expected to be fewer, else
links. -/
def first (q : HopQuery) : Kind :=
  if rarity (q.demands .link) < rarity (q.demands .entity) then .entity else .link

end HopQuery

/-- A request for hops. Types that hold nothing stand for all types. -/
structure HopRequest where
  includeDeleted : Bool := false
  linkTypes : Json := .null
  entityTypes : Json := .null
  access : AclClause Int := .deferred
  filters : List CompiledFilter := []

namespace HopRequest

def query (r : HopRequest) : Except Misuse HopQuery := do
  let linkTypes ← r.linkTypes.givenItems
  let entityTypes ← r.entityTypes.givenItems
  return ⟨r.includeDeleted, linkTypes, entityTypes, r.access, r.filters⟩

end HopRequest

/-- A link that leads to an entity, as stored. -/
structure NeighborRow where
  link : Row .link
  entity : Row .entity

/-- A link that leads to an entity. -/
structure Neighbor where
  link : Record .link
  entity : Record .entity

namespace NeighborRow

/-- Whether a hop comes no later in an answer: older links come first, and of equally old ones that
with the lesser id. -/
def olderFirst (a b : NeighborRow) : Bool :=
  match a.link.createdAt.compare b.link.createdAt with
  | .lt => true
  | .gt => false
  | .eq => a.link.id ≤ b.link.id

def decode (n : NeighborRow) : Except Fault Neighbor := do
  return ⟨← n.link.decode, ← n.entity.decode⟩

end NeighborRow

namespace Store

def attachedLinks (s : Store) (d : HopDirection) (id : String) : List (Row .link) :=
  let origin := s.backwardIds .entity id
  s.links.filter fun l => l.isLatest && origin.contains (d.near l.ends)

/-- The latest entities of the chain that the far end of a link names. -/
def farEntities (s : Store) (d : HopDirection) (l : Row .link) : List (Row .entity) :=
  ((s.forwardIds .entity (d.far l.ends)).filterMap (s.row? .entity)).filter (·.isLatest)

/-- The latest links that are attached to any version of an entity, with the latest entities at
their far ends. -/
def hopsFrom (s : Store) (d : HopDirection) (id : String) : List NeighborRow :=
  (s.attachedLinks d id).flatMap fun l => (s.farEntities d l).map fun e => ⟨l, e⟩

/-- The latest entities across a link such that both meet a query, checked in the order that the
query calls for. -/
def entitiesAcross (s : Store) (d : HopDirection) (q : HopQuery) (l : Row .link) :
    Except Fault (List (Row .entity)) := do
  let linkMeets := Criterion.allHold l.listed (q.criteria .link)
  let entityMeets (e : Row .entity) := Criterion.allHold e.listed (q.criteria .entity)
  let bothMeet (e : Row .entity) := do if ← entityMeets e then linkMeets else return false
  if q.first = .entity then selectM bothMeet (s.farEntities d l)
  else if ← linkMeets then selectM entityMeets (s.farEntities d l)
  else return []

/-- As long as no check fails, the order of the checks does not matter. -/
theorem entitiesAcross_eq_filter (s : Store) (d : HopDirection) {q : HopQuery} {l : Row .link}
    {linkMeets : Bool} {entityMeets : Row .entity → Bool}
    (hlink : Criterion.allHold l.listed (q.criteria .link) = .ok linkMeets)
    (hentity : ∀ e ∈ s.farEntities d l,
      Criterion.allHold e.listed (q.criteria .entity) = .ok (entityMeets e)) :
    s.entitiesAcross d q l =
      .ok ((s.farEntities d l).filter fun e => linkMeets && entityMeets e) := by
  unfold entitiesAcross
  split
  · refine selectM_eq_filter fun e he => ?_
    simp only [hentity e he, hlink]
    cases entityMeets e <;> cases linkMeets <;> rfl
  · simp only [hlink]
    cases linkMeets with
    | true => exact selectM_eq_filter hentity
    | false => simp [bind, Except.bind, pure, Except.pure]

def selectAcross (s : Store) (d : HopDirection) (q : HopQuery) (l : Row .link) :
    Except Fault (List NeighborRow) := do
  return (← s.entitiesAcross d q l).map fun e => ⟨l, e⟩

/-- The hops from an entity that meet a query, in the order of their links. -/
def selectHops (s : Store) (d : HopDirection) (id : String) (q : HopQuery) :
    Except Fault (List NeighborRow) := do
  let hops ← (s.attachedLinks d id).mapM (s.selectAcross d q)
  return hops.flatten.mergeSort NeighborRow.olderFirst

/-- The neighbors of the entity of an id that meet a request, in the order of their links. -/
def neighbors (s : Store) (d : HopDirection) (id : Json) (r : HopRequest) :
    Except Fault (List Neighbor) := do
  let q ← r.query.mapError .misuse
  q.filters.forM (CompiledFilter.checkRowName [Kind.link.rowName, Kind.entity.rowName])
  let bound := q.filters.flatMap CompiledFilter.parameters
  Json.handOver (id :: q.linkTypes ++ q.entityTypes ++ bound.map Scalar.toJson)
  match id.columnText? with
  | none => return []
  | some id => (← s.selectHops d id q).mapM NeighborRow.decode

end Store

end VersionedGraph
