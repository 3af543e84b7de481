import VersionedGraph.Proofs.Agreement
import VersionedGraph.Proofs.Resolution
import VersionedGraph.Proofs.Widening

/-!
# How searches are refused

A search asks for the latest row that an id stands for before it does anything else, once for each
of its ends, and there are few ways in which this comes out (`Store.Refusal`): the row is missing
or deleted, access to it is denied, or the search goes on from it. Older versions have no say in it.
What else a search may fail with is never reported as a missing resource, a denied access or a path
that does not exist: stored properties that are no JSON, a caller who acts as too many principals,
parameters that cannot be handed over, and filters that cannot be evaluated (`Fault.IsMishap`).
-/

namespace VersionedGraph

/-- A computation fails with a fault of some kind. -/
def FailsAs {α : Type} (x : Except Fault α) (kind : FaultKind) : Prop :=
  ∃ f, x = .error f ∧ f.kind = kind

/-- Where everything but a refusal is a fault of other kinds, it fails as the refusals say. -/
theorem failsAs_iff_of_refused {α : Type} {x : Except Fault α} {kind : FaultKind}
    {Refused : Fault → Prop} (hrefused : ∀ f, Refused f → x = .error f)
    (hotherwise : ∀ f, x = .error f → Refused f ∨ f.kind ≠ kind) :
    FailsAs x kind ↔ ∃ f, Refused f ∧ f.kind = kind := by
  constructor
  · rintro ⟨f, hf, hkind⟩
    exact ⟨f, (hotherwise f hf).resolve_right (not_not_intro hkind), hkind⟩
  · rintro ⟨f, hrefusal, hkind⟩
    exact ⟨f, hrefused f hrefusal, hkind⟩

/-- A fault is none of those that are reported to callers. -/
def Fault.IsMishap (f : Fault) : Prop :=
  f.kind ∉ [.validation, .notFound, .accessDenied, .noPath]

namespace Fault

instance (f : Fault) : Decidable f.IsMishap :=
  inferInstanceAs (Decidable (_ ∉ _))

theorem isMishap_unreadable (e : Json.ReadError) : (unreadable e).IsMishap := by
  cases e with
  | located => exact of_decide_eq_true rfl
  | limit excess => cases excess <;> exact of_decide_eq_true rfl

theorem isMishap_misuse (e : Misuse) : (misuse e).IsMishap := by
  cases e <;> exact of_decide_eq_true rfl

theorem isMishap_unbindable (e : BindFault) : (unbindable e).IsMishap := by
  cases e <;> exact of_decide_eq_true rfl

theorem isMishap_evaluation (e : EvalFault) : (evaluation e).IsMishap :=
  of_decide_eq_true rfl

theorem IsMishap.kind_ne {f : Fault} (h : f.IsMishap) {kind : FaultKind}
    (hkind : kind ∈ [.validation, .notFound, .accessDenied, .noPath]) : f.kind ≠ kind := by
  rintro rfl
  exact h hkind

end Fault

theorem Version.isMishap_of_decode {ι ε : Type} {row : Version ι ε String} {f : Fault}
    (h : row.decode = .error f) : f.IsMishap := by
  obtain ⟨e, rfl⟩ := Version.exists_of_decode_eq_error h
  exact Fault.isMishap_unreadable e

theorem Json.isMishap_of_handOver {values : List Json} {place : Nat} {f : Fault}
    (h : handOver values place = .error f) : f.IsMishap := by
  unfold handOver at h
  split at h
  · cases h
    exact Fault.isMishap_unbindable _
  · cases h

theorem Json.isMishap_of_lookupText {id : Json} {f : Fault} (h : id.lookupText = .error f) :
    f.IsMishap := by
  rcases bind_eq_error_iff.1 h with h | ⟨_, _, h⟩
  · exact isMishap_of_handOver h
  · cases h

namespace Store

/-- A row is the latest version of the chain of an id. -/
structure Resolves (s : Store) (id : Json) (row : Row .entity) : Prop where
  named : ∃ text, id.lookupText = .ok (some text) ∧ s.SameChain .entity text row.id
  entity : row ∈ s.rows .entity
  latest : row.isLatest = true

/-- What an id stands for can be read as far as its properties go. -/
def Legible (s : Store) (id : Json) : Prop :=
  ∀ row, s.Resolves id row → ∃ record, row.decode = .ok record

/-- An id is that of no row, or what it stands for is deleted and that is not included. -/
def Missing (s : Store) (includeDeleted : Bool) (id : Json) : Prop :=
  (∃ text?, id.lookupText = .ok text? ∧ ∀ row ∈ s.rows .entity, text? ≠ some row.id) ∨
    ∃ row, s.Resolves id row ∧ row.isDeleted = true ∧ includeDeleted = false

/-- What an id stands for is not missing. -/
structure Stands (s : Store) (includeDeleted : Bool) (id : Json) (row : Row .entity) : Prop where
  resolves : s.Resolves id row
  shown : includeDeleted = true ∨ row.isDeleted = false

/-- What an id stands for has an access list that does not let a caller read. -/
def Denied (s : Store) (caller : Option String) (includeDeleted : Bool) (id : Json) : Prop :=
  ∃ row acl, s.Stands includeDeleted id row ∧ row.acl = some acl ∧ ¬s.MayRead caller acl

/-- How a caller who asks for what an id stands for is refused. -/
inductive Refusal (s : Store) (caller : Option String) (includeDeleted : Bool) (id : Json) :
    Fault → Prop where
  | missing (h : s.Missing includeDeleted id) (legible : s.Legible id) :
    Refusal s caller includeDeleted id (.notFound .entity id)
  | denied (h : s.Denied caller includeDeleted id) (legible : s.Legible id)
    (served : s.Serves caller) :
    Refusal s caller includeDeleted id (.accessDenied (.ofText? caller) .read id)
  | illegible {row : Row .entity} {f : Fault} (h : s.Resolves id row)
    (fails : row.decode = .error f) : Refusal s caller includeDeleted id f
  | crowded {row : Row .entity} (h : s.Stands includeDeleted id row) (guarded : row.acl ≠ none)
    (legible : s.Legible id) (crowded : ¬s.Serves caller) :
    Refusal s caller includeDeleted id .tooManyPrincipals
  | unbindable {f : Fault} (fails : id.lookupText = .error f) :
    Refusal s caller includeDeleted id f

variable {s : Store} {caller : Option String} {includeDeleted : Bool} {id : Json}
  {row : Row .entity} {f : Fault}

theorem Resolves.exists_latest? (h : s.Versioned .entity) (hrow : s.Resolves id row) :
    ∃ text, id.lookupText = .ok (some text) ∧ s.latest? .entity text = some row := by
  obtain ⟨text, htext, hchain⟩ := hrow.named
  exact ⟨text, htext, h.latest?_eq_some_iff.2 ⟨hrow.entity, hrow.latest, hchain⟩⟩

theorem Resolves.eq (h : s.Versioned .entity) {row' : Row .entity} (hrow : s.Resolves id row)
    (hrow' : s.Resolves id row') : row = row' := by
  obtain ⟨text, htext, hlatest⟩ := hrow.exists_latest? h
  obtain ⟨text', htext', hlatest'⟩ := hrow'.exists_latest? h
  rw [htext] at htext'
  cases htext'
  exact Option.some.inj (hlatest.symm.trans hlatest')

theorem Resolves.legible (h : s.Versioned .entity) (hresolves : s.Resolves id row)
    {record : Record .entity} (hdecode : row.decode = .ok record) : s.Legible id := by
  intro row' hrow'
  rw [hrow'.eq h hresolves]
  exact ⟨record, hdecode⟩

theorem Stands.readable_eq_bind (h : s.Versioned .entity)
    (hstands : s.Stands includeDeleted id row) (user : Json) :
    s.readable user includeDeleted id = row.decode >>= fun record =>
      s.checkAccess user (.ofInt? row.acl) id .read >>= fun _ => .ok record :=
  readable_of_latest h hstands.resolves.named hstands.resolves.entity hstands.resolves.latest
    hstands.shown

theorem Missing.readable_eq_error (h : s.Versioned .entity) (hmissing : s.Missing includeDeleted id)
    (hlegible : s.Legible id) (user : Json) :
    s.readable user includeDeleted id = .error (.notFound .entity id) := by
  unfold Store.readable
  rcases hmissing with ⟨text?, htext, hnone⟩ | ⟨row, hrow, hdeleted, rfl⟩
  · have hlatest : text?.bind (s.latest? .entity) = none := by
      cases text? with
      | none => rfl
      | some text =>
        refine h.latest?_eq_none_iff.2 fun row hrow heq => hnone row hrow ?_
        rw [heq]
    unfold getLatest
    rw [htext, ok_bind, hlatest]
    rfl
  · obtain ⟨record, hdecode⟩ := hlegible row hrow
    obtain ⟨text, htext, hlatest⟩ := hrow.exists_latest? h
    rw [getLatest_of_latest? htext hlatest, hdecode]
    obtain ⟨properties, _, rfl⟩ := Version.decode_eq_ok_iff.1 hdecode
    change (if (row.isDeleted && !false) = true then _ else _) = _
    rw [hdeleted]
    rfl

/-- Nobody who is served but a reader gets by an access list. -/
theorem checkAccess_of_not_mayRead (hserves : s.Serves caller) {acl : Int}
    (hdenied : ¬s.MayRead caller acl) (id : Json) :
    s.checkAccess (.ofText? caller) (.int acl) id .read =
      .error (.accessDenied (.ofText? caller) .read id) := by
  obtain ⟨ids, hids, _⟩ := exists_accessibleIds_eq_ok hserves
  obtain ⟨allowed, hallowed, _⟩ := exists_hasPermission_eq_ok hids (.inl rfl) (some acl)
  have hnot : allowed = false := by
    rw [Bool.eq_false_iff]
    rintro rfl
    rcases (canRead_iff_mayRead hserves).1 hallowed with hpublic | ⟨_, hacl, hmay⟩
    · cases hpublic
    · cases hacl
      exact hdenied hmay
  unfold checkAccess
  change s.hasPermission (.ofText? caller) (.int acl) .read = .ok allowed at hallowed
  rw [hallowed, hnot]
  rfl

theorem checkAccess_of_not_serves (hserves : ¬s.Serves caller) (acl : Int) (id : Json) :
    s.checkAccess (.ofText? caller) (.int acl) id .read = .error .tooManyPrincipals := by
  have hrefused := hasPermission_of_not_serves hserves (some acl)
  rw [if_neg nofun] at hrefused
  unfold checkAccess
  change s.hasPermission (.ofText? caller) (.int acl) .read = _ at hrefused
  rw [hrefused]
  rfl

namespace Refusal

/-- Who is refused gets nothing to read. -/
theorem readable_eq_error (h : s.Versioned .entity)
    (hrefusal : s.Refusal caller includeDeleted id f) :
    s.readable (.ofText? caller) includeDeleted id = .error f := by
  cases hrefusal with
  | missing hmissing hlegible => exact hmissing.readable_eq_error h hlegible _
  | denied hdenied hlegible hserves =>
    obtain ⟨row, acl, hstands, hacl, hnot⟩ := hdenied
    obtain ⟨record, hdecode⟩ := hlegible row hstands.resolves
    rw [hstands.readable_eq_bind h, hdecode, ok_bind, hacl, Json.ofInt?,
      checkAccess_of_not_mayRead hserves hnot]
    rfl
  | @illegible row _ hresolves hfails =>
    obtain ⟨text, htext, hlatest⟩ := hresolves.exists_latest? h
    unfold Store.readable
    rw [getLatest_of_latest? htext hlatest, hfails]
    rfl
  | @crowded row hstands hguarded hlegible hcrowded =>
    obtain ⟨record, hdecode⟩ := hlegible row hstands.resolves
    obtain ⟨acl, hacl⟩ := Option.ne_none_iff_exists'.1 hguarded
    rw [hstands.readable_eq_bind h, hdecode, ok_bind, hacl, Json.ofInt?,
      checkAccess_of_not_serves hcrowded]
    rfl
  | unbindable hfails =>
    unfold Store.readable getLatest
    rw [hfails]
    rfl

end Refusal

/-- Whoever is not refused gets what an id stands for. -/
theorem refusal_or_accepts (h : s.Versioned .entity) (caller : Option String)
    (includeDeleted : Bool) (id : Json) :
    (∃ f, s.Refusal caller includeDeleted id f) ∨
      ∃ row record, s.Accepts (.ofText? caller) includeDeleted id row ∧
        row.decode = .ok record := by
  cases htext : id.lookupText with
  | error f => exact .inl ⟨f, .unbindable htext⟩
  | ok text? =>
    by_cases hsome : ∃ row ∈ s.rows .entity, text? = some row.id
    · obtain ⟨version, hversion, rfl⟩ := hsome
      obtain ⟨row, hrow, hlatest, hway⟩ := h.exists_latest hversion
      have hresolves : s.Resolves id row :=
        ⟨⟨version.id, htext, sameChain_of_reflTransGen hway⟩, hrow, hlatest⟩
      cases hdecode : row.decode with
      | error f => exact .inl ⟨f, .illegible hresolves hdecode⟩
      | ok record =>
        have hlegible := hresolves.legible h hdecode
        by_cases hshown : includeDeleted = true ∨ row.isDeleted = false
        · have hstands : s.Stands includeDeleted id row := ⟨hresolves, hshown⟩
          have haccepts (hread : s.CanRead (.ofText? caller) row.acl) :
              s.Accepts (.ofText? caller) includeDeleted id row :=
            ⟨hresolves.named, hrow, hlatest, hshown, hread⟩
          cases hacl : row.acl with
          | none => exact .inr ⟨row, record, haccepts (by rw [hacl]; cases caller <;> rfl), hdecode⟩
          | some acl =>
            have hguarded : row.acl ≠ none := by
              rw [hacl]
              exact Option.some_ne_none acl
            by_cases hserves : s.Serves caller
            · by_cases hmay : s.MayRead caller acl
              · exact .inr ⟨row, record,
                  haccepts ((canRead_iff_mayRead hserves).2 (.inr ⟨acl, hacl, hmay⟩)), hdecode⟩
              · exact .inl ⟨_, .denied ⟨row, acl, hstands, hacl, hmay⟩ hlegible hserves⟩
            · exact .inl ⟨_, .crowded hstands hguarded hlegible hserves⟩
        · obtain ⟨hinclude, hdeleted⟩ := not_or.1 hshown
          rw [Bool.not_eq_true] at hinclude
          rw [Bool.not_eq_false] at hdeleted
          exact .inl ⟨_, .missing (.inr ⟨row, hresolves, hdeleted, hinclude⟩) hlegible⟩
    · push Not at hsome
      refine .inl ⟨_, .missing (.inl ⟨text?, htext, hsome⟩) fun row hrow => ?_⟩
      obtain ⟨text, htext', hlatest⟩ := hrow.exists_latest? h
      rw [htext] at htext'
      cases htext'
      rw [h.latest?_eq_none_iff.2 fun row hrow heq => hsome row hrow (congrArg some heq.symm)]
        at hlatest
      cases hlatest

/-- Nobody gets anything to read who is refused, and the other way round. -/
theorem readable_eq_error_iff (h : s.Versioned .entity) :
    s.readable (.ofText? caller) includeDeleted id = .error f ↔
      s.Refusal caller includeDeleted id f := by
  refine ⟨fun hf => ?_, fun hrefusal => hrefusal.readable_eq_error h⟩
  rcases s.refusal_or_accepts h caller includeDeleted id with
    ⟨f', hrefusal⟩ | ⟨row, record, haccepts, hdecode⟩
  · have hf' := hrefusal.readable_eq_error h
    rw [hf] at hf'
    cases hf'
    exact hrefusal
  · rw [haccepts.readable h, hdecode] at hf
    cases hf

theorem Refusal.kind_cases (hrefusal : s.Refusal caller includeDeleted id f) :
    (f.kind = .notFound ∧ s.Missing includeDeleted id ∧ s.Legible id) ∨
    (f.kind = .accessDenied ∧ s.Denied caller includeDeleted id ∧ s.Legible id ∧
      s.Serves caller) ∨ f.IsMishap := by
  cases hrefusal with
  | missing hmissing hlegible => exact .inl ⟨rfl, hmissing, hlegible⟩
  | denied hdenied hlegible hserves => exact .inr (.inl ⟨rfl, hdenied, hlegible, hserves⟩)
  | illegible _ hfails => exact .inr (.inr (Version.isMishap_of_decode hfails))
  | crowded => exact .inr (.inr (of_decide_eq_true rfl))
  | unbindable hfails => exact .inr (.inr (Json.isMishap_of_lookupText hfails))

/-- A refusal is reported as a missing resource just if what is asked for is missing. -/
theorem exists_refusal_notFound_iff :
    (∃ f, s.Refusal caller includeDeleted id f ∧ f.kind = .notFound) ↔
      s.Missing includeDeleted id ∧ s.Legible id := by
  constructor
  · rintro ⟨f, hrefusal, hkind⟩
    rcases hrefusal.kind_cases with ⟨_, hmissing⟩ | ⟨hdenied, _⟩ | hmishap
    · exact hmissing
    · rw [hkind] at hdenied
      cases hdenied
    · exact absurd hkind (hmishap.kind_ne (by decide))
  · rintro ⟨hmissing, hlegible⟩
    exact ⟨_, .missing hmissing hlegible, rfl⟩

/-- A refusal is reported as a denied access just if access to what is asked for is denied. -/
theorem exists_refusal_accessDenied_iff :
    (∃ f, s.Refusal caller includeDeleted id f ∧ f.kind = .accessDenied) ↔
      s.Denied caller includeDeleted id ∧ s.Legible id ∧ s.Serves caller := by
  constructor
  · rintro ⟨f, hrefusal, hkind⟩
    rcases hrefusal.kind_cases with ⟨hmissing, _⟩ | ⟨_, hdenied⟩ | hmishap
    · rw [hkind] at hmissing
      cases hmissing
    · exact hdenied
    · exact absurd hkind (hmishap.kind_ne (by decide))
  · rintro ⟨hdenied, hlegible, hserves⟩
    exact ⟨_, .denied hdenied hlegible hserves, rfl⟩

/-! What goes wrong in searches. -/

theorem isMishap_of_prepare {request : HopRequest} {id : String}
    (h : request.prepare id = .error f) : f.IsMishap := by
  rcases bind_eq_error_iff.1 h with hquery | ⟨q, _, h⟩
  · cases hgiven : request.query with
    | error e =>
      rw [hgiven] at hquery
      cases hquery
      exact Fault.isMishap_misuse e
    | ok q =>
      rw [hgiven] at hquery
      cases hquery
  rcases bind_eq_error_iff.1 h with hnames | ⟨_, _, h⟩
  · obtain ⟨c, _, hname⟩ := exists_mem_of_forM_eq_error hnames
    unfold CompiledFilter.checkRowName at hname
    split at hname
    · cases hname
    · cases hname
      exact of_decide_eq_true rfl
  rcases bind_eq_error_iff.1 h with hhanded | ⟨_, _, h⟩
  · exact Json.isMishap_of_handOver hhanded
  · cases h

theorem FailsOn.isMishap {filters : List CompiledFilter} {k : Kind} {row : Row k}
    (h : FailsOn filters row f) : f.IsMishap := by
  obtain ⟨_, e, rfl⟩ := h.evaluation
  exact Fault.isMishap_evaluation e

theorem isMishap_of_decode {n : NeighborRow} (h : n.decode = .error f) :
    f.IsMishap := by
  rcases bind_eq_error_iff.1 h with h | ⟨_, _, h⟩
  · exact Version.isMishap_of_decode h
  · rcases bind_eq_error_iff.1 h with h | ⟨_, _, h⟩
    · exact Version.isMishap_of_decode h
    · cases h

theorem SpoiledFrom.isMishap {filters : List CompiledFilter} {rule : HopRule}
    {directions : List HopDirection} {start : Row .entity} {depth : Nat}
    (h : s.SpoiledFrom filters rule directions start depth f) : f.IsMishap := by
  obtain ⟨_, _, _, _, _, _, hspoils⟩ := h
  cases hspoils with
  | link _ hfails => exact hfails.isMishap
  | entity _ _ hfails => exact hfails.isMishap
  | unreadable _ hfails => exact isMishap_of_decode hfails

/-- What goes wrong in a traversal that may start from a row: the caller acts as too many
principals, the hops cannot be asked for, or something that the traversal comes across is
spoiled. -/
inductive TraversalMishap (s : Store) (caller : Option String) (r : TraversalRequest)
    (request : HopRequest) (directions : List HopDirection) (depth : Nat) (start : Row .entity) :
    Fault → Prop where
  | crowded (h : ¬s.Serves caller) :
    TraversalMishap s caller r request directions depth start .tooManyPrincipals
  | unaskable {f : Fault} (hops : 0 < depth) (fails : request.prepare start.id = .error f) :
    TraversalMishap s caller r request directions depth start f
  | spoiled {f : Fault} (h : s.SpoiledFrom request.filters (r.rule s) directions start depth f) :
    TraversalMishap s caller r request directions depth start f

/-- What goes wrong in a search for a path between two rows: the caller acts as too many principals,
the hops cannot be asked for, or something that the search comes across cannot be read. -/
inductive PathMishap (s : Store) (caller : Option String) (r : PathRequest) (depth : Nat)
    (origin target : Row .entity) : Fault → Prop where
  | crowded (h : ¬s.Serves caller) : PathMishap s caller r depth origin target .tooManyPrincipals
  | unaskable {f : Fault} (apart : origin.id ≠ target.id) (hops : 0 < depth)
    (fails : r.request.prepare origin.id = .error f) :
    PathMishap s caller r depth origin target f
  | spoiled {f : Fault} (h : r.Spoiled s origin target depth f) :
    PathMishap s caller r depth origin target f

theorem TraversalMishap.isMishap {r : TraversalRequest} {request : HopRequest}
    {directions : List HopDirection} {depth : Nat} {start : Row .entity}
    (h : s.TraversalMishap caller r request directions depth start f) : f.IsMishap := by
  cases h with
  | crowded => exact of_decide_eq_true rfl
  | unaskable _ hfails => exact isMishap_of_prepare hfails
  | spoiled hspoiled => exact hspoiled.isMishap

theorem PathMishap.isMishap {r : PathRequest} {depth : Nat} {origin target : Row .entity}
    (h : s.PathMishap caller r depth origin target f) : f.IsMishap := by
  cases h with
  | crowded => exact of_decide_eq_true rfl
  | unaskable _ _ hfails => exact isMishap_of_prepare hfails
  | spoiled hspoiled =>
    obtain ⟨e, rfl⟩ := hspoiled.unreadable
    exact Fault.isMishap_unreadable e

variable {settings : SearchSettings} {cap : Int}

theorem serves_of_readFilter_eq_error (hcap : settings.aclCap = .int cap)
    (hf : s.readFilter (.ofText? caller) settings.aclCap = .error f) :
    f = .tooManyPrincipals ∧ ¬s.Serves caller := by
  by_cases hserves : s.Serves caller
  · obtain ⟨access, haccess⟩ := readFilter_of_serves hserves cap
    rw [hcap, haccess] at hf
    cases hf
  · rw [readFilter_of_not_serves hserves] at hf
    cases hf
    exact ⟨rfl, hserves⟩

/-! Traversals. -/

/-- How a traversal is refused. It is if its start is, and then with the same fault, so that the
start alone decides whether something is reported to be missing or denied; from a start that is
accepted it only fails by a mishap. -/
structure TraversalOutcome (s : Store) (caller : Option String) (settings : SearchSettings)
    (r : TraversalRequest) (request : HopRequest) (direction : Direction) (depth : Nat) :
    Prop where
  notFound : FailsAs (s.traverse settings r) .notFound ↔
    s.Missing r.includeDeleted r.start ∧ s.Legible r.start
  accessDenied : FailsAs (s.traverse settings r) .accessDenied ↔
    s.Denied caller r.includeDeleted r.start ∧ s.Legible r.start ∧ s.Serves caller
  refused : ∀ f, s.Refusal caller r.includeDeleted r.start f → s.traverse settings r = .error f
  otherwise : ∀ f, s.traverse settings r = .error f →
    s.Refusal caller r.includeDeleted r.start f ∨
      ∃ start, s.Accepts r.user r.includeDeleted r.start start ∧
        s.TraversalMishap caller r request direction.hops depth start f

section

variable {r : TraversalRequest} {request : HopRequest} {direction : Direction} {depth : Nat}

theorem traverse_eq_readable_bind
    (hdirection : Direction.given? r.direction = .ok (some direction))
    (hdepth : requestedDepth r.maxDepth settings.traversalDepth = .ok depth)
    (hrequest : r.request = .ok request) :
    s.traverse settings r = do
      let record ← s.readable r.user r.includeDeleted r.start
      let access ← s.readFilter r.user settings.aclCap
      let search ← Search.run (s.readableNeighbors access request) r.allPaths none direction.hops
        depth record
      return ⟨record.id, direction, depth, search.visits, r.allPaths, search.expanded⟩ := by
  simp only [TraversalRequest.request, bind_eq_ok_iff, pure_eq_ok_iff] at hrequest
  obtain ⟨entityFilters, hentity, linkFilters, hlink, rfl⟩ := hrequest
  unfold traverse
  rw [hdirection, hdepth, hentity, hlink]
  simp only [ok_bind]

theorem traversalOutcome (h : ∀ k, s.Versioned k) (hcap : settings.aclCap = .int cap)
    (huser : r.user = .ofText? caller)
    (hdirection : Direction.given? r.direction = .ok (some direction))
    (hdepth : requestedDepth r.maxDepth settings.traversalDepth = .ok depth)
    (hrequest : r.request = .ok request) :
    s.TraversalOutcome caller settings r request direction depth := by
  have hbegun := s.traverse_eq_readable_bind hdirection hdepth hrequest
  have hrefused (f : Fault) (hrefusal : s.Refusal caller r.includeDeleted r.start f) :
      s.traverse settings r = .error f := by
    rw [hbegun, huser, hrefusal.readable_eq_error (h .entity)]
    rfl
  have hotherwise (f : Fault) (hf : s.traverse settings r = .error f) :
      s.Refusal caller r.includeDeleted r.start f ∨
        ∃ start, s.Accepts r.user r.includeDeleted r.start start ∧
          s.TraversalMishap caller r request direction.hops depth start f := by
    rw [hbegun] at hf
    rcases bind_eq_error_iff.1 hf with hf | ⟨record, hrecord, hf⟩
    · rw [huser] at hf
      exact .inl ((readable_eq_error_iff (h .entity)).1 hf)
    · obtain ⟨start, haccepts, hdecode⟩ := (readable_eq_ok_iff (h .entity)).1 hrecord
      refine .inr ⟨start, haccepts, ?_⟩
      rcases bind_eq_error_iff.1 hf with hf | ⟨access, haccess, hf⟩
      · rw [huser] at hf
        obtain ⟨rfl, hserves⟩ := serves_of_readFilter_eq_error hcap hf
        exact .crowded hserves
      · rcases bind_eq_error_iff.1 hf with hf | ⟨_, _, hf⟩
        · have hrun := spoiledFrom_of_run h haccepts.entity haccepts.latest hdecode
            (Option.some_ne_none _).symm hf
          rw [rule_of_request hrequest haccess] at hrun
          rcases hrun with ⟨hpos, hfails⟩ | hspoiled
          · exact .unaskable hpos hfails
          · exact .spoiled hspoiled
        · cases hf
  -- only what refuses the start is reported as missing or denied
  have hreported {kind : FaultKind}
      (hkind : kind ∈ [.validation, .notFound, .accessDenied, .noPath]) :
      FailsAs (s.traverse settings r) kind ↔
        ∃ f, s.Refusal caller r.includeDeleted r.start f ∧ f.kind = kind :=
    failsAs_iff_of_refused hrefused fun f hf => (hotherwise f hf).imp_right
      fun ⟨_, _, hmishap⟩ => hmishap.isMishap.kind_ne hkind
  exact ⟨(hreported (by decide)).trans exists_refusal_notFound_iff,
    (hreported (by decide)).trans exists_refusal_accessDenied_iff, hrefused, hotherwise⟩

end

/-! Shortest paths. -/

/-- How a search for a path is refused at one of its ends. It comes to the target only where the
origin is not refused. -/
inductive EndRefusal (s : Store) (caller : Option String) (r : PathRequest) : Fault → Prop where
  | source {f : Fault} (h : s.Refusal caller r.includeDeleted r.source f) : EndRefusal s caller r f
  | target {f : Fault} (passes : ∀ f', ¬s.Refusal caller r.includeDeleted r.source f')
    (h : s.Refusal caller r.includeDeleted r.target f) : EndRefusal s caller r f

/-- How a search for a path is refused. It is if one of its ends is, and then with the same fault,
so that the ends alone decide whether something is reported to be missing or denied; between two
ends that are accepted there is no path if none of them can be reached from the other, and
everything else is a mishap. -/
structure PathOutcome (s : Store) (caller : Option String) (settings : SearchSettings)
    (r : PathRequest) (depth : Nat) : Prop where
  notFound : FailsAs (s.shortestPath settings (.ofStore s) r) .notFound ↔
    (s.Missing r.includeDeleted r.source ∧ s.Legible r.source) ∨
    (∀ f, ¬s.Refusal caller r.includeDeleted r.source f) ∧
      s.Missing r.includeDeleted r.target ∧ s.Legible r.target
  accessDenied : FailsAs (s.shortestPath settings (.ofStore s) r) .accessDenied ↔
    (s.Denied caller r.includeDeleted r.source ∧ s.Legible r.source ∧ s.Serves caller) ∨
    (∀ f, ¬s.Refusal caller r.includeDeleted r.source f) ∧
      s.Denied caller r.includeDeleted r.target ∧ s.Legible r.target ∧ s.Serves caller
  noPath : FailsAs (s.shortestPath settings (.ofStore s) r) .noPath ↔
    ∃ origin target, s.Accepts r.user r.includeDeleted r.source origin ∧
      s.Accepts r.user r.includeDeleted r.target target ∧
      ¬s.SameChain .entity origin.id target.id ∧
      (∀ walk, Walk (s.Crosses (r.rule s) [.outbound]) origin walk target → depth < walk.length) ∧
      ∀ f, s.PathMishap caller r depth origin target f →
        s.shortestPath settings (.ofStore s) r ≠ .error f
  refused : ∀ f, s.EndRefusal caller r f → s.shortestPath settings (.ofStore s) r = .error f
  otherwise : ∀ f, s.shortestPath settings (.ofStore s) r = .error f →
    s.EndRefusal caller r f ∨
      ∃ origin target, s.Accepts r.user r.includeDeleted r.source origin ∧
        s.Accepts r.user r.includeDeleted r.target target ∧
        (f = .noPath origin.id target.id depth ∨ s.PathMishap caller r depth origin target f)

section

variable {r : PathRequest} {depth : Nat}

theorem shortestPath_eq_readable_bind (lookup : PathLookup)
    (hdepth : requestedDepth r.maxDepth settings.shortestPathDepth = .ok depth) :
    ∃ rest : Record .entity → Record .entity → Except Fault ShortestPath,
      s.shortestPath settings lookup r =
        s.readable r.user r.includeDeleted r.source >>= fun origin =>
          s.readable r.user r.includeDeleted r.target >>= rest origin := by
  unfold shortestPath
  rw [hdepth, ok_bind]
  exact ⟨_, rfl⟩

theorem not_refusal_of_accepts (h : s.Versioned .entity) {row : Row .entity}
    {record : Record .entity} (haccepts : s.Accepts (.ofText? caller) includeDeleted id row)
    (hdecode : row.decode = .ok record) (f : Fault) : ¬s.Refusal caller includeDeleted id f := by
  intro hrefusal
  have hf := hrefusal.readable_eq_error h
  rw [haccepts.readable h, hdecode] at hf
  cases hf

theorem EndRefusal.shortestPath_eq_error (h : s.Versioned .entity)
    (huser : r.user = .ofText? caller)
    (hdepth : requestedDepth r.maxDepth settings.shortestPathDepth = .ok depth)
    (hrefusal : s.EndRefusal caller r f) (lookup : PathLookup) :
    s.shortestPath settings lookup r = .error f := by
  obtain ⟨rest, hbegun⟩ := s.shortestPath_eq_readable_bind lookup hdepth
  rw [hbegun, huser]
  cases hrefusal with
  | source hrefusal =>
    rw [hrefusal.readable_eq_error h]
    rfl
  | target hpasses hrefusal =>
    rcases s.refusal_or_accepts h caller r.includeDeleted r.source with
      ⟨f', hrefused⟩ | ⟨row, record, haccepts, hdecode⟩
    · exact absurd hrefused (hpasses f')
    · rw [haccepts.readable h, hdecode, ok_bind, hrefusal.readable_eq_error h]
      rfl

theorem endRefusal_or_accepts (h : s.Versioned .entity) (caller : Option String)
    (r : PathRequest) :
    (∃ f, s.EndRefusal caller r f) ∨
      ∃ origin target, s.Accepts (.ofText? caller) r.includeDeleted r.source origin ∧
        s.Accepts (.ofText? caller) r.includeDeleted r.target target := by
  rcases s.refusal_or_accepts h caller r.includeDeleted r.source with
    ⟨f, hrefusal⟩ | ⟨origin, record, horigin, hdecode⟩
  · exact .inl ⟨f, .source hrefusal⟩
  · rcases s.refusal_or_accepts h caller r.includeDeleted r.target with
      ⟨f, hrefusal⟩ | ⟨target, _, htarget, _⟩
    · exact .inl ⟨f, .target (not_refusal_of_accepts h horigin hdecode) hrefusal⟩
    · exact .inr ⟨origin, target, horigin, htarget⟩

theorem exists_endRefusal_iff {kind : FaultKind} {P Q : Prop}
    (hsource : (∃ f, s.Refusal caller r.includeDeleted r.source f ∧ f.kind = kind) ↔ P)
    (htarget : (∃ f, s.Refusal caller r.includeDeleted r.target f ∧ f.kind = kind) ↔ Q) :
    (∃ f, s.EndRefusal caller r f ∧ f.kind = kind) ↔
      P ∨ (∀ f, ¬s.Refusal caller r.includeDeleted r.source f) ∧ Q := by
  rw [← hsource, ← htarget]
  constructor
  · rintro ⟨f, hrefusal, hkind⟩
    cases hrefusal with
    | source hrefusal => exact .inl ⟨f, hrefusal, hkind⟩
    | target hpasses hrefusal => exact .inr ⟨hpasses, f, hrefusal, hkind⟩
  · rintro (⟨f, hrefusal, hkind⟩ | ⟨hpasses, f, hrefusal, hkind⟩)
    · exact ⟨f, .source hrefusal, hkind⟩
    · exact ⟨f, .target hpasses hrefusal, hkind⟩

theorem EndRefusal.kind_ne_noPath (hrefusal : s.EndRefusal caller r f) : f.kind ≠ .noPath := by
  have hkind {id : Json} (h : s.Refusal caller r.includeDeleted id f) : f.kind ≠ .noPath := by
    rcases h.kind_cases with ⟨hkind, _⟩ | ⟨hkind, _⟩ | hmishap
    · simp [hkind]
    · simp [hkind]
    · exact hmishap.kind_ne (by decide)
  cases hrefusal with
  | source h => exact hkind h
  | target _ h => exact hkind h

/-- Between two ends that are accepted a search for a path fails as there is none, or by a
mishap. -/
theorem pathMishap_of_shortestPath (h : ∀ k, s.Versioned k) (hcap : settings.aclCap = .int cap)
    (huser : r.user = .ofText? caller)
    (hdepth : requestedDepth r.maxDepth settings.shortestPathDepth = .ok depth)
    {origin target : Row .entity} (horigin : s.Accepts r.user r.includeDeleted r.source origin)
    (htarget : s.Accepts r.user r.includeDeleted r.target target)
    (hf : s.shortestPath settings (.ofStore s) r = .error f) :
    (f = .noPath origin.id target.id depth ∧
      ∀ walk, Walk (s.Crosses (r.rule s) [.outbound]) origin walk target → depth < walk.length) ∨
    s.PathMishap caller r depth origin target f := by
  rcases shortestPath_eq_error h hdepth horigin htarget hf with
    hnone | hrefused | ⟨hdiffer, hpos, hfails⟩ | hspoiled
  · exact .inl hnone
  · rw [huser] at hrefused
    obtain ⟨rfl, hserves⟩ := serves_of_readFilter_eq_error hcap hrefused
    exact .inr (.crowded hserves)
  · exact .inr (.unaskable hdiffer hpos hfails)
  · exact .inr (.spoiled hspoiled)

/-- A search for a path that fails is refused at one of its ends, or both ends are accepted. -/
theorem endRefusal_or_accepts_of_error (h : s.Versioned .entity)
    (huser : r.user = .ofText? caller)
    (hdepth : requestedDepth r.maxDepth settings.shortestPathDepth = .ok depth)
    (hf : s.shortestPath settings (.ofStore s) r = .error f) :
    s.EndRefusal caller r f ∨
      ∃ origin target, s.Accepts r.user r.includeDeleted r.source origin ∧
        s.Accepts r.user r.includeDeleted r.target target := by
  rcases s.endRefusal_or_accepts h caller r with ⟨f', hrefusal⟩ | haccepted
  · have hf' := hrefusal.shortestPath_eq_error h huser hdepth (.ofStore s)
    rw [hf] at hf'
    cases hf'
    exact .inl hrefusal
  · rw [huser]
    exact .inr haccepted

/-- There is no path just if both ends are accepted and apart, no walk within the depth leads from
one to the other, and the search for it has no mishap. -/
theorem failsAs_noPath_iff (h : ∀ k, s.Versioned k) (hcap : settings.aclCap = .int cap)
    (huser : r.user = .ofText? caller)
    (hdepth : requestedDepth r.maxDepth settings.shortestPathDepth = .ok depth) :
    FailsAs (s.shortestPath settings (.ofStore s) r) .noPath ↔
      ∃ origin target, s.Accepts r.user r.includeDeleted r.source origin ∧
        s.Accepts r.user r.includeDeleted r.target target ∧
        ¬s.SameChain .entity origin.id target.id ∧
        (∀ walk, Walk (s.Crosses (r.rule s) [.outbound]) origin walk target →
          depth < walk.length) ∧
        ∀ f, s.PathMishap caller r depth origin target f →
          s.shortestPath settings (.ofStore s) r ≠ .error f := by
  constructor
  · rintro ⟨f, hf, hkind⟩
    obtain ⟨origin, target, horigin, htarget⟩ :=
      (endRefusal_or_accepts_of_error (h .entity) huser hdepth hf).resolve_left
        fun hrefusal => hrefusal.kind_ne_noPath hkind
    have hmishap (f' : Fault) (hmishap : s.PathMishap caller r depth origin target f')
        (hf' : s.shortestPath settings (.ofStore s) r = .error f') : False := by
      rw [hf] at hf'
      cases hf'
      exact hmishap.isMishap.kind_ne (by decide) hkind
    obtain ⟨_, hnone⟩ :=
      (pathMishap_of_shortestPath h hcap huser hdepth horigin htarget hf).resolve_right
        fun hfails => hmishap f hfails hf
    refine ⟨origin, target, horigin, htarget, fun hsame => ?_, hnone, hmishap⟩
    -- the empty walk leads from a row to itself
    cases (h .entity).eq_of_isLatest horigin.entity htarget.entity horigin.latest
      htarget.latest hsame
    exact Nat.not_lt_zero _ (hnone [] (.here _))
  · rintro ⟨origin, target, horigin, htarget, _, hnone, hmishap⟩
    cases hresult : s.shortestPath settings (.ofStore s) r with
    | ok p =>
      obtain ⟨walk, hwalk, hle, _⟩ := shortestPath_eq_ok h hdepth horigin htarget hresult
      exact absurd (hnone walk hwalk.walk) (Nat.not_lt.2 hle)
    | error f =>
      obtain ⟨rfl, _⟩ :=
        (pathMishap_of_shortestPath h hcap huser hdepth horigin htarget hresult).resolve_right
          fun hfails => hmishap f hfails hresult
      exact ⟨_, rfl, rfl⟩

theorem pathOutcome (h : ∀ k, s.Versioned k) (hcap : settings.aclCap = .int cap)
    (huser : r.user = .ofText? caller)
    (hdepth : requestedDepth r.maxDepth settings.shortestPathDepth = .ok depth) :
    s.PathOutcome caller settings r depth := by
  have hrefused (f : Fault) (hrefusal : s.EndRefusal caller r f) :
      s.shortestPath settings (.ofStore s) r = .error f :=
    hrefusal.shortestPath_eq_error (h .entity) huser hdepth _
  have hotherwise (f : Fault) (hf : s.shortestPath settings (.ofStore s) r = .error f) :
      s.EndRefusal caller r f ∨
        ∃ origin target, s.Accepts r.user r.includeDeleted r.source origin ∧
          s.Accepts r.user r.includeDeleted r.target target ∧
          (f = .noPath origin.id target.id depth ∨
            s.PathMishap caller r depth origin target f) :=
    (endRefusal_or_accepts_of_error (h .entity) huser hdepth hf).imp_right
      fun ⟨origin, target, horigin, htarget⟩ => ⟨origin, target, horigin, htarget,
        (pathMishap_of_shortestPath h hcap huser hdepth horigin htarget hf).imp_left And.left⟩
  -- only what refuses one of the ends is reported as missing or denied
  have hreported {kind : FaultKind}
      (hkind : kind ∈ [.validation, .notFound, .accessDenied, .noPath]) (hne : kind ≠ .noPath) :
      FailsAs (s.shortestPath settings (.ofStore s) r) kind ↔
        ∃ f, s.EndRefusal caller r f ∧ f.kind = kind := by
    refine failsAs_iff_of_refused hrefused fun f hf => (hotherwise f hf).imp_right ?_
    rintro ⟨_, _, _, _, rfl | hmishap⟩
    · exact hne.symm
    · exact hmishap.isMishap.kind_ne hkind
  exact ⟨(hreported (by decide) (by decide)).trans
      (exists_endRefusal_iff exists_refusal_notFound_iff exists_refusal_notFound_iff),
    (hreported (by decide) (by decide)).trans
      (exists_endRefusal_iff exists_refusal_accessDenied_iff exists_refusal_accessDenied_iff),
    failsAs_noPath_iff h hcap huser hdepth, hrefused, hotherwise⟩

end

/-! Requests that are not valid. -/

theorem requestedDepth_of_out_of_range {n : Int} (hn : ¬(0 ≤ n ∧ n ≤ maxSearchDepth))
    (configured : Json) : requestedDepth (.int n) configured = .error .depthOutOfRange := by
  rw [requestedDepth_int, if_neg hn]

theorem given?_of_unknown {name : LooseText} (hname : ∀ d : Direction, name ≠ d.name) :
    Direction.given? (.str name) = .error (.direction (.str name)) := by
  have hnone : (Json.str name).text?.bind Direction.ofName? = none := by
    rw [Option.bind_eq_none_iff]
    intro text htext
    rw [Direction.ofName?, List.find?_eq_none]
    intro d _ heq
    refine hname d ?_
    rw [of_decide_eq_true heq]
    exact LooseText.eq_ofString_of_toString? htext
  have hrefused : Direction.ofJson (.str name) = .error (.direction (.str name)) := by
    unfold Direction.ofJson
    rw [hnone]
  change (Direction.ofJson (.str name) >>= fun d => pure (some d)) = _
  rw [hrefused]
  rfl

/-- A direction that is a text but none of the three is refused before anything is looked at. -/
theorem traverse_of_unknown_direction (s : Store) (settings : SearchSettings)
    {r : TraversalRequest} {name : LooseText} (hdirection : r.direction = .str name)
    (hname : ∀ d : Direction, name ≠ d.name) :
    FailsAs (s.traverse settings r) .validation := by
  refine ⟨.direction (.str name), ?_, rfl⟩
  unfold traverse
  rw [hdirection, given?_of_unknown hname]
  rfl

/-- A depth that is out of range is refused before anything is looked at, unless the direction is
refused before. -/
theorem traverse_of_depth_out_of_range (s : Store) (settings : SearchSettings)
    {r : TraversalRequest} {n : Int} (hdepth : r.maxDepth = .int n)
    (hn : ¬(0 ≤ n ∧ n ≤ maxSearchDepth)) : FailsAs (s.traverse settings r) .validation := by
  cases hdirection : Direction.given? r.direction with
  | error f =>
    refine ⟨f, ?_, ?_⟩
    · unfold traverse
      rw [hdirection]
      rfl
    · unfold Direction.given? at hdirection
      split at hdirection
      · unfold Direction.ofJson at hdirection
        split at hdirection
        · cases hdirection
        · cases hdirection
          rfl
      · cases hdirection
  | ok direction? =>
    refine ⟨.depthOutOfRange, ?_, rfl⟩
    unfold traverse
    rw [hdirection, ok_bind, hdepth, requestedDepth_of_out_of_range hn]
    rfl

theorem shortestPath_of_depth_out_of_range (s : Store) (settings : SearchSettings)
    (lookup : PathLookup) {r : PathRequest} {n : Int} (hdepth : r.maxDepth = .int n)
    (hn : ¬(0 ≤ n ∧ n ≤ maxSearchDepth)) :
    FailsAs (s.shortestPath settings lookup r) .validation := by
  refine ⟨.depthOutOfRange, ?_, rfl⟩
  unfold shortestPath
  rw [hdepth, requestedDepth_of_out_of_range hn]
  rfl

/-- In every reachable store a search is refused with a missing resource, a denied access or a path
that does not exist exactly if that is so. A traversal reports that its start is missing if no row
has its id or the latest row that it stands for is deleted, and that access is denied if the access
list of that row does not let the caller read, as long as the row can be read and the caller acts as
no more principals than a query asks for. A search for a path does the same for its source and, if
that is accepted, for its target, and reports that there is no path if the two are apart and no walk
leads from one to the other within the depth. All other failures are mishaps. A direction or a depth
that is not valid is refused by every store. -/
theorem Reachable.refusals_are_exact (h : s.Reachable) {settings : SearchSettings} {cap : Int}
    (hcap : settings.aclCap = .int cap) (caller : Option String) :
    (∀ (r : TraversalRequest) (request : HopRequest) (direction : Direction) (depth : Nat),
      r.user = .ofText? caller → Direction.given? r.direction = .ok (some direction) →
      requestedDepth r.maxDepth settings.traversalDepth = .ok depth → r.request = .ok request →
      s.TraversalOutcome caller settings r request direction depth) ∧
    (∀ (r : PathRequest) (depth : Nat), r.user = .ofText? caller →
      requestedDepth r.maxDepth settings.shortestPathDepth = .ok depth →
      s.PathOutcome caller settings r depth) ∧
    ∀ (t : Store) (settings : SearchSettings),
      (∀ (r : TraversalRequest) (name : LooseText), r.direction = .str name →
        (∀ d : Direction, name ≠ d.name) → FailsAs (t.traverse settings r) .validation) ∧
      (∀ (r : TraversalRequest) (n : Int), r.maxDepth = .int n → ¬(0 ≤ n ∧ n ≤ 10) →
        FailsAs (t.traverse settings r) .validation) ∧
      ∀ (lookup : PathLookup) (r : PathRequest) (n : Int), r.maxDepth = .int n →
        ¬(0 ≤ n ∧ n ≤ 10) → FailsAs (t.shortestPath settings lookup r) .validation := by
  refine ⟨fun r request direction depth huser hdirection hdepth hrequest =>
    traversalOutcome h.versioned hcap huser hdirection hdepth hrequest,
    fun r depth huser hdepth => pathOutcome h.versioned hcap huser hdepth, fun t settings => ?_⟩
  exact ⟨fun r name hdirection hname => traverse_of_unknown_direction t settings hdirection hname,
    fun r n hdepth hn => traverse_of_depth_out_of_range t settings hdepth hn,
    fun lookup r n hdepth hn => shortestPath_of_depth_out_of_range t settings lookup hdepth hn⟩

/-- A note that is deleted is missing as the start of a traversal and as the target of a path, by
the id of the version that was not deleted, too. -/
theorem deleted_note_is_missing :
    let s := empty.after
      [(.create (k := .entity) { typeId := .str "note", ends := () }, ⟨"a", 1⟩),
        (.create (k := .entity) { typeId := .str "note", ends := () }, ⟨"c", 2⟩),
        (.delete .entity (.str "a") .null, ⟨"b", 3⟩)]
    FailsAs (s.traverse {} { start := .str "a" }) .notFound ∧
      FailsAs (s.shortestPath {} (.ofStore s) { source := .str "c", target := .str "a" })
        .notFound ∧
      FailsAs (s.traverse {} { start := .str "c", direction := .str "sideways" }) .validation := by
  intro s
  have hs : s.Reachable := ⟨_, rfl⟩
  let b : Row .entity :=
    ⟨"b", "note", (), "{}", .integer 2, some "a", .integer 3, none, true, true, none⟩
  let c : Row .entity :=
    ⟨"c", "note", (), "{}", .integer 1, none, .integer 2, none, false, true, none⟩
  have hb : b ∈ s.rows .entity := by decide +kernel
  have hc : c ∈ s.rows .entity := by decide +kernel
  have hempty : ∀ row ∈ s.rows .entity, row.properties = "{}" := by decide +kernel
  have hchain : s.SameChain .entity "a" "b" := .rel _ _ ⟨b, hb, rfl, rfl⟩
  have hmissing : s.Missing false (.str "a") :=
    .inr ⟨b, ⟨⟨"a", Json.lookupText_str "a", hchain⟩, hb, rfl⟩, rfl, rfl⟩
  have hlegible : s.Legible (.str "a") := fun row hrow =>
    ⟨_, Version.decode_of_empty (hempty row hrow.entity)⟩
  have haccepts : s.Accepts (.ofText? none) false (.str "c") c :=
    ⟨⟨"c", Json.lookupText_str "c", .refl _⟩, hc, rfl, .inr rfl, rfl⟩
  obtain ⟨htraversals, hpaths, hinvalid⟩ :=
    Reachable.refusals_are_exact hs (rfl : ({} : SearchSettings).aclCap = _) none
  refine ⟨(htraversals { start := .str "a" } {} .outbound 3 rfl rfl rfl rfl).notFound.2
      ⟨hmissing, hlegible⟩,
    (hpaths { source := .str "c", target := .str "a" } 10 rfl rfl).notFound.2 (.inr ⟨?_, hmissing,
      hlegible⟩), (hinvalid s {}).1 _ "sideways" rfl fun d => ?_⟩
  · exact not_refusal_of_accepts (hs.versioned .entity) haccepts (Version.decode_of_empty rfl)
  · cases d <;> decide

/-- A deleted note whose properties are no JSON is not reported to be missing. -/
theorem unreadable_note_is_not_missing :
    ¬∀ s : Store, s.Reachable → ∀ id,
      (∃ row, s.Resolves id row ∧ row.isDeleted = true) →
        FailsAs (s.traverse {} { start := id }) .notFound := by
  intro hclaim
  let s := empty.after
    [(.create (k := .entity) { typeId := .str "note", ends := (), properties := .str "oops" },
      ⟨"a", 1⟩), (.delete .entity (.str "a") .null, ⟨"b", 2⟩)]
  let b : Row .entity :=
    ⟨"b", "note", (), "oops", .integer 2, some "a", .integer 2, none, true, true, none⟩
  have hs : s.Reachable := ⟨_, rfl⟩
  have hb : b ∈ s.rows .entity := by decide +kernel
  have hchain : s.SameChain .entity "a" "b" := .rel _ _ ⟨b, hb, rfl, rfl⟩
  have hresolves : s.Resolves (.str "a") b := ⟨⟨"a", Json.lookupText_str "a", hchain⟩, hb, rfl⟩
  have hillegible : b.decode.isOk = false := by decide +kernel
  have houtcome : s.TraversalOutcome none {} { start := .str "a" } {} .outbound 3 :=
    traversalOutcome hs.versioned rfl rfl rfl rfl rfl
  obtain ⟨_, hlegible⟩ := houtcome.notFound.1 (hclaim s hs (.str "a") ⟨b, hresolves, rfl⟩)
  obtain ⟨record, hdecode⟩ := hlegible b hresolves
  rw [hdecode] at hillegible
  cases hillegible

end Store

end VersionedGraph
