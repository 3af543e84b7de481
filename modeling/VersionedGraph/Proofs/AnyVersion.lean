import VersionedGraph.Graph.Traversal
import VersionedGraph.Proofs.Attachment
import VersionedGraph.Proofs.Resolution

/-!
# Any version stands for its chain

Requests resolve the ids that they are given before they do anything else, and go on with the row
that is found. So it does not matter by which version of a chain a thing is named: what is read is
the same, what is written is the same, and a search starts and ends in the same places. Only a fault
tells of the id that was given, and even then it is a fault of the same kind (`Concur`).
-/

namespace VersionedGraph

/-- Two computations end in the same way: with one result, or with faults of one kind. -/
inductive Concur {α : Type} : Except Fault α → Except Fault α → Prop where
  | ok (a : α) : Concur (.ok a) (.ok a)
  | error {f g : Fault} (kind : f.kind = g.kind) : Concur (.error f) (.error g)

namespace Concur

variable {α β : Type} {x y : Except Fault α}

theorem refl (x : Except Fault α) : Concur x x := by
  cases x with
  | ok a => exact .ok a
  | error f => exact .error rfl

theorem bind {g g' : α → Except Fault β} (h : Concur x y) (hnext : ∀ a, Concur (g a) (g' a)) :
    Concur (x >>= g) (y >>= g') := by
  cases h with
  | ok a => exact hnext a
  | error hkind => exact .error hkind

theorem ite {p : Prop} [Decidable p] {x' y' : Except Fault α} (h : Concur x y)
    (h' : Concur x' y') : Concur (if p then x else x') (if p then y else y') := by
  split
  · exact h
  · exact h'

end Concur

namespace Store

variable {s : Store} {a b : String}

/-! Ids that resolve to the same row. -/

section

variable {k : Kind} (h : s.latest? k a = s.latest? k b)
include h

theorem getLatest_congr : s.getLatest k (.str a) = s.getLatest k (.str b) := by
  unfold getLatest
  simp only [Json.lookupText_str, ok_bind, Option.bind_some, h]

theorem getVersions_congr : s.getVersions k (.str a) = s.getVersions k (.str b) := by
  unfold getVersions
  simp only [Json.lookupText_str, ok_bind, Option.map_some, chain_congr h]

end

section

variable (h : s.latest? .entity a = s.latest? .entity b)
include h

/-- A resource that cannot be read is refused by whatever id it was asked for. -/
theorem readable_concur (user : Json) (includeDeleted : Bool) :
    Concur (s.readable user includeDeleted (.str a)) (s.readable user includeDeleted (.str b)) := by
  unfold readable
  rw [getLatest_congr h]
  refine (Concur.refl _).bind fun found => ?_
  cases found with
  | none => exact .error rfl
  | some entity =>
    refine .ite (.error rfl) ?_
    refine Concur.bind ?_ fun _ => .refl _
    unfold checkAccess
    exact (Concur.refl _).bind fun _ => .ite (.refl _) (.error rfl)

theorem traverse_concur (settings : SearchSettings) (r : TraversalRequest) :
    Concur (s.traverse settings { r with start := .str a })
      (s.traverse settings { r with start := .str b }) := by
  unfold traverse
  refine (Concur.refl _).bind fun direction? => ?_
  refine (Concur.refl _).bind fun depth => ?_
  refine (Concur.refl _).bind fun entityFilters => ?_
  refine (Concur.refl _).bind fun linkFilters => ?_
  exact (readable_concur h _ _).bind fun start => .refl _

theorem shortestPath_concur_source (settings : SearchSettings) (lookup : PathLookup)
    (r : PathRequest) :
    Concur (s.shortestPath settings lookup { r with source := .str a })
      (s.shortestPath settings lookup { r with source := .str b }) := by
  unfold shortestPath
  refine (Concur.refl _).bind fun depth => ?_
  exact (readable_concur h _ _).bind fun origin => .refl _

theorem shortestPath_concur_target (settings : SearchSettings) (lookup : PathLookup)
    (r : PathRequest) :
    Concur (s.shortestPath settings lookup { r with target := .str a })
      (s.shortestPath settings lookup { r with target := .str b }) := by
  unfold shortestPath
  refine (Concur.refl _).bind fun depth => ?_
  refine (Concur.refl _).bind fun origin => ?_
  exact (readable_concur h _ _).bind fun target => .refl _

end

end Store

namespace Action

section

variable {α β : Type} {s t : Store} {x y : Action α}

/-- What an action ends with in a store and what it leaves. -/
def ending (x : Action α) (s : Store) : Except Fault α × Store :=
  (x.run.run s).run

theorem storeAfter_of_ending {result : Except Fault α} (h : x.ending s = (result, t)) :
    x.storeAfter s = t := by
  unfold storeAfter
  exact congrArg Prod.snd h

theorem ending_bind {f : α → Action β} {a : α} (h : x.Yields s a t) :
    (x >>= f).ending s = (f a).ending t := by
  unfold Yields at h
  unfold ending
  rw [ExceptT.run_bind, StateT.run_bind]
  simp only [Id.run_bind, h]

theorem ending_bind_of_error {f : α → Action β} {e : Fault} (h : x.ending s = (.error e, t)) :
    (x >>= f).ending s = (.error e, t) := by
  unfold ending at h ⊢
  rw [ExceptT.run_bind, StateT.run_bind]
  simp only [Id.run_bind, h]
  rfl

/-- Two writes end in the same way in a store: with one answer and one store, or with faults of one
kind and the store as it was. If what was written cannot be read back, they end with the fault of
that and leave one store, which need not be as it was. -/
inductive Concur (x y : Action α) (s : Store) : Prop where
  | answered {a : α} {t : Store} (left : x.ending s = (.ok a, t)) (right : y.ending s = (.ok a, t))
  | refused {f g : Fault} (kind : f.kind = g.kind) (left : x.ending s = (.error f, s))
    (right : y.ending s = (.error g, s))
  | unread {e : Json.ReadError} {t : Store} (left : x.ending s = (.error (.unreadable e), t))
    (right : y.ending s = (.error (.unreadable e), t))

/-- Two writes end together, or with faults of one kind in whatever stores. -/
def Meet (x y : Action α) (s : Store) : Prop :=
  x.ending s = y.ending s ∨ ∃ f g t u, f.kind = g.kind ∧ x.ending s = (.error f, t) ∧
    y.ending s = (.error g, u)

end

section

variable {k : Kind} {s : Store}

theorem ending_atomically_of_error {α : Type} {x : Action α} {t : Store} {f : Fault}
    (h : x.ending s = (.error f, t)) : (atomically x).ending s = (.error f, s) := by
  change x.run.run s = _ at h
  change atomically x s = _
  unfold atomically
  rw [h]

/-- Rows that are written in the same way and then read back. -/
theorem concur_of_meet {x y : Action (Row k)} (h : x.Meet y s) :
    Concur (atomically x >>= fun row => liftM row.decode : Action (Record k))
      (atomically y >>= fun row => liftM row.decode) s := by
  rcases h with hsame | ⟨f, g, t, u, hkind, hx, hy⟩
  · cases hending : x.ending s with
    | mk result t =>
      have hending' := hsame.symm.trans hending
      cases result with
      | error f =>
        exact .refused rfl (ending_bind_of_error (ending_atomically_of_error hending))
          (ending_bind_of_error (ending_atomically_of_error hending'))
      | ok row =>
        have hx := ending_bind (f := fun row => (liftM row.decode : Action (Record k)))
          (yields_atomically.2 hending)
        have hy := ending_bind (f := fun row => (liftM row.decode : Action (Record k)))
          (yields_atomically.2 hending')
        cases hdecode : row.decode with
        | ok record =>
          rw [hdecode] at hx hy
          exact .answered hx hy
        | error f =>
          obtain ⟨e, rfl⟩ := Version.exists_of_decode_eq_error hdecode
          rw [hdecode] at hx hy
          exact .unread hx hy
  · exact .refused hkind (ending_bind_of_error (ending_atomically_of_error hx))
      (ending_bind_of_error (ending_atomically_of_error hy))

end

section

variable {k : Kind} {s : Store} {a b : String} (h : s.latest? k a = s.latest? k b)

theorem yields_requireLatest_str {id : String} {row : Row k} (h : s.latest? k id = some row) :
    (requireLatest k (.str id)).Yields s row s :=
  yields_requireLatest_iff.2 ⟨some id, Json.lookupText_str id, h, rfl⟩

theorem ending_requireLatest_of_none {id : String} (h : s.latest? k id = none) :
    (requireLatest k (.str id)).ending s = (.error (.notFound k.resource (.str id)), s) := by
  have htext : (liftM (Json.str id).lookupText : Action _).Yields s (some id) s :=
    yields_lift.2 ⟨Json.lookupText_str id, rfl⟩
  have hget : (get : Action Store).Yields s s s := yields_get.2 ⟨rfl, rfl⟩
  unfold requireLatest
  rw [ending_bind htext, ending_bind hget, Option.bind_some, h]
  rfl

include h

/-- What comes after the resolving of an id is up to the row that is found. -/
theorem meet_requireLatest_bind {β : Type} {f g : Row k → Action β}
    (hnext : ∀ current, (f current).Meet (g current) s) :
    Meet (requireLatest k (.str a) >>= f) (requireLatest k (.str b) >>= g) s := by
  cases hfound : s.latest? k a with
  | none =>
    exact .inr ⟨.notFound k.resource (.str a), .notFound k.resource (.str b), s, s, rfl,
      ending_bind_of_error (ending_requireLatest_of_none hfound),
      ending_bind_of_error (ending_requireLatest_of_none (h ▸ hfound))⟩
  | some current =>
    unfold Meet
    rw [ending_bind (yields_requireLatest_str hfound),
      ending_bind (yields_requireLatest_str (h ▸ hfound))]
    exact hnext current

/-- Changes whose objections are of one kind. -/
theorem concur_change {objection? objection?' : Row k → Option Fault}
    (hobj : ∀ r, (objection? r).map Fault.kind = (objection?' r).map Fault.kind) (c : Change)
    (actor : Json) (stamp : Stamp) :
    Concur (change k (.str a) objection? c actor stamp)
      (change k (.str b) objection?' c actor stamp) s := by
  rw [change_eq, change_eq]
  refine concur_of_meet (meet_requireLatest_bind h fun current => ?_)
  have hkind := hobj current
  cases hleft : objection? current with
  | none =>
    rw [hleft] at hkind
    rw [Option.map_eq_none_iff.1 hkind.symm]
    exact .inl rfl
  | some f =>
    rw [hleft] at hkind
    obtain ⟨g, hright, hg⟩ := Option.map_eq_some_iff.1 hkind.symm
    rw [hright]
    exact .inr ⟨f, g, s, s, hg.symm, rfl, rfl⟩

theorem concur_update (properties actor : Json) (stamp : Stamp) :
    Concur (update k (.str a) properties actor stamp) (update k (.str b) properties actor stamp)
      s := by
  refine concur_change h (fun r => ?_) _ actor stamp
  cases r.isDeleted <;> rfl

theorem concur_delete (actor : Json) (stamp : Stamp) :
    Concur (delete k (.str a) actor stamp) (delete k (.str b) actor stamp) s := by
  refine concur_change h (fun r => ?_) _ actor stamp
  cases r.isDeleted <;> rfl

theorem concur_restore (actor : Json) (stamp : Stamp) :
    Concur (restore k (.str a) actor stamp) (restore k (.str b) actor stamp) s := by
  refine concur_change h (fun r => ?_) _ actor stamp
  cases r.isDeleted <;> rfl

theorem concur_setAcl (acl actor : Json) (stamp : Stamp) :
    Concur (setAcl k (.str a) acl actor stamp) (setAcl k (.str b) acl actor stamp) s := by
  rw [setAcl_eq, setAcl_eq]
  exact concur_of_meet (meet_requireLatest_bind h fun current => .inl rfl)

end

end Action

namespace Store

variable {s : Store}

/-- In every reachable store two ids of one chain can be put for each other. The same latest version
and the same list of versions is read by either; each of the four changes gives the same answer and
leads to the same store, or fails in the same way with the store as it was, unless only the answer
cannot be read, which then happens for both after the same write; and searches from or to either of
them have the same result or faults of one kind. -/
theorem Reachable.any_version_stands_for_chain (h : s.Reachable) :
    (∀ k a b, s.SameChain k a b →
      s.getLatest k (.str a) = s.getLatest k (.str b) ∧
      s.getVersions k (.str a) = s.getVersions k (.str b) ∧
      ∀ actor stamp,
        (∀ properties, Action.Concur (Action.update k (.str a) properties actor stamp)
          (Action.update k (.str b) properties actor stamp) s) ∧
        Action.Concur (Action.delete k (.str a) actor stamp)
          (Action.delete k (.str b) actor stamp) s ∧
        Action.Concur (Action.restore k (.str a) actor stamp)
          (Action.restore k (.str b) actor stamp) s ∧
        ∀ acl, Action.Concur (Action.setAcl k (.str a) acl actor stamp)
          (Action.setAcl k (.str b) acl actor stamp) s) ∧
    ∀ a b, s.SameChain .entity a b → ∀ settings,
      (∀ r : TraversalRequest, Concur (s.traverse settings { r with start := .str a })
        (s.traverse settings { r with start := .str b })) ∧
      ∀ (lookup : PathLookup) (r : PathRequest),
        Concur (s.shortestPath settings lookup { r with source := .str a })
          (s.shortestPath settings lookup { r with source := .str b }) ∧
        Concur (s.shortestPath settings lookup { r with target := .str a })
          (s.shortestPath settings lookup { r with target := .str b }) := by
  constructor
  · intro k a b hchain
    have hlatest := (h.versioned k).latest?_congr hchain
    refine ⟨getLatest_congr hlatest, getVersions_congr hlatest, fun actor stamp => ?_⟩
    exact ⟨fun properties => Action.concur_update hlatest properties actor stamp,
      Action.concur_delete hlatest actor stamp, Action.concur_restore hlatest actor stamp,
      fun acl => Action.concur_setAcl hlatest acl actor stamp⟩
  · intro a b hchain settings
    have hlatest := (h.versioned .entity).latest?_congr hchain
    exact ⟨traverse_concur hlatest settings, fun lookup r =>
      ⟨shortestPath_concur_source hlatest settings lookup r,
        shortestPath_concur_target hlatest settings lookup r⟩⟩

/-- A note that has been replaced is deleted in the same way by the id of its first version as by
that of its second, and whoever starts from either of them gets the same. -/
theorem replaced_note_by_either_id :
    let s := empty.after
      [(.create (k := .entity) { typeId := .str "note", ends := () }, ⟨"a", 1⟩),
        (.update .entity (.str "a") (.obj [("x", .int 1)]) .null, ⟨"b", 2⟩)]
    s.SameChain .entity "a" "b" ∧
      Action.Concur (Action.delete .entity (.str "a") .null ⟨"c", 3⟩)
        (Action.delete .entity (.str "b") .null ⟨"c", 3⟩) s ∧
      Concur (s.traverse {} { start := .str "a" }) (s.traverse {} { start := .str "b" }) := by
  intro s
  have hs : s.Reachable := ⟨_, rfl⟩
  have hprecedes : ∃ r ∈ s.rows .entity, r.id = "b" ∧ r.previous = some "a" := by decide +kernel
  have hchain : s.SameChain .entity "a" "b" := .rel _ _ hprecedes
  obtain ⟨hwrites, hsearches⟩ := Reachable.any_version_stands_for_chain hs
  obtain ⟨_, _, hchanges⟩ := hwrites .entity "a" "b" hchain
  obtain ⟨_, hdelete, _⟩ := hchanges .null ⟨"c", 3⟩
  exact ⟨hchain, hdelete, (hsearches "a" "b" hchain {}).1 { start := .null }⟩

/-- A note with properties that are no JSON is deleted and restored, by either of its ids, although
both times the answer cannot be read. So a change may fail without leaving the store as it was. -/
theorem failed_restoration_of_unreadable_note :
    ¬∀ s : Store, s.Reachable → ∀ a b, s.SameChain .entity a b → ∀ actor stamp,
      (∃ record t, (Action.restore .entity (.str a) actor stamp).Yields s record t ∧
        (Action.restore .entity (.str b) actor stamp).Yields s record t) ∨
      ∃ f g : Fault, f.kind = g.kind ∧
        (Action.restore .entity (.str a) actor stamp).ending s = (.error f, s) ∧
        (Action.restore .entity (.str b) actor stamp).ending s = (.error g, s) := by
  intro hclaim
  let s := empty.after
    [(.create (k := .entity) { typeId := .str "note", ends := (), properties := .str "oops" },
      ⟨"a", 1⟩), (.delete .entity (.str "a") .null, ⟨"b", 2⟩)]
  have hprecedes : ∃ r ∈ s.rows .entity, r.id = "b" ∧ r.previous = some "a" := by decide +kernel
  have hfails : ((Action.restore .entity (.str "a") .null ⟨"c", 3⟩).fault? s).isSome = true := by
    decide +kernel
  have hchanged : (Action.restore .entity (.str "a") .null ⟨"c", 3⟩).storeAfter s ≠ s := by
    decide +kernel
  rcases hclaim s ⟨_, rfl⟩ "a" "b" (.rel _ _ hprecedes) .null ⟨"c", 3⟩ with
    ⟨record, t, hyields, _⟩ | ⟨f, g, _, hending, _⟩
  · have hnone : (Action.restore .entity (.str "a") .null ⟨"c", 3⟩).fault? s = none := by
      unfold Action.Yields at hyields
      rw [Action.fault?, hyields]
    rw [hnone] at hfails
    cases hfails
  · exact hchanged (Action.storeAfter_of_ending hending)

end Store

end VersionedGraph
