import VersionedGraph.Proofs.Granting

/-!
# What a resolver remembers

A request asks one resolver many things about several users, and the resolver puts down what the
store has told it, by user and permission. What is put down is what the store would say again, for
as long as it does not change. So no answer depends on what was asked before
(`Resolver.answers_eq_firstAnswers`): every user is told what a new request would find, and no one
sees what was found for someone else or for another permission.
-/

namespace VersionedGraph

/-- Someone who asks for access, nobody in particular unless they are known by an id. -/
def Json.ofUser? : Option LooseText → Json
  | some user => .str user
  | none => .null

namespace Resolver

/-- What a request may ask about access. -/
inductive Question where
  | accessibleIds (user : Option LooseText) (permission : Permission)
  | hasPermission (user : Option LooseText) (acl : Json) (permission : Permission)
  | checkAccess (user : Option LooseText) (acl resourceId : Json) (permission : Permission)
  | checkReadAccess (user : Option LooseText) (acl resourceId : Json)
  | filter (user : Option LooseText) (permission : Permission) (column : LooseText)

inductive Answer where
  | ids (ids : List Int)
  | allowed (allowed : Bool)
  | granted
  /-- The part that access plays in a query, with its words for a column. -/
  | filter (f : AclFilter Int) (predicate : LooseText)

def Question.ask (s : Store) : Question → Inquiry Answer
  | accessibleIds user permission => do
    return .ids (← Resolver.accessibleIds s (.ofUser? user) permission)
  | hasPermission user acl permission => do
    return .allowed (← Resolver.hasPermission s (.ofUser? user) acl permission)
  | checkAccess user acl resourceId permission => do
    Resolver.checkAccess s (.ofUser? user) acl resourceId permission
    return .granted
  | checkReadAccess user acl resourceId => do
    Resolver.checkAccess s (.ofUser? user) acl resourceId .read
    return .granted
  | filter user permission column => do
    let f ← Resolver.filter s (.ofUser? user) permission
    return .filter f (f.clause.predicate column)

/-- The answers of a resolver to some questions, one after another. A question that fails is
answered by its fault, and the next one is asked all the same. -/
def answers (s : Store) (r : Resolver) : List Question → List (Except Fault Answer)
  | [] => []
  | question :: rest =>
    let (answer, r) := ((question.ask s).run.run r : Except Fault Answer × Resolver)
    answer :: answers s r rest

/-- All that is remembered is about users, and is what the store says about them. -/
def Recalls (s : Store) (r : Resolver) : Prop :=
  ∀ m ∈ r.memory, ∃ user : LooseText, m.1.1 = .text user ∧
    s.accessibleIds (.str user) m.1.2 = .ok m.2

variable {s : Store} {r : Resolver} {permission : Permission} {α β : Type}

theorem recalls_of_memory_eq_nil (h : r.memory = []) : r.Recalls s := by
  intro m hm
  rw [h] at hm
  exact absurd hm List.not_mem_nil

/-- What is found under a user and a permission is about this user and this permission. -/
theorem accessibleIds_of_remembered? (hr : r.Recalls s) {user : LooseText} {ids : List Int}
    (h : r.remembered? (.text user) permission = some ids) :
    s.accessibleIds (.str user) permission = .ok ids := by
  obtain ⟨m, hfind, rfl⟩ := Option.map_eq_some_iff.1 h
  obtain ⟨other, hkey, hids⟩ := hr m (List.mem_of_find?_eq_some hfind)
  have hfound := List.find?_some hfind
  rw [hkey, Bool.and_eq_true, decide_eq_true_eq] at hfound
  obtain ⟨hsame, hpermission⟩ := hfound
  have huser : other = user := by simpa [Atom.sameAs] using hsame
  rw [huser, hpermission] at hids
  exact hids

/-- What is made of an answer of the store, put down for a user and a permission if it is one. -/
def puttingDown (r : Resolver) (user : LooseText) (permission : Permission) :
    Except Fault (List Int) → Except Fault (List Int) × Resolver
  | .ok ids => (.ok ids, { r with memory := ((.text user, permission), ids) :: r.memory })
  | .error fault => (.error fault, r)

/-- What is put down is what the store says. -/
theorem exists_puttingDown_eq (hr : r.Recalls s) (user : LooseText) (permission : Permission) :
    ∃ r' : Resolver, r'.Recalls s ∧ r'.cap = r.cap ∧
      r.puttingDown user permission (s.accessibleIds (.str user) permission) =
        (s.accessibleIds (.str user) permission, r') := by
  cases hids : s.accessibleIds (.str user) permission with
  | error fault => exact ⟨r, hr, rfl, rfl⟩
  | ok ids =>
    refine ⟨{ r with memory := ((.text user, permission), ids) :: r.memory }, ?_, rfl, rfl⟩
    intro m hm
    rcases List.mem_cons.1 hm with rfl | hm
    · exact ⟨user, rfl, hids⟩
    · exact hr m hm

/-- The store is asked about a user just when nothing is remembered. -/
theorem run_accessibleIds_str (s : Store) (r : Resolver) (user : LooseText)
    (permission : Permission) :
    (accessibleIds s (.str user) permission).run.run r =
      match r.remembered? (.text user) permission with
      | some ids => (.ok ids, r)
      | none => r.puttingDown user permission (s.accessibleIds (.str user) permission) := by
  have hrun : (accessibleIds s (.str user) permission).run.run r =
      ((match r.remembered? (.text user) permission with
        | some ids => pure ids
        | none => do
          let ids ← s.accessibleIds (.str user) permission
          modify fun r => { r with memory := ((.text user, permission), ids) :: r.memory }
          return ids : Inquiry (List Int))).run.run r := rfl
  rw [hrun]
  cases r.remembered? (.text user) permission with
  | some ids => rfl
  | none => cases s.accessibleIds (.str user) permission <;> rfl

/-- A resolver that recalls what the store says answers what the store says, and goes on to. -/
theorem exists_run_accessibleIds_of_recalls (hr : r.Recalls s) (user : Option LooseText)
    (permission : Permission) :
    ∃ r' : Resolver, r'.Recalls s ∧ r'.cap = r.cap ∧
      (accessibleIds s (.ofUser? user) permission).run.run r =
        (s.accessibleIds (.ofUser? user) permission, r') := by
  cases user with
  | none => exact ⟨r, hr, rfl, rfl⟩
  | some user =>
    rw [Json.ofUser?, run_accessibleIds_str]
    cases hknown : r.remembered? (.text user) permission with
    | some ids =>
      rw [accessibleIds_of_remembered? hr hknown]
      exact ⟨r, hr, rfl, rfl⟩
    | none => exact exists_puttingDown_eq hr user permission

/-- Whatever a resolver has been asked before, it answers an inquiry as a new one does, and still
recalls what the store says. -/
def Steady (s : Store) (inquiry : Inquiry α) : Prop :=
  ∀ r : Resolver, r.Recalls s → ∃ r' : Resolver, r'.Recalls s ∧ r'.cap = r.cap ∧
    inquiry.run.run r = (firstAnswer r.cap inquiry, r')

/-- What neither reads the memory nor changes it is answered alike. -/
theorem steady_of_run {inquiry : Inquiry α} (answer : Json → Except Fault α)
    (h : ∀ r : Resolver, inquiry.run.run r = (answer r.cap, r)) : Steady s inquiry := by
  intro r hr
  have hfirst : firstAnswer r.cap inquiry = answer r.cap := congrArg Prod.fst (h { cap := r.cap })
  exact ⟨r, hr, rfl, hfirst ▸ h r⟩

theorem steady_pure (a : α) : Steady s (pure a : Inquiry α) :=
  steady_of_run (fun _ => .ok a) fun _ => rfl

theorem steady_throw (fault : Fault) : Steady s (throw fault : Inquiry α) :=
  steady_of_run (fun _ => .error fault) fun _ => rfl

/-- The second of two inquiries finds the memory that the first one leaves, which is as good as
none. -/
theorem Steady.bind {inquiry : Inquiry α} {next : α → Inquiry β} (h : Steady s inquiry)
    (hnext : ∀ a, Steady s (next a)) : Steady s (inquiry >>= next) := by
  intro r hr
  obtain ⟨r₁, hr₁, hcap₁, hrun₁⟩ := h r hr
  obtain ⟨r₀, hr₀, hcap₀, hrun₀⟩ := h { cap := r.cap } (recalls_of_memory_eq_nil rfl)
  unfold firstAnswer
  rw [ExceptT.run_bind, StateT.run_bind, StateT.run_bind, hrun₁, hrun₀]
  cases firstAnswer r.cap inquiry with
  | error fault => exact ⟨r₁, hr₁, hcap₁, rfl⟩
  | ok a =>
    obtain ⟨r₂, hr₂, hcap₂, hrun₂⟩ := hnext a r₁ hr₁
    obtain ⟨_, _, _, hfirst₂⟩ := hnext a r₀ hr₀
    refine ⟨r₂, hr₂, hcap₂.trans hcap₁, ?_⟩
    change (next a).run.run r₁ = (((next a).run.run r₀).1, r₂)
    rw [hrun₂, hfirst₂, hcap₁, hcap₀]

theorem steady_accessibleIds (s : Store) (user : Option LooseText) (permission : Permission) :
    Steady s (accessibleIds s (.ofUser? user) permission) := by
  intro r hr
  obtain ⟨r', hr', hcap, hrun⟩ := exists_run_accessibleIds_of_recalls hr user permission
  refine ⟨r', hr', hcap, ?_⟩
  rw [hrun, firstAnswer_accessibleIds]

theorem steady_hasPermission (s : Store) (user : Option LooseText) (acl : Json)
    (permission : Permission) : Steady s (hasPermission s (.ofUser? user) acl permission) := by
  unfold hasPermission isAllowed
  split
  · exact steady_pure _
  · split
    · exact steady_pure _
    · refine (steady_accessibleIds s user permission).bind fun ids => ?_
      cases Atom.ofJson acl with
      | ok acl => exact steady_pure _
      | error fault => exact steady_throw _

theorem steady_checkAccess (s : Store) (user : Option LooseText) (acl resourceId : Json)
    (permission : Permission) :
    Steady s (checkAccess s (.ofUser? user) acl resourceId permission) := by
  refine (steady_hasPermission s user acl permission).bind fun allowed => ?_
  cases allowed with
  | true => exact steady_pure ()
  | false => exact steady_throw _

theorem steady_filter (s : Store) (user : Option LooseText) (permission : Permission) :
    Steady s (filter s (.ofUser? user) permission) :=
  (steady_accessibleIds s user permission).bind fun ids =>
    steady_of_run (fun cap =>
      (Acl.filterFor ids (!(Json.ofUser? user).isNull) cap).mapError .misuse) fun _ => rfl

theorem Question.steady_ask (s : Store) (question : Question) : Steady s (question.ask s) := by
  cases question with
  | accessibleIds user permission =>
    exact (steady_accessibleIds s user permission).bind fun _ => steady_pure _
  | hasPermission user acl permission =>
    exact (steady_hasPermission s user acl permission).bind fun _ => steady_pure _
  | checkAccess user acl resourceId permission =>
    exact (steady_checkAccess s user acl resourceId permission).bind fun _ => steady_pure _
  | checkReadAccess user acl resourceId =>
    exact (steady_checkAccess s user acl resourceId .read).bind fun _ => steady_pure _
  | filter user permission column =>
    exact (steady_filter s user permission).bind fun _ => steady_pure _

theorem answers_of_recalls (hr : r.Recalls s) (questions : List Question) :
    answers s r questions = questions.map fun question => firstAnswer r.cap (question.ask s) := by
  induction questions generalizing r with
  | nil => rfl
  | cons question rest ih =>
    obtain ⟨r', hr', hcap, hrun⟩ := question.steady_ask s r hr
    rw [answers, hrun, List.map_cons, ← hcap, ← ih hr']

/-- A resolver that is asked many things, of any sort and about any users and permissions, answers
each of them as a new resolver would, with the same ids, words and faults. -/
theorem answers_eq_firstAnswers (s : Store) (cap : Json) (questions : List Question) :
    answers s { cap } questions = questions.map fun question => firstAnswer cap (question.ask s) :=
  answers_of_recalls (recalls_of_memory_eq_nil rfl) questions

end Resolver

end VersionedGraph
