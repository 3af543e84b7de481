import VersionedGraph.Store.Basic

/-!
# What actions do

An action that succeeds relates the store before it to an answer and to the store after it
(`Action.Yields`), and actions one after the other compose as such relations. What matters of one
that fails is only what it leaves behind (`Action.storeAfter`).
-/

namespace VersionedGraph

namespace Action

variable {α β γ : Type}

/-- An action that starts in a store succeeds with an answer and ends in another store. -/
def Yields (x : Action α) (s : Store) (a : α) (t : Store) : Prop :=
  (x.run.run s).run = (.ok a, t)

/-- The store that an action leaves, whether it succeeds or fails. -/
def storeAfter (x : Action α) (s : Store) : Store :=
  (x.run.run s).run.2

theorem storeAfter_of_yields {x : Action α} {s t : Store} {a : α} (h : x.Yields s a t) :
    x.storeAfter s = t :=
  congrArg Prod.snd h

/-- What an action yields is its answer and what it leaves. -/
theorem yields_iff {x : Action α} {s t : Store} {a : α} :
    x.Yields s a t ↔ (x.run.run s).run.1.toOption = some a ∧ x.storeAfter s = t := by
  unfold Yields storeAfter
  generalize (x.run.run s).run = outcome
  obtain ⟨result, left⟩ := outcome
  cases result with
  | ok b => simp [Except.toOption]
  | error e => simp [Except.toOption]

@[simp] theorem yields_pure {s t : Store} {a b : α} :
    (pure a : Action α).Yields s b t ↔ a = b ∧ s = t := by
  constructor
  · intro h
    cases h
    exact ⟨rfl, rfl⟩
  · rintro ⟨rfl, rfl⟩
    rfl

@[simp] theorem yields_bind {x : Action α} {f : α → Action β} {s t : Store} {b : β} :
    (x >>= f).Yields s b t ↔ ∃ a u, x.Yields s a u ∧ (f a).Yields u b t := by
  unfold Yields
  rw [ExceptT.run_bind, StateT.run_bind]
  cases h : x.run.run s with
  | mk result u =>
    cases result with
    | ok a =>
      constructor
      · intro hf
        exact ⟨a, u, rfl, hf⟩
      · rintro ⟨_, _, ⟨rfl, rfl⟩, hf⟩
        exact hf
    | error e =>
      constructor
      · intro hf
        cases hf
      · rintro ⟨_, _, ⟨⟩, _⟩

@[simp] theorem yields_get {s t a : Store} : (get : Action Store).Yields s a t ↔ s = a ∧ s = t := by
  constructor
  · intro h
    cases h
    exact ⟨rfl, rfl⟩
  · rintro ⟨rfl, rfl⟩
    rfl

@[simp] theorem yields_set {s t u : Store} {a : Unit} :
    (set u : Action Unit).Yields s a t ↔ u = t := by
  constructor
  · intro h
    cases h
    rfl
  · rintro rfl
    rfl

@[simp] theorem yields_modify {s t : Store} {f : Store → Store} {a : Unit} :
    (modify f : Action Unit).Yields s a t ↔ f s = t := by
  constructor
  · intro h
    cases h
    rfl
  · rintro rfl
    rfl

@[simp] theorem not_yields_throw {s t : Store} {a : α} {e : Fault} :
    ¬(throw e : Action α).Yields s a t := by
  intro h
  cases h

@[simp] theorem yields_lift {x : Except Fault α} {s t : Store} {a : α} :
    (liftM x : Action α).Yields s a t ↔ x = .ok a ∧ s = t := by
  cases x with
  | ok b =>
    constructor
    · intro h
      cases h
      exact ⟨rfl, rfl⟩
    · rintro ⟨h, rfl⟩
      cases h
      rfl
  | error e =>
    constructor
    · intro h
      cases h
    · rintro ⟨h, _⟩
      cases h

/-- An action behind a guard goes on only where the guard lets it. -/
@[simp] theorem yields_guard {p : Prop} [Decidable p] {e : Fault} {f : β → Action α} {x : Action α}
    {s t : Store} {a : α} :
    (if p then (throw e : Action β) >>= f else x).Yields s a t ↔ ¬p ∧ x.Yields s a t := by
  by_cases hp : p
  · simp [hp]
  · simp [hp]

@[simp] theorem yields_atomically {x : Action α} {s t : Store} {a : α} :
    (atomically x).Yields s a t ↔ x.Yields s a t :=
  atomically_of_ok

/-- An atomic action either succeeds as it would by itself or leaves the store as it was. -/
theorem storeAfter_atomically {P : Store → Prop} {x : Action α} {s : Store} (hfail : P s)
    (hok : ∀ a t, x.Yields s a t → P t) : P ((atomically x).storeAfter s) := by
  unfold storeAfter atomically
  simp only [ExceptT.run, StateT.run]
  cases h : x s with
  | mk result t =>
    cases result with
    | ok a => exact hok a t h
    | error e => exact hfail

/-! What an action leaves, step by step. -/

@[simp] theorem storeAfter_pure (a : α) (s : Store) : (pure a : Action α).storeAfter s = s := rfl

@[simp] theorem storeAfter_throw (e : Fault) (s : Store) :
    (throw e : Action α).storeAfter s = s := rfl

@[simp] theorem storeAfter_throw_bind (e : Fault) (f : α → Action β) (s : Store) :
    ((throw e : Action α) >>= f).storeAfter s = s := rfl

@[simp] theorem storeAfter_lift (x : Except Fault α) (s : Store) :
    (liftM x : Action α).storeAfter s = s := by
  cases x <;> rfl

@[simp] theorem storeAfter_set (s t : Store) : (set t : Action Unit).storeAfter s = t := rfl

@[simp] theorem storeAfter_set_bind (f : Unit → Action β) (s t : Store) :
    ((set t : Action Unit) >>= f).storeAfter s = (f ()).storeAfter t := rfl

@[simp] theorem storeAfter_get_bind (f : Store → Action β) (s : Store) :
    ((get : Action Store) >>= f).storeAfter s = (f s).storeAfter s := rfl

/-- A step that may fail but writes nothing leaves what comes after it leaves, or the store as it
was. -/
theorem storeAfter_lift_bind {P : Store → Prop} {x : Except Fault α} {f : α → Action β} {s : Store}
    (hfail : P s) (hok : ∀ a, x = .ok a → P ((f a).storeAfter s)) :
    P (((liftM x : Action α) >>= f).storeAfter s) := by
  cases x with
  | ok a => exact hok a rfl
  | error e => exact hfail

/-- Reading what was written changes nothing about what is left. -/
@[simp] theorem storeAfter_bind_lift (x : Action α) (f : α → Except Fault β) (s : Store) :
    (x >>= fun a => liftM (f a)).storeAfter s = x.storeAfter s := by
  unfold storeAfter
  rw [ExceptT.run_bind, StateT.run_bind]
  cases h : x.run.run s with
  | mk result t =>
    cases result with
    | ok a => exact storeAfter_lift (f a) t
    | error e => rfl

end Action

end VersionedGraph
