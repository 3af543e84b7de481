import Mathlib.Data.List.Forall2

/-!
# Outcomes

A computation that may fail succeeds when each of its steps does. These lemmas take such
computations apart.
-/

namespace VersionedGraph

variable {ε ε' α β : Type}

@[simp] theorem bind_eq_ok_iff {x : Except ε α} {f : α → Except ε β} {b : β} :
    x >>= f = .ok b ↔ ∃ a, x = .ok a ∧ f a = .ok b := by
  cases x with
  | ok a => simp [bind, Except.bind]
  | error e => simp [bind, Except.bind]

@[simp] theorem ok_bind (a : α) (f : α → Except ε β) : Except.ok a >>= f = f a := rfl

theorem bind_eq_error_iff {x : Except ε α} {f : α → Except ε β} {e : ε} :
    x >>= f = .error e ↔ x = .error e ∨ ∃ a, x = .ok a ∧ f a = .error e := by
  cases x with
  | ok a => simp [bind, Except.bind]
  | error e => simp [bind, Except.bind]

@[simp] theorem pure_eq_ok_iff {a b : α} : (pure a : Except ε α) = .ok b ↔ a = b := by
  simp [pure, Except.pure]

@[simp] theorem mapError_ok (a : α) (f : ε → ε') : (Except.ok a).mapError f = .ok a := rfl

@[simp] theorem mapError_eq_ok_iff {x : Except ε α} {f : ε → ε'} {a : α} :
    x.mapError f = .ok a ↔ x = .ok a := by
  cases x <;> simp [Except.mapError]

theorem toOption_eq_some_iff {x : Except ε α} {a : α} : x.toOption = some a ↔ x = .ok a := by
  cases x <;> simp [Except.toOption]

theorem ne_error_of_map {x : Except ε α} {f : α → β} {b : β} (h : x.map f = .ok b) (e : ε) :
    x ≠ .error e := by
  rintro rfl
  cases h

theorem map_eq_ok_iff {x : Except ε α} {f : α → β} {b : β} :
    x.map f = .ok b ↔ ∃ a, x = .ok a ∧ f a = b := by
  cases x <;> simp [Except.map]

theorem mapM_eq_ok_iff {f : α → Except ε β} {items : List α} {results : List β} :
    items.mapM f = .ok results ↔ List.Forall₂ (fun a b => f a = .ok b) items results := by
  induction items generalizing results with
  | nil =>
    rw [List.mapM_nil, pure_eq_ok_iff, List.forall₂_nil_left_iff]
    exact eq_comm
  | cons a rest ih =>
    rw [List.mapM_cons, bind_eq_ok_iff, List.forall₂_cons_left_iff]
    simp only [bind_eq_ok_iff, pure_eq_ok_iff, ih]
    constructor
    · rintro ⟨b, hb, bs, hbs, rfl⟩
      exact ⟨b, bs, hb, hbs, rfl⟩
    · rintro ⟨b, bs, hb, hbs, rfl⟩
      exact ⟨b, hb, bs, hbs, rfl⟩

theorem mapM_congr {f g : α → Except ε β} {items : List α} (h : ∀ a ∈ items, f a = g a) :
    items.mapM f = items.mapM g := by
  induction items with
  | nil => rfl
  | cons a rest ih =>
    rw [List.mapM_cons, List.mapM_cons, h a List.mem_cons_self,
      ih fun a ha => h a (List.mem_cons_of_mem _ ha)]

theorem mapM_bind_pure {γ : Type} {f : α → Except ε β} {g : β → γ} (items : List α) :
    items.mapM (fun a => f a >>= fun b => pure (g b)) =
      items.mapM f >>= fun bs => pure (bs.map g) := by
  induction items with
  | nil => rfl
  | cons a rest ih => simp only [List.mapM_cons, ih, bind_assoc, pure_bind, List.map_cons]

theorem exists_mapM_eq_ok {f : α → Except ε β} {items : List α}
    (h : ∀ a ∈ items, ∃ b, f a = .ok b) : ∃ results, items.mapM f = .ok results := by
  induction items with
  | nil => exact ⟨[], rfl⟩
  | cons a rest ih =>
    obtain ⟨b, hb⟩ := h a List.mem_cons_self
    obtain ⟨bs, hbs⟩ := ih fun a ha => h a (List.mem_cons_of_mem _ ha)
    exact ⟨b :: bs, by simp [List.mapM_cons, hb, hbs]⟩

/-- Mapping fails only where an item cannot be mapped. -/
theorem exists_mem_of_mapM_eq_error {f : α → Except ε β} {items : List α} {e : ε}
    (h : items.mapM f = .error e) : ∃ a ∈ items, f a = .error e := by
  induction items with
  | nil => cases h
  | cons a rest ih =>
    rw [List.mapM_cons] at h
    cases ha : f a with
    | error e' =>
      rw [ha] at h
      cases h
      exact ⟨a, List.mem_cons_self, ha⟩
    | ok b =>
      cases hrest : rest.mapM f with
      | error e' =>
        rw [ha, hrest] at h
        cases h
        obtain ⟨c, hc, hfc⟩ := ih hrest
        exact ⟨c, List.mem_cons_of_mem _ hc, hfc⟩
      | ok bs =>
        rw [ha, hrest] at h
        cases h

/-- Items that are alike pair by pair have results that are alike pair by pair. -/
theorem map_eq_map_of_mapM {γ δ : Type} {R : α → β → Prop} {f : α → Except ε γ}
    {g : β → Except ε' γ} {view : γ → δ} {items : List α} {items' : List β}
    {results results' : List γ} (h : List.Forall₂ R items items') (hf : items.mapM f = .ok results)
    (hg : items'.mapM g = .ok results')
    (hstep : ∀ a b c d, R a b → f a = .ok c → g b = .ok d → view c = view d) :
    results.map view = results'.map view := by
  induction h generalizing results results' with
  | nil =>
    cases hf
    cases hg
    rfl
  | cons hab _ ih =>
    rw [List.mapM_cons] at hf hg
    simp only [bind_eq_ok_iff, pure_eq_ok_iff] at hf hg
    obtain ⟨c, hc, rest, hrest, rfl⟩ := hf
    obtain ⟨d, hd, rest', hrest', rfl⟩ := hg
    rw [List.map_cons, List.map_cons, hstep _ _ c d hab hc hd, ih hrest hrest']

theorem mem_iff_of_mapM_eq_ok {f : α → Except ε β} {items : List α} {results : List β}
    (h : items.mapM f = .ok results) {b : β} : b ∈ results ↔ ∃ a ∈ items, f a = .ok b := by
  rw [mapM_eq_ok_iff] at h
  induction h with
  | nil => simp
  | cons hab _ ih => simp [ih, hab, eq_comm]

theorem exists_mem_of_forall₂ {R : α → β → Prop} {as : List α} {bs : List β}
    (h : List.Forall₂ R as bs) {a : α} (ha : a ∈ as) : ∃ b ∈ bs, R a b := by
  induction h with
  | nil => cases ha
  | cons hab _ ih =>
    rcases List.mem_cons.1 ha with rfl | ha
    · exact ⟨_, List.mem_cons_self, hab⟩
    · obtain ⟨b, hb, hab⟩ := ih ha
      exact ⟨b, List.mem_cons_of_mem _ hb, hab⟩

theorem exists_of_mem_of_mapM_eq_ok {f : α → Except ε β} {items : List α} {results : List β}
    (h : items.mapM f = .ok results) {a : α} (ha : a ∈ items) : ∃ b ∈ results, f a = .ok b :=
  exists_mem_of_forall₂ (mapM_eq_ok_iff.1 h) ha

/-- Dropping results afterwards comes to mapping fewer items, unless one of the others fails. -/
theorem mapM_filter_cases {f : α → Except ε β} {keep : α → Bool} {keep' : β → Bool}
    {items : List α} (h : ∀ a ∈ items, ∀ b, f a = .ok b → keep' b = keep a) :
    (∃ a ∈ items, keep a = false ∧ ∃ e, f a = .error e ∧ items.mapM f = .error e) ∨
      (items.mapM f).map (List.filter keep') = (items.filter keep).mapM f := by
  induction items with
  | nil => exact .inr rfl
  | cons a rest ih =>
    have hrest := ih fun a ha => h a (List.mem_cons_of_mem _ ha)
    rw [List.mapM_cons, List.filter_cons]
    cases ha : f a with
    | error e =>
      cases hkeep : keep a with
      | true =>
        refine .inr ?_
        rw [if_pos rfl, List.mapM_cons, ha]
        rfl
      | false => exact .inl ⟨a, List.mem_cons_self, hkeep, e, ha, rfl⟩
    | ok b =>
      have hb := h a List.mem_cons_self b ha
      rcases hrest with ⟨c, hc, hkeep, e, hfails, hmap⟩ | hmap
      · refine .inl ⟨c, List.mem_cons_of_mem a hc, hkeep, e, hfails, ?_⟩
        rw [hmap]
        rfl
      · refine .inr ?_
        cases hbs : rest.mapM f with
        | error e =>
          rw [hbs] at hmap
          cases hkeep : keep a with
          | true =>
            rw [if_pos rfl, List.mapM_cons, ha, ← hmap]
            rfl
          | false =>
            rw [if_neg Bool.false_ne_true, ← hmap]
            rfl
        | ok bs =>
          rw [hbs] at hmap
          rw [ok_bind, ok_bind]
          change Except.ok ((b :: bs).filter keep') = _
          rw [List.filter_cons, hb]
          cases hkeep : keep a with
          | true =>
            rw [if_pos rfl, if_pos rfl, List.mapM_cons, ha, ← hmap]
            rfl
          | false =>
            rw [if_neg Bool.false_ne_true, if_neg Bool.false_ne_true, ← hmap]
            rfl

/-- Checks that cannot fail need not be made. -/
theorem forM_append_of_ok {f : α → Except ε PUnit} {items more : List α}
    (h : ∀ a ∈ more, f a = .ok ⟨⟩) : (items ++ more).forM f = items.forM f := by
  induction items with
  | nil =>
    induction more with
    | nil => rfl
    | cons a rest ih =>
      change (f a >>= fun _ => rest.forM f) = _
      rw [h a List.mem_cons_self]
      exact ih fun b hb => h b (List.mem_cons_of_mem a hb)
  | cons a rest ih =>
    change (f a >>= fun _ => (rest ++ more).forM f) = f a >>= fun _ => rest.forM f
    rw [ih]

theorem exists_mem_of_forM_eq_error {f : α → Except ε Unit} {items : List α} {e : ε}
    (h : items.forM f = .error e) : ∃ a ∈ items, f a = .error e := by
  induction items with
  | nil => cases h
  | cons a rest ih =>
    change (f a >>= fun _ => rest.forM f) = .error e at h
    rcases bind_eq_error_iff.1 h with h | ⟨_, _, h⟩
    · exact ⟨a, List.mem_cons_self, h⟩
    · obtain ⟨a', ha', hfails⟩ := ih h
      exact ⟨a', List.mem_cons_of_mem a ha', hfails⟩

/-- A run of steps fails only in one of them. -/
theorem exists_mem_of_foldlM_eq_error {f : β → α → Except ε β} {items : List α} {b : β} {e : ε}
    (h : items.foldlM f b = .error e) : ∃ a ∈ items, ∃ c, f c a = .error e := by
  induction items generalizing b with
  | nil => cases h
  | cons a rest ih =>
    rw [List.foldlM_cons, bind_eq_error_iff] at h
    rcases h with h | ⟨c, _, h⟩
    · exact ⟨a, List.mem_cons_self, b, h⟩
    · obtain ⟨a', ha', hfails⟩ := ih h
      exact ⟨a', List.mem_cons_of_mem a ha', hfails⟩

end VersionedGraph
