import LinearScan.Fault

/-!
# Steps that return

A step either returns, with a new state, or stops with a fault.  The lemmas here
take a composed step that returned apart into the steps it is made of, so that no
later proof has to unfold the monad.
-/

namespace LinearScan

section Results

variable {α β : Type}

/-- A composed result is only there when both of its parts are. -/
theorem exists_of_bind_eq_ok
    {x : Except Fault α} {f : α → Except Fault β} {b : β}
    (h : (x >>= f) = .ok b) :
    ∃ a, x = .ok a ∧ f a = .ok b := by
  cases x with
  | error fault => exact absurd h (by simp [bind, Except.bind])
  | ok a => exact ⟨a, rfl, h⟩

/-- A composed result is refused in one of its parts. -/
theorem exists_of_bind_eq_error
    {x : Except Fault α} {f : α → Except Fault β} {fault : Fault}
    (h : (x >>= f) = .error fault) :
    x = .error fault ∨ ∃ a, x = .ok a ∧ f a = .error fault := by
  cases x with
  | error other => exact Or.inl (by injection h with h; rw [h])
  | ok a => exact Or.inr ⟨a, rfl, h⟩

/-- Whether there is a result of which `P` holds is decided by computing it. -/
instance decidableExistsOk (x : Except Fault α) (P : α → Prop) [DecidablePred P] :
    Decidable (∃ a, x = .ok a ∧ P a) :=
  match x with
  | .ok a => decidable_of_iff (P a)
      ⟨fun h => ⟨a, rfl, h⟩, fun ⟨_, ha, h⟩ => Except.ok.inj ha ▸ h⟩
  | .error _ => .isFalse fun ⟨_, ha, _⟩ => nomatch ha

end Results

section States

variable {σ α β : Type}

/-- A composed step only returns when both of its parts do, one after the
other. -/
theorem exists_of_bind_apply_eq_ok
    {x : EStateM Fault σ α} {f : α → EStateM Fault σ β} {s s' : σ} {b : β}
    (h : (x >>= f) s = .ok b s') :
    ∃ a s₁, x s = .ok a s₁ ∧ f a s₁ = .ok b s' := by
  simp only [bind, EStateM.bind] at h
  cases hx : x s with
  | ok a s₁ =>
      rw [hx] at h
      exact ⟨a, s₁, rfl, h⟩
  | error fault s₁ =>
      rw [hx] at h
      cases h

/-- Whether a step has returned in a state of which `P` holds can be seen from its result. -/
instance decidableExistsReturned (x : EStateM.Result Fault σ Unit) (P : σ → Prop)
    [DecidablePred P] : Decidable (∃ s, x = .ok () s ∧ P s) :=
  match x with
  | .ok () s => decidable_of_iff (P s)
      ⟨fun h => ⟨s, rfl, h⟩, fun ⟨_, hs, h⟩ => (EStateM.Result.ok.inj hs).2 ▸ h⟩
  | .error _ _ => .isFalse fun ⟨_, hs, _⟩ => nomatch hs

/-- What a composed step does after its first part has returned. -/
theorem bind_apply_of_ok
    {x : EStateM Fault σ α} {f : α → EStateM Fault σ β} {s s₁ : σ} {a : α}
    (h : x s = .ok a s₁) :
    (x >>= f) s = f a s₁ := by
  simp only [bind, EStateM.bind, h]

/-- A composed step stops in its first part, or in its second part after the first one has
returned. -/
theorem bind_apply_eq_error_iff
    {x : EStateM Fault σ α} {f : α → EStateM Fault σ β} {s s' : σ} {fault : Fault} :
    (x >>= f) s = .error fault s' ↔
      x s = .error fault s' ∨ ∃ a s₁, x s = .ok a s₁ ∧ f a s₁ = .error fault s' := by
  simp only [bind, EStateM.bind]
  cases x s with
  | ok a s₁ =>
      constructor
      · exact fun h => Or.inr ⟨a, s₁, rfl, h⟩
      · rintro (h | ⟨b, s₂, h, hrest⟩)
        · cases h
        · cases h
          exact hrest
  | error cause s₁ =>
      constructor
      · intro h
        cases h
        exact Or.inl rfl
      · rintro (h | ⟨b, s₂, h, -⟩)
        · cases h
          rfl
        · cases h

/-- The fault with which a step stopped, if it did, and the state that it left. -/
def ending : EStateM.Result Fault σ α → Option Fault × σ
  | .ok _ s => (none, s)
  | .error fault s => (some fault, s)

theorem pure_cases {a b : α} {s s' : σ}
    (h : (pure a : EStateM Fault σ α) s = .ok b s') : b = a ∧ s' = s := by
  injection h with ha hs
  exact ⟨ha.symm, hs.symm⟩

@[simp]
theorem pure_apply (a : α) (s : σ) :
    (pure a : EStateM Fault σ α) s = .ok a s :=
  rfl

@[simp]
theorem get_apply (s : σ) :
    (get : EStateM Fault σ σ) s = .ok s s :=
  rfl

@[simp]
theorem set_apply (s s' : σ) :
    (set s' : EStateM Fault σ PUnit) s = .ok ⟨⟩ s' :=
  rfl

@[simp]
theorem modify_apply (f : σ → σ) (s : σ) :
    (modify f : EStateM Fault σ PUnit) s = .ok ⟨⟩ (f s) :=
  rfl

@[simp]
theorem throw_apply (fault : Fault) (s : σ) :
    (throw fault : EStateM Fault σ α) s = .error fault s :=
  rfl

end States
end LinearScan
