import Ifj24.Text.Bytes

/-!
Computations with a state as functions of that state.
-/

namespace Ifj24

variable {ε σ α β : Type}

@[simp] theorem bind_apply (m : EStateM ε σ α) (f : α → EStateM ε σ β) (s : σ) :
    (m >>= f) s =
      match m s with
      | .ok a s' => f a s'
      | .error d s' => .error d s' := rfl

/-- What a sequence of two steps that succeeds is made of. -/
theorem bind_eq_ok {m : EStateM ε σ α} {f : α → EStateM ε σ β} {s s'' : σ} {b : β}
    (h : (m >>= f) s = .ok b s'') : ∃ a s', m s = .ok a s' ∧ f a s' = .ok b s'' := by
  rw [bind_apply] at h
  cases hm : m s with
  | error d s' =>
    rw [hm] at h
    cases h
  | ok a s' =>
    rw [hm] at h
    exact ⟨a, s', rfl, h⟩

@[simp] theorem map_apply (f : α → β) (m : EStateM ε σ α) (s : σ) :
    (f <$> m) s =
      match m s with
      | .ok a s' => .ok (f a) s'
      | .error d s' => .error d s' := rfl

@[simp] theorem pure_apply (a : α) (s : σ) : (pure a : EStateM ε σ α) s = .ok a s := rfl

@[simp] theorem throw_apply (d : ε) (s : σ) : (throw d : EStateM ε σ α) s = .error d s := rfl

@[simp] theorem get_apply (s : σ) : (get : EStateM ε σ σ) s = .ok s s := rfl

@[simp] theorem set_apply (s s' : σ) : (set s' : EStateM ε σ Unit) s = .ok () s' := rfl

@[simp] theorem modify_apply (f : σ → σ) (s : σ) :
    (modify f : EStateM ε σ Unit) s = .ok () (f s) := rfl

/-! How a run ends, and whether what it ends with has a property, is found by running it. -/

instance decidableSucceeds {P : α → σ → Prop} [∀ a s, Decidable (P a s)] :
    (r : EStateM.Result ε σ α) → Decidable (∃ a s, r = .ok a s ∧ P a s)
  | .ok a s => decidable_of_iff (P a s) (by simp [and_assoc])
  | .error .. => .isFalse (by simp)

instance decidableOk {P : α → Prop} [∀ a, Decidable (P a)] :
    (x : Except ε α) → Decidable (∃ a, x = .ok a ∧ P a)
  | .ok a => decidable_of_iff (P a) (by simp)
  | .error _ => .isFalse (by simp)

instance decidableError {P : ε → Prop} [∀ d, Decidable (P d)] :
    (x : Except ε α) → Decidable (∃ d, x = .error d ∧ P d)
  | .ok _ => .isFalse (by simp)
  | .error d => decidable_of_iff (P d) (by simp)

end Ifj24
