import TemporalPlanning.Execution.Transition

namespace TemporalPlanning

variable {α β : Type}

theorem except_bind_ok {ε : Type} {x : Except ε α} {f : α → Except ε β} {b : β} :
    x >>= f = .ok b ↔ ∃ a, x = .ok a ∧ f a = .ok b := by
  cases x <;> simp [bind, Except.bind]

theorem except_pure_ok {ε : Type} {a b : α} : (pure a : Except ε α) = .ok b ↔ a = b := by
  simp [pure, Except.pure]

theorem except_map_ok {ε : Type} {x : Except ε α} {f : α → β} {b : β} :
    f <$> x = .ok b ↔ ∃ a, x = .ok a ∧ f a = b := by
  cases x <;> simp [Functor.map, Except.map]

theorem except_toOption {ε : Type} {x : Except ε α} {a : α} :
    x.toOption = some a ↔ x = .ok a := by
  cases x <;> simp [Except.toOption]

theorem except_ok_of_toOption {ε ε' : Type} {x : Except ε (Except ε' α)} {a : α}
    (h : x.toOption.bind Except.toOption = some a) : x = .ok (.ok a) := by
  obtain ⟨_, hx, ha⟩ := Option.bind_eq_some_iff.mp h
  rw [except_toOption] at hx ha
  exact hx.trans (congrArg _ ha)

section Fold

variable {ε : Type} {f : α → β → Except ε α} {P : α → Prop} {xs : List β} {a b : α}

theorem foldlM_keeps (hf : ∀ a x b, f a x = .ok b → P a → P b) (h : xs.foldlM f a = .ok b)
    (ha : P a) : P b := by
  induction xs generalizing a with
  | nil =>
      obtain rfl := except_pure_ok.mp h
      exact ha
  | cons x xs ih =>
      rw [List.foldlM_cons, except_bind_ok] at h
      obtain ⟨next, hx, h⟩ := h
      exact ih h (hf a x next hx ha)

theorem foldlM_reaches (hf : ∀ a x b, f a x = .ok b → P a → P b) {x : β} (hx : x ∈ xs)
    (hreach : ∀ a b, f a x = .ok b → P b) (h : xs.foldlM f a = .ok b) : P b := by
  obtain ⟨before, after, rfl⟩ := List.append_of_mem hx
  rw [List.foldlM_append, except_bind_ok] at h
  obtain ⟨c, -, h⟩ := h
  rw [List.foldlM_cons, except_bind_ok] at h
  obtain ⟨d, hd, h⟩ := h
  exact foldlM_keeps hf h (hreach c d hd)

end Fold

namespace Attempt

def Gives (x : Attempt α) (a : α) : Prop := x.run = .ok (.ok a)

theorem gives_bind {x : Attempt α} {f : α → Attempt β} {b : β} :
    (x >>= f).Gives b ↔ ∃ a, x.Gives a ∧ (f a).Gives b := by
  unfold Gives
  rw [ExceptT.run_bind, except_bind_ok]
  constructor
  · rintro ⟨r, hr, h⟩
    cases r with
    | ok a => exact ⟨a, hr, h⟩
    | error c => simp [pure, Except.pure] at h
  · rintro ⟨a, ha, h⟩
    exact ⟨.ok a, ha, h⟩

@[simp] theorem gives_pure {a b : α} : (pure a : Attempt α).Gives b ↔ a = b := by
  change (Except.ok (Except.ok a) : Except Fault (Except Cause α)) = .ok (.ok b) ↔ a = b
  simp

@[simp] theorem gives_require {c : Bool} {cause : Cause} {u : Unit} :
    (require c cause).Gives u ↔ c = true := by
  cases c <;>
    simp [Gives, require, refuse, ExceptT.mk, ExceptT.run, pure, ExceptT.pure, Except.pure]

@[simp] theorem gives_ofExcept {x : Except Fault α} {a : α} :
    (ofExcept x).Gives a ↔ x = .ok a := by
  cases x <;> simp [Gives, ofExcept, ExceptT.mk, ExceptT.run, Except.map]

@[simp] theorem not_gives_fault {f : Fault} {a : α} : ¬ (fault f : Attempt α).Gives a := by
  simp [Gives, fault, ExceptT.mk, ExceptT.run]

@[simp] theorem not_gives_refuse {c : Cause} {a : α} : ¬ (refuse c : Attempt α).Gives a := by
  simp [Gives, refuse, ExceptT.mk, ExceptT.run]

def Refuses (x : Attempt α) (c : Cause) : Prop := x.run = .ok (.error c)

theorem refuses_bind {x : Attempt α} {f : α → Attempt β} {c : Cause} :
    (x >>= f).Refuses c ↔ x.Refuses c ∨ ∃ a, x.Gives a ∧ (f a).Refuses c := by
  unfold Refuses Gives
  rw [ExceptT.run_bind, except_bind_ok]
  constructor
  · rintro ⟨r, hr, h⟩
    cases r with
    | ok a => exact .inr ⟨a, hr, h⟩
    | error c' =>
        obtain rfl : c' = c := by simpa [except_pure_ok] using h
        exact .inl hr
  · rintro (h | ⟨a, ha, h⟩)
    · exact ⟨.error c, h, rfl⟩
    · exact ⟨.ok a, ha, h⟩

@[simp] theorem not_refuses_pure {a : α} {c : Cause} : ¬ (pure a : Attempt α).Refuses c := by
  change ¬ (Except.ok (Except.ok a) : Except Fault (Except Cause α)) = .ok (.error c)
  simp

@[simp] theorem refuses_require {b : Bool} {c c' : Cause} :
    (require b c).Refuses c' ↔ b = false ∧ c = c' := by
  cases b <;>
    simp [Refuses, require, refuse, ExceptT.mk, ExceptT.run, pure, ExceptT.pure, Except.pure]

@[simp] theorem not_refuses_ofExcept {x : Except Fault α} {c : Cause} :
    ¬ (ofExcept x).Refuses c := by
  cases x <;> simp [Refuses, ofExcept, ExceptT.mk, ExceptT.run, Except.map]

@[simp] theorem not_refuses_fault {f : Fault} {c : Cause} :
    ¬ (fault f : Attempt α).Refuses c := by
  simp [Refuses, fault, ExceptT.mk, ExceptT.run]

@[simp] theorem refuses_refuse {c c' : Cause} : (refuse c : Attempt α).Refuses c' ↔ c = c' := by
  simp [Refuses, refuse, ExceptT.mk, ExceptT.run]

def RefusesOnly (x : Attempt α) (P : Cause → Prop) : Prop := ∀ c, x.Refuses c → P c

section RefusesOnly

variable {P : Cause → Prop}

theorem RefusesOnly.bind {x : Attempt α} {f : α → Attempt β} (hx : x.RefusesOnly P)
    (hf : ∀ a, (f a).RefusesOnly P) : (x >>= f).RefusesOnly P := by
  intro c h
  rcases refuses_bind.mp h with h | ⟨a, -, h⟩
  · exact hx c h
  · exact hf a c h

theorem refusesOnly_pure (a : α) : (pure a : Attempt α).RefusesOnly P := fun _ h =>
  absurd h not_refuses_pure

theorem refusesOnly_ofExcept (x : Except Fault α) : (ofExcept x).RefusesOnly P := fun _ h =>
  absurd h not_refuses_ofExcept

theorem refusesOnly_fault (f : Fault) : (fault f : Attempt α).RefusesOnly P := fun _ h =>
  absurd h not_refuses_fault

theorem refusesOnly_require (b : Bool) {c : Cause} (hc : P c) : (require b c).RefusesOnly P :=
  fun _ h => (refuses_require.mp h).2 ▸ hc

end RefusesOnly

end Attempt

namespace Logged

def Gives (x : Logged α) (a : α) : Prop := ∃ records, ((ExceptT.run x).run records).1 = .ok a

theorem gives_of_outcome {x : Logged α} {a : α} (h : x.outcome.1 = .ok a) : x.Gives a := ⟨[], h⟩

theorem gives_bind {x : Logged α} {f : α → Logged β} {b : β} (h : (x >>= f).Gives b) :
    ∃ a, x.Gives a ∧ (f a).Gives b := by
  obtain ⟨records, h⟩ := h
  simp only [ExceptT.run_bind, StateT.run_bind] at h
  cases hx : (ExceptT.run x).run records with
  | mk r records' =>
      rw [hx] at h
      cases r with
      | ok a => exact ⟨a, ⟨records, by rw [hx]⟩, records', h⟩
      | error e =>
          have h : (Except.error e : Except Fault β) = .ok b := h
          simp at h

theorem gives_pure {a b : α} (h : (pure a : Logged α).Gives b) : a = b := by
  obtain ⟨records, h⟩ := h
  have h : (Except.ok a : Except Fault α) = .ok b := h
  simpa using h

theorem gives_ofExcept {x : Except Fault α} {a : α} (h : (ofExcept x).Gives a) : x = .ok a := by
  obtain ⟨records, h⟩ := h
  exact h

end Logged

end TemporalPlanning
