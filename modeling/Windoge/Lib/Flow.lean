import Mathlib

/-!
# Sequencing steps that may stop early

A C function that returns an error code leaves the state it had reached, so a stopped
computation is an `EStateM` error carrying that state. These rules peel one step off a
program: callers use the outcome of the first step and never unfold it.
-/

namespace Windoge.Flow

open MonadExcept

variable {ε σ α β : Type} {x : EStateM ε σ α} {f : α → EStateM ε σ β} {handler : ε → EStateM ε σ α}
  {r : EStateM.Result ε σ α} {s s' t : σ} {a : α} {b : β} {e : ε}

/-- A step that succeeds hands its value and its state to the rest of the program. -/
theorem bind_ok (h : x s = .ok a s') : (x >>= f) s = f a s' := by
  change EStateM.bind x f s = _
  rw [EStateM.bind, h]

/-- A step that stops ends the whole program in the state it had reached. -/
theorem bind_error (h : x s = .error e s') : (x >>= f) s = .error e s' := by
  change EStateM.bind x f s = _
  rw [EStateM.bind, h]

/-- A guarded step that succeeds does not reach its handler. -/
theorem tryCatch_ok (h : x s = .ok a s') : tryCatch x handler s = .ok a s' := by
  change EStateM.tryCatch x handler s = _
  rw [EStateM.tryCatch, h]

/-- Reading the state leaves it alone. -/
@[simp] theorem get_bind (f : σ → EStateM ε σ β) (s : σ) :
    ((get : EStateM ε σ σ) >>= f) s = f s s := rfl

/-- Updating the state passes the updated one on. -/
@[simp] theorem modify_bind (g : σ → σ) (f : PUnit → EStateM ε σ β) (s : σ) :
    ((modify g : EStateM ε σ PUnit) >>= f) s = f ⟨⟩ (g s) := rfl

/-- A final update returns the updated state. -/
@[simp] theorem modify_run (g : σ → σ) (s : σ) :
    (modify g : EStateM ε σ PUnit) s = .ok ⟨⟩ (g s) := rfl

/-- Returning a value touches nothing. -/
@[simp] theorem pure_run (a : α) (s : σ) : (pure a : EStateM ε σ α) s = .ok a s := rfl

/-- Stopping keeps the state reached. -/
@[simp] theorem throw_run (e : ε) (s : σ) : (throw e : EStateM ε σ α) s = .error e s := rfl

/-- A program whose first step succeeds with a value succeeded in both steps. -/
theorem bind_eq_ok (h : (x >>= f) s = .ok b t) : ∃ a s', x s = .ok a s' ∧ f a s' = .ok b t := by
  change EStateM.bind x f s = _ at h
  rw [EStateM.bind] at h
  cases hx : x s with
  | ok a s' =>
    rw [hx] at h
    exact ⟨a, s', rfl, h⟩
  | error e s' =>
    rw [hx] at h
    cases h

/-- A sequence that stops early stops in its first part or in the rest. -/
theorem bind_eq_error (h : (x >>= f) s = .error e t) :
    x s = .error e t ∨ ∃ a s', x s = .ok a s' ∧ f a s' = .error e t := by
  cases hx : x s with
  | ok a s' =>
    rw [bind_ok hx] at h
    exact Or.inr ⟨a, s', rfl, h⟩
  | error e' s' =>
    rw [bind_error hx] at h
    cases h
    exact Or.inl rfl

/-- Two programs agree when their first steps do and the rest agrees wherever those end. -/
theorem bind_congr {y : EStateM ε σ α} {g : α → EStateM ε σ β} (hx : x s = y s)
    (hf : ∀ a s', y s = .ok a s' → f a s' = g a s') : (x >>= f) s = (y >>= g) s := by
  cases hy : y s with
  | ok a s' => rw [bind_ok (hx.trans hy), bind_ok hy, hf a s' hy]
  | error e s' => rw [bind_error (hx.trans hy), bind_error hy]

/-- A guarded step that ends with another value than its handler returns did succeed. -/
theorem tryCatch_pure_ok {b : α} (h : tryCatch x (fun _ => pure a) s = .ok b t) (hne : b ≠ a) :
    x s = .ok b t := by
  change EStateM.tryCatch x _ s = _ at h
  cases hx : x s with
  | ok c s' =>
    rwa [EStateM.tryCatch, hx] at h
  | error e s' =>
    rw [EStateM.tryCatch, hx] at h
    exact absurd (EStateM.Result.ok.inj h).1.symm hne

/-- The state a computation ends in, whether it stopped early or not. -/
def finalState : EStateM.Result ε σ α → σ
  | .ok _ s => s
  | .error _ s => s

/-- Why a computation stopped early; `none` if it returned a value. -/
def stopReason : EStateM.Result ε σ α → Option ε
  | .ok _ _ => none
  | .error e _ => some e

/-- A computation that did not stop early returned a value in its final state. -/
theorem ok_of_stopReason (r : EStateM.Result ε σ α) (h : stopReason r = none) :
    ∃ a, r = .ok a (finalState r) := by
  cases r with
  | ok a s => exact ⟨a, rfl⟩
  | error e s => cases h

/-- A computation that stopped early did so in its final state. -/
theorem error_of_stopReason (h : stopReason r = some e) : r = .error e (finalState r) := by
  cases r with
  | ok a s => cases h
  | error e' s => rw [Option.some.inj h, finalState]

/-- The value a computation returned; `none` if it stopped early. -/
def returned : EStateM.Result ε σ α → Option α
  | .ok a _ => some a
  | .error _ _ => none

/-- A computation that returned a value did so in its final state. -/
theorem ok_of_returned (h : returned r = some a) : r = .ok a (finalState r) := by
  cases r with
  | ok b s => rw [Option.some.inj h, finalState]
  | error e s => cases h

/-- A guarded step whose errors are ignored always succeeds. -/
theorem tryCatch_ignore (x : EStateM ε σ Unit) (s : σ) :
    tryCatch x (fun _ => pure ()) s = .ok () (finalState (x s)) := by
  change EStateM.tryCatch x _ s = _
  cases hx : x s <;> rw [EStateM.tryCatch, hx] <;> rfl

/-- A step guarded with a default value always succeeds. -/
theorem tryCatch_pure_final (x : EStateM ε σ α) (a : α) (s : σ) :
    ∃ b, tryCatch x (fun _ => pure a) s = .ok b (finalState (x s)) := by
  change ∃ b, EStateM.tryCatch x _ s = _
  cases hx : x s with
  | ok b s' =>
    rw [EStateM.tryCatch, hx]
    exact ⟨b, rfl⟩
  | error e s' =>
    rw [EStateM.tryCatch, hx]
    exact ⟨a, rfl⟩

/-- A guarded step that reports its value succeeds with it. -/
theorem tryCatch_some_ok (h : x s = .ok a t) : tryCatch (some <$> x) (fun _ => pure none) s = .ok (some a) t := by
  change EStateM.tryCatch (EStateM.map some x) _ s = _
  rw [EStateM.tryCatch, EStateM.map, h]

/-- A guarded step that reports its value succeeds without one if it stops. -/
theorem tryCatch_some_error (h : x s = .error e t) :
    tryCatch (some <$> x) (fun _ => pure none) s = .ok none t := by
  change EStateM.tryCatch (EStateM.map some x) _ s = _
  rw [EStateM.tryCatch, EStateM.map, h]
  rfl

/-- However the program ends, its final state is related to its initial one. -/
def Respects (R : σ → σ → Prop) (x : EStateM ε σ α) : Prop := ∀ s, R s (finalState (x s))

/-- The final state of a run that succeeds is related to its initial one. -/
theorem Respects.ok {R : σ → σ → Prop} (hx : Respects R x) (h : x s = .ok a t) : R s t := by
  have hfinal := hx s
  rwa [h] at hfinal

/-- The final state of a run that stops is related to its initial one. -/
theorem Respects.error {R : σ → σ → Prop} (hx : Respects R x) (h : x s = .error e t) : R s t := by
  have hfinal := hx s
  rwa [h] at hfinal

/-- From a state the program moves along a relation, and if it returns it meets a postcondition. -/
def Runs (R : σ → σ → Prop) (x : EStateM ε σ α) (s : σ) (Q : α → σ → Prop) : Prop :=
  R s (finalState (x s)) ∧ ∀ a t, x s = .ok a t → Q a t

theorem Respects.runs {R : σ → σ → Prop} (hx : Respects R x) (s : σ) :
    Runs R x s fun _ _ => True := ⟨hx s, fun _ _ _ => trivial⟩

section Respects

variable {R : σ → σ → Prop} [IsPreorder σ R]

/-- Returning a value changes nothing. -/
theorem Respects.pure (a : α) : Respects R (Pure.pure a : EStateM ε σ α) := refl_of R

/-- Reading the state changes nothing. -/
theorem Respects.get : Respects R (MonadState.get : EStateM ε σ σ) := refl_of R

/-- Stopping changes nothing. -/
theorem Respects.throw (e : ε) : Respects R (throw e : EStateM ε σ α) := refl_of R

theorem Runs.pure {Q : α → σ → Prop} (h : Q a s) : Runs R (Pure.pure a : EStateM ε σ α) s Q := by
  refine ⟨refl_of R s, fun b t heq => ?_⟩
  cases heq
  exact h

/-- The second step of a sequence starts with what the first has established. -/
theorem Runs.bind {Q : α → σ → Prop} {P : β → σ → Prop} (hx : Runs R x s Q)
    (hf : ∀ a t, R s t → Q a t → Runs R (f a) t P) : Runs R (x >>= f) s P := by
  obtain ⟨hstep, hdone⟩ := hx
  unfold Runs
  cases hxs : x s with
  | ok a t =>
    rw [hxs] at hstep
    rw [bind_ok hxs]
    obtain ⟨hrest, hend⟩ := hf a t hstep (hdone a t hxs)
    exact ⟨trans_of R hstep hrest, hend⟩
  | error e t =>
    rw [hxs] at hstep
    rw [bind_error hxs]
    exact ⟨hstep, fun _ _ heq => by cases heq⟩

/-- Steps that each respect a preorder respect it in sequence. -/
theorem Respects.bind (hx : Respects R x) (hf : ∀ a, Respects R (f a)) : Respects R (x >>= f) :=
  fun s => ((hx.runs s).bind fun a t _ _ => (hf a).runs t).1

/-- A guarded step and its handler respect a preorder together. -/
theorem Respects.tryCatch (hx : Respects R x) (hhandler : ∀ e, Respects R (handler e)) :
    Respects R (tryCatch x handler) := by
  intro s
  have hfirst := hx s
  change R s (finalState (EStateM.tryCatch x handler s))
  cases hxs : x s with
  | ok a s' =>
    rw [EStateM.tryCatch, hxs]
    rwa [hxs] at hfirst
  | error e s' =>
    rw [hxs] at hfirst
    rw [EStateM.tryCatch, hxs]
    exact trans_of R hfirst (hhandler e s')

end Respects

end Windoge.Flow
