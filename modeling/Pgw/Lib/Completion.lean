import Mathlib.Init

/-!
# How a call ends

A C++ call returns a value, leaves by an exception, or takes the process down.
`Completion` keeps the three apart because the language does: a handler sees an
exception, nothing sees a termination, and a function declared `noexcept` turns
the first into the second at its own boundary.

A call on a state is a `Completion` paired with the state it leaves behind. An
exception does not undo the writes made before it, so `andThen` and `recover`
hand the state on along every path.
-/

universe u v w

/-- The end of a call that yields an `α`; `raised` carries the text of `what()`. -/
inductive Completion (α : Type u) where
  | returned (a : α)
  | raised (what : String)
  | terminated
  deriving DecidableEq, Repr

namespace Completion

variable {α : Type u} {β : Type v} {σ : Type w}

/-- The boundary of a `noexcept` function: an exception that reaches it calls
`std::terminate`. -/
def noexcept : Completion α → Completion α
  | returned a => returned a
  | raised _ => terminated
  | terminated => terminated

/-- Run the next part of a call that has no state on the value of the first. -/
protected def bind (first : Completion α) (next : α → Completion β) : Completion β :=
  match first with
  | returned a => next a
  | raised what => raised what
  | terminated => terminated

instance : Monad Completion where
  pure := returned
  bind := Completion.bind

/-- Run the next part of a call on the value and state of the first. -/
def andThen (first : Completion α × σ) (next : α → σ → Completion β × σ) : Completion β × σ :=
  match first with
  | (returned a, s) => next a s
  | (raised what, s) => (raised what, s)
  | (terminated, s) => (terminated, s)

/-- A `catch (const std::exception &)` block; a termination does not enter it. -/
def recover (body : Completion α × σ) (handler : String → σ → Completion α × σ) :
    Completion α × σ :=
  match body with
  | (returned a, s) => (returned a, s)
  | (raised what, s) => handler what s
  | (terminated, s) => (terminated, s)

@[simp] theorem noexcept_returned (a : α) : (returned a).noexcept = returned a := rfl
@[simp] theorem noexcept_raised (what : String) :
    (raised what : Completion α).noexcept = terminated := rfl

/-- A `noexcept` function returns exactly when its body does, with the same value. -/
@[simp] theorem noexcept_eq_returned {c : Completion α} {a : α} :
    c.noexcept = returned a ↔ c = returned a := by
  cases c <;> simp [noexcept]

@[simp] theorem pure_eq (a : α) : (pure a : Completion α) = returned a := rfl

section Bind
variable {γ δ : Type u}

@[simp] theorem returned_bind (a : γ) (next : γ → Completion δ) :
    returned a >>= next = next a := rfl

/-- A call returns when each of its parts does. -/
@[simp] theorem bind_eq_returned {first : Completion γ} {next : γ → Completion δ} {b : δ} :
    first >>= next = returned b ↔ ∃ a, first = returned a ∧ next a = returned b := by
  constructor
  · intro h
    cases first with
    | returned a => exact ⟨a, rfl, h⟩
    | raised what => cases h
    | terminated => cases h
  · rintro ⟨a, rfl, hnext⟩
    exact hnext

end Bind

@[simp] theorem andThen_returned (a : α) (s : σ) (next : α → σ → Completion β × σ) :
    andThen (returned a, s) next = next a s := rfl
@[simp] theorem andThen_raised (what : String) (s : σ) (next : α → σ → Completion β × σ) :
    andThen (raised what, s) next = (raised what, s) := rfl
@[simp] theorem andThen_terminated (s : σ) (next : α → σ → Completion β × σ) :
    andThen (terminated, s) next = (terminated, s) := rfl

/-- A continuation that keeps the state leaves the state of the first part. -/
@[simp] theorem snd_andThen (first : Completion α × σ) (f : α → Completion β) :
    (andThen first fun a s => (f a, s)).2 = first.2 := by
  obtain ⟨c, s⟩ := first
  cases c <;> rfl

/-- A continuation that always returns adds no exception. -/
theorem andThen_returns_eq_raised {first : Completion α × σ} {f : α → β} {what : String} {s : σ} :
    (andThen first fun a s => (returned (f a), s)) = (raised what, s) ↔
      first = (raised what, s) := by
  obtain ⟨_ | _ | _, _⟩ := first <;> simp

@[simp] theorem recover_returned (a : α) (s : σ) (handler : String → σ → Completion α × σ) :
    recover (returned a, s) handler = (returned a, s) := rfl
@[simp] theorem recover_raised (what : String) (s : σ)
    (handler : String → σ → Completion α × σ) :
    recover (raised what, s) handler = handler what s := rfl
@[simp] theorem recover_terminated (s : σ) (handler : String → σ → Completion α × σ) :
    recover (terminated, s) handler = (terminated, s) := rfl

end Completion
