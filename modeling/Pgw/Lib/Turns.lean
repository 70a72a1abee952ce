import Mathlib.Logic.Function.Basic
import Mathlib.Order.Basic

/-!
# Turns

Turns are numbered, taken one after the other, and given back in the order in which
they were taken. Whoever has one, has no other; between the last turn given back and
the last one taken, every turn is with exactly one holder.

There may be any number of holders.
-/
namespace Turns

universe u
variable {α : Type u}

/-- The turns after `done` up to `taken` are held, each by one holder. -/
structure Held (turn : α → Option ℕ) (done taken : ℕ) : Prop where
  le : done ≤ taken
  bound : ∀ a n, turn a = some n → done < n ∧ n ≤ taken
  covers : ∀ n, done < n → n ≤ taken → ∃ a, turn a = some n
  unique : ∀ a b n, turn a = some n → turn b = some n → a = b

variable {turn : α → Option ℕ} {done taken : ℕ} {a : α}

theorem Held.initial (h : ∀ a, turn a = none) : Held turn 0 0 where
  le := Nat.le_refl 0
  bound a n ha := by simp [h a] at ha
  covers n hdone htaken := by omega
  unique a b n ha := by simp [h a] at ha

/-- Nobody holds a turn when all have been given back. -/
theorem Held.eq_of_none (h : Held turn done taken) (hnone : ∀ a, turn a = none) : done = taken := by
  by_contra hne
  have hlt : done < taken := Nat.lt_of_le_of_ne h.le hne
  obtain ⟨a, ha⟩ := h.covers taken hlt (Nat.le_refl taken)
  rw [hnone a] at ha
  cases ha

/-- If no turn before `n` is held, all of them have been given back. -/
theorem Held.le_done (h : Held turn done taken) {n : ℕ} (hn : n ≤ taken + 1)
    (hfirst : ∀ a m, turn a = some m → n ≤ m) : n ≤ done + 1 := by
  by_contra hlt
  obtain ⟨a, ha⟩ := h.covers (done + 1) (by omega) (by omega)
  have hle := hfirst a _ ha
  omega

variable [DecidableEq α]

/-- A holder moves about with its turn, and anybody else without one. -/
theorem Held.move (h : Held turn done taken) {n : Option ℕ} (ha : turn a = n) :
    Held (Function.update turn a n) done taken := by
  rw [← ha, Function.update_eq_self]
  exact h

/-- The next turn is taken. -/
theorem Held.take (h : Held turn done taken) (ha : turn a = none) :
    Held (Function.update turn a (some (taken + 1))) done (taken + 1) := by
  have hcases : ∀ b n, Function.update turn a (some (taken + 1)) b = some n ↔
      b = a ∧ n = taken + 1 ∨ turn b = some n := by
    intro b n
    by_cases hb : b = a
    · subst hb
      simp [ha, eq_comm]
    · simp [hb]
  refine ⟨Nat.le_succ_of_le h.le, fun b n hb => ?_, fun n hdone hn => ?_, fun b c n hb hc => ?_⟩
  · obtain ⟨-, rfl⟩ | hb := (hcases b n).mp hb
    · exact ⟨Nat.lt_succ_of_le h.le, Nat.le_refl _⟩
    · have hbound := h.bound b n hb
      omega
  · obtain rfl | hle : n = taken + 1 ∨ n ≤ taken := by omega
    · exact ⟨a, (hcases a _).mpr (Or.inl ⟨rfl, rfl⟩)⟩
    · obtain ⟨b, hb⟩ := h.covers n hdone hle
      exact ⟨b, (hcases b n).mpr (Or.inr hb)⟩
  · obtain ⟨rfl, rfl⟩ | hb := (hcases b n).mp hb
    · obtain ⟨rfl, -⟩ | hc := (hcases c (taken + 1)).mp hc
      · rfl
      · have hbound := h.bound c _ hc
        omega
    · have hbound := h.bound b n hb
      obtain ⟨-, rfl⟩ | hc := (hcases c n).mp hc
      · omega
      · exact h.unique b c n hb hc

/-- The first turn is given back. -/
theorem Held.finish (h : Held turn done taken) (ha : turn a = some (done + 1)) :
    Held (Function.update turn a none) (done + 1) taken := by
  have hcases : ∀ b n, Function.update turn a none b = some n ↔ turn b = some n ∧ b ≠ a := by
    intro b n
    by_cases hb : b = a <;> simp [hb]
  have hfirst := h.bound a _ ha
  refine ⟨hfirst.2, fun b n hb => ?_, fun n hdone hn => ?_, fun b c n hb hc => ?_⟩
  · obtain ⟨hb, hne⟩ := (hcases b n).mp hb
    have hbound := h.bound b n hb
    have hother : n ≠ done + 1 := fun heq => hne (h.unique b a n hb (heq ▸ ha))
    omega
  · obtain ⟨b, hb⟩ := h.covers n (by omega) hn
    refine ⟨b, (hcases b n).mpr ⟨hb, fun heq => ?_⟩⟩
    rw [heq, ha, Option.some.injEq] at hb
    omega
  · exact h.unique b c n ((hcases b n).mp hb).1 ((hcases c n).mp hc).1

end Turns
