import Mathlib.Algebra.BigOperators.Group.Finset.Basic
import Mathlib.Algebra.Order.BigOperators.Group.Finset
import Mathlib.Tactic.Abel
import Pgw.Lib.TransitionSystem

/-!
# Accounts

Every amount that is put on record is booked to one of finitely many accounts, and may be
passed on from one account to another. Amounts may be numbers, multisets, or anything else
that can be added. The record is then the sum of the accounts, whatever has been passed on.

## Main results

* `balanced_of_reachable` — the accounts add up to the record.
* `Balanced.eq_of_settled` — when all other accounts are empty, one has it all.
-/
namespace Accounts
open TransitionSystem

universe u v

/-- What each account has, and what is on record. -/
structure Books (π : Type u) (M : Type v) where
  held : π → M
  recorded : M

inductive Entry (π : Type u) (M : Type v) where
  | book (p : π) (amount : M)
  | pass (p q : π) (amount : M)

variable {π : Type u} {M : Type v} [AddCommMonoid M]

inductive Step : Books π M → Entry π M → Books π M → Prop where
  | book {b b' : Books π M} (p : π) (amount : M) (htakes : b'.held p = b.held p + amount)
      (hothers : ∀ r, r ≠ p → b'.held r = b.held r)
      (hrecorded : b'.recorded = b.recorded + amount) : Step b (.book p amount) b'
  | pass {b b' : Books π M} (p q : π) (amount : M) (hne : p ≠ q)
      (hgives : b.held p = b'.held p + amount) (htakes : b'.held q = b.held q + amount)
      (hothers : ∀ r, r ≠ p → r ≠ q → b'.held r = b.held r)
      (hrecorded : b'.recorded = b.recorded) : Step b (.pass p q amount) b'

variable {b b' : Books π M}

/-- A system that keeps such books makes no entry in some of its steps, -/
theorem run_of_eq (h : b' = b) : ∃ entries, Run Step b entries b' := ⟨[], h ▸ Run.nil b'⟩

/-- and one entry in the others. -/
theorem run_of_entry {entry : Entry π M} (h : Step b entry b') :
    ∃ entries, Run Step b entries b' := ⟨_, Run.single h⟩

def Initial (b : Books π M) : Prop := (∀ p, b.held p = 0) ∧ b.recorded = 0

variable [Fintype π]

/-- The accounts add up to what is on record. -/
def Balanced (b : Books π M) : Prop := ∑ p, b.held p = b.recorded

theorem Balanced.initial (h : Initial b) : Balanced b := by
  rw [Balanced, h.2]
  exact Finset.sum_eq_zero fun p _ => h.1 p

section Sums
variable [DecidableEq π]

/-- One account changes. -/
theorem sum_of_others {f g : π → M} {p : π} (hothers : ∀ r, r ≠ p → g r = f r) :
    ∑ r, g r = g p + ∑ r ∈ Finset.univ.erase p, f r := by
  rw [← Finset.add_sum_erase _ g (Finset.mem_univ p)]
  congr 1
  exact Finset.sum_congr rfl fun r hr => hothers r (Finset.ne_of_mem_erase hr)

end Sums

/-- **No entry upsets the balance.** -/
theorem Balanced.step (hb : Balanced b) {entry : Entry π M} (h : Step b entry b') :
    Balanced b' := by
  classical
  cases h with
  | book p amount htakes hothers hrecorded =>
      rw [Balanced, sum_of_others hothers, htakes, hrecorded, ← hb,
        sum_of_others (f := b.held) fun _ _ => rfl]
      abel
  | pass p q amount hne hgives htakes hothers hrecorded =>
      -- between the two accounts the amount is with neither
      have hgiven : ∑ r, b.held r = ∑ r, Function.update b.held p (b'.held p) r + amount := by
        rw [sum_of_others (f := b.held) (p := p) fun _ _ => rfl,
          sum_of_others (f := b.held) (g := Function.update b.held p (b'.held p))
            fun r hr => Function.update_of_ne hr _ _, hgives, Function.update_self]
        abel
      have htaken : ∑ r, b'.held r = ∑ r, Function.update b.held p (b'.held p) r + amount := by
        have hrest : ∀ r, r ≠ q → b'.held r = Function.update b.held p (b'.held p) r := by
          intro r hr
          by_cases hrp : r = p
          · rw [hrp, Function.update_self]
          · rw [Function.update_of_ne hrp, hothers r hrp hr]
        rw [sum_of_others hrest, sum_of_others (p := q) fun _ _ => rfl, htakes,
          Function.update_of_ne (Ne.symm hne)]
        abel
      rw [Balanced, htaken, ← hgiven, hb, hrecorded]

/-- **The accounts add up**, whatever has been booked and passed on. -/
theorem balanced_of_reachable (h : Reachable Initial Step b) : Balanced b :=
  h.invariant (fun _ h₀ => .initial h₀) fun _ _ _ hb hstep => hb.step hstep

/-- When all other accounts are empty, one has everything. -/
theorem Balanced.eq_of_settled (hb : Balanced b) {p : π} (hsettled : ∀ q, q ≠ p → b.held q = 0) :
    b.held p = b.recorded := by
  rw [← hb]
  exact (Finset.sum_eq_single p (fun q _ hq => hsettled q hq) (by simp)).symm

/-- What an account has is on record. -/
theorem Balanced.held_le [PartialOrder M] [CanonicallyOrderedAdd M] [IsOrderedAddMonoid M]
    (hb : Balanced b) (p : π) : b.held p ≤ b.recorded := by
  rw [← hb]
  exact Finset.single_le_sum (fun _ _ => zero_le) (Finset.mem_univ p)

end Accounts
