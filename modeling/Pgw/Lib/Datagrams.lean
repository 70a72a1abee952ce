import Mathlib.Data.List.Basic

/-!
# Messages under way in an unreliable network

The network loses and copies the messages under way, holds them back as long as it
likes, and delivers whichever it likes next. It makes none up: what is under way after
any of this was under way before.

## Main definitions

* `Fault`, `Fault.apply` — a loss or a copy.
* `deliver` — one message leaves the network, and the rest stays under way.
-/
namespace Datagrams

universe u
variable {α : Type u}

inductive Fault where
  | drop (k : ℕ)
  | duplicate (k : ℕ)
  deriving DecidableEq, Repr

def Fault.apply (fault : Fault) (underWay : List α) : List α :=
  match fault with
  | .drop k => underWay.eraseIdx k
  | .duplicate k => underWay ++ underWay[k]?.toList

/-- The message at some place, and what is left. -/
def deliver (k : ℕ) (underWay : List α) : Option (α × List α) :=
  underWay[k]?.map fun m => (m, underWay.eraseIdx k)

/-- **A fault makes no message up.** -/
theorem Fault.apply_subset (fault : Fault) (underWay : List α) :
    fault.apply underWay ⊆ underWay := by
  intro m hm
  cases fault with
  | drop k => exact List.mem_of_mem_eraseIdx hm
  | duplicate k =>
      rcases List.mem_append.mp hm with hold | hcopy
      · exact hold
      · exact List.mem_of_getElem? (Option.mem_toList.mp hcopy)

/-- What is delivered was under way, and so is what stays. -/
theorem subset_of_deliver {k : ℕ} {underWay rest : List α} {m : α}
    (h : deliver k underWay = some (m, rest)) : m ∈ underWay ∧ rest ⊆ underWay := by
  obtain ⟨m', hm', heq⟩ := Option.map_eq_some_iff.mp h
  obtain ⟨rfl, rfl⟩ := Prod.mk.inj heq
  exact ⟨List.mem_of_getElem? hm', fun _ => List.mem_of_mem_eraseIdx⟩

end Datagrams
