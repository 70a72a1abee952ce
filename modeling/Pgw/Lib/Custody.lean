import Mathlib.Data.Multiset.Count
import Pgw.Lib.TransitionSystem

/-!
# Tokens in custody

Tokens arrive one by one, are numbered as they arrive, and are handed from place to
place. Nothing copies or drops one, and every token is then in exactly one place, once.
There may be any number of places.

## Main definitions

* `Holdings` — what each place holds, and how many tokens have arrived.
* `Step` — an arrival at a place, or a token handed from one place to another.
* `Exclusive` — nowhere twice, and the tokens held are the numbers given.

## Main results

* `exclusive_of_reachable` — no step copies or drops a token.
* `existsUnique_place` — a token is in exactly one place.
-/
namespace Custody
open TransitionSystem

universe u

/-- The tokens at every place, with their multiplicities. -/
structure Holdings (π : Type u) where
  held : π → Multiset ℕ
  arrived : ℕ

inductive Deal (π : Type u) where
  | arrive (p : π)
  | hand (p q : π) (token : ℕ)

variable {π : Type u}

inductive Step : Holdings π → Deal π → Holdings π → Prop where
  | arrive {c c' : Holdings π} (p : π) (htakes : c'.held p = c.arrived ::ₘ c.held p)
      (hothers : ∀ r, r ≠ p → c'.held r = c.held r) (harrived : c'.arrived = c.arrived + 1) :
      Step c (.arrive p) c'
  | hand {c c' : Holdings π} (p q : π) (token : ℕ) (hne : p ≠ q)
      (hgives : c.held p = token ::ₘ c'.held p) (htakes : c'.held q = token ::ₘ c.held q)
      (hothers : ∀ r, r ≠ p → r ≠ q → c'.held r = c.held r) (harrived : c'.arrived = c.arrived) :
      Step c (.hand p q token) c'

/-- A system that refines a custody moves nothing in some of its steps, -/
theorem run_of_eq {c c' : Holdings π} (h : c' = c) : ∃ deals, Run Step c deals c' :=
  ⟨[], h ▸ Run.nil c'⟩

/-- and one token in the others. -/
theorem run_of_deal {c c' : Holdings π} {deal : Deal π} (h : Step c deal c') :
    ∃ deals, Run Step c deals c' := ⟨_, Run.single h⟩

def Initial (c : Holdings π) : Prop := (∀ p, c.held p = 0) ∧ c.arrived = 0

/-- No place holds a token twice, no two places hold the same, and the tokens held are
the numbers given so far. -/
structure Exclusive (c : Holdings π) : Prop where
  nodup : ∀ p, (c.held p).Nodup
  apart : ∀ p q token, token ∈ c.held p → token ∈ c.held q → p = q
  numbered : ∀ token, token < c.arrived ↔ ∃ p, token ∈ c.held p

variable {c c' : Holdings π}

theorem Exclusive.initial (h : Initial c) : Exclusive c where
  nodup p := by rw [h.1 p]; exact Multiset.nodup_zero
  apart p q token hp := by simp [h.1 p] at hp
  numbered token := by simp [h.1, h.2]

theorem mem_held_arrive {p : π} (htakes : c'.held p = c.arrived ::ₘ c.held p)
    (hothers : ∀ r, r ≠ p → c'.held r = c.held r) (r : π) (token : ℕ) :
    token ∈ c'.held r ↔ r = p ∧ token = c.arrived ∨ token ∈ c.held r := by
  by_cases hr : r = p
  · subst hr
    simp [htakes]
  · simp [hothers r hr, hr]

/-- The next number is nowhere yet. -/
theorem Exclusive.arrive (hc : Exclusive c) {p : π} (h : Step c (.arrive p) c') :
    Exclusive c' := by
  cases h with
  | arrive _ htakes hothers harrived =>
      have hmem := mem_held_arrive htakes hothers
      have hfresh : ∀ r, c.arrived ∉ c.held r := fun r hr =>
        absurd ((hc.numbered c.arrived).mpr ⟨r, hr⟩) (Nat.lt_irrefl _)
      refine ⟨fun r => ?_, ?_, fun token => ?_⟩
      · by_cases hr : r = p
        · rw [hr, htakes]
          exact Multiset.nodup_cons.mpr ⟨hfresh p, hc.nodup p⟩
        · rw [hothers r hr]
          exact hc.nodup r
      · intro r q token hr hq
        rw [hmem] at hr hq
        obtain ⟨hrp, ht⟩ | hr := hr
        · obtain ⟨hqp, -⟩ | hq := hq
          · rw [hrp, hqp]
          · exact absurd (ht ▸ hq) (hfresh q)
        · obtain ⟨-, ht⟩ | hq := hq
          · exact absurd (ht ▸ hr) (hfresh r)
          · exact hc.apart r q token hr hq
      · rw [harrived, Nat.lt_succ_iff_lt_or_eq, hc.numbered]
        simp only [hmem, exists_or, exists_and_right, exists_eq, true_and]
        exact or_comm

/-- The token handed over is where it was handed to, the others stay. -/
theorem Exclusive.mem_held_hand (hc : Exclusive c) {p q : π} {token : ℕ} (hne : p ≠ q)
    (hgives : c.held p = token ::ₘ c'.held p) (htakes : c'.held q = token ::ₘ c.held q)
    (hothers : ∀ r, r ≠ p → r ≠ q → c'.held r = c.held r) (r : π) (x : ℕ) :
    x ∈ c'.held r ↔ x = token ∧ r = q ∨ x ≠ token ∧ x ∈ c.held r := by
  have htoken : token ∈ c.held p := by simp [hgives]
  have hgone : token ∉ c'.held p := by
    have hnodup := hc.nodup p
    rw [hgives] at hnodup
    exact (Multiset.nodup_cons.mp hnodup).1
  by_cases hrq : r = q
  · subst hrq
    by_cases hx : x = token <;> simp [htakes, hx]
  · by_cases hrp : r = p
    · subst hrp
      by_cases hx : x = token
      · subst hx
        simp [hgone, hne]
      · simp [hgives, hx]
    · rw [hothers r hrp hrq]
      by_cases hx : x = token
      · subst hx
        simp only [hrq, and_false, ne_eq, not_true_eq_false, false_and, or_false, iff_false]
        exact fun hmem => hrp (hc.apart r p x hmem htoken)
      · simp [hx]

theorem Exclusive.hand (hc : Exclusive c) {p q : π} {token : ℕ}
    (h : Step c (.hand p q token) c') : Exclusive c' := by
  cases h with
  | hand _ _ _ hne hgives htakes hothers harrived =>
      have hmem := hc.mem_held_hand hne hgives htakes hothers
      have htoken : token ∈ c.held p := by simp [hgives]
      refine ⟨fun r => ?_, ?_, fun x => ?_⟩
      · have hnodup := hc.nodup p
        rw [hgives] at hnodup
        by_cases hrq : r = q
        · rw [hrq, htakes]
          refine Multiset.nodup_cons.mpr ⟨?_, hc.nodup q⟩
          exact fun hq => hne (hc.apart p q token htoken hq)
        · by_cases hrp : r = p
          · rw [hrp]
            exact (Multiset.nodup_cons.mp hnodup).2
          · rw [hothers r hrp hrq]
            exact hc.nodup r
      · intro r r' x hr hr'
        rw [hmem] at hr hr'
        obtain ⟨hx, rfl⟩ | ⟨hx, hr⟩ := hr
        · obtain ⟨-, rfl⟩ | ⟨hx', -⟩ := hr'
          · rfl
          · exact absurd hx hx'
        · obtain ⟨hx', -⟩ | ⟨-, hr'⟩ := hr'
          · exact absurd hx' hx
          · exact hc.apart r r' x hr hr'
      · rw [harrived, hc.numbered]
        by_cases hx : x = token
        · subst hx
          exact iff_of_true ⟨p, htoken⟩ ⟨q, by simp [hmem]⟩
        · simp [hmem, hx]

/-- **Nothing is lost or copied**, in any state that arrivals and handovers lead to. -/
theorem exclusive_of_reachable (h : Reachable Initial Step c) : Exclusive c := by
  refine h.invariant (P := Exclusive) (fun c₀ h₀ => .initial h₀) ?_
  intro c deal c' hc hstep
  cases deal with
  | arrive p => exact hc.arrive hstep
  | hand p q token => exact hc.hand hstep

/-- No place holds a token twice. -/
theorem nodup_held (h : Reachable Initial Step c) (p : π) : (c.held p).Nodup :=
  (exclusive_of_reachable h).nodup p

/-- **Every token is in exactly one place.** -/
theorem existsUnique_place (h : Reachable Initial Step c) {token : ℕ} :
    token < c.arrived ↔ ∃! p, token ∈ c.held p := by
  have hc := exclusive_of_reachable h
  rw [hc.numbered]
  refine ⟨?_, ExistsUnique.exists⟩
  rintro ⟨p, hp⟩
  exact ⟨p, hp, fun q hq => hc.apart q p token hq hp⟩

end Custody
