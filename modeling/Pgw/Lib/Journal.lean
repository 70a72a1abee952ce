import Mathlib.Algebra.BigOperators.Group.Finset.Piecewise
import Pgw.Lib.TransitionSystem

/-!
# Journals with several writers

Entries are committed in batches and written one at a time: a committed batch waits with
its writer until each entry has been written. The batches of different writers mix in
the journal. Entries of one kind must not: a batch with such an entry is committed only
while no writer has one waiting.

## Main definitions

* `State` — what has been committed, what waits with which writer, and what is written.
* `Step` — a batch is committed, or the next waiting entry of a writer is written.

## Main results

* `orderly_of_reachable` — the exclusive entries are written in the order of their commits.
* `perm_of_reachable` — with nothing waiting, the journal has the committed entries.
-/
namespace Journal
open TransitionSystem

universe u v

structure State (ι : Type u) (α : Type v) where
  committed : List α
  /-- What each writer has committed and not yet written. -/
  waiting : ι → List α
  written : List α

inductive Act (ι : Type u) (α : Type v) where
  | commit (i : ι) (batch : List α)
  | write (i : ι)

variable {ι : Type u} {α : Type v}

/-- `p` tells the exclusive entries. -/
inductive Step [DecidableEq ι] (p : α → Bool) : State ι α → Act ι α → State ι α → Prop where
  | commit {j : State ι α} {i : ι} {batch : List α} (hdone : j.waiting i = [])
      (halone : (∃ a ∈ batch, p a) → ∀ k, ∀ a ∈ j.waiting k, p a = false) :
      Step p j (.commit i batch)
        ⟨j.committed ++ batch, Function.update j.waiting i batch, j.written⟩
  | write {j : State ι α} {i : ι} {a : α} {rest : List α} (hnext : j.waiting i = a :: rest) :
      Step p j (.write i)
        ⟨j.committed, Function.update j.waiting i rest, j.written ++ [a]⟩

def Initial (j : State ι α) : Prop :=
  j.committed = [] ∧ (∀ i, j.waiting i = []) ∧ j.written = []

/-! ## The exclusive entries -/

/-- At most one writer has exclusive entries waiting, and they are what is missing. -/
def Orderly (p : α → Bool) (j : State ι α) : Prop :=
  ((∀ i, (j.waiting i).filter p = []) ∧ j.written.filter p = j.committed.filter p) ∨
    ∃ i, (∀ k, k ≠ i → (j.waiting k).filter p = []) ∧
      j.written.filter p ++ (j.waiting i).filter p = j.committed.filter p

variable {p : α → Bool} {j j' : State ι α}

theorem filter_update [DecidableEq ι] {i : ι} {batch : List α}
    (h : batch.filter p = (j.waiting i).filter p)
    (k : ι) : (Function.update j.waiting i batch k).filter p = (j.waiting k).filter p := by
  by_cases hk : k = i
  · subst hk
    rw [Function.update_self, h]
  · rw [Function.update_of_ne hk]

/-- Entries of the other kind do not matter. -/
theorem Orderly.of_same (hj : Orderly p j)
    (hwaiting : ∀ k, (j'.waiting k).filter p = (j.waiting k).filter p)
    (hwritten : j'.written.filter p = j.written.filter p)
    (hcommitted : j'.committed.filter p = j.committed.filter p) : Orderly p j' := by
  simpa only [Orderly, hwaiting, hwritten, hcommitted] using hj

theorem Orderly.step [DecidableEq ι] (hj : Orderly p j) {a : Act ι α} (h : Step p j a j') :
    Orderly p j' := by
  cases h with
  | @commit i batch hdone halone =>
      by_cases hplain : batch.filter p = []
      · refine hj.of_same (filter_update ?_) rfl ?_
        · rw [hplain, hdone, List.filter_nil]
        · simp [hplain]
      · have hsome : ∃ a ∈ batch, p a := by simpa using hplain
        have hnone : ∀ k, (j.waiting k).filter p = [] := by
          intro k
          have hk := halone hsome k
          simpa using hk
        have hcomplete : j.written.filter p = j.committed.filter p := by
          rcases hj with ⟨_, hsame⟩ | ⟨k, _, hsame⟩
          · exact hsame
          · simpa [hnone k] using hsame
        refine Or.inr ⟨i, fun k hk => ?_, ?_⟩
        · change (Function.update j.waiting i batch k).filter p = []
          rw [Function.update_of_ne hk]
          exact hnone k
        · simp [hcomplete]
  | @write i a rest hnext =>
      by_cases ha : p a = true
      · have hhere : (j.waiting i).filter p = a :: rest.filter p := by simp [hnext, ha]
        rcases hj with ⟨hnone, _⟩ | ⟨k, hothers, hsame⟩
        · rw [hnone i] at hhere
          cases hhere
        · have hki : i = k := by
            by_contra hne
            rw [hothers i hne] at hhere
            cases hhere
          subst hki
          refine Or.inr ⟨i, fun k hk => ?_, ?_⟩
          · change (Function.update j.waiting i rest k).filter p = []
            rw [Function.update_of_ne hk]
            exact hothers k hk
          · rw [hhere] at hsame
            simpa [ha] using hsame
      · refine hj.of_same (filter_update ?_) ?_ rfl
        · simp [hnext, ha]
        · simp [ha]

/-- **The exclusive entries are written in the order in which they were committed.** -/
theorem orderly_of_reachable [DecidableEq ι] (h : Reachable Initial (Step p) j) : Orderly p j := by
  refine h.invariant (P := Orderly p) ?_ fun _ _ _ hj hstep => hj.step hstep
  rintro j₀ ⟨hcommitted, hwaiting, hwritten⟩
  refine Or.inl ⟨fun i => ?_, ?_⟩
  · rw [hwaiting i, List.filter_nil]
  · rw [hwritten, hcommitted]

theorem Orderly.begins (hj : Orderly p j) : j.written.filter p <+: j.committed.filter p := by
  rcases hj with ⟨_, hsame⟩ | ⟨i, _, hsame⟩
  · rw [hsame]
  · rw [← hsame]
    exact List.prefix_append _ _

/-- Nothing exclusive is missing while nothing exclusive waits. -/
theorem Orderly.complete (hj : Orderly p j) (hnone : ∀ i, ∀ a ∈ j.waiting i, p a = false) :
    j.written.filter p = j.committed.filter p := by
  rcases hj with ⟨_, hsame⟩ | ⟨i, _, hsame⟩
  · exact hsame
  · have hempty : (j.waiting i).filter p = [] := by
      have hi := hnone i
      simpa using hi
    simpa [hempty] using hsame

/-! ## All entries -/

variable [DecidableEq ι]

/-- What is written and what waits is what was committed. -/
def Complete (j : State ι α) : Prop :=
  ∃ S : Finset ι, (∀ i, i ∉ S → j.waiting i = []) ∧
    (j.written : Multiset α) + ∑ i ∈ S, (j.waiting i : Multiset α) = j.committed

/-- The sum with another list at one place. -/
theorem sum_update {S : Finset ι} {i : ι} (hi : i ∈ S) (w : ι → List α) (batch : List α) :
    ∑ k ∈ S, (Function.update w i batch k : Multiset α) =
      (batch : Multiset α) + ∑ k ∈ S \ {i}, (w k : Multiset α) := by
  rw [← Finset.sum_update_of_mem hi]
  refine Finset.sum_congr rfl fun k _ => ?_
  by_cases hk : k = i
  · subst hk
    simp
  · simp [hk]

theorem Complete.step (hj : Complete j) {a : Act ι α} (h : Step p j a j') : Complete j' := by
  obtain ⟨S, houtside, hsum⟩ := hj
  cases h with
  | @commit i batch hdone _ =>
      have hi : i ∈ insert i S := Finset.mem_insert_self i S
      have hbefore : ∑ k ∈ insert i S, (j.waiting k : Multiset α) =
          ∑ k ∈ S, (j.waiting k : Multiset α) :=
        Finset.sum_insert_of_eq_zero_if_notMem fun hout => by rw [houtside i hout]; rfl
      have hsplit := sum_update hi j.waiting (j.waiting i)
      rw [Function.update_eq_self, hbefore, hdone, Multiset.coe_nil, zero_add] at hsplit
      refine ⟨insert i S, fun k hk => ?_, ?_⟩
      · rw [Finset.mem_insert, not_or] at hk
        change Function.update j.waiting i batch k = []
        rw [Function.update_of_ne hk.1]
        exact houtside k hk.2
      · change (j.written : Multiset α) + ∑ k ∈ insert i S, (_ : Multiset α) = _
        rw [sum_update hi, ← hsplit, ← Multiset.coe_add, ← hsum, add_comm (batch : Multiset α),
          add_assoc]
  | @write i a rest hnext =>
      have hi : i ∈ S := by
        by_contra hout
        rw [houtside i hout] at hnext
        cases hnext
      have hsplit := sum_update hi j.waiting (j.waiting i)
      rw [Function.update_eq_self, hnext] at hsplit
      refine ⟨S, fun k hk => ?_, ?_⟩
      · have hne : k ≠ i := fun heq => hk (heq ▸ hi)
        change Function.update j.waiting i rest k = []
        rw [Function.update_of_ne hne]
        exact houtside k hk
      · change ((j.written ++ [a] : List α) : Multiset α) + ∑ k ∈ S, (_ : Multiset α) = _
        rw [sum_update hi, ← hsum, hsplit, ← add_assoc, ← add_assoc, Multiset.coe_add,
          Multiset.coe_add, List.append_assoc]
        rfl

theorem complete_of_reachable (h : Reachable Initial (Step p) j) : Complete j := by
  refine h.invariant (P := Complete) ?_ fun _ _ _ hj hstep => hj.step hstep
  rintro j₀ ⟨hcommitted, hwaiting, hwritten⟩
  refine ⟨∅, fun i _ => hwaiting i, ?_⟩
  rw [hcommitted, hwritten]
  rfl

/-- Nothing is written that was not committed. -/
theorem mem_committed_of_reachable (h : Reachable Initial (Step p) j) {a : α}
    (ha : a ∈ j.written) : a ∈ j.committed := by
  obtain ⟨S, _, hsum⟩ := complete_of_reachable h
  rw [← Multiset.mem_coe, ← hsum, Multiset.mem_add]
  exact Or.inl (Multiset.mem_coe.mpr ha)

/-- **With nothing waiting, the journal has the committed entries**, each as often. -/
theorem perm_of_reachable (h : Reachable Initial (Step p) j) (hnone : ∀ i, j.waiting i = []) :
    j.written.Perm j.committed := by
  obtain ⟨S, _, hsum⟩ := complete_of_reachable h
  have hzero : ∑ i ∈ S, (j.waiting i : Multiset α) = 0 :=
    Finset.sum_eq_zero fun i _ => by rw [hnone i]; rfl
  rw [hzero, add_zero] at hsum
  exact Multiset.coe_eq_coe.mp hsum

end Journal
