import Mathlib.Data.List.Basic
import Mathlib.Logic.Relation

/-!
# Labelled runs and their invariants

A system is a step relation `σ → α → σ → Prop` on states and labels. `Run` is a
finite run with its trace of labels, grown at the end, so an invariant of the
state is an induction on the run and a property of the trace can speak of what
happened last.

A statement about runs in which some steps are excluded is one about the
restricted relation `step.only C`, where `C` is a condition on the state before
the step and its label.

## Main definitions

* `Run step s tr t` — a run from `s` to `t` with the labels `tr`.
* `only step C` — the steps that meet `C`.
* `Reachable init step s` — `s` ends a run from an initial state.
* `Through step s tr t u v` — the run from `s` to `t` goes through `u` and then `v`.
* `replay next tr s` — the end of a run of a step function, computed.
* `tally next w tr s` — the steps of a run of a step function, weighed.
* `observed next w tr s` — what the steps of a run of a step function show.
* `WeakSimulation` — every step of one system is some run of another.
-/
namespace TransitionSystem

universe u v w x
variable {σ : Type u} {α : Type v} {τ : Type w} {β : Type x}

/-- A finite run from a state, with the labels of its steps in order. -/
inductive Run (step : σ → α → σ → Prop) : σ → List α → σ → Prop where
  | nil (s : σ) : Run step s [] s
  | snoc {s t u : σ} {tr : List α} {a : α} :
      Run step s tr t → step t a u → Run step s (tr ++ [a]) u

/-- The steps that meet a condition on the state before and the label. -/
def only (step : σ → α → σ → Prop) (C : σ → α → Prop) (s : σ) (a : α) (t : σ) : Prop :=
  step s a t ∧ C s a

/-- States that end a run from an initial state. -/
def Reachable (init : σ → Prop) (step : σ → α → σ → Prop) (s : σ) : Prop :=
  ∃ s₀ tr, init s₀ ∧ Run step s₀ tr s

namespace Run
variable {step : σ → α → σ → Prop} {s t u : σ} {tr tr' : List α}

theorem single {a : α} (h : step s a t) : Run step s [a] t := snoc (nil s) h

theorem append (h : Run step s tr t) (h' : Run step t tr' u) : Run step s (tr ++ tr') u := by
  induction h' with
  | nil => simpa using h
  | snoc _ hstep ih => rw [← List.append_assoc]; exact snoc ih hstep

/-- **Invariant rule.** What one step preserves, a run preserves. -/
theorem invariant {P : σ → Prop} (hstep : ∀ s a t, P s → step s a t → P t)
    (h : Run step s tr t) (hs : P s) : P t := by
  induction h with
  | nil => exact hs
  | snoc _ hlast ih => exact hstep _ _ _ ih hlast

theorem mono {step' : σ → α → σ → Prop} (hsub : ∀ s a t, step s a t → step' s a t)
    (h : Run step s tr t) : Run step' s tr t := by
  induction h with
  | nil => exact nil _
  | snoc _ hlast ih => exact snoc ih (hsub _ _ _ hlast)

/-- A run whose labels all meet a condition is a run of the restricted system. -/
theorem only_of_forall {C : σ → α → Prop} (h : Run step s tr t) (hC : ∀ a ∈ tr, ∀ s, C s a) :
    Run (only step C) s tr t := by
  induction h with
  | nil => exact nil _
  | snoc _ hlast ih =>
      refine snoc (ih fun a ha => hC a (by simp [ha])) ⟨hlast, ?_⟩
      exact hC _ (by simp) _

/-- The invariant rule for a run whose labels all meet a condition. -/
theorem invariant_of_labels {P : σ → Prop} {Q : α → Prop}
    (hstep : ∀ s a t, P s → Q a → step s a t → P t) (h : Run step s tr t) (hQ : ∀ a ∈ tr, Q a)
    (hs : P s) : P t := by
  have honly := h.only_of_forall (C := fun _ a => Q a) fun a ha _ => hQ a ha
  exact honly.invariant (fun s a t hP h => hstep s a t hP h.2 h.1) hs

/-- A run of the restricted system is a run of the system. -/
theorem of_only {C : σ → α → Prop} (h : Run (only step C) s tr t) : Run step s tr t :=
  h.mono fun _ _ _ hstep => hstep.1

end Run

/-- Perform the labels in order; `none` when one of them is not enabled. -/
def replay (next : α → σ → Option σ) : List α → σ → Option σ
  | [], s => some s
  | a :: tr, s => (next a s).bind (replay next tr)

/-- A successful replay is a run. -/
theorem run_of_replay {next : α → σ → Option σ} {tr : List α} {s t : σ}
    (h : replay next tr s = some t) : Run (fun s a t => next a s = some t) s tr t := by
  induction tr generalizing s with
  | nil =>
      rw [replay, Option.some.injEq] at h
      rw [h]
      exact Run.nil t
  | cons a tr ih =>
      rw [replay, Option.bind_eq_some_iff] at h
      obtain ⟨u, hu, hrest⟩ := h
      exact (Run.single hu).append (ih hrest)

/-- The state in which a successful replay ends. -/
def replayed (next : α → σ → Option σ) (tr : List α) (s : σ) (h : (replay next tr s).isSome) : σ :=
  (replay next tr s).get h

theorem run_replayed (next : α → σ → Option σ) (tr : List α) (s : σ)
    (h : (replay next tr s).isSome) :
    Run (fun s a t => next a s = some t) s tr (replayed next tr s h) :=
  run_of_replay (Option.some_get h).symm

/-- A replay that checks a condition before every step is a run of the restricted
system. -/
theorem run_only_of_replay {next : α → σ → Option σ} {C : σ → α → Prop}
    [∀ s a, Decidable (C s a)] {tr : List α} {s t : σ}
    (h : replay (fun a s => if C s a then next a s else none) tr s = some t) :
    Run (only (fun s a t => next a s = some t) C) s tr t := by
  refine (run_of_replay h).mono fun s a t hstep => ?_
  by_cases hC : C s a
  · rw [if_pos hC] at hstep
    exact ⟨hstep, hC⟩
  · rw [if_neg hC] at hstep
    cases hstep

theorem run_only_replayed (next : α → σ → Option σ) (C : σ → α → Prop) [∀ s a, Decidable (C s a)]
    (tr : List α) (s : σ) (h : (replay (fun a s => if C s a then next a s else none) tr s).isSome) :
    Run (only (fun s a t => next a s = some t) C) s tr
      (replayed (fun a s => if C s a then next a s else none) tr s h) :=
  run_only_of_replay (Option.some_get h).symm

theorem replay_append (next : α → σ → Option σ) (tr tr' : List α) (s : σ) :
    replay next (tr ++ tr') s = (replay next tr s).bind (replay next tr') := by
  induction tr generalizing s with
  | nil => rfl
  | cons a tr ih =>
      rw [List.cons_append, replay, replay, Option.bind_assoc]
      exact congrArg _ (funext ih)

/-- A run of a step function is a successful replay. -/
theorem replay_of_run {next : α → σ → Option σ} {tr : List α} {s t : σ}
    (h : Run (fun s a t => next a s = some t) s tr t) : replay next tr s = some t := by
  induction h with
  | nil => rfl
  | snoc _ hlast ih => simp [replay_append, ih, replay, hlast]

/-! ## What a run goes through -/

/-- A run goes through a state and, then or later, through another. -/
def Through (step : σ → α → σ → Prop) (s : σ) (tr : List α) (t u v : σ) : Prop :=
  ∃ tr₁ tr₂ tr₃, tr = tr₁ ++ tr₂ ++ tr₃ ∧ Run step s tr₁ u ∧ Run step u tr₂ v ∧ Run step v tr₃ t

namespace Through
variable {step : σ → α → σ → Prop} {s t u v : σ} {tr : List α}

/-- The end of a run is a state it goes through. -/
theorem last (h : Run step s tr t) : Through step s tr t t t :=
  ⟨tr, [], [], by simp, h, .nil t, .nil t⟩

/-- Nothing comes after the end. -/
theorem upTo (h : Through step s tr t u v) : Through step s tr t u t := by
  obtain ⟨tr₁, tr₂, tr₃, htr, hfirst, hsecond, hthird⟩ := h
  exact ⟨tr₁, tr₂ ++ tr₃, [], by simp [htr], hfirst, hsecond.append hthird, .nil t⟩

theorem snoc (h : Through step s tr t u v) {a : α} {t' : σ} (hstep : step t a t') :
    Through step s (tr ++ [a]) t' u v := by
  obtain ⟨tr₁, tr₂, tr₃, htr, hfirst, hsecond, hthird⟩ := h
  exact ⟨tr₁, tr₂, tr₃ ++ [a], by simp [htr], hfirst, hsecond, hthird.snoc hstep⟩

end Through

/-! ## What a run costs -/

section Tally
variable (next : α → σ → Option σ)

/-- The weights of the steps of a run, added up. -/
def tally (w : σ → α → ℕ) : List α → σ → ℕ
  | [], _ => 0
  | a :: tr, s => w s a + (next a s).elim 0 (tally w tr)

theorem tally_zero (tr : List α) (s : σ) : tally next (fun _ _ => 0) tr s = 0 := by
  induction tr generalizing s with
  | nil => rfl
  | cons a tr ih => cases hnext : next a s <;> simp [tally, hnext, ih]

/-- **Potential rule.** When no step pays out more than it takes in and the
potential loses, no run does. -/
theorem Run.potential {next : α → σ → Option σ} (φ : σ → ℕ) (w v : σ → α → ℕ)
    (hstep : ∀ s a t, next a s = some t → φ t + w s a ≤ φ s + v s a) {tr : List α} {s t : σ}
    (h : Run (fun s a t => next a s = some t) s tr t) :
    φ t + tally next w tr s ≤ φ s + tally next v tr s := by
  have hreplay := replay_of_run h
  clear h
  induction tr generalizing s with
  | nil =>
      rw [replay, Option.some.injEq] at hreplay
      simp [hreplay, tally]
  | cons a tr ih =>
      rw [replay, Option.bind_eq_some_iff] at hreplay
      obtain ⟨u, hnext, hrest⟩ := hreplay
      have hfirst := hstep s a u hnext
      have hlater := ih hrest
      simp only [tally, hnext, Option.elim_some]
      omega

/-- One step more. -/
theorem Run.tally_snoc {next : α → σ → Option σ} (w : σ → α → ℕ) {tr : List α} {s t : σ}
    (h : Run (fun s a t => next a s = some t) s tr t) (a : α) :
    tally next w (tr ++ [a]) s = tally next w tr s + w t a := by
  have hreplay := replay_of_run h
  clear h
  induction tr generalizing s with
  | nil =>
      rw [replay, Option.some.injEq] at hreplay
      cases hnext : next a t <;> simp [hreplay, tally, hnext]
  | cons b tr ih =>
      rw [replay, Option.bind_eq_some_iff] at hreplay
      obtain ⟨u, hnext, hrest⟩ := hreplay
      simp only [List.cons_append, tally, hnext, Option.elim_some, ih hrest]
      omega

/-- A weight of one for some labels counts them. -/
theorem Run.tally_eq_countP {next : α → σ → Option σ} (p : α → Bool) {tr : List α} {s t : σ}
    (h : Run (fun s a t => next a s = some t) s tr t) :
    tally next (fun _ a => if p a then 1 else 0) tr s = tr.countP p := by
  induction h with
  | nil => rfl
  | snoc hrun _ ih =>
      rw [Run.tally_snoc _ hrun, ih, List.countP_append, List.countP_singleton]

/-- **Ranking rule.** Under an invariant, a potential that no step raises and that
every weighed step lowers by its weight bounds the weights of a run. -/
theorem Run.ranked {next : α → σ → Option σ} {C : σ → α → Prop} {I : σ → Prop} (φ : σ → ℕ)
    (w : σ → α → ℕ)
    (hinv : ∀ s a t, I s → only (fun s a t => next a s = some t) C s a t → I t)
    (hstep : ∀ s a t, I s → next a s = some t → C s a → φ t + w s a ≤ φ s) {tr : List α} {s t : σ}
    (h : Run (only (fun s a t => next a s = some t) C) s tr t) (hs : I s) :
    φ t + tally next w tr s ≤ φ s := by
  induction h with
  | nil => simp [tally]
  | snoc hrun hlast ih =>
      have hfirst := hstep _ _ _ (hrun.invariant hinv hs) hlast.1 hlast.2
      rw [Run.tally_snoc w hrun.of_only]
      omega

end Tally

/-! ## What a run shows -/

section Observed
variable (next : α → σ → Option σ)

/-- What the steps of a run show, one after the other. -/
def observed (w : σ → α → List β) : List α → σ → List β
  | [], _ => []
  | a :: tr, s => w s a ++ (next a s).elim [] (observed w tr)

/-- Labels that show nothing. -/
theorem observed_eq_nil {w : σ → α → List β} {tr : List α} (h : ∀ a ∈ tr, ∀ s, w s a = []) (s : σ) :
    observed next w tr s = [] := by
  induction tr generalizing s with
  | nil => rfl
  | cons a tr ih =>
      have hrest := ih fun b hb => h b (List.mem_cons_of_mem a hb)
      rw [observed, h a List.mem_cons_self, List.nil_append]
      cases hnext : next a s with
      | none => rfl
      | some t => exact hrest t

/-- One run after another. -/
theorem Run.observed_append {next : α → σ → Option σ} (w : σ → α → List β) {tr : List α} {s t : σ}
    (h : Run (fun s a t => next a s = some t) s tr t) (tr' : List α) :
    observed next w (tr ++ tr') s = observed next w tr s ++ observed next w tr' t := by
  have hreplay := replay_of_run h
  clear h
  induction tr generalizing s with
  | nil =>
      rw [replay, Option.some.injEq] at hreplay
      simp [hreplay, observed]
  | cons b tr ih =>
      rw [replay, Option.bind_eq_some_iff] at hreplay
      obtain ⟨u, hnext, hrest⟩ := hreplay
      simp only [List.cons_append, observed, hnext, Option.elim_some, ih hrest, List.append_assoc]

/-- One step more. -/
theorem Run.observed_snoc {next : α → σ → Option σ} (w : σ → α → List β) {tr : List α} {s t : σ}
    (h : Run (fun s a t => next a s = some t) s tr t) (a : α) :
    observed next w (tr ++ [a]) s = observed next w tr s ++ w t a := by
  rw [h.observed_append]
  cases hnext : next a t <;> simp [observed, hnext]

end Observed

namespace Reachable
variable {init : σ → Prop} {step : σ → α → σ → Prop} {s t : σ} {tr : List α}

theorem of_init (h : init s) : Reachable init step s := ⟨s, [], h, Run.nil s⟩

theorem run (h : Reachable init step s) (hrun : Run step s tr t) : Reachable init step t := by
  obtain ⟨s₀, tr₀, h₀, hprefix⟩ := h
  exact ⟨s₀, tr₀ ++ tr, h₀, hprefix.append hrun⟩

theorem tail {a : α} (h : Reachable init step s) (hstep : step s a t) : Reachable init step t :=
  h.run (Run.single hstep)

/-- **Invariant rule** over the reachable states. -/
theorem invariant {P : σ → Prop} (hinit : ∀ s, init s → P s)
    (hstep : ∀ s a t, P s → step s a t → P t) (h : Reachable init step s) : P s := by
  obtain ⟨s₀, tr, h₀, hrun⟩ := h
  exact hrun.invariant hstep (hinit s₀ h₀)

theorem of_only {C : σ → α → Prop} (h : Reachable init (only step C) s) :
    Reachable init step s := by
  obtain ⟨s₀, tr, h₀, hrun⟩ := h
  exact ⟨s₀, tr, h₀, hrun.of_only⟩

end Reachable

/-- The concrete system does nothing, seen through `view`, that the abstract one
cannot do in some number of steps. Invariants of the concrete system may be used. -/
structure WeakSimulation (init : σ → Prop) (step : σ → α → σ → Prop)
    (absInit : τ → Prop) (absStep : τ → β → τ → Prop) (view : σ → τ) : Prop where
  starts : ∀ s, init s → absInit (view s)
  follows : ∀ s a t, Reachable init step s → step s a t → ∃ tr, Run absStep (view s) tr (view t)

namespace WeakSimulation
variable {init : σ → Prop} {step : σ → α → σ → Prop} {absInit : τ → Prop}
  {absStep : τ → β → τ → Prop} {view : σ → τ}

/-- Reachable states are seen as reachable abstract states, so every abstract
invariant is one of the concrete system. -/
theorem reachable (hsim : WeakSimulation init step absInit absStep view) {s : σ}
    (h : Reachable init step s) : Reachable absInit absStep (view s) := by
  have hboth : Reachable init step s ∧ Reachable absInit absStep (view s) := by
    refine Reachable.invariant
      (P := fun s => Reachable init step s ∧ Reachable absInit absStep (view s)) ?_ ?_ h
    · intro s₀ h₀
      exact ⟨Reachable.of_init h₀, Reachable.of_init (hsim.starts s₀ h₀)⟩
    · intro s a t hs hstep
      obtain ⟨tr, hrun⟩ := hsim.follows s a t hs.1 hstep
      exact ⟨hs.1.tail hstep, hs.2.run hrun⟩
  exact hboth.2

end WeakSimulation

end TransitionSystem
