import Pgw.Session.Changes
import Pgw.Session.Positions

/-!
# Starting the graceful shutdown once

`start_graceful_shutdown` assigns a new thread to `graceful_shutdown_thread_`
without a look at what it holds, and nothing joins that thread before the
destructor. The second call of a manager's life therefore ends the process,
whether the loop of the first still runs or not. What is proved here is that a
second call is the only danger.
-/
namespace Pgw.SessionManager
open TransitionSystem Completion

/-! ## Positions of a start -/

/-- The call has begun and has not yet handed its thread over. -/
def ThreadPc.starting : ThreadPc → Bool
  | .entered .startGracefulShutdown => true
  | .activated => true
  | .spawned _ => true
  | _ => false

/-- The loop's thread has begun and not ended. -/
def LoopPc.live : LoopPc → Bool
  | .absent => false
  | .exited => false
  | _ => true

/-! ## Callbacks that never raise -/

section Quiet
variable {cfg : Config} (hquiet : cfg.Quiet)
include hquiet

theorem Config.Quiet.shutdownErase (env : Ambient) (imsi : StdString) (st : Store) :
    (SessionManager.shutdownErase cfg env imsi st).1 = .returned () := by
  cases hlookup : st.sessions.lookup imsi with
  | none => rw [SessionManager.shutdownErase, hlookup]
  | some session =>
      rw [SessionManager.shutdownErase, hlookup]
      exact hquiet.emitEvent _ _ _ _

theorem Config.Quiet.cleanupErase (env : Ambient) (now : ℤ) (expired : List StdString)
    (st : Store) : (SessionManager.cleanupErase cfg env now expired st).1 = .returned () := by
  induction expired generalizing st with
  | nil => rfl
  | cons imsi expired ih =>
      rw [SessionManager.cleanupErase]
      cases st.sessions.lookup imsi with
      | none => exact ih st
      | some session =>
          by_cases hexpired : Expired cfg now session
          · simp only [if_pos hexpired, hquiet.emitEvent_eq, andThen_returned]
            exact ih _
          · simp only [if_neg hexpired]
            exact ih st

end Quiet

/-! ## The threads that can end the process -/

section Terminated
variable {ι : Type} {cfg : Config} {s t : Manager ι} {env : Ambient}

theorem terminated_of_cleanup (hquiet : cfg.Quiet) (h : cleanupNext cfg env s = some t) :
    t.terminated = s.terminated := by
  cases hpc : s.cleanup <;> simp only [cleanupNext, hpc] at h
  case erase now expired =>
    have hreturned := hquiet.cleanupErase env now expired s.store
    split at h
    · cases h
      rfl
    · rename_i hraised heq
      rw [heq] at hreturned
      exact absurd hreturned hraised
  all_goals (try split at h) <;> cases h <;> rfl

theorem terminated_of_loop
    (herase : ∀ imsi, (SessionManager.shutdownErase cfg env imsi s.store).1 = .returned ())
    (hrate : 1 ≤ cfg.shutdownRate) {k : ℕ} (h : loopNext cfg k env s = some t) :
    t.terminated = s.terminated := by
  cases hpc : s.loops k <;> simp only [loopNext, hpc] at h
  case start =>
    have hne : cfg.shutdownRate ≠ 0 := by omega
    rw [if_neg hne, Option.some.injEq] at h
    rw [← h]
    rfl
  case erase imsi =>
    have hreturned := herase imsi
    split at h
    · cases h
      rfl
    · rename_i hraised heq
      rw [heq] at hreturned
      exact absurd hreturned hraised
  all_goals (try split at h) <;> (try split at h) <;> cases h <;> rfl

end Terminated

/-! ## At most one start -/

/-- One call starts at most one loop, and while it is at it nothing is held. -/
structure StartedOnce {ι : Type} (s : Manager ι) : Prop where
  not_terminated : s.terminated = false
  unique : ∀ i j, (s.threads i).starting → (s.threads j).starting → i = j
  unassigned : ∀ i, (s.threads i).starting →
    s.gracefulShutdownThread = none ∧ s.destructor = .alive
  unspawned : ∀ i, s.threads i = .entered .startGracefulShutdown ∨ s.threads i = .activated →
    s.spawned = 0
  pristine : s.gracefulShutdownThread = none → s.destructor = .alive →
    (∀ i, ¬ (s.threads i).starting) → s.spawned = 0
  spawned_le : s.spawned ≤ 1
  absent : ∀ k, s.spawned ≤ k → s.loops k = .absent

namespace StartedOnce

section Frame
variable {ι : Type} {cfg : Config} {s t : Manager ι}

/-- Steps that have nothing to do with starting. -/
theorem of_frame (hs : StartedOnce s) (hterm : t.terminated = s.terminated)
    (hspawned : t.spawned = s.spawned)
    (hthread : t.gracefulShutdownThread = s.gracefulShutdownThread)
    (hdestructor : t.destructor = s.destructor)
    (hloops : ∀ k, s.loops k = .absent → t.loops k = .absent)
    (hthreads : ∀ i, t.threads i = s.threads i ∨
      ¬ (s.threads i).starting ∧ ¬ (t.threads i).starting) : StartedOnce t := by
  have hback : ∀ i, (t.threads i).starting → t.threads i = s.threads i := by
    intro i hi
    rcases hthreads i with hsame | ⟨_, hnot⟩
    · exact hsame
    · exact absurd hi hnot
  constructor
  · rw [hterm]
    exact hs.not_terminated
  · intro i j hi hj
    rw [hback i hi] at hi
    rw [hback j hj] at hj
    exact hs.unique i j hi hj
  · intro i hi
    rw [hback i hi] at hi
    rw [hthread, hdestructor]
    exact hs.unassigned i hi
  · intro i hi
    have hstarting : (t.threads i).starting := by rcases hi with hi | hi <;> rw [hi] <;> rfl
    rw [hback i hstarting] at hi
    rw [hspawned]
    exact hs.unspawned i hi
  · intro hnone halive hidle
    rw [hthread] at hnone
    rw [hdestructor] at halive
    rw [hspawned]
    refine hs.pristine hnone halive fun i hi => ?_
    rcases hthreads i with hsame | ⟨hnot, _⟩
    · exact hidle i (hsame ▸ hi)
    · exact hnot hi
  · rw [hspawned]
    exact hs.spawned_le
  · intro k hk
    rw [hspawned] at hk
    exact hloops k (hs.absent k hk)

theorem initial (cfg : Config) (clock : ℤ) :
    StartedOnce (Manager.initial cfg clock : Manager ι) := by
  constructor <;> intros <;> simp_all [Manager.initial, ThreadPc.starting]

end Frame

section Steps
variable {ι : Type} [DecidableEq ι] {cfg : Config} {s t : Manager ι}

/-- A start begins when nothing is held and no other start is under way. -/
theorem call (hs : StartedOnce s) {i : ι} (halive : s.destructor = .alive)
    (hnone : s.gracefulShutdownThread = none) (hnobody : ∀ j, ¬ (s.threads j).starting) :
    StartedOnce (s.goto i (.entered .startGracefulShutdown)) := by
  have honly : ∀ j, ((s.goto i (.entered .startGracefulShutdown)).threads j).starting → j = i := by
    intro j hj
    by_contra hji
    rw [threads_goto, Function.update_of_ne hji] at hj
    exact hnobody j hj
  have hspawned : s.spawned = 0 := hs.pristine hnone halive hnobody
  constructor
  · exact hs.not_terminated
  · intro j k hj hk
    rw [honly j hj, honly k hk]
  · intro j _
    exact ⟨hnone, halive⟩
  · intro j _
    exact hspawned
  · intro _ _ _
    exact hspawned
  · exact hs.spawned_le
  · exact hs.absent

/-- When the starting thread moves, nobody else is starting. -/
theorem eq_of_starting (hs : StartedOnce s) {i : ι} (hi : (s.threads i).starting) {pc : ThreadPc} :
    ∀ j, ((s.goto i pc).threads j).starting → j = i := by
  intro j hj
  by_contra hji
  rw [threads_goto, Function.update_of_ne hji] at hj
  exact hji (hs.unique j i hj hi)

/-- Another position of another call. -/
theorem move (hs : StartedOnce s) {i : ι} {pc : ThreadPc} (st : Store)
    (hbefore : ¬ (s.threads i).starting) (hafter : ¬ pc.starting) :
    StartedOnce ({ s with store := st }.goto i pc) := by
  refine hs.of_frame rfl rfl rfl rfl (fun _ hk => hk) fun j => ?_
  by_cases hji : j = i
  · subst hji
    exact Or.inr ⟨hbefore, by simpa using hafter⟩
  · exact Or.inl (by simp [hji])

theorem activate (hs : StartedOnce s) {i : ι} (hpc : s.threads i = .entered .startGracefulShutdown)
    (st : Store) : StartedOnce ({ s with store := st }.goto i .activated) := by
  have hi : (s.threads i).starting := by rw [hpc]; rfl
  have hspawned : s.spawned = 0 := hs.unspawned i (Or.inl hpc)
  constructor
  · exact hs.not_terminated
  · intro j k hj hk
    rw [hs.eq_of_starting hi j hj, hs.eq_of_starting hi k hk]
  · intro j _
    exact hs.unassigned i hi
  · intro j _
    exact hspawned
  · intro _ _ _
    exact hspawned
  · exact hs.spawned_le
  · exact hs.absent

theorem spawn (hs : StartedOnce s) {i : ι} (hpc : s.threads i = .activated) :
    StartedOnce ({ s with
      loops := Function.update s.loops s.spawned .start
      spawned := s.spawned + 1 }.goto i (.spawned s.spawned)) := by
  have hi : (s.threads i).starting := by rw [hpc]; rfl
  have hspawned : s.spawned = 0 := hs.unspawned i (Or.inr hpc)
  constructor
  · exact hs.not_terminated
  · intro j k hj hk
    rw [hs.eq_of_starting hi j hj, hs.eq_of_starting hi k hk]
  · intro j _
    exact hs.unassigned i hi
  · intro j hj
    have hstarting : ((s.goto i (.spawned s.spawned)).threads j).starting := by
      rcases hj with hj | hj <;> rw [show (s.goto i _).threads j = _ from hj] <;> rfl
    have hji := hs.eq_of_starting hi j hstarting
    subst hji
    simp at hj
  · intro _ _ hnobody
    exact absurd (by simp [ThreadPc.starting]) (hnobody i)
  · change s.spawned + 1 ≤ 1
    omega
  · intro k hk
    change s.spawned + 1 ≤ k at hk
    have hne : k ≠ s.spawned := by omega
    have hle : s.spawned ≤ k := by omega
    change Function.update s.loops s.spawned .start k = .absent
    rw [Function.update_of_ne hne]
    exact hs.absent k hle

theorem assign (hs : StartedOnce s) {i : ι} {k : ℕ} (hpc : s.threads i = .spawned k)
    (v : Completion Value) :
    StartedOnce ({ s with gracefulShutdownThread := some k }.goto i
      (.returning .startGracefulShutdown v)) := by
  have hi : (s.threads i).starting := by rw [hpc]; rfl
  have hnobody : ∀ j, ¬ ((s.goto i (.returning .startGracefulShutdown v)).threads j).starting := by
    intro j hj
    have hji := hs.eq_of_starting hi j hj
    subst hji
    simp [ThreadPc.starting] at hj
  constructor
  · exact hs.not_terminated
  · intro j _ hj _
    exact absurd hj (hnobody j)
  · intro j hj
    exact absurd hj (hnobody j)
  · intro j hj
    refine absurd ?_ (hnobody j)
    rcases hj with hj | hj <;> rw [show (s.goto i _).threads j = _ from hj] <;> rfl
  · intro hnone
    cases hnone
  · exact hs.spawned_le
  · exact hs.absent

theorem thread (hs : StartedOnce s) {i : ι} {env : Ambient} (h : threadNext cfg i env s = some t) :
    StartedOnce t := by
  cases hpc : s.threads i with
  | idle => simp [threadNext, hpc] at h
  | entered c =>
      simp only [threadNext, hpc, Option.some.injEq] at h
      rw [← h]
      by_cases hc : c = .startGracefulShutdown
      · subst hc
        exact hs.activate hpc _
      · have hmoves := firstSection_moves cfg env c s.store
        refine hs.move _ ?_ ?_
        · rw [hpc]
          cases c <;> simp_all [ThreadPc.starting]
        · generalize (firstSection cfg env c s.store).1 = pc at hmoves ⊢
          cases hmoves <;> simp_all [ThreadPc.starting]
  | checked imsi =>
      simp only [threadNext, hpc, Option.some.injEq] at h
      rw [← h]
      exact hs.move _ (by simp [hpc, ThreadPc.starting]) (by simp [ThreadPc.starting])
  | activated =>
      simp only [threadNext, hpc, Option.some.injEq] at h
      rw [← h]
      exact hs.spawn hpc
  | spawned k =>
      obtain ⟨hnone, _⟩ := hs.unassigned i (by rw [hpc]; rfl)
      simp only [threadNext, hpc, hnone, Option.isSome_none, Bool.false_eq_true, if_false,
        Option.some.injEq] at h
      rw [← h]
      exact hs.assign hpc _
  | touching imsi reading =>
      simp only [threadNext, hpc, Option.some.injEq] at h
      rw [← h]
      exact hs.move _ (by simp [hpc, ThreadPc.starting]) (by simp [ThreadPc.starting])
  | returning c v =>
      simp only [threadNext, hpc, Option.some.injEq] at h
      rw [← h]
      exact hs.move s.store (by simp [hpc, ThreadPc.starting]) (by simp [ThreadPc.starting])

end Steps

theorem cleanup {ι : Type} {cfg : Config} {s t : Manager ι} (hs : StartedOnce s)
    (hquiet : cfg.Quiet) {env : Ambient} (h : cleanupNext cfg env s = some t) : StartedOnce t := by
  obtain ⟨hthreads, hloops, hspawned, hthread, hdestructor⟩ := cleanupNext_frame h
  refine hs.of_frame (terminated_of_cleanup hquiet h) hspawned hthread hdestructor ?_ ?_
  · intro k hk
    rw [hloops, hk]
  · intro i
    exact Or.inl (by rw [hthreads])

theorem loop {ι : Type} {cfg : Config} {s t : Manager ι} (hs : StartedOnce s)
    (hquiet : cfg.Quiet) (hrate : 1 ≤ cfg.shutdownRate) {k : ℕ} {env : Ambient}
    (h : loopNext cfg k env s = some t) : StartedOnce t := by
  obtain ⟨hthreads, _, hspawned, hthread, hdestructor, hothers⟩ := loopNext_frame h
  refine hs.of_frame
    (terminated_of_loop (fun imsi => hquiet.shutdownErase env imsi s.store) hrate h)
    hspawned hthread hdestructor ?_ ?_
  · intro j hj
    have hjk : j ≠ k := by
      intro heq
      subst heq
      simp [loopNext, hj] at h
    rw [hothers j hjk, hj]
  · intro i
    exact Or.inl (by rw [hthreads])

theorem destroy {ι : Type} [Fintype ι] {s t : Manager ι} (hs : StartedOnce s)
    (h : destroyNext s = some t) : StartedOnce t := by
  obtain ⟨hthreads, _, hloops, hspawned, hterm⟩ := destroyNext_frame h
  obtain ⟨hidle, hafter⟩ := destroyNext_destructor h
  have hnobody : ∀ i, ¬ (t.threads i).starting := by
    intro i hi
    rw [hthreads] at hi
    rw [hidle (hs.unassigned i hi).2 i] at hi
    cases hi
  constructor
  · rw [hterm]
    exact hs.not_terminated
  · intro i _ hi _
    exact absurd hi (hnobody i)
  · intro i hi
    exact absurd hi (hnobody i)
  · intro i hi
    refine absurd ?_ (hnobody i)
    rcases hi with hi | hi <;> rw [hi] <;> rfl
  · intro _ halive
    exact absurd halive hafter
  · rw [hspawned]
    exact hs.spawned_le
  · intro k hk
    rw [hspawned] at hk
    rw [hloops]
    exact hs.absent k hk

end StartedOnce

/-! ## Runs -/

variable {ι : Type} [Fintype ι] [DecidableEq ι] {cfg : Config} {s t : Manager ι} {l : Label ι}

/-- A start begins only when no other start is under way and no thread is held. -/
def StartsAlone (s : Manager ι) (l : Label ι) : Prop :=
  ∀ i, l = .call i .startGracefulShutdown →
    s.gracefulShutdownThread = none ∧ ∀ j, ¬ (s.threads j).starting

theorem StartedOnce.step (hs : StartedOnce s) (hquiet : cfg.Quiet) (hrate : 1 ≤ cfg.shutdownRate)
    (hstep : Step cfg s l t) (hstart : StartsAlone s l) : StartedOnce t := by
  cases l with
  | call i c =>
      obtain ⟨_, ⟨hidle, halive⟩, rfl⟩ := step_call.mp hstep
      have hbegun : StartedOnce { s with began := Function.update s.began i s.store.clock } :=
        hs.of_frame rfl rfl rfl rfl (fun _ hk => hk) fun _ => Or.inl rfl
      by_cases hc : c = .startGracefulShutdown
      · subst hc
        obtain ⟨hnone, hnobody⟩ := hstart i rfl
        exact hbegun.call halive hnone hnobody
      · refine hbegun.move s.store (by simp [hidle, ThreadPc.starting]) ?_
        cases c <;> simp_all [ThreadPc.starting]
  | thread i env => exact hs.thread (step_thread.mp hstep).2
  | cleanup env => exact hs.cleanup hquiet (step_cleanup.mp hstep).2
  | loop k env => exact hs.loop hquiet hrate (step_loop.mp hstep).2
  | destroy => exact hs.destroy (step_destroy.mp hstep).2

/-- **One start is safe.** In every run whose starts begin with no thread held and
no other start under way, the process is not terminated and at most one loop is
live at any time. -/
theorem one_loop_of_startsAlone (hquiet : cfg.Quiet) (hrate : 1 ≤ cfg.shutdownRate)
    (h : Reachable (Initial cfg) (only (Step cfg) StartsAlone) s) :
    s.terminated = false ∧ ∀ j k, (s.loops j).live → (s.loops k).live → j = k := by
  have hs : StartedOnce s := by
    refine h.invariant (P := StartedOnce) ?_ fun _ _ _ hs hstep =>
      hs.step hquiet hrate hstep.1 hstep.2
    rintro s₀ ⟨clock, rfl⟩
    exact StartedOnce.initial cfg clock
  have hzero : ∀ k, (s.loops k).live → k = 0 := by
    intro k hk
    by_contra hne
    have hle := hs.spawned_le
    rw [hs.absent k (by omega)] at hk
    cases hk
  refine ⟨hs.not_terminated, fun j k hj hk => ?_⟩
  rw [hzero j hj, hzero k hk]

private def shutdownCalled : Manager Caller :=
  (next sample (.call .first .startGracefulShutdown) (.initial sample 0)).get (by decide +kernel)

private def shutdownStarted : Manager Caller :=
  replayed (next sample) (List.replicate 4 (.thread .first (after 0 []))) shutdownCalled
    (by decide +kernel)

theorem one_loop_of_startsAlone_first :
    shutdownStarted.terminated = false ∧ (shutdownStarted.loops 0).live := by
  have hcall :
      Step sample (.initial sample 0) (.call .first .startGracefulShutdown) shutdownCalled :=
    (Option.some_get _).symm
  have hfirst :
      StartsAlone (Manager.initial sample 0) (.call Caller.first .startGracefulShutdown) :=
    fun _ _ => by decide +kernel
  have hrest : ∀ l ∈ List.replicate 4 (Label.thread Caller.first (after 0 [])), ∀ s,
      StartsAlone s l := by
    intro l hl s i hcall
    rw [List.eq_of_mem_replicate hl] at hcall
    cases hcall
  have hrun : Run (only (Step sample) StartsAlone) shutdownCalled _ shutdownStarted :=
    (run_replayed _ _ shutdownCalled _).only_of_forall hrest
  have hreach : Reachable (Initial sample) (only (Step sample) StartsAlone) shutdownStarted :=
    ⟨_, _, ⟨0, rfl⟩, (Run.single ⟨hcall, hfirst⟩).append hrun⟩
  exact ⟨(one_loop_of_startsAlone sample_delivers.quiet (by decide +kernel) hreach).1,
    by decide +kernel⟩

/-- A second start, while the first loop is still before its first test. -/
def startTwice : List (Label Caller) :=
  serve .first .startGracefulShutdown 3 ++
    .call .first .startGracefulShutdown :: List.replicate 3 (.thread .first (after 0 []))

/-- The second start spawns a second loop, then its assignment ends the process. -/
theorem startTwice_terminated :
    (play startTwice (by decide +kernel)).terminated = true ∧
      ((play startTwice (by decide +kernel)).loops 0).live ∧
      ((play startTwice (by decide +kernel)).loops 1).live := by
  decide +kernel

end Pgw.SessionManager
