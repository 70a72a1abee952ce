import Pgw.Session.DrainLoop

/-!
# The destructor comes to its end

`~SessionManager` clears the two flags, wakes the shutdown loop and joins two threads. The
loop it joins is the only one that can still run: a call of `start_graceful_shutdown` that
has returned has handed its loop over, and no call is under way any more. With `running_`
cleared the two threads have only a few steps left, wherever they are.

## Main results

* `held_of_reaches` — a loop is held, or about to be, until the destructor has joined it.
* `toEnd_of_step` — every step after the start of the destructor brings it nearer to its end.
* `destructor_returns` — the destructor is never stuck, returns after a bounded number of
  steps, and leaves no thread of the manager behind.
-/
namespace Pgw.SessionManager
open TransitionSystem

variable {ι : Type}

/-! ## Whose loop it is -/

/-- The loop that `graceful_shutdown_thread_` holds, or that is about to be handed over. -/
def Named (s : Manager ι) (k : ℕ) : Prop :=
  s.gracefulShutdownThread = some k ∨ ∃ i, s.threads i = .spawned k

/-- Every loop has a name, until the destructor is over and has joined it. -/
def HeldLoops (s : Manager ι) : Prop :=
  ∀ k, s.loops k ≠ .absent → s.destructor ≠ .destroyed ∧ Named s k ∨
    s.destructor = .destroyed ∧ s.loops k = .exited

/-- What is over when the destructor is so far. -/
structure Stopping (s : Manager ι) : Prop where
  running : s.destructor ≠ .alive → s.store.running = false
  cleanup : s.destructor = .joinedCleanup ∨ s.destructor = .destroyed → s.cleanup = .exited

section Held
variable [DecidableEq ι] {cfg : Config} {s t : Manager ι}

theorem Named.goto {k : ℕ} (h : Named s k) {i : ι} {pc : ThreadPc}
    (hpc : ∀ k, s.threads i ≠ .spawned k) : Named (s.goto i pc) k := by
  rcases h with hheld | ⟨j, hj⟩
  · exact Or.inl hheld
  · have hji : j ≠ i := by
      intro heq
      rw [heq] at hj
      exact hpc k hj
    exact Or.inr ⟨j, by simpa [hji] using hj⟩

theorem HeldLoops.goto (hs : HeldLoops s) {i : ι} {pc : ThreadPc} (st : Store)
    (hpc : ∀ k, s.threads i ≠ .spawned k) : HeldLoops ({ s with store := st }.goto i pc) := by
  intro k hk
  refine (hs k hk).imp_left fun hnamed => ⟨hnamed.1, ?_⟩
  exact Named.goto (s := { s with store := st }) hnamed.2 hpc

/-- A new loop is the one of the thread that has just made it. -/
theorem HeldLoops.spawn (hs : HeldLoops s) (hunfinished : s.destructor ≠ .destroyed) {i : ι}
    (hpc : s.threads i = .activated) :
    HeldLoops ({ s with
      loops := Function.update s.loops s.spawned .start
      spawned := s.spawned + 1 }.goto i (.spawned s.spawned)) := by
  intro k hk
  refine Or.inl ⟨hunfinished, ?_⟩
  by_cases hnew : k = s.spawned
  · exact Or.inr ⟨i, by simp [hnew]⟩
  · change Function.update s.loops s.spawned .start k ≠ .absent at hk
    rw [Function.update_of_ne hnew] at hk
    rcases hs k hk with ⟨_, hnamed⟩ | ⟨hdestroyed, _⟩
    · exact Named.goto (s := { s with loops := _, spawned := _ }) hnamed (by simp [hpc])
    · exact absurd hdestroyed hunfinished

/-- The loop is handed over to a member that holds none. -/
theorem HeldLoops.assign (hs : HeldLoops s) {i : ι} {k : ℕ} (hpc : s.threads i = .spawned k)
    (hnone : s.gracefulShutdownThread = none) (v : Completion Value) :
    HeldLoops ({ s with gracefulShutdownThread := some k }.goto i
      (.returning .startGracefulShutdown v)) := by
  intro j hj
  refine (hs j hj).imp_left fun hnamed => ⟨hnamed.1, ?_⟩
  rcases hnamed.2 with hheld | ⟨i', hi'⟩
  · rw [hnone] at hheld
    cases hheld
  · by_cases heq : i' = i
    · rw [heq, hpc] at hi'
      cases hi'
      exact Or.inl rfl
    · exact Or.inr ⟨i', by simpa [heq] using hi'⟩

theorem HeldLoops.thread (hs : HeldLoops s)
    (hidle : s.destructor ≠ .alive → ∀ i, s.threads i = .idle) {i : ι} {env : Ambient}
    (h : threadNext cfg i env s = some t) : HeldLoops t := by
  have hactive : s.threads i ≠ .idle := by
    intro hpc
    simp [threadNext, hpc] at h
  have hunfinished : s.destructor ≠ .destroyed := by
    intro hdestroyed
    exact hactive (hidle (by simp [hdestroyed]) i)
  cases hpc : s.threads i with
  | idle => exact absurd hpc hactive
  | activated =>
      simp only [threadNext, hpc, Option.some.injEq] at h
      rw [← h]
      exact hs.spawn hunfinished hpc
  | spawned k =>
      simp only [threadNext, hpc] at h
      split at h <;> rename_i hheld <;> cases h
      · exact hs
      · exact hs.assign hpc (Option.not_isSome_iff_eq_none.mp hheld) _
  | _ =>
      simp only [threadNext, hpc, Option.some.injEq] at h
      rw [← h]
      exact hs.goto _ (by simp [hpc])

omit [DecidableEq ι] in
theorem HeldLoops.loop (hs : HeldLoops s) {k : ℕ} {env : Ambient}
    (h : loopNext cfg k env s = some t) : HeldLoops t := by
  obtain ⟨hthreads, _, _, hthread, hdestructor, hothers⟩ := loopNext_frame h
  have hlive : s.loops k ≠ .absent ∧ s.loops k ≠ .exited := by
    constructor <;> intro hpc <;> simp [loopNext, hpc] at h
  intro j hj
  rw [Named, hthread, hthreads, hdestructor]
  by_cases hjk : j = k
  · subst hjk
    rcases hs j hlive.1 with hnamed | ⟨_, hexited⟩
    · exact Or.inl hnamed
    · exact absurd hexited hlive.2
  · rw [hothers j hjk] at hj ⊢
    exact hs j hj

omit [DecidableEq ι] in
/-- A join empties the member, when its loop has ended. -/
theorem HeldLoops.destroy [Fintype ι] (hs : HeldLoops s)
    (hidle : s.destructor ≠ .alive → ∀ i, s.threads i = .idle) (h : destroyNext s = some t) :
    HeldLoops t := by
  cases hpc : s.destructor with
  | joinedCleanup =>
      have hheld : ∀ k, s.loops k ≠ .absent → s.gracefulShutdownThread = some k := by
        intro k hk
        rcases hs k hk with ⟨_, hheld | ⟨i, hi⟩⟩ | ⟨hdestroyed, _⟩
        · exact hheld
        · rw [hidle (by simp [hpc]) i] at hi
          cases hi
        · rw [hpc] at hdestroyed
          cases hdestroyed
      intro k hk
      simp only [destroyNext, hpc] at h
      split at h
      · rename_i j hj
        split at h
        · rename_i hexited
          cases h
          have hkj := hheld k hk
          rw [hj, Option.some.injEq] at hkj
          exact Or.inr ⟨rfl, hkj ▸ hexited⟩
        · cases h
      · rename_i hnone
        cases h
        have hkj := hheld k hk
        rw [hnone] at hkj
        cases hkj
  | destroyed => simp [destroyNext, hpc] at h
  | _ =>
      simp only [destroyNext, hpc] at h
      intro k hk
      (try split at h) <;> cases h
      rcases hs k hk with ⟨_, hnamed⟩ | ⟨hdestroyed, _⟩
      · exact Or.inl ⟨by simp, hnamed⟩
      · rw [hpc] at hdestroyed
        cases hdestroyed

end Held

section Named
variable [DecidableEq ι] {cfg : Config} {s t : Manager ι} {k : ℕ}

theorem Named.of_goto {i : ι} {pc : ThreadPc} (h : Named (s.goto i pc) k)
    (hpc : ∀ k, pc ≠ .spawned k) : Named s k := by
  rcases h with hheld | ⟨j, hj⟩
  · exact Or.inl hheld
  · by_cases hji : j = i
    · rw [hji] at hj
      exact absurd (by simpa using hj) (hpc k)
    · exact Or.inr ⟨j, by simpa [hji] using hj⟩

/-- A name is given with the loop. -/
theorem Named.of_thread {i : ι} {env : Ambient} (hstep : threadNext cfg i env s = some t)
    (h : Named t k) : Named s k ∨ t.loops k = .start := by
  cases hpc : s.threads i with
  | idle => simp [threadNext, hpc] at hstep
  | entered c =>
      simp only [threadNext, hpc, Option.some.injEq] at hstep
      rw [← hstep] at h
      have hmoves := firstSection_moves cfg env c s.store
      refine Or.inl (h.of_goto fun j heq => ?_)
      rw [heq] at hmoves
      cases hmoves
  | activated =>
      simp only [threadNext, hpc, Option.some.injEq] at hstep
      rw [← hstep] at h
      rcases h with hheld | ⟨j, hj⟩
      · exact Or.inl (Or.inl hheld)
      · by_cases hji : j = i
        · simp only [threads_goto, hji, Function.update_self, ThreadPc.spawned.injEq] at hj
          rw [← hstep, ← hj]
          exact Or.inr (Function.update_self ..)
        · exact Or.inl (Or.inr ⟨j, by simpa [hji] using hj⟩)
  | spawned j =>
      simp only [threadNext, hpc] at hstep
      split at hstep <;> cases hstep
      · exact Or.inl h
      · rcases h with hheld | hspawned
        · refine Or.inl (Or.inr ⟨i, ?_⟩)
          rw [hpc, ← Option.some.inj hheld]
        · exact Or.inl (Named.of_goto (s := s) (Or.inr hspawned) (by simp))
  | checked imsi =>
      simp only [threadNext, hpc, Option.some.injEq] at hstep
      rw [← hstep] at h
      exact Or.inl (h.of_goto (by simp))
  | touching imsi reading =>
      simp only [threadNext, hpc, Option.some.injEq] at hstep
      rw [← hstep] at h
      exact Or.inl (h.of_goto (by simp))
  | returning c v =>
      simp only [threadNext, hpc, Option.some.injEq] at hstep
      rw [← hstep] at h
      exact Or.inl (h.of_goto (by simp))

omit [DecidableEq ι] in
theorem gracefulShutdownThread_of_destroy [Fintype ι] (h : destroyNext s = some t) :
    t.gracefulShutdownThread = s.gracefulShutdownThread ∨ t.gracefulShutdownThread = none := by
  cases hpc : s.destructor <;> simp only [destroyNext, hpc] at h
  all_goals (try split at h) <;> (try split at h) <;> cases h
  all_goals simp

omit [DecidableEq ι] in
/-- A loop does not become absent again. -/
theorem present_of_loopNext {j : ℕ} {env : Ambient} (h : loopNext cfg j env s = some t)
    (hk : s.loops k ≠ .absent) : t.loops k ≠ .absent := by
  by_cases hkj : k = j
  · subst hkj
    cases hpc : s.loops k <;> simp only [loopNext, hpc] at h
    case pick =>
      split at h
      · split at h <;> cases h
        · rename_i imsi _
          by_cases hempty : imsi = [] <;> simp [Manager.gotoLoop, hempty]
        · simp [Manager.gotoLoop]
      · cases h
    all_goals (try split at h) <;> cases h
    all_goals first | exact hk | simp [Manager.gotoLoop]
  · rw [(loopNext_frame h).2.2.2.2.2 k hkj]
    exact hk

end Named

section Reached
variable [Fintype ι] [DecidableEq ι] {cfg : Config} {s t : Manager ι} {l : Label ι}

theorem named_of_step (hstep : Step cfg s l t) {k : ℕ} (h : Named t k) :
    Named s k ∨ t.loops k = .start := by
  cases l with
  | call i c =>
      obtain ⟨_, _, rfl⟩ := step_call.mp hstep
      exact Or.inl (h.of_goto (by simp))
  | thread i env => exact h.of_thread (step_thread.mp hstep).2
  | cleanup env =>
      obtain ⟨hthreads, _, _, hthread, _⟩ := cleanupNext_frame (step_cleanup.mp hstep).2
      rw [Named, hthread, hthreads] at h
      exact Or.inl h
  | loop j env =>
      obtain ⟨hthreads, _, _, hthread, _⟩ := loopNext_frame (step_loop.mp hstep).2
      rw [Named, hthread, hthreads] at h
      exact Or.inl h
  | destroy =>
      have hnext := (step_destroy.mp hstep).2
      rw [Named, (destroyNext_frame hnext).1] at h
      refine Or.inl (h.imp_left fun hheld => ?_)
      rcases gracefulShutdownThread_of_destroy hnext with hsame | hnone
      · exact hsame ▸ hheld
      · rw [hnone] at hheld
        cases hheld

/-- A loop with a name has begun. -/
theorem present_of_reaches (h : Reaches cfg s) : ∀ k, Named s k → s.loops k ≠ .absent := by
  refine h.invariant (P := fun s => ∀ k, Named s k → s.loops k ≠ .absent) ?_ ?_
  · rintro s₀ ⟨clock, rfl⟩ k (hheld | ⟨i, hi⟩)
    · cases hheld
    · cases hi
  · intro u l v hu hstep k hnamed
    rcases named_of_step hstep hnamed with hold | hstart
    · have hpresent := hu k hold
      by_cases hl : ∃ env, l = .loop k env
      · obtain ⟨env, rfl⟩ := hl
        exact present_of_loopNext (step_loop.mp hstep).2 hpresent
      · rcases loops_of_step hstep k fun env heq => hl ⟨env, heq⟩ with hsame | ⟨_, _, hstart⟩
        · rw [hsame]
          exact hpresent
        · simp [hstart]
    · simp [hstart]

theorem held_of_reaches (h : Reaches cfg s) : HeldLoops s := by
  suffices hboth : Reaches cfg s ∧ HeldLoops s from hboth.2
  refine h.invariant (P := fun s => Reaches cfg s ∧ HeldLoops s) ?_ ?_
  · rintro s₀ ⟨clock, rfl⟩
    exact ⟨.of_init ⟨clock, rfl⟩, fun k hk => absurd rfl hk⟩
  · intro u l v hu hstep
    refine ⟨hu.1.tail hstep, ?_⟩
    cases l with
    | call i c =>
        obtain ⟨_, ⟨hidle, _⟩, rfl⟩ := step_call.mp hstep
        exact hu.2.goto u.store (by simp [hidle])
    | thread i env => exact hu.2.thread (idle_of_reaches hu.1) (step_thread.mp hstep).2
    | cleanup env =>
        obtain ⟨hthreads, hloops, _, hthread, hdestructor⟩ :=
          cleanupNext_frame (step_cleanup.mp hstep).2
        intro k hk
        rw [hloops] at hk ⊢
        rw [Named, hthread, hthreads, hdestructor]
        exact hu.2 k hk
    | loop k env => exact hu.2.loop (step_loop.mp hstep).2
    | destroy => exact hu.2.destroy (idle_of_reaches hu.1) (step_destroy.mp hstep).2

omit [DecidableEq ι] in
theorem Stopping.destroy (hs : Stopping s) (h : destroyNext s = some t) : Stopping t := by
  cases hpc : s.destructor with
  | alive =>
      simp only [destroyNext, hpc] at h
      split at h <;> cases h
      exact ⟨fun _ => rfl, by simp⟩
  | stopped =>
      simp only [destroyNext, hpc] at h
      cases h
      exact ⟨fun _ => hs.running (by simp [hpc]), by simp⟩
  | notified =>
      simp only [destroyNext, hpc] at h
      split at h
      · rename_i hexited
        cases h
        exact ⟨fun _ => hs.running (by simp [hpc]), fun _ => hexited⟩
      · cases h
  | joinedCleanup =>
      have hrunning := hs.running (by simp [hpc])
      have hexited := hs.cleanup (Or.inl hpc)
      simp only [destroyNext, hpc] at h
      (split at h <;> try split at h) <;> cases h
      · exact ⟨fun _ => hrunning, fun _ => hexited⟩
      · exact ⟨fun _ => hrunning, fun _ => hexited⟩
  | destroyed => simp [destroyNext, hpc] at h

theorem stopping_of_reaches (h : Reaches cfg s) : Stopping s := by
  refine h.invariant (P := Stopping) ?_ ?_
  · rintro s₀ ⟨clock, rfl⟩
    constructor <;> intro hbegun <;> simp [Manager.initial] at hbegun
  · intro u l v hu hstep
    by_cases hl : l = .destroy
    · subst hl
      exact hu.destroy (step_destroy.mp hstep).2
    · have hsame := destructor_of_step hstep hl
      refine ⟨fun hbegun => ?_, fun hlate => ?_⟩
      · rw [hsame] at hbegun
        cases flags_of_step hstep with
        | same hflags => rw [hflags.1, hu.running hbegun]
        | start _ _ _ hflag => rw [hflag, hu.running hbegun]
        | complete _ _ _ hflag => rw [hflag, hu.running hbegun]
        | destroy => exact absurd rfl hl
      · rw [hsame] at hlate
        have hexited := hu.cleanup hlate
        by_cases hcleanup : ∃ env, l = .cleanup env
        · obtain ⟨env, rfl⟩ := hcleanup
          have hnext := (step_cleanup.mp hstep).2
          simp [cleanupNext, hexited] at hnext
        · rw [cleanup_of_step hstep fun env heq => hcleanup ⟨env, heq⟩, hexited]

end Reached

/-! ## The way to the end -/

/-- The steps that the cleanup thread has left once `running_` is false. -/
def CleanupPc.left : CleanupPc → ℕ
  | .snapshot _ => 4
  | .erase _ _ => 3
  | .sleep => 2
  | .testRunning => 1
  | .exited => 0

/-- The steps that a loop has left once `running_` is false. -/
def LoopPc.left : LoopPc → ℕ
  | .pick => 6
  | .erase _ => 5
  | .limit => 4
  | .wait _ => 3
  | .start => 3
  | .testActive => 2
  | .testRunning => 1
  | .absent => 0
  | .exited => 0

def DestructorPc.left : DestructorPc → ℕ
  | .alive => 4
  | .stopped => 3
  | .notified => 2
  | .joinedCleanup => 1
  | .destroyed => 0

/-- A bound on the steps that are left, of all threads. -/
def Manager.toEnd (s : Manager ι) : ℕ :=
  s.destructor.left + s.cleanup.left + (s.gracefulShutdownThread.elim 0 fun k => (s.loops k).left) +
    if s.terminated then 0 else 1

section Left
variable {cfg : Config} {s t : Manager ι} {env : Ambient}

theorem left_of_cleanup (hrunning : s.store.running = false) (h : cleanupNext cfg env s = some t) :
    t.cleanup.left + 1 ≤ s.cleanup.left ∨
      t.cleanup = s.cleanup ∧ t.terminated = true := by
  cases hpc : s.cleanup <;> simp only [cleanupNext, hpc] at h
  case testRunning =>
    rw [hrunning] at h
    cases h
    exact Or.inl (by simp [CleanupPc.left])
  case erase now expired =>
    split at h <;> cases h
    · exact Or.inl (by simp [CleanupPc.left])
    · exact Or.inr ⟨rfl, rfl⟩
  all_goals (try split at h) <;> cases h
  all_goals exact Or.inl (by simp [CleanupPc.left])

theorem left_of_loop (hrunning : s.store.running = false) {k : ℕ}
    (h : loopNext cfg k env s = some t) :
    (t.loops k).left + 1 ≤ (s.loops k).left ∨
      t.loops k = s.loops k ∧ t.terminated = true := by
  cases hpc : s.loops k <;> simp only [loopNext, hpc] at h
  case start =>
    split at h <;> cases h
    · exact Or.inr ⟨hpc, rfl⟩
    · exact Or.inl (by simp [Manager.gotoLoop, LoopPc.left])
  case erase imsi =>
    split at h <;> cases h
    · exact Or.inl (by simp [Manager.gotoLoop, LoopPc.left])
    · exact Or.inr ⟨hpc, rfl⟩
  case testActive =>
    cases h
    refine Or.inl ?_
    cases hactive : s.store.gracefulShutdownActive <;> simp [Manager.gotoLoop, LoopPc.left]
  case testRunning =>
    rw [hrunning] at h
    cases h
    exact Or.inl (by simp [Manager.gotoLoop, LoopPc.left])
  case pick =>
    split at h
    · split at h <;> cases h
      · rename_i imsi _
        refine Or.inl ?_
        by_cases hempty : imsi = [] <;> simp [Manager.gotoLoop, LoopPc.left, hempty]
      · exact Or.inl (by simp [Manager.gotoLoop, LoopPc.left])
    · cases h
  all_goals (try split at h) <;> cases h
  all_goals exact Or.inl (by simp [Manager.gotoLoop, LoopPc.left])

theorem left_of_destroy [Fintype ι] (h : destroyNext s = some t) :
    t.destructor.left + 1 ≤ s.destructor.left := by
  cases hpc : s.destructor <;> simp only [destroyNext, hpc] at h
  all_goals (try split at h) <;> (try split at h) <;> cases h
  all_goals simp [DestructorPc.left]

end Left

section Destructor
variable [Fintype ι] [DecidableEq ι] {cfg : Config} {s t : Manager ι} {l : Label ι}

/-- During destruction the loop that can move is the held one. -/
theorem held_of_loop (hreach : Reaches cfg s) (hbegun : s.destructor ≠ .alive) {k : ℕ}
    {env : Ambient} (h : loopNext cfg k env s = some t) : s.gracefulShutdownThread = some k := by
  have hlive : s.loops k ≠ .absent ∧ s.loops k ≠ .exited := by
    constructor <;> intro hpc <;> simp [loopNext, hpc] at h
  rcases held_of_reaches hreach k hlive.1 with ⟨_, hheld | ⟨i, hi⟩⟩ | ⟨_, hexited⟩
  · exact hheld
  · rw [idle_of_reaches hreach hbegun i] at hi
    cases hi
  · exact absurd hexited hlive.2

/-- **Every step of the destruction is one step less to go.** -/
theorem toEnd_of_step (hreach : Reaches cfg s) (hbegun : s.destructor ≠ .alive)
    (h : Step cfg s l t) : t.toEnd + 1 ≤ s.toEnd := by
  have hrunning := (stopping_of_reaches hreach).running hbegun
  have hidle := idle_of_reaches hreach hbegun
  have hterm := not_terminated_of_step h
  cases l with
  | call i c =>
      obtain ⟨_, ⟨_, halive⟩, _⟩ := step_call.mp h
      exact absurd halive hbegun
  | thread i env =>
      have hnext := (step_thread.mp h).2
      simp [threadNext, hidle i] at hnext
  | cleanup env =>
      have hnext := (step_cleanup.mp h).2
      obtain ⟨_, hloops, _, hthread, hdestructor⟩ := cleanupNext_frame hnext
      have hleft := left_of_cleanup hrunning hnext
      simp only [Manager.toEnd, hloops, hthread, hdestructor, hterm]
      rcases hleft with hless | ⟨hsame, hterminated⟩
      · split <;> simp <;> omega
      · simp [hsame, hterminated]
  | loop k env =>
      have hnext := (step_loop.mp h).2
      obtain ⟨_, hcleanup, _, hthread, hdestructor, _⟩ := loopNext_frame hnext
      have hheld := held_of_loop hreach hbegun hnext
      have hleft := left_of_loop hrunning hnext
      simp only [Manager.toEnd, hcleanup, hthread, hdestructor, hterm, hheld, Option.elim_some]
      rcases hleft with hless | ⟨hsame, hterminated⟩
      · split <;> simp <;> omega
      · simp [hsame, hterminated]
  | destroy =>
      have hnext := (step_destroy.mp h).2
      obtain ⟨_, hcleanup, hloops, _, hsame⟩ := destroyNext_frame hnext
      have hless := left_of_destroy hnext
      rcases gracefulShutdownThread_of_destroy hnext with hthread | hthread <;>
        simp only [Manager.toEnd, hcleanup, hloops, hsame, hthread, Option.elim_none] <;> omega

theorem exists_step_of_cleanup (hterm : s.terminated = false) (hlive : s.cleanup ≠ .exited) :
    ∃ env t, Step cfg s (.cleanup env) t := by
  suffices hnext : ∃ env, (cleanupNext cfg env s).isSome by
    obtain ⟨env, hsome⟩ := hnext
    obtain ⟨t, ht⟩ := Option.isSome_iff_exists.mp hsome
    exact ⟨env, t, step_cleanup.mpr ⟨hterm, ht⟩⟩
  cases hpc : s.cleanup with
  | exited => exact absurd hpc hlive
  | snapshot now =>
      obtain ⟨order, horder⟩ := Quot.exists_rep s.store.sessions.entries
      have hmet : s.store.Met order := Store.met_of_entries horder.symm
      refine ⟨after 0 order, ?_⟩
      simp [cleanupNext, hpc, after, hmet]
  | _ =>
      refine ⟨after 0 [], ?_⟩
      simp only [cleanupNext, hpc]
      try split
      all_goals rfl

/-- **A destruction that has begun is never stuck.** -/
theorem exists_step_of_destruction (hreach : Reaches cfg s) (hbegun : s.destructor ≠ .alive)
    (hterm : s.terminated = false) (hunfinished : s.destructor ≠ .destroyed) :
    ∃ l t, Step cfg s l t := by
  have hdestroy : (∃ t, destroyNext s = some t) → ∃ l t, Step cfg s l t := by
    rintro ⟨t, ht⟩
    exact ⟨.destroy, t, step_destroy.mpr ⟨hterm, ht⟩⟩
  cases hpc : s.destructor with
  | alive => exact absurd hpc hbegun
  | destroyed => exact absurd hpc hunfinished
  | stopped => exact hdestroy (by simp [destroyNext, hpc])
  | notified =>
      by_cases hexited : s.cleanup = .exited
      · exact hdestroy (by simp [destroyNext, hpc, hexited])
      · obtain ⟨env, t, hstep⟩ : ∃ env t, Step cfg s (.cleanup env) t :=
          exists_step_of_cleanup hterm hexited
        exact ⟨_, t, hstep⟩
  | joinedCleanup =>
      cases hheld : s.gracefulShutdownThread with
      | none => exact hdestroy (by simp [destroyNext, hpc, hheld])
      | some k =>
          have hpresent := present_of_reaches hreach k (Or.inl hheld)
          by_cases hexited : s.loops k = .exited
          · exact hdestroy (by simp [destroyNext, hpc, hheld, hexited])
          · have hlive : (s.loops k).live := by
              cases hloop : s.loops k <;> simp_all [LoopPc.live]
            obtain ⟨env, t, hstep⟩ : ∃ env t, Step cfg s (.loop k env) t :=
              exists_step_of_live hlive hterm
            exact ⟨_, t, hstep⟩

/-- No thread of the manager runs any more. -/
theorem over_of_destroyed (hreach : Reaches cfg s) (hdestroyed : s.destructor = .destroyed) :
    s.cleanup = .exited ∧ (∀ k, s.loops k = .absent ∨ s.loops k = .exited) ∧
      ∀ i, s.threads i = .idle := by
  have hidle := idle_of_reaches hreach (by simp [hdestroyed])
  refine ⟨(stopping_of_reaches hreach).cleanup (Or.inr hdestroyed), fun k => ?_, hidle⟩
  by_cases habsent : s.loops k = .absent
  · exact Or.inl habsent
  · rcases held_of_reaches hreach k habsent with ⟨hunfinished, _⟩ | ⟨_, hexited⟩
    · exact absurd hdestroyed hunfinished
    · exact Or.inr hexited

omit [Fintype ι] [DecidableEq ι] in
theorem toEnd_le (hbegun : s.destructor ≠ .alive) : s.toEnd ≤ 14 := by
  have hdestructor : s.destructor.left ≤ 3 := by
    cases hpc : s.destructor <;> simp_all [DestructorPc.left]
  have hcleanup : s.cleanup.left ≤ 4 := by
    cases s.cleanup <;> simp [CleanupPc.left]
  have hloop : (s.gracefulShutdownThread.elim 0 fun k => (s.loops k).left) ≤ 6 := by
    cases s.gracefulShutdownThread with
    | none => simp
    | some k => cases hpc : s.loops k <;> simp [hpc, LoopPc.left]
  rw [Manager.toEnd]
  split <;> omega

theorem begun_of_step (h : Step cfg s l t) (hbegun : s.destructor ≠ .alive) :
    t.destructor ≠ .alive := by
  by_cases hl : l = .destroy
  · subst hl
    exact (destroyNext_destructor (step_destroy.mp h).2).2
  · rw [destructor_of_step h hl]
    exact hbegun

/-- A run of the destruction uses up the steps that were to go. -/
theorem toEnd_of_run {tr : List (Label ι)} (h : Run (Step cfg) s tr t) (hreach : Reaches cfg s)
    (hbegun : s.destructor ≠ .alive) :
    Reaches cfg t ∧ t.destructor ≠ .alive ∧ t.toEnd + tr.length ≤ s.toEnd := by
  induction h with
  | nil => exact ⟨hreach, hbegun, le_refl _⟩
  | snoc _ hlast ih =>
      obtain ⟨hu, halive, hle⟩ := ih
      have hless := toEnd_of_step hu halive hlast
      refine ⟨hu.tail hlast, begun_of_step hlast halive, ?_⟩
      rw [List.length_append, List.length_singleton]
      omega

/-- Only an exception of the callback, or a rate of zero, ends the process now. -/
theorem not_terminated_of_destruction (hquiet : cfg.Quiet) (hrate : 1 ≤ cfg.shutdownRate)
    (hreach : Reaches cfg s) (hbegun : s.destructor ≠ .alive) (h : Step cfg s l t) :
    t.terminated = false := by
  have hterm := not_terminated_of_step h
  cases l with
  | call i c =>
      obtain ⟨_, _, rfl⟩ := step_call.mp h
      exact hterm
  | thread i env =>
      have hnext := (step_thread.mp h).2
      simp [threadNext, idle_of_reaches hreach hbegun i] at hnext
  | cleanup env => rw [terminated_of_cleanup hquiet (step_cleanup.mp h).2, hterm]
  | loop k env =>
      have herase := fun imsi => hquiet.shutdownErase env imsi s.store
      rw [terminated_of_loop herase hrate (step_loop.mp h).2, hterm]
  | destroy => rw [(destroyNext_frame (step_destroy.mp h).2).2.2.2.2, hterm]

/-- **The destructor returns and leaves nothing behind.** Once `~SessionManager` has begun,
wherever the cleanup thread and the shutdown loop are, the process makes at most fourteen
more steps in any order; as long as it is neither over nor terminated, some thread can
move; and when it is over, the cleanup thread and every loop ever started have ended and no
caller is inside the manager. With a callback that does not raise and a rate of at least
one the process is not terminated on the way. -/
theorem destructor_returns (hreach : Reaches cfg s) (hbegun : s.destructor ≠ .alive)
    {tr : List (Label ι)} (h : Run (Step cfg) s tr t) :
    tr.length ≤ 14 ∧
      (t.terminated = false → t.destructor ≠ .destroyed → ∃ l u, Step cfg t l u) ∧
      (t.destructor = .destroyed →
        t.cleanup = .exited ∧ (∀ k, t.loops k = .absent ∨ t.loops k = .exited) ∧
          ∀ i, t.threads i = .idle) ∧
      (cfg.Quiet → 1 ≤ cfg.shutdownRate → s.terminated = false → t.terminated = false) := by
  obtain ⟨hreached, hgoing, hle⟩ := toEnd_of_run h hreach hbegun
  have hbound := toEnd_le hbegun
  refine ⟨by omega, fun hterm hunfinished => ?_, fun hdestroyed => ?_, fun hquiet hrate hterm => ?_⟩
  · exact exists_step_of_destruction hreached hgoing hterm hunfinished
  · exact over_of_destroyed hreached hdestroyed
  · cases h with
    | nil => exact hterm
    | snoc hrun hlast =>
        obtain ⟨hu, halive, _⟩ := toEnd_of_run hrun hreach hbegun
        exact not_terminated_of_destruction hquiet hrate hu halive hlast

end Destructor

/-! The manager is destroyed while a shutdown is under way and its loop sleeps. -/

private def shutdownAndDestruction : List (Label Caller) :=
  serve .first (.createSession (text "1")) 2 ++ serve .first .startGracefulShutdown 3 ++
    [.loop 0 (after 0 []), .loop 0 (after 0 []), .loop 0 (after 0 []),
      .loop 0 (after 0 [⟨text "1", ⟨text "1", 0, 0⟩⟩]), .loop 0 (after 0 []),
      .loop 0 (after 0 []), .destroy]

private def wakingUp : List (Label Caller) :=
  [.destroy, .loop 0 (after 0 []), .loop 0 (after 0 []), .cleanup (after 0 []), .destroy, .destroy]

private def asleep : Manager Caller := play shutdownAndDestruction (by decide +kernel)

private def woken : Manager Caller :=
  replayed (next sample) wakingUp asleep (by decide +kernel)

theorem destructor_returns_early :
    woken.destructor = .destroyed ∧ woken.cleanup = .exited ∧
      (∀ k, woken.loops k = .absent ∨ woken.loops k = .exited) ∧ woken.terminated = false := by
  have hreach : Reaches sample asleep := ⟨_, shutdownAndDestruction, ⟨0, rfl⟩, run_play _ _⟩
  have hrun : Run (Step sample) asleep wakingUp woken := run_replayed (next sample) wakingUp _ _
  obtain ⟨_, _, hover, hterm⟩ := destructor_returns hreach (by decide +kernel) hrun
  have hdestroyed : woken.destructor = .destroyed := by decide +kernel
  obtain ⟨hcleanup, hloops, _⟩ := hover hdestroyed
  exact ⟨hdestroyed, hcleanup, hloops,
    hterm sample_delivers.quiet (by decide) (by decide +kernel)⟩

end Pgw.SessionManager
