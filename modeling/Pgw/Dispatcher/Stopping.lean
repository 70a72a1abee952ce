import Pgw.Dispatcher.Wakeup

/-!
# A stop that does not stop

`stop()` exchanges `stop_` for `false`, the value it already has. No worker ever
reads `true`, none leaves its loop, and the first `join` of a pool that has a
worker waits forever, be the worker busy or asleep.
-/
namespace Pgw.EventDispatcher
open TransitionSystem

variable {ε κ : Type} {n : ℕ}

/-! ## What is expected of a stop -/

/-- `stop()` waits for a worker that sleeps, that no notification is on its way
to, and that would go back to sleep if it woke. -/
def Hung (s : Pool ε n κ) : Prop :=
  ∃ j k, ∃ hk : k < n, s.stoppers j = .join k ∧ s.workers ⟨k, hk⟩ = .blocked ∧
    s.producer = .idle ∧ (∀ i, s.stoppers i ≠ .notifyAll) ∧
    s.eventAvailable = false ∧ s.stop = false

/-- What a state after the update of `stop_` should be like: the flag is up, every
worker that reads it leaves its loop or its wait, and nobody hangs. -/
structure Stops [DecidableEq κ] (s : Pool ε n κ) : Prop where
  flag : s.stop = true
  leavesLoop : ∀ i t, s.workers i = .testStop → PoolStep s (.worker i) t → t.workers i = .exited
  leavesWait : ∀ i t, s.workers i = .checkStop → PoolStep s (.worker i) t → t.workers i = .clear
  notHung : ¬ Hung s

/-! ## Callers of `stop()` -/

section Callers
variable {s t : Pool ε n κ}

theorem workerNext_frame {i : Fin n} (h : workerNext i s = some t) :
    t.stoppers = s.stoppers ∧ t.joinable = s.joinable := by
  cases hpc : s.workers i <;> simp only [workerNext, hpc] at h <;> (try split at h)
  all_goals cases h <;> exact ⟨rfl, rfl⟩

variable [DecidableEq κ]

theorem stopperNext_stoppers {j : κ} (h : stopperNext j s = some t) :
    ∃ pc, t.stoppers = Function.update s.stoppers j pc := by
  rw [stopperNext] at h
  split at h <;> (try split at h) <;> (try split at h) <;> (try split at h)
  all_goals cases h <;> exact ⟨_, rfl⟩

/-- Where a caller can be after a step: where it was, at the beginning of a call, or
somewhere by a step of its own. Nobody else touches what is joinable. -/
theorem stoppers_of_step {l : PoolLabel ε n κ} (h : PoolStep s l t) (j : κ) :
    l = .stopper j ∨ t.stoppers j = s.stoppers j ∨
      s.stoppers j = .idle ∧ t.stoppers j = .exchange := by
  cases l with
  | enqueue event =>
      obtain ⟨_, rfl⟩ := enqueue_iff.mp h
      exact Or.inr (Or.inl rfl)
  | storeAvailable =>
      obtain ⟨_, rfl⟩ := storeAvailable_iff.mp h
      exact Or.inr (Or.inl rfl)
  | notifyOne i =>
      obtain ⟨_, _, rfl⟩ := notifyOne_iff.mp h
      exact Or.inr (Or.inl rfl)
  | notifyNone =>
      obtain ⟨_, rfl⟩ := notifyNone_iff.mp h
      exact Or.inr (Or.inl rfl)
  | worker i => exact Or.inr (Or.inl (by rw [(workerNext_frame h).1]))
  | spurious i =>
      obtain ⟨_, rfl⟩ := spurious_iff.mp h
      exact Or.inr (Or.inl rfl)
  | callStop i =>
      obtain ⟨hidle, rfl⟩ := callStop_iff.mp h
      by_cases hji : j = i
      · subst hji
        exact Or.inr (Or.inr ⟨hidle, Function.update_self ..⟩)
      · exact Or.inr (Or.inl (Function.update_of_ne hji ..))
  | stopper i =>
      obtain ⟨pc, hstoppers⟩ := stopperNext_stoppers h
      by_cases hji : j = i
      · exact Or.inl (by rw [hji])
      · exact Or.inr (Or.inl (by rw [hstoppers, Function.update_of_ne hji]))

theorem joinable_of_step {l : PoolLabel ε n κ} (h : PoolStep s l t)
    (hl : ∀ j, l ≠ .stopper j) : t.joinable = s.joinable := by
  cases l with
  | enqueue event => obtain ⟨_, rfl⟩ := enqueue_iff.mp h; rfl
  | storeAvailable => obtain ⟨_, rfl⟩ := storeAvailable_iff.mp h; rfl
  | notifyOne i => obtain ⟨_, _, rfl⟩ := notifyOne_iff.mp h; rfl
  | notifyNone => obtain ⟨_, rfl⟩ := notifyNone_iff.mp h; rfl
  | worker i => exact (workerNext_frame h).2
  | spurious i => obtain ⟨_, rfl⟩ := spurious_iff.mp h; rfl
  | callStop i => obtain ⟨_, rfl⟩ := callStop_iff.mp h; rfl
  | stopper j => exact absurd rfl (hl j)

end Callers

/-! ## Nobody leaves -/

/-- No worker has been joined. -/
structure Unjoined (s : Pool ε n κ) : Prop where
  sound : Sound s
  joinable : ∀ i, s.joinable i = true
  atFirst : ∀ j k, s.stoppers j = .join k → k = 0

namespace Unjoined
variable [DecidableEq κ] {s t : Pool ε n κ}

/-- Where a worker waits to be joined, the caller of `stop()` waits. -/
theorem not_enabled (hs : Unjoined s) {j : κ} {k : ℕ} (hpc : s.stoppers j = .join k)
    (hk : k < n) : stopperNext j s = none := by
  simp only [stopperNext, hpc, dif_pos hk, hs.joinable, if_true]
  split
  · rename_i hexited
    exact absurd hexited (hs.sound.present _)
  · rfl

theorem stopper (hs : Unjoined s) (hn : 0 < n) {j : κ} (h : stopperNext j s = some t) :
    t.joinable = s.joinable ∧ ∀ k, t.stoppers j = .join k → k = 0 := by
  cases hpc : s.stoppers j with
  | idle => simp [stopperNext, hpc] at h
  | exchange =>
      simp only [stopperNext, hpc, Option.some.injEq] at h
      subst h
      refine ⟨rfl, fun k hk => ?_⟩
      simp only [Function.update_self] at hk
      split at hk <;> cases hk
  | notifyAll =>
      simp only [stopperNext, hpc, Option.some.injEq] at h
      subst h
      refine ⟨rfl, fun k hk => ?_⟩
      simp only [Function.update_self, StopPc.join.injEq] at hk
      exact hk.symm
  | join k =>
      have hzero := hs.atFirst j k hpc
      subst hzero
      rw [hs.not_enabled hpc hn] at h
      cases h

theorem step (hs : Unjoined s) (hn : 0 < n) {l : PoolLabel ε n κ} (h : PoolStep s l t) :
    Unjoined t := by
  refine ⟨hs.sound.step h, fun i => ?_, fun j k hk => ?_⟩
  · by_cases hl : ∃ j, l = .stopper j
    · obtain ⟨j, rfl⟩ := hl
      rw [(hs.stopper hn h).1, hs.joinable]
    · rw [joinable_of_step h fun j heq => hl ⟨j, heq⟩, hs.joinable]
  · rcases stoppers_of_step h j with rfl | hsame | ⟨_, hexchange⟩
    · exact (hs.stopper hn h).2 k hk
    · exact hs.atFirst j k (hsame ▸ hk)
    · rw [hexchange] at hk
      cases hk

end Unjoined

/-! ## Runs -/

variable [DecidableEq κ] {s t : Pool ε n κ}

theorem reachable_unjoined (hn : 0 < n) (h : Reachable PoolInitial PoolStep s) : Unjoined s := by
  refine h.invariant (P := Unjoined) ?_ fun _ _ _ hs hstep => hs.step hn hstep
  rintro s₀ rfl
  exact ⟨Sound.initial, fun _ => rfl, fun _ _ hpc => by cases hpc⟩

/-- A caller of `stop()` that has come to its first join stays there. -/
theorem joins_forever (hn : 0 < n) (hs : Unjoined s) {j : κ} {tr : List (PoolLabel ε n κ)}
    (hpc : s.stoppers j = .join 0) (h : Run PoolStep s tr t) : t.stoppers j = .join 0 := by
  have hboth : Unjoined t ∧ t.stoppers j = .join 0 := by
    refine h.invariant (P := fun s => Unjoined s ∧ s.stoppers j = .join 0) ?_ ⟨hs, hpc⟩
    rintro u l v ⟨hu, hupc⟩ hstep
    refine ⟨hu.step hn hstep, ?_⟩
    rcases stoppers_of_step hstep j with rfl | hsame | ⟨hidle, _⟩
    · rw [PoolStep, next, hu.not_enabled hupc hn] at hstep
      cases hstep
    · rw [hsame, hupc]
    · rw [hupc] at hidle
      cases hidle
  exact hboth.2

/-! ## A pool that hangs -/

/-- A worker that comes to an empty queue goes to sleep. -/
theorem falls_asleep (i : Fin n) (hpc : s.workers i = .testStop) (hstop : s.stop = false)
    (hqueue : s.queue = []) (hmutex : s.notifyMutex = none) (hflag : s.eventAvailable = false) :
    Run PoolStep s (List.replicate 6 (.worker i)) (s.goto i .blocked) := by
  apply run_of_replay
  simp [replay, next, workerNext, Pool.goto, hpc, hstop, hqueue, hmutex, hflag]

/-- A worker that is woken with both flags down goes back to sleep. -/
theorem sleeps_on (i : Fin n) (hpc : s.workers i = .woken) (hstop : s.stop = false)
    (hmutex : s.notifyMutex = none) (hflag : s.eventAvailable = false) :
    Run PoolStep s (List.replicate 4 (.worker i)) (s.goto i .blocked) := by
  apply run_of_replay
  simp [replay, next, workerNext, Pool.goto, hpc, hstop, hmutex, hflag]

/-- The first worker is at `pc`, and a call of `stop()` at `stopper`. -/
def atFirstJoin (ε : Type) (n : ℕ) (hn : 0 < n) (j : κ) (pc : WorkerPc ε) (stopper : StopPc) :
    Pool ε n κ :=
  { (Pool.initial ε n κ).goto ⟨0, hn⟩ pc with
    stoppers := Function.update (fun _ => .idle) j stopper }

theorem reachable_exchange (hn : 0 < n) (j : κ) :
    Reachable PoolInitial PoolStep (atFirstJoin ε n hn j .blocked .exchange) := by
  have hsleep := falls_asleep (s := Pool.initial ε n κ) ⟨0, hn⟩ rfl rfl rfl rfl rfl
  exact ⟨Pool.initial ε n κ, _, rfl, hsleep.snoc (callStop_iff.mpr ⟨rfl, rfl⟩)⟩

/-- The update of `stop_`, with the worker asleep. -/
theorem step_exchange (hn : 0 < n) (j : κ) :
    PoolStep (atFirstJoin ε n hn j .blocked .exchange) (.stopper j)
      (atFirstJoin ε n hn j .blocked .notifyAll) := by
  simp [PoolStep, next, stopperNext, atFirstJoin, Pool.goto, Pool.initial]

/-- The call wakes the worker and comes to its first join. -/
theorem step_notifyAll (hn : 0 < n) (j : κ) :
    PoolStep (atFirstJoin ε n hn j .blocked .notifyAll) (.stopper j)
      (atFirstJoin ε n hn j .woken (.join 0)) := by
  have hwake : (fun i : Fin n => wake (Function.update (fun _ => WorkerPc.testStop (ε := ε))
      ⟨0, hn⟩ .blocked i)) = Function.update (fun _ => .testStop) ⟨0, hn⟩ .woken := by
    funext i
    by_cases hi : i = ⟨0, hn⟩
    · subst hi
      simp [wake]
    · simp [Function.update_of_ne hi, wake]
  simp [PoolStep, next, stopperNext, atFirstJoin, Pool.goto, Pool.initial, hwake]

/-- The worker goes back to sleep, and the call waits for it. -/
theorem run_hung (hn : 0 < n) (j : κ) : ∃ tr, ∃ s : Pool ε n κ,
    Run PoolStep (atFirstJoin ε n hn j .blocked .notifyAll) tr s ∧ Hung s := by
  have hsleep := sleeps_on (s := atFirstJoin ε n hn j .woken (.join 0)) ⟨0, hn⟩
    (by simp [atFirstJoin]) rfl rfl rfl
  refine ⟨_, _, (Run.single (step_notifyAll hn j)).append hsleep, j, 0, hn, ?_⟩
  refine ⟨by simp [atFirstJoin, Pool.goto], by simp, rfl, fun i => ?_, rfl, rfl⟩
  by_cases hij : i = j
  · subst hij
    simp [atFirstJoin, Pool.goto]
  · simp [atFirstJoin, Pool.goto, Function.update_of_ne hij]

/-- **`stop()` never stops.** In no state after its update of `stop_` is the flag up:
no worker leaves its loop or its wait on reading it, or has left, and a call that
has come to its first join stays there. Where there is a worker, some run makes
the call wait for one that sleeps. -/
theorem stop_never_stops (ε κ : Type) [DecidableEq κ] (n : ℕ) :
    (∀ (u v s : Pool ε n κ) (j : κ) (tr : List (PoolLabel ε n κ)),
      Reachable PoolInitial PoolStep u → u.stoppers j = .exchange →
      PoolStep u (.stopper j) v → Run PoolStep v tr s →
        ¬ Stops s ∧ s.stop = false ∧
        (∀ i t, s.workers i = .testStop → PoolStep s (.worker i) t → t.workers i = .dequeue) ∧
        (∀ i t, s.workers i = .checkStop → PoolStep s (.worker i) t → t.workers i = .block) ∧
        (∀ i, s.workers i ≠ .exited) ∧
        (0 < n → ∀ i tr' t, s.stoppers i = .join 0 → Run PoolStep s tr' t →
          t.stoppers i = .join 0)) ∧
    (0 < n → ∀ j : κ, ∃ (u v s : Pool ε n κ) (tr : List (PoolLabel ε n κ)),
      Reachable PoolInitial PoolStep u ∧ u.stoppers j = .exchange ∧
      PoolStep u (.stopper j) v ∧ Run PoolStep v tr s ∧ Hung s) := by
  constructor
  · intro u v s j tr hreach _ hupdate hrun
    have hs : Reachable PoolInitial PoolStep s := (hreach.tail hupdate).run hrun
    have hsound := reachable_sound hs
    have hdown := hsound.running
    refine ⟨fun hstops => ?_, hdown, ?_, ?_, hsound.present, ?_⟩
    · rw [hstops.flag] at hdown
      cases hdown
    · intro i t hpc hstep
      simp only [PoolStep, next, workerNext, hpc, hdown, Option.some.injEq] at hstep
      rw [← hstep]
      simp
    · intro i t hpc hstep
      simp only [PoolStep, next, workerNext, hpc, hdown, Option.some.injEq] at hstep
      rw [← hstep]
      simp
    · intro hn i tr' t hpc hrun'
      exact joins_forever hn (reachable_unjoined hn hs) hpc hrun'
  · intro hn j
    obtain ⟨tr, s, hrun, hhung⟩ := run_hung hn j
    exact ⟨_, _, s, tr, reachable_exchange hn j, by simp [atFirstJoin], step_exchange hn j, hrun,
      hhung⟩

theorem stop_never_stops_one : ∃ s : Pool Unit 1 Unit,
    Reachable PoolInitial PoolStep s ∧ Hung s ∧ ¬ Stops s := by
  obtain ⟨hfails, hhangs⟩ := stop_never_stops Unit Unit 1
  obtain ⟨u, v, s, tr, hreach, hpc, hupdate, hrun, hhung⟩ := hhangs Nat.one_pos ()
  have hstops := (hfails u v s () tr hreach hpc hupdate hrun).1
  exact ⟨s, (hreach.tail hupdate).run hrun, hhung, hstops⟩

/-- One worker falls asleep, `stop()` is called and wakes it, and it sleeps on. -/
def stopOnce : List (PoolLabel Unit 1 Unit) :=
  List.replicate 6 (.worker ⟨0, Nat.one_pos⟩) ++ [.callStop (), .stopper (), .stopper ()] ++
    List.replicate 4 (.worker ⟨0, Nat.one_pos⟩)

theorem stopOnce_hung : ∃ s : Pool Unit 1 Unit,
    Run PoolStep (Pool.initial Unit 1 Unit) stopOnce s ∧ s.stop = false ∧ Hung s := by
  refine ⟨replayed next stopOnce _ (by decide +kernel), run_replayed _ _ _ _, by decide +kernel,
    (), 0, Nat.one_pos, ?_⟩
  decide +kernel

end Pgw.EventDispatcher
