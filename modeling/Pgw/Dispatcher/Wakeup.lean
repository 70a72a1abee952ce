import Pgw.Dispatcher.Workers

/-!
# Lost wake-ups

`notify_event_available` notifies without the mutex. A worker that has read
`event_available_` as false and has not yet blocked misses the notification; if
nobody else is there to take the event, it stays in the queue while everybody
sleeps. The mutex lets one worker at a time into that window, so two workers are
enough to be safe, and a lone worker is safe in the runs in which no notification
falls into the window.
-/
namespace Pgw.EventDispatcher
open TransitionSystem

variable {ε κ : Type} {n : ℕ}

/-! ## Classes of positions -/

/-- Holds the mutex. -/
def WorkerPc.holds : WorkerPc ε → Bool
  | .check | .checkStop | .block | .clear | .unlock => true
  | _ => false

/-- Comes to the queue before it comes to the predicate. -/
def WorkerPc.active : WorkerPc ε → Bool
  | .testStop | .dequeue | .handle _ | .clear | .unlock => true
  | _ => false

/-- Comes to the predicate first. -/
def WorkerPc.willCheck : WorkerPc ε → Bool
  | .lock | .check | .woken => true
  | _ => false

/-- Has read `event_available_` as false and has not blocked yet. -/
def WorkerPc.inWindow : WorkerPc ε → Bool
  | .checkStop | .block => true
  | _ => false

theorem holds_of_inWindow {pc : WorkerPc ε} (h : pc.inWindow) : pc.holds := by
  cases pc <;> first | rfl | cases h

/-- Where else a worker can be. -/
theorem class_of_not_inWindow {pc : WorkerPc ε} (hwindow : ¬ pc.inWindow)
    (hblocked : ¬ pc.isBlocked) (hexited : pc ≠ .exited) : pc.active ∨ pc.willCheck := by
  cases pc <;> simp_all [WorkerPc.inWindow, WorkerPc.isBlocked, WorkerPc.active,
    WorkerPc.willCheck]

theorem wake_eq_of_active {pc : WorkerPc ε} (h : pc.active) : wake pc = pc := by
  cases pc <;> first | rfl | cases h

theorem wake_eq_of_willCheck {pc : WorkerPc ε} (h : pc.willCheck) : wake pc = pc := by
  cases pc <;> first | rfl | cases h

/-! ## The mutex -/

/-- Nobody stops, and who is inside the critical section owns the mutex. -/
structure Sound (s : Pool ε n κ) : Prop where
  running : s.stop = false
  present : ∀ i, s.workers i ≠ .exited
  owner : ∀ i, (s.workers i).holds → s.notifyMutex = some i

namespace Sound
variable {s t : Pool ε n κ}

theorem unique (hs : Sound s) {i j : Fin n} (hi : (s.workers i).holds) (hj : (s.workers j).holds) :
    i = j := by
  have heq := (hs.owner i hi).symm.trans (hs.owner j hj)
  exact Option.some.inj heq

theorem initial : Sound (Pool.initial ε n κ) where
  running := rfl
  present _ := nofun
  owner _ h := nomatch h

/-- One worker moves, and takes or gives back the mutex if at all. -/
theorem move (hs : Sound s) {i : Fin n} {pc : WorkerPc ε} (hstop : t.stop = false)
    (hworkers : t.workers = Function.update s.workers i pc) (hpresent : pc ≠ .exited)
    (hself : pc.holds → t.notifyMutex = some i)
    (hmutex : t.notifyMutex = s.notifyMutex ∨ s.notifyMutex = none ∨ s.notifyMutex = some i) :
    Sound t := by
  refine ⟨hstop, ?_, ?_⟩ <;> rw [hworkers]
  · apply (Function.forall_update_iff s.workers fun _ pc => pc ≠ .exited).mpr
    exact ⟨hpresent, fun j _ => hs.present j⟩
  · apply (Function.forall_update_iff s.workers
      fun j pc => pc.holds → t.notifyMutex = some j).mpr
    refine ⟨hself, fun j hji hj => ?_⟩
    have howner := hs.owner j hj
    rcases hmutex with hsame | hnone | hown
    · rw [hsame, howner]
    · rw [hnone] at howner
      cases howner
    · rw [hown, Option.some.injEq] at howner
      exact absurd howner.symm hji

theorem worker (hs : Sound s) {i : Fin n} (h : workerNext i s = some t) : Sound t := by
  have hrunning := hs.running
  cases hpc : s.workers i with
  | testStop =>
      simp only [workerNext, hpc, hrunning, Bool.false_eq_true, if_false, Option.some.injEq] at h
      subst h
      exact hs.move hrunning rfl nofun nofun (Or.inl rfl)
  | dequeue =>
      simp only [workerNext, hpc] at h
      split at h <;> cases h <;> exact hs.move hrunning rfl nofun nofun (Or.inl rfl)
  | handle event =>
      simp only [workerNext, hpc, Option.some.injEq] at h
      subst h
      exact hs.move hrunning rfl nofun nofun (Or.inl rfl)
  | lock =>
      simp only [workerNext, hpc] at h
      split at h
      · rename_i hfree
        cases h
        exact hs.move hrunning rfl nofun (fun _ => rfl) (Or.inr (Or.inl hfree))
      · cases h
  | check =>
      have howner : s.notifyMutex = some i := hs.owner i (by rw [hpc]; rfl)
      simp only [workerNext, hpc, Option.some.injEq] at h
      subst h
      refine hs.move hrunning rfl ?_ (fun _ => howner) (Or.inl rfl)
      split <;> nofun
  | checkStop =>
      have howner : s.notifyMutex = some i := hs.owner i (by rw [hpc]; rfl)
      simp only [workerNext, hpc, hrunning, Bool.false_eq_true, if_false, Option.some.injEq] at h
      subst h
      exact hs.move hrunning rfl nofun (fun _ => howner) (Or.inl rfl)
  | block =>
      have howner : s.notifyMutex = some i := hs.owner i (by rw [hpc]; rfl)
      simp only [workerNext, hpc, Option.some.injEq] at h
      subst h
      exact hs.move hrunning rfl nofun nofun (Or.inr (Or.inr howner))
  | blocked => simp [workerNext, hpc] at h
  | woken =>
      simp only [workerNext, hpc] at h
      split at h
      · rename_i hfree
        cases h
        exact hs.move hrunning rfl nofun (fun _ => rfl) (Or.inr (Or.inl hfree))
      · cases h
  | clear =>
      have howner : s.notifyMutex = some i := hs.owner i (by rw [hpc]; rfl)
      simp only [workerNext, hpc, Option.some.injEq] at h
      subst h
      exact hs.move hrunning rfl nofun (fun _ => howner) (Or.inl rfl)
  | unlock =>
      have howner : s.notifyMutex = some i := hs.owner i (by rw [hpc]; rfl)
      simp only [workerNext, hpc, Option.some.injEq] at h
      subst h
      exact hs.move hrunning rfl nofun nofun (Or.inr (Or.inr howner))
  | exited => exact absurd hpc (hs.present i)

/-- Blocked workers may be woken, and nothing else happens to workers and mutex. -/
theorem of_woken (hs : Sound s) (hstop : t.stop = false) (hmutex : t.notifyMutex = s.notifyMutex)
    (hworkers : ∀ i, t.workers i = s.workers i ∨ t.workers i = .woken) : Sound t := by
  refine ⟨hstop, fun i hi => ?_, fun i hi => ?_⟩
  · rcases hworkers i with hsame | hwoken
    · exact hs.present i (hsame ▸ hi)
    · rw [hwoken] at hi
      cases hi
  · rw [hmutex]
    rcases hworkers i with hsame | hwoken
    · exact hs.owner i (hsame ▸ hi)
    · rw [hwoken] at hi
      cases hi

theorem stopper [DecidableEq κ] (hs : Sound s) {j : κ} (h : stopperNext j s = some t) :
    Sound t := by
  obtain ⟨_, _, hmutex, _, hstop, hworkers⟩ := stopperNext_frame h
  refine hs.of_woken ?_ hmutex fun i => ?_
  · rcases hstop with hsame | hfalse
    · rw [hsame, hs.running]
    · exact hfalse
  · rcases hworkers with hsame | hwoken
    · exact Or.inl (by rw [hsame])
    · rw [hwoken]
      exact wake_cases (s.workers i)

theorem step [DecidableEq κ] (hs : Sound s) {l : PoolLabel ε n κ} (h : PoolStep s l t) :
    Sound t := by
  have hrunning := hs.running
  cases l with
  | enqueue event =>
      obtain ⟨_, rfl⟩ := enqueue_iff.mp h
      exact hs.of_woken hrunning rfl fun i => Or.inl rfl
  | storeAvailable =>
      obtain ⟨_, rfl⟩ := storeAvailable_iff.mp h
      exact hs.of_woken hrunning rfl fun i => Or.inl rfl
  | notifyOne i =>
      obtain ⟨_, _, rfl⟩ := notifyOne_iff.mp h
      exact hs.of_woken hrunning rfl (goto_cases s i _)
  | notifyNone =>
      obtain ⟨_, rfl⟩ := notifyNone_iff.mp h
      exact hs.of_woken hrunning rfl fun i => Or.inl rfl
  | worker i => exact hs.worker h
  | spurious i =>
      obtain ⟨_, rfl⟩ := spurious_iff.mp h
      exact hs.of_woken hrunning rfl (goto_cases s i _)
  | callStop j =>
      obtain ⟨_, rfl⟩ := callStop_iff.mp h
      exact hs.of_woken hrunning rfl fun i => Or.inl rfl
  | stopper j => exact hs.stopper h

end Sound

/-! ## Somebody is on the way to the queue -/

/-- While there are events, the producer has yet to set the flag, or a worker comes
to the queue, or the flag is set and somebody will act on it. -/
def Served (s : Pool ε n κ) : Prop :=
  s.queue ≠ [] → s.producer = .enqueued ∨ (∃ i, (s.workers i).active) ∨
    (s.eventAvailable = true ∧ (s.producer = .notify ∨ ∃ i, (s.workers i).willCheck))

/-- Everybody sleeps over an event. -/
def Stuck (s : Pool ε n κ) : Prop :=
  s.queue ≠ [] ∧ s.producer = .idle ∧ ∀ i, s.workers i = .blocked

/-- No `notify_one` falls, over an event, while every worker is in the window. -/
def InTime (s : Pool ε n κ) (l : PoolLabel ε n κ) : Prop :=
  l = .notifyNone → s.queue ≠ [] → ∃ i, ¬ (s.workers i).inWindow

namespace Served
variable {s t : Pool ε n κ}

theorem not_stuck (hs : Served s) : ¬ Stuck s := by
  rintro ⟨hqueue, hidle, hblocked⟩
  rcases hs hqueue with henqueued | ⟨i, hactive⟩ | ⟨_, hnotify | ⟨i, hcheck⟩⟩
  · rw [hidle] at henqueued
    cases henqueued
  · rw [hblocked i] at hactive
    cases hactive
  · rw [hidle] at hnotify
    cases hnotify
  · rw [hblocked i] at hcheck
    cases hcheck

theorem of_active {i : Fin n} (h : (t.workers i).active) : Served t :=
  fun _ => Or.inr (Or.inl ⟨i, h⟩)

/-- Queue, flag and producer stay, and no worker is lost. -/
theorem of_kept (hs : Served s) (hqueue : t.queue = s.queue)
    (hflag : t.eventAvailable = s.eventAvailable) (hproducer : t.producer = s.producer)
    (hactive : ∀ i, (s.workers i).active → (t.workers i).active)
    (hcheck : ∀ i, (s.workers i).willCheck → (t.workers i).willCheck) : Served t := by
  intro hevents
  rw [hqueue] at hevents
  rw [hflag, hproducer]
  rcases hs hevents with henqueued | ⟨i, hi⟩ | ⟨hset, hnotify | ⟨i, hi⟩⟩
  · exact Or.inl henqueued
  · exact Or.inr (Or.inl ⟨i, hactive i hi⟩)
  · exact Or.inr (Or.inr ⟨hset, Or.inl hnotify⟩)
  · exact Or.inr (Or.inr ⟨hset, Or.inr ⟨i, hcheck i hi⟩⟩)

/-- One worker moves, and stays in its class. -/
theorem move (hs : Served s) {i : Fin n} {pc : WorkerPc ε} (hqueue : t.queue = s.queue)
    (hflag : t.eventAvailable = s.eventAvailable) (hproducer : t.producer = s.producer)
    (hworkers : t.workers = Function.update s.workers i pc)
    (hactive : (s.workers i).active → pc.active)
    (hcheck : (s.workers i).willCheck → pc.willCheck) : Served t := by
  apply hs.of_kept hqueue hflag hproducer <;> rw [hworkers]
  · apply (Function.forall_update_iff s.workers
      fun j pc => (s.workers j).active → pc.active).mpr
    exact ⟨hactive, fun j _ hj => hj⟩
  · apply (Function.forall_update_iff s.workers
      fun j pc => (s.workers j).willCheck → pc.willCheck).mpr
    exact ⟨hcheck, fun j _ hj => hj⟩

/-- A worker that is not on its way to the queue moves; those that are stay so. -/
theorem active_goto {i j : Fin n} {pc : WorkerPc ε} (hi : ¬ (s.workers i).active)
    (hj : (s.workers j).active) : ((s.goto i pc).workers j).active := by
  have hji : j ≠ i := by
    intro heq
    exact hi (heq ▸ hj)
  rwa [workers_goto, Function.update_of_ne hji]

/-- The predicate is read as false. -/
theorem check_false (hs : Served s) {i : Fin n} (hpc : s.workers i = .check)
    (hflag : s.eventAvailable = false) : Served (s.goto i .checkStop) := by
  intro hevents
  rcases hs hevents with henqueued | ⟨j, hj⟩ | ⟨hset, _⟩
  · exact Or.inl henqueued
  · exact Or.inr (Or.inl ⟨j, active_goto (by simp [hpc, WorkerPc.active]) hj⟩)
  · rw [hflag] at hset
    cases hset

theorem worker (hs : Served s) (hsound : Sound s) {i : Fin n} (h : workerNext i s = some t) :
    Served t := by
  have hself : ∀ (u : Pool ε n κ) pc, pc.active → Served (u.goto i pc) := by
    intro u pc hpc
    refine of_active (i := i) ?_
    rwa [workers_goto, Function.update_self]
  have hrunning := hsound.running
  cases hpc : s.workers i with
  | testStop =>
      simp only [workerNext, hpc, hrunning, Bool.false_eq_true, if_false, Option.some.injEq] at h
      subst h
      exact hself s .dequeue rfl
  | dequeue =>
      simp only [workerNext, hpc] at h
      split at h
      · cases h
        exact hself _ _ rfl
      · rename_i hempty
        cases h
        intro hevents
        exact absurd hempty hevents
  | handle event =>
      simp only [workerNext, hpc, Option.some.injEq] at h
      subst h
      exact hself s .testStop rfl
  | lock =>
      simp only [workerNext, hpc] at h
      split at h <;> cases h
      exact hs.move rfl rfl rfl rfl (by rw [hpc]; nofun) (fun _ => rfl)
  | check =>
      simp only [workerNext, hpc, Option.some.injEq] at h
      subst h
      cases hflag : s.eventAvailable with
      | true => exact hself s .clear rfl
      | false => exact hs.check_false hpc hflag
  | checkStop =>
      simp only [workerNext, hpc, hrunning, Bool.false_eq_true, if_false, Option.some.injEq] at h
      subst h
      exact hs.move rfl rfl rfl rfl (by rw [hpc]; nofun) (by rw [hpc]; nofun)
  | block =>
      simp only [workerNext, hpc, Option.some.injEq] at h
      subst h
      exact hs.move rfl rfl rfl rfl (by rw [hpc]; nofun) (by rw [hpc]; nofun)
  | blocked => simp [workerNext, hpc] at h
  | woken =>
      simp only [workerNext, hpc] at h
      split at h <;> cases h
      exact hs.move rfl rfl rfl rfl (by rw [hpc]; nofun) (fun _ => rfl)
  | clear =>
      simp only [workerNext, hpc, Option.some.injEq] at h
      subst h
      exact hself _ _ rfl
  | unlock =>
      simp only [workerNext, hpc, Option.some.injEq] at h
      subst h
      exact hself _ _ rfl
  | exited => exact absurd hpc (hsound.present i)

theorem notifyOne (hs : Served s) {i : Fin n} (hblocked : s.workers i = .blocked)
    (hnotify : s.producer = .notify) : Served ({ s with producer := .idle }.goto i .woken) := by
  intro hevents
  rcases hs hevents with henqueued | ⟨j, hj⟩ | ⟨hset, _⟩
  · rw [hnotify] at henqueued
    cases henqueued
  · exact Or.inr (Or.inl ⟨j, active_goto (by simp [hblocked, WorkerPc.active]) hj⟩)
  · refine Or.inr (Or.inr ⟨hset, Or.inr ⟨i, ?_⟩⟩)
    rw [workers_goto, Function.update_self]
    rfl

/-- A notification that wakes nobody is harmless when a worker is out of the
window: it is not blocked, so it comes to the queue or to the predicate. -/
theorem notifyNone (hs : Served s) (hsound : Sound s) (hnotify : s.producer = .notify)
    (hnobody : ∀ i, ¬ (s.workers i).isBlocked)
    (hintime : s.queue ≠ [] → ∃ i, ¬ (s.workers i).inWindow) :
    Served { s with producer := .idle } := by
  intro hevents
  rcases hs hevents with henqueued | hactive | ⟨hset, _⟩
  · rw [hnotify] at henqueued
    cases henqueued
  · exact Or.inr (Or.inl hactive)
  · obtain ⟨i, hi⟩ := hintime hevents
    rcases class_of_not_inWindow hi (hnobody i) (hsound.present i) with hactive | hcheck
    · exact Or.inr (Or.inl ⟨i, hactive⟩)
    · exact Or.inr (Or.inr ⟨hset, Or.inr ⟨i, hcheck⟩⟩)

theorem stopper [DecidableEq κ] (hs : Served s) {j : κ} (h : stopperNext j s = some t) :
    Served t := by
  obtain ⟨hqueue, hflag, _, hproducer, _, hworkers⟩ := stopperNext_frame h
  refine hs.of_kept hqueue hflag hproducer (fun i hi => ?_) (fun i hi => ?_)
  · rcases hworkers with hsame | hwoken
    · rwa [hsame]
    · rw [hwoken]
      change (wake (s.workers i)).active
      rwa [wake_eq_of_active hi]
  · rcases hworkers with hsame | hwoken
    · rwa [hsame]
    · rw [hwoken]
      change (wake (s.workers i)).willCheck
      rwa [wake_eq_of_willCheck hi]

theorem step [DecidableEq κ] (hs : Served s) (hsound : Sound s) {l : PoolLabel ε n κ}
    (h : PoolStep s l t) (hintime : InTime s l) : Served t := by
  cases l with
  | enqueue event =>
      obtain ⟨_, rfl⟩ := enqueue_iff.mp h
      exact fun _ => Or.inl rfl
  | storeAvailable =>
      obtain ⟨_, rfl⟩ := storeAvailable_iff.mp h
      exact fun _ => Or.inr (Or.inr ⟨rfl, Or.inl rfl⟩)
  | notifyOne i =>
      obtain ⟨hblocked, hnotify, rfl⟩ := notifyOne_iff.mp h
      exact hs.notifyOne hblocked hnotify
  | notifyNone =>
      obtain ⟨⟨hnotify, hnobody⟩, rfl⟩ := notifyNone_iff.mp h
      exact hs.notifyNone hsound hnotify hnobody (hintime rfl)
  | worker i => exact hs.worker hsound h
  | spurious i =>
      obtain ⟨hblocked, rfl⟩ := spurious_iff.mp h
      refine hs.move rfl rfl rfl rfl (fun hactive => ?_) (fun _ => rfl)
      rw [hblocked] at hactive
      cases hactive
  | callStop j =>
      obtain ⟨_, rfl⟩ := callStop_iff.mp h
      exact hs.of_kept rfl rfl rfl (fun _ hi => hi) (fun _ hi => hi)
  | stopper j => exact hs.stopper h

end Served

/-! ## Runs -/

/-- The mutex lets one worker at a time into the window. -/
theorem inTime_of_two_le {s : Pool ε n κ} (hn : 2 ≤ n) (hs : Sound s) (l : PoolLabel ε n κ) :
    InTime s l := by
  intro _ _
  by_contra hall
  have hwindow : ∀ i, (s.workers i).inWindow := by
    intro i
    by_contra hi
    exact hall ⟨i, hi⟩
  have heq := hs.unique (holds_of_inWindow (hwindow ⟨0, by omega⟩))
    (holds_of_inWindow (hwindow ⟨1, by omega⟩))
  cases heq

variable [DecidableEq κ] {s t : Pool ε n κ}

/-- The pool right after its constructor. -/
def PoolInitial (s : Pool ε n κ) : Prop := s = Pool.initial ε n κ

theorem reachable_sound (h : Reachable PoolInitial PoolStep s) : Sound s := by
  refine h.invariant (P := Sound) ?_ fun _ _ _ hs hstep => hs.step hstep
  rintro s₀ rfl
  exact Sound.initial

theorem reachable_served (h : Reachable PoolInitial (only PoolStep InTime) s) : Served s := by
  have hboth : Sound s ∧ Served s := by
    refine h.invariant (P := fun s => Sound s ∧ Served s) ?_ ?_
    · rintro s₀ rfl
      exact ⟨Sound.initial, fun hevents => absurd rfl hevents⟩
    · intro s l t hs hstep
      exact ⟨hs.1.step hstep.1, hs.2.step hs.1 hstep.1 hstep.2⟩
  exact hboth.2

/-- With two workers every run is in time. -/
theorem reachable_inTime (hn : 2 ≤ n) (h : Reachable PoolInitial PoolStep s) :
    Reachable PoolInitial (only PoolStep InTime) s := by
  have hboth : Sound s ∧ Reachable PoolInitial (only PoolStep InTime) s := by
    refine h.invariant
      (P := fun s => Sound s ∧ Reachable PoolInitial (only PoolStep InTime) s) ?_ ?_
    · rintro s₀ rfl
      exact ⟨Sound.initial, Reachable.of_init rfl⟩
    · intro s l t hs hstep
      exact ⟨hs.1.step hstep, hs.2.tail ⟨hstep, inTime_of_two_le hn hs.1 l⟩⟩
  exact hboth.2

/-- The lone worker blocks after the notification that it has missed. -/
theorem stuck_of_late (hn : 1 ≤ n) (hs : Sound s) (hstep : PoolStep s .notifyNone t)
    (hlate : ¬ InTime s .notifyNone) : ∃ tr u, Run PoolStep t tr u ∧ Stuck u := by
  obtain ⟨_, rfl⟩ := notifyNone_iff.mp hstep
  simp only [InTime, true_implies, Classical.not_imp, not_exists, not_not] at hlate
  obtain ⟨hqueue, hwindow⟩ := hlate
  have hlone : ∀ j : Fin n, j = ⟨0, hn⟩ := fun j =>
    hs.unique (holds_of_inWindow (hwindow j)) (holds_of_inWindow (hwindow _))
  have hblock : ∀ u : Pool ε n κ, u.queue = s.queue → u.producer = .idle →
      u.workers ⟨0, hn⟩ = .block → ∃ v, PoolStep u (.worker ⟨0, hn⟩) v ∧ Stuck v := by
    intro u huqueue huidle hublock
    refine ⟨{ u with notifyMutex := none }.goto ⟨0, hn⟩ .blocked, ?_, ?_, huidle, fun j => ?_⟩
    · simp [PoolStep, next, workerNext, hublock]
    · exact huqueue ▸ hqueue
    · rw [hlone j, workers_goto, Function.update_self]
  have hpc := hwindow ⟨0, hn⟩
  cases hworker : s.workers ⟨0, hn⟩ with
  | checkStop =>
      have hcheck : PoolStep { s with producer := .idle } (.worker ⟨0, hn⟩)
          ({ s with producer := .idle }.goto ⟨0, hn⟩ .block) := by
        simp [PoolStep, next, workerNext, hworker, hs.running]
      obtain ⟨v, hv, hstuck⟩ := hblock ({ s with producer := .idle }.goto ⟨0, hn⟩ .block) rfl rfl
        (by rw [workers_goto, Function.update_self])
      exact ⟨_, v, (Run.single hcheck).snoc hv, hstuck⟩
  | block =>
      obtain ⟨v, hv, hstuck⟩ := hblock { s with producer := .idle } rfl rfl hworker
      exact ⟨_, v, Run.single hv, hstuck⟩
  | _ =>
      rw [hworker] at hpc
      cases hpc

/-- **Lost wake-ups, exactly.** A run in which no notification falls into the
window of the last worker awake never gets stuck; where one does, the pool can
get stuck; and with two workers no run does. -/
theorem no_lost_wakeup (ε κ : Type) [DecidableEq κ] (n : ℕ) :
    (∀ s : Pool ε n κ, Reachable PoolInitial (only PoolStep InTime) s → ¬ Stuck s) ∧
    (1 ≤ n → ∀ s t : Pool ε n κ, Reachable PoolInitial PoolStep s → PoolStep s .notifyNone t →
      ¬ InTime s .notifyNone → ∃ tr u, Run PoolStep t tr u ∧ Stuck u) ∧
    (2 ≤ n → ∀ s : Pool ε n κ, Reachable PoolInitial PoolStep s → ¬ Stuck s) := by
  refine ⟨?_, ?_, ?_⟩
  · intro s h
    exact (reachable_served h).not_stuck
  · intro hn s t h hstep hlate
    exact stuck_of_late hn (reachable_sound h) hstep hlate
  · intro hn s h
    exact (reachable_served (reachable_inTime hn h)).not_stuck

/-- The lone worker reads the flag, the producer enqueues, sets the flag and notifies
nobody, and the worker blocks. -/
def missedNotification : List (PoolLabel Unit 1 Empty) :=
  List.replicate 4 (.worker 0) ++ [.enqueue (), .storeAvailable, .notifyNone] ++
    List.replicate 2 (.worker 0)

theorem missedNotification_stuck : ∃ s : Pool Unit 1 Empty,
    Run PoolStep (Pool.initial Unit 1 Empty) missedNotification s ∧ Stuck s :=
  ⟨replayed next missedNotification _ (by decide), run_replayed _ _ _ _, by decide, by decide,
    by decide⟩

/-- The same schedule with a second worker on its way to the queue. -/
theorem no_lost_wakeup_two : ∃ s : Pool Unit 2 Empty,
    Run PoolStep (Pool.initial Unit 2 Empty)
      (List.replicate 4 (.worker 0) ++ [.enqueue (), .storeAvailable, .notifyNone] ++
        List.replicate 2 (.worker 0)) s ∧
      s.queue = [()] ∧ ¬ Stuck s := by
  have hrun := run_replayed (next : PoolLabel Unit 2 Empty → _)
    (List.replicate 4 (.worker 0) ++ [.enqueue (), .storeAvailable, .notifyNone] ++
      List.replicate 2 (.worker 0)) (Pool.initial Unit 2 Empty) (by decide)
  exact ⟨_, hrun, by decide, (no_lost_wakeup Unit Empty 2).2.2 (by decide) _ ⟨_, _, rfl, hrun⟩⟩

end Pgw.EventDispatcher
