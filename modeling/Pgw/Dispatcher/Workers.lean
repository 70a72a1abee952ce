import Mathlib.Data.Fintype.Basic
import Mathlib.Data.Fintype.Pi
import Pgw.Lib.TransitionSystem

/-!
# The worker pool of the dispatcher

`n` workers take events from a queue and sleep on `notify_cv_` when there are
none; the I/O thread enqueues an event and then notifies; callers of `stop()`
wake everybody and join. `Pool` is the queue, the two atomic flags, the mutex and
the position of every thread, and `next` performs one atomic access of one of
them.

The wait is the loop the standard prescribes: while the predicate is false, give
the mutex back and block in one step, and take it again when woken, by a
notification or by nothing at all. A notification wakes one blocked worker, and
is gone if there is none.
-/
namespace Pgw.EventDispatcher
open TransitionSystem

/-! ## Positions -/

/-- A worker in the loop of `EventDispatcher::EventDispatcher`. -/
inductive WorkerPc (ε : Type) where
  | testStop
  | dequeue
  | handle (event : ε)
  /-- `try_dequeue` has failed; the mutex is next. -/
  | lock
  /-- The predicate's `event_available_.load()`. -/
  | check
  /-- The predicate's `stop_.load()`, the first flag being false. -/
  | checkStop
  /-- The predicate is false. -/
  | block
  | blocked
  /-- Out of the block, and about to take the mutex again. -/
  | woken
  /-- The wait is over; `event_available_ = false` is next. -/
  | clear
  /-- The end of the loop body gives the mutex back. -/
  | unlock
  | exited
  deriving DecidableEq, Repr

/-- The I/O thread around `notify_event_available`. -/
inductive ProducerPc where
  | idle
  | enqueued
  | notify
  deriving DecidableEq, Repr

/-- A caller of `stop()`. -/
inductive StopPc where
  | idle
  | exchange
  | notifyAll
  | join (k : ℕ)
  deriving DecidableEq, Repr

structure Pool (ε : Type) (n : ℕ) (κ : Type) where
  queue : List ε
  eventAvailable : Bool
  stop : Bool
  notifyMutex : Option (Fin n)
  workers : Fin n → WorkerPc ε
  producer : ProducerPc
  stoppers : κ → StopPc
  /-- Which threads of the pool are still joinable. -/
  joinable : Fin n → Bool

inductive PoolLabel (ε : Type) (n : ℕ) (κ : Type) where
  | enqueue (event : ε)
  | storeAvailable
  /-- `notify_one` wakes this worker. -/
  | notifyOne (i : Fin n)
  /-- `notify_one` finds nobody blocked. -/
  | notifyNone
  | worker (i : Fin n)
  | spurious (i : Fin n)
  | callStop (j : κ)
  | stopper (j : κ)

variable {ε κ : Type} {n : ℕ}

/-- The pool right after its constructor. -/
def Pool.initial (ε : Type) (n : ℕ) (κ : Type) : Pool ε n κ where
  queue := []
  eventAvailable := false
  stop := false
  notifyMutex := none
  workers := fun _ => .testStop
  producer := .idle
  stoppers := fun _ => .idle
  joinable := fun _ => true

def Pool.goto (s : Pool ε n κ) (i : Fin n) (pc : WorkerPc ε) : Pool ε n κ :=
  { s with workers := Function.update s.workers i pc }

/-! ## Workers -/

@[simp] theorem workers_goto (s : Pool ε n κ) (i : Fin n) (pc : WorkerPc ε) :
    (s.goto i pc).workers = Function.update s.workers i pc := rfl

/-- Blocked on `notify_cv_`. -/
def WorkerPc.isBlocked : WorkerPc ε → Bool
  | .blocked => true
  | _ => false

def workerNext (i : Fin n) (s : Pool ε n κ) : Option (Pool ε n κ) :=
  match s.workers i with
  | .testStop => some (s.goto i (if s.stop then .exited else .dequeue))
  | .dequeue =>
      match s.queue with
      | event :: queue => some ({ s with queue := queue }.goto i (.handle event))
      | [] => some (s.goto i .lock)
  | .handle _ => some (s.goto i .testStop)
  | .lock =>
      if s.notifyMutex = none then some ({ s with notifyMutex := some i }.goto i .check) else none
  | .check => some (s.goto i (if s.eventAvailable then .clear else .checkStop))
  | .checkStop => some (s.goto i (if s.stop then .clear else .block))
  | .block => some ({ s with notifyMutex := none }.goto i .blocked)
  | .blocked => none
  | .woken =>
      if s.notifyMutex = none then some ({ s with notifyMutex := some i }.goto i .check) else none
  | .clear => some ({ s with eventAvailable := false }.goto i .unlock)
  | .unlock => some ({ s with notifyMutex := none }.goto i .testStop)
  | .exited => none

/-! ## The other threads -/

def wake (pc : WorkerPc ε) : WorkerPc ε :=
  match pc with
  | .blocked => .woken
  | pc => pc

/-- `stop()`. The exchange stores `false`, as the source does. -/
def stopperNext [DecidableEq κ] (j : κ) (s : Pool ε n κ) : Option (Pool ε n κ) :=
  match s.stoppers j with
  | .idle => none
  | .exchange =>
      some { s with
        stop := false
        stoppers := Function.update s.stoppers j (if s.stop then .idle else .notifyAll) }
  | .notifyAll =>
      some { s with
        workers := fun i => wake (s.workers i)
        stoppers := Function.update s.stoppers j (.join 0) }
  | .join k =>
      if h : k < n then
        if s.joinable ⟨k, h⟩ then
          match s.workers ⟨k, h⟩ with
          | .exited =>
              some { s with
                joinable := Function.update s.joinable ⟨k, h⟩ false
                stoppers := Function.update s.stoppers j (.join (k + 1)) }
          | _ => none
        else some { s with stoppers := Function.update s.stoppers j (.join (k + 1)) }
      else some { s with stoppers := Function.update s.stoppers j .idle }

/-- One atomic access. -/
def next [DecidableEq κ] (l : PoolLabel ε n κ) (s : Pool ε n κ) : Option (Pool ε n κ) :=
  match l with
  | .enqueue event =>
      if s.producer = .idle then
        some { s with queue := s.queue ++ [event], producer := .enqueued }
      else none
  | .storeAvailable =>
      if s.producer = .enqueued then some { s with eventAvailable := true, producer := .notify }
      else none
  | .notifyOne i =>
      match s.workers i with
      | .blocked =>
          if s.producer = .notify then some ({ s with producer := .idle }.goto i .woken) else none
      | _ => none
  | .notifyNone =>
      if s.producer = .notify ∧ ∀ i, ¬ (s.workers i).isBlocked then
        some { s with producer := .idle }
      else none
  | .worker i => workerNext i s
  | .spurious i =>
      match s.workers i with
      | .blocked => some (s.goto i .woken)
      | _ => none
  | .callStop j =>
      if s.stoppers j = .idle then
        some { s with stoppers := Function.update s.stoppers j .exchange }
      else none
  | .stopper j => stopperNext j s

def PoolStep [DecidableEq κ] (s : Pool ε n κ) (l : PoolLabel ε n κ) (t : Pool ε n κ) : Prop :=
  next l s = some t

/-! ## Steps -/

section Steps
variable {s t : Pool ε n κ}

theorem wake_cases (pc : WorkerPc ε) : wake pc = pc ∨ wake pc = .woken := by
  cases pc <;> first | exact Or.inl rfl | exact Or.inr rfl

theorem goto_cases (s : Pool ε n κ) (i : Fin n) (pc : WorkerPc ε) (j : Fin n) :
    (s.goto i pc).workers j = s.workers j ∨ (s.goto i pc).workers j = pc := by
  by_cases hji : j = i
  · subst hji
    exact Or.inr (Function.update_self ..)
  · exact Or.inl (Function.update_of_ne hji ..)

variable [DecidableEq κ]

theorem enqueue_iff {event : ε} : PoolStep s (.enqueue event) t ↔
    s.producer = .idle ∧ { s with queue := s.queue ++ [event], producer := .enqueued } = t := by
  simp [PoolStep, next]

theorem storeAvailable_iff : PoolStep s .storeAvailable t ↔
    s.producer = .enqueued ∧ { s with eventAvailable := true, producer := .notify } = t := by
  simp [PoolStep, next]

theorem notifyOne_iff {i : Fin n} : PoolStep s (.notifyOne i) t ↔
    s.workers i = .blocked ∧ s.producer = .notify ∧
      ({ s with producer := .idle }.goto i .woken) = t := by
  cases hpc : s.workers i <;> simp [PoolStep, next, hpc]

theorem notifyNone_iff : PoolStep s .notifyNone t ↔
    (s.producer = .notify ∧ ∀ i, ¬ (s.workers i).isBlocked) ∧
      { s with producer := .idle } = t := by
  simp [PoolStep, next]

theorem spurious_iff {i : Fin n} : PoolStep s (.spurious i) t ↔
    s.workers i = .blocked ∧ s.goto i .woken = t := by
  cases hpc : s.workers i <;> simp [PoolStep, next, hpc]

theorem callStop_iff {j : κ} : PoolStep s (.callStop j) t ↔
    s.stoppers j = .idle ∧
      { s with stoppers := Function.update s.stoppers j .exchange } = t := by
  simp [PoolStep, next]

/-- A caller of `stop()` leaves queue, flag, mutex and producer alone; it may clear
the stop flag and wake the workers. -/
theorem stopperNext_frame {j : κ} (h : stopperNext j s = some t) :
    t.queue = s.queue ∧ t.eventAvailable = s.eventAvailable ∧ t.notifyMutex = s.notifyMutex ∧
      t.producer = s.producer ∧ (t.stop = s.stop ∨ t.stop = false) ∧
      (t.workers = s.workers ∨ t.workers = fun i => wake (s.workers i)) := by
  cases hpc : s.stoppers j with
  | idle => simp [stopperNext, hpc] at h
  | exchange =>
      simp only [stopperNext, hpc, Option.some.injEq] at h
      subst h
      exact ⟨rfl, rfl, rfl, rfl, Or.inr rfl, Or.inl rfl⟩
  | notifyAll =>
      simp only [stopperNext, hpc, Option.some.injEq] at h
      subst h
      exact ⟨rfl, rfl, rfl, rfl, Or.inl rfl, Or.inr rfl⟩
  | join k =>
      simp only [stopperNext, hpc] at h
      split at h
      · split at h
        · split at h <;> cases h
          exact ⟨rfl, rfl, rfl, rfl, Or.inl rfl, Or.inl rfl⟩
        · cases h
          exact ⟨rfl, rfl, rfl, rfl, Or.inl rfl, Or.inl rfl⟩
      · cases h
        exact ⟨rfl, rfl, rfl, rfl, Or.inl rfl, Or.inl rfl⟩

end Steps

end Pgw.EventDispatcher
