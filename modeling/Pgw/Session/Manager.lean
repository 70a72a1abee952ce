import Mathlib.Data.Fintype.Basic
import Pgw.Lib.TransitionSystem
import Pgw.Session.Store

/-!
# The session manager as a system of threads

`Manager ι` is the store together with the position of every thread that runs on
it: the callers `ι`, each inside at most one public operation, the cleanup
thread, the graceful-shutdown loops and the destructor. `next` performs the next
atomic piece of one of them, so a run is an interleaving of lock-held sections.

Two facts of the language are part of the model. An exception that leaves the
function of a `std::thread`, and an assignment to a `std::thread` that is still
joinable, end the process. `start_graceful_shutdown` can therefore be called
twice; each call starts a loop, and the loops are numbered.
-/
namespace Pgw.SessionManager
open TransitionSystem

/-! ## Positions -/

inductive Call where
  | createSession (imsi : StdString)
  | sessionExists (imsi : StdString)
  | removeSession (imsi : StdString)
  | addToBlacklist (imsi : StdString)
  | removeFromBlacklist (imsi : StdString)
  | isBlacklisted (imsi : StdString)
  | startGracefulShutdown
  | updateSessionActivity (imsi : StdString)
  deriving DecidableEq, Repr

inductive Value where
  | unit
  | bool (b : Bool)
  | result (r : CreateResult)
  deriving DecidableEq, Repr

inductive ThreadPc where
  | idle
  /-- The call has begun; its first section is next. -/
  | entered (c : Call)
  /-- `create_session` has left the blacklist section and goes on. -/
  | checked (imsi : StdString)
  /-- `start_graceful_shutdown` has set the flag. -/
  | activated
  /-- Loop `k` runs, but its `std::thread` is still the temporary. -/
  | spawned (k : ℕ)
  /-- `update_session_activity` has read the clock; its write is next. -/
  | touching (imsi : StdString) (reading : ℤ)
  | returning (c : Call) (v : Completion Value)
  deriving DecidableEq, Repr

inductive CleanupPc where
  | testRunning
  | snapshot (now : ℤ)
  | erase (now : ℤ) (expired : List StdString)
  | sleep
  | exited
  deriving DecidableEq, Repr

inductive LoopPc where
  | absent
  | start
  | testActive
  | testRunning
  | pick
  | erase (imsi : StdString)
  /-- The locks are released; `wait_for` is next. -/
  | limit
  | wait (deadline : ℤ)
  | exited
  deriving DecidableEq, Repr

inductive DestructorPc where
  | alive
  | stopped
  | notified
  | joinedCleanup
  | destroyed
  deriving DecidableEq, Repr

structure Manager (ι : Type) where
  store : Store
  threads : ι → ThreadPc
  /-- The clock when a thread's last call began. -/
  began : ι → ℤ
  cleanup : CleanupPc
  loops : ℕ → LoopPc
  /-- How many loops have been started. -/
  spawned : ℕ
  /-- The loop that `graceful_shutdown_thread_` holds; joinable when there is one. -/
  gracefulShutdownThread : Option ℕ
  destructor : DestructorPc
  terminated : Bool

/-- Which thread moves, and what it finds outside the store. -/
inductive Label (ι : Type) where
  | call (i : ι) (c : Call)
  | thread (i : ι) (env : Ambient)
  | cleanup (env : Ambient)
  | loop (k : ℕ) (env : Ambient)
  | destroy

variable {ι : Type}

/-- The manager right after its constructor. -/
def Manager.initial (cfg : Config) (clock : ℤ) : Manager ι where
  store := cfg.initial clock
  threads := fun _ => .idle
  began := fun _ => clock
  cleanup := .testRunning
  loops := fun _ => .absent
  spawned := 0
  gracefulShutdownThread := none
  destructor := .alive
  terminated := false

/-! ## Callers -/

/-- A call up to the end of its first section: its next position and the store.
`update_session_activity` stops inside its section, between reading and writing. -/
def firstSection (cfg : Config) (env : Ambient) (c : Call) (st : Store) : ThreadPc × Store :=
  match c with
  | .createSession imsi =>
      match IMSI.ofString imsi with
      | .returned _ =>
          match createSessionBlacklist cfg env imsi st with
          | (.returned none, st) => (.checked imsi, st)
          | (.returned (some r), st) => (.returning c (.returned (.result r)), st)
          | (.raised what, st) => (.returning c (.raised what), st)
          | (.terminated, st) => (.returning c .terminated, st)
      | _ => (.returning c (.returned (.result .blacklisted)), st)
  | .sessionExists imsi => (.returning c (.returned (.bool (sessionExists imsi st))), st)
  | .removeSession imsi =>
      (.returning c (.returned (.bool (removeSession imsi st).1)),
        (removeSession imsi st).2.settle)
  | .addToBlacklist imsi => (.returning c (.returned .unit), addToBlacklist imsi st)
  | .removeFromBlacklist imsi => (.returning c (.returned .unit), removeFromBlacklist imsi st)
  | .isBlacklisted imsi => (.returning c (.returned (.bool (isBlacklisted imsi st))), st)
  | .startGracefulShutdown => (.activated, { st with gracefulShutdownActive := true })
  | .updateSessionActivity imsi =>
      let now := st.tick env.elapsed
      (.touching imsi now.clock, now)

/-- The end of `create_session` at its table section. -/
def tableResult : Completion CreateResult → Completion Value
  | .returned r => .returned (.result r)
  | .raised what => .raised what
  | .terminated => .terminated

section
variable [DecidableEq ι]

def Manager.goto (s : Manager ι) (i : ι) (pc : ThreadPc) : Manager ι :=
  { s with threads := Function.update s.threads i pc }

def threadNext (cfg : Config) (i : ι) (env : Ambient) (s : Manager ι) : Option (Manager ι) :=
  match s.threads i with
  | .idle => none
  | .entered c =>
      let (pc, st) := firstSection cfg env c s.store
      some ({ s with store := st }.goto i pc)
  | .checked imsi =>
      let (result, st) := createSessionTable cfg env imsi s.store
      some ({ s with store := st.settle }.goto i
        (.returning (.createSession imsi) (tableResult result)))
  | .activated =>
      some ({ s with
        loops := Function.update s.loops s.spawned .start
        spawned := s.spawned + 1 }.goto i (.spawned s.spawned))
  | .spawned k =>
      if s.gracefulShutdownThread.isSome then some { s with terminated := true }
      else some ({ s with gracefulShutdownThread := some k }.goto i
        (.returning .startGracefulShutdown (.returned .unit)))
  | .touching imsi reading =>
      some ({ s with store := updateSessionActivity reading imsi s.store }.goto i
        (.returning (.updateSessionActivity imsi) (.returned .unit)))
  | .returning _ _ => some (s.goto i .idle)

/-! ## Background threads -/

/-- `cleanup_thread`. The pause at the end of a pass may take any time. -/
def cleanupNext (cfg : Config) (env : Ambient) (s : Manager ι) : Option (Manager ι) :=
  match s.cleanup with
  | .testRunning =>
      if s.store.running then
        let st := s.store.tick env.elapsed
        some { s with store := st.forget, cleanup := .snapshot st.clock }
      else some { s with cleanup := .exited }
  | .snapshot now =>
      if s.store.Met env.order then
        some { s with cleanup := .erase now (expiredSessions cfg now env.order) }
      else none
  | .erase now expired =>
      match cleanupErase cfg env now expired s.store with
      | (.returned (), st) =>
          -- the lock is taken only if there is something to erase
          some { s with
            store := if expired = [] then st else st.settle
            cleanup := .sleep }
      | (_, st) => some { s with store := st, terminated := true }
  | .sleep => some { s with cleanup := .testRunning }
  | .exited => none

/-- `sleep_duration`: milliseconds by integer division, in clock ticks. -/
def sleepDuration (cfg : Config) : ℤ := ((1000 / cfg.shutdownRate : ℕ) : ℤ) * 1000000

def Manager.gotoLoop (s : Manager ι) (k : ℕ) (pc : LoopPc) : Manager ι :=
  { s with loops := Function.update s.loops k pc }

/-- `graceful_shutdown_thread`. A zero rate divides by zero at the start. The wait
ends when its predicate holds or its deadline has passed. -/
def loopNext (cfg : Config) (k : ℕ) (env : Ambient) (s : Manager ι) : Option (Manager ι) :=
  match s.loops k with
  | .absent => none
  | .start =>
      if cfg.shutdownRate = 0 then some { s with terminated := true }
      else some (s.gotoLoop k .testActive)
  | .testActive =>
      some (s.gotoLoop k (if s.store.gracefulShutdownActive then .testRunning else .exited))
  | .testRunning => some (s.gotoLoop k (if s.store.running then .pick else .exited))
  | .pick =>
      if s.store.sessions.entries = ↑env.order then
        match pickSession env.order with
        | some imsi => some (s.gotoLoop k (if imsi = [] then .testActive else .erase imsi))
        | none =>
            some ({ s with
              store := { s.store with gracefulShutdownActive := false } }.gotoLoop k .exited)
      else none
  | .erase imsi =>
      match shutdownErase cfg env imsi s.store with
      | (.returned (), st) => some ({ s with store := st.settle }.gotoLoop k .limit)
      | (_, st) => some { s with store := st.settle, terminated := true }
  | .limit =>
      let st := s.store.tick env.elapsed
      some ({ s with store := st }.gotoLoop k (.wait (st.clock + sleepDuration cfg)))
  | .wait deadline =>
      let st := s.store.tick env.elapsed
      if st.gracefulShutdownActive = false ∨ deadline ≤ st.clock then
        some ({ s with store := st }.gotoLoop k .testActive)
      else none
  | .exited => none

end

/-- `~SessionManager`, once no caller is inside an operation. A join is enabled
when its thread has ended. -/
def destroyNext [Fintype ι] (s : Manager ι) : Option (Manager ι) :=
  match s.destructor with
  | .alive =>
      if ∀ i, s.threads i = .idle then
        some { s with store := { s.store with running := false }, destructor := .stopped }
      else none
  | .stopped =>
      some { s with
        store := { s.store with gracefulShutdownActive := false }
        destructor := .notified }
  | .notified =>
      if s.cleanup = .exited then some { s with destructor := .joinedCleanup } else none
  | .joinedCleanup =>
      match s.gracefulShutdownThread with
      | some k =>
          if s.loops k = .exited then
            some { s with gracefulShutdownThread := none, destructor := .destroyed }
          else none
      | none => some { s with destructor := .destroyed }
  | .destroyed => none

/-! ## The system -/

variable [Fintype ι] [DecidableEq ι]

/-- One atomic piece. Nothing runs in a terminated process, and no operation
begins on a manager under destruction. -/
def next (cfg : Config) (l : Label ι) (s : Manager ι) : Option (Manager ι) :=
  if s.terminated then none
  else
    match l with
    | .call i c =>
        if s.threads i = .idle ∧ s.destructor = .alive then
          some ({ s with began := Function.update s.began i s.store.clock }.goto i (.entered c))
        else none
    | .thread i env => threadNext cfg i env s
    | .cleanup env => cleanupNext cfg env s
    | .loop k env => loopNext cfg k env s
    | .destroy => destroyNext s

def Step (cfg : Config) (s : Manager ι) (l : Label ι) (t : Manager ι) : Prop :=
  next cfg l s = some t

section Step
variable {cfg : Config} {s t : Manager ι}

theorem step_call {i : ι} {c : Call} : Step cfg s (.call i c) t ↔
    s.terminated = false ∧ (s.threads i = .idle ∧ s.destructor = .alive) ∧
      { s with began := Function.update s.began i s.store.clock }.goto i (.entered c) = t := by
  cases hterm : s.terminated <;> simp [Step, next, hterm]

theorem step_thread {i : ι} {env : Ambient} : Step cfg s (.thread i env) t ↔
    s.terminated = false ∧ threadNext cfg i env s = some t := by
  cases hterm : s.terminated <;> simp [Step, next, hterm]

theorem step_cleanup {env : Ambient} : Step cfg s (.cleanup env) t ↔
    s.terminated = false ∧ cleanupNext cfg env s = some t := by
  cases hterm : s.terminated <;> simp [Step, next, hterm]

theorem step_loop {k : ℕ} {env : Ambient} : Step cfg s (.loop k env) t ↔
    s.terminated = false ∧ loopNext cfg k env s = some t := by
  cases hterm : s.terminated <;> simp [Step, next, hterm]

theorem step_destroy : Step cfg s .destroy t ↔
    s.terminated = false ∧ destroyNext s = some t := by
  cases hterm : s.terminated <;> simp [Step, next, hterm]

end Step

def Initial (cfg : Config) (s : Manager ι) : Prop := ∃ clock, s = Manager.initial cfg clock

/-- Every run of the manager from its constructor. -/
def Reaches (cfg : Config) (s : Manager ι) : Prop := Reachable (Initial cfg) (Step cfg) s

/-! ## Running the model -/

/-- A configuration to run: thirty seconds, one session a second, and a callback
that takes every event. -/
def sample : Config where
  sessionTimeout := 30
  shutdownRate := 1
  blacklist := ∅
  eventCallback := some fun _ => none

/-- The threads of the runs below. -/
inductive Caller where
  | first
  | second
  deriving DecidableEq, Inhabited

instance : Fintype Caller := ⟨{.first, .second}, fun i => by cases i <;> decide⟩

/-- Where a list of labels leads from the constructor. -/
def play (tr : List (Label ι)) (h : (replay (next sample) tr (.initial sample 0)).isSome) :
    Manager ι :=
  replayed (next sample) tr (.initial sample 0) h

theorem run_play (tr : List (Label ι)) (h : (replay (next sample) tr (.initial sample 0)).isSome) :
    Run (Step sample) (.initial sample 0) tr (play tr h) :=
  run_replayed (next sample) tr (.initial sample 0) h

theorem sample_delivers : sample.Delivers := ⟨_, rfl, fun _ => rfl⟩

/-- Surroundings in which `seconds` pass and the table is met in the given order. -/
def after (seconds : ℕ) (order : List SessionEntry) : Ambient where
  elapsed := seconds * 1000000000
  lag := 0
  wallClock := fun _ => 0
  order := order

/-- The labels of a call served without a pause, from its beginning to its return. -/
def serve (i : ι) (c : Call) (pieces : ℕ) : List (Label ι) :=
  .call i c :: List.replicate (pieces + 1) (.thread i (after 0 []))

end Pgw.SessionManager
