import Mathlib.Data.Finmap
import Pgw.Imsi.Model

/-!
# The session manager's data and its lock-held sections

`Store` holds the members the locks protect, the two flags, the steady clock and
the events delivered so far. Every operation of the source is cut at its lock
boundaries, and each piece is one function on the store; between two pieces other
threads run.

A section that holds `sessions_mutex_` alone runs by itself. Sections that share it
run at the same time, and two of them touch the time points: `update_session_activity`
reads the clock and writes the reading later, and the first loop of `cleanup_thread`
meets every entry at its own moment. Such a section is placed where it ends. What it
has read may then be older, but no older than the end of the last section that held
the lock alone, since which the store keeps what has been overwritten.

What a piece reads from outside comes in an `Ambient`: how long the clocks moved
on, what the wall clock shows for an event, and in which order the hash table is
iterated. The order is not ours to choose, so nothing may depend on it.
-/
namespace Pgw

/-! ## Data -/

inductive SessionAction where
  | created
  | rejected
  | timeout
  | gracefulShutdown
  deriving DecidableEq, Repr

structure SessionEvent where
  imsi : StdString
  action : SessionAction
  timestamp : ℤ
  deriving DecidableEq, Repr

/-- Steady-clock time points count nanoseconds. -/
structure Session where
  imsi : StdString
  createdAt : ℤ
  lastActivity : ℤ
  deriving DecidableEq, Repr

abbrev SessionTable := Finmap fun _ : StdString => Session

/-- A table entry as iteration meets it. -/
abbrev SessionEntry := Sigma fun _ : StdString => Session

/-- The callback returns, or raises with a text. -/
abbrev SessionEventCallback := SessionEvent → Option String

inductive CreateResult where
  | created
  | alreadyExists
  | blacklisted
  deriving DecidableEq, Repr

namespace SessionManager
open Completion (andThen)

/-- The constructor's arguments; the timeout is in seconds. -/
structure Config where
  sessionTimeout : ℤ
  shutdownRate : ℕ
  blacklist : Finset StdString
  eventCallback : Option SessionEventCallback

/-- There is a callback and it never raises. -/
def Config.Delivers (cfg : Config) : Prop :=
  ∃ callback, cfg.eventCallback = some callback ∧ ∀ event, callback event = none

/-- There is no callback that raises. -/
def Config.Quiet (cfg : Config) : Prop :=
  ∀ callback, cfg.eventCallback = some callback → ∀ event, callback event = none

theorem Config.Delivers.quiet {cfg : Config} (h : cfg.Delivers) : cfg.Quiet := by
  obtain ⟨callback, hcallback, hquiet⟩ := h
  intro callback' hcallback' event
  rw [hcallback, Option.some.injEq] at hcallback'
  rw [← hcallback', hquiet event]

structure Store where
  sessions : SessionTable
  blacklist : Finset StdString
  running : Bool
  gracefulShutdownActive : Bool
  /-- The last reading of the steady clock. -/
  clock : ℤ
  /-- The events a callback took without raising, oldest first. -/
  events : List SessionEvent
  /-- The clock at the end of the last section that held `sessions_mutex_` alone. -/
  settled : ℤ
  /-- The entries that `update_session_activity` has overwritten since, and since the
  cleanup thread began its pass. -/
  replaced : List SessionEntry

/-- What one piece of code finds outside the store. `elapsed` and `lag` are the
delays before its first and second reading of the steady clock. -/
structure Ambient where
  elapsed : ℕ
  lag : ℕ
  wallClock : StdString → ℤ
  order : List SessionEntry

/-- The constructor, up to the start of the cleanup thread. -/
def Config.initial (cfg : Config) (clock : ℤ) : Store where
  sessions := ∅
  blacklist := cfg.blacklist
  running := true
  gracefulShutdownActive := false
  clock := clock
  events := []
  settled := clock
  replaced := []

/-- Read the steady clock after a delay; the reading is the new `clock`. -/
def Store.tick (st : Store) (delay : ℕ) : Store := { st with clock := st.clock + delay }

/-- A section that holds `sessions_mutex_` alone comes to its end. -/
def Store.settle (st : Store) : Store := { st with settled := st.clock, replaced := [] }

/-- What was overwritten before a pass began does not matter to it. -/
def Store.forget (st : Store) : Store := { st with replaced := [] }

@[simp] theorem Store.sessions_tick (st : Store) (d : ℕ) : (st.tick d).sessions = st.sessions := rfl
@[simp] theorem Store.blacklist_tick (st : Store) (d : ℕ) :
    (st.tick d).blacklist = st.blacklist := rfl
@[simp] theorem Store.clock_tick (st : Store) (d : ℕ) : (st.tick d).clock = st.clock + d := rfl
@[simp] theorem Store.events_tick (st : Store) (d : ℕ) : (st.tick d).events = st.events := rfl

@[simp] theorem Store.sessions_settle (st : Store) : st.settle.sessions = st.sessions := rfl
@[simp] theorem Store.blacklist_settle (st : Store) : st.settle.blacklist = st.blacklist := rfl
@[simp] theorem Store.running_settle (st : Store) : st.settle.running = st.running := rfl
@[simp] theorem Store.gracefulShutdownActive_settle (st : Store) :
    st.settle.gracefulShutdownActive = st.gracefulShutdownActive := rfl
@[simp] theorem Store.clock_settle (st : Store) : st.settle.clock = st.clock := rfl
@[simp] theorem Store.events_settle (st : Store) : st.settle.events = st.events := rfl
@[simp] theorem Store.settled_settle (st : Store) : st.settle.settled = st.clock := rfl

@[simp] theorem Store.sessions_forget (st : Store) : st.forget.sessions = st.sessions := rfl
@[simp] theorem Store.blacklist_forget (st : Store) : st.forget.blacklist = st.blacklist := rfl
@[simp] theorem Store.clock_forget (st : Store) : st.forget.clock = st.clock := rfl
@[simp] theorem Store.events_forget (st : Store) : st.forget.events = st.events := rfl

/-! ## Events -/

/-- `emit_event`. A raising callback has not delivered the event. -/
def emitEvent (cfg : Config) (env : Ambient) (imsi : StdString) (action : SessionAction)
    (st : Store) : Completion Unit × Store :=
  match cfg.eventCallback with
  | some callback =>
      let event : SessionEvent := ⟨imsi, action, env.wallClock imsi⟩
      match callback event with
      | none => (.returned (), { st with events := st.events ++ [event] })
      | some what => (.raised what, st)
  | none => (.returned (), st)

theorem Config.Delivers.emitEvent {cfg : Config} (h : cfg.Delivers) (env : Ambient)
    (imsi : StdString) (action : SessionAction) (st : Store) :
    emitEvent cfg env imsi action st =
      (.returned (), { st with events := st.events ++ [⟨imsi, action, env.wallClock imsi⟩] }) := by
  obtain ⟨callback, hcallback, hquiet⟩ := h
  simp [SessionManager.emitEvent, hcallback, hquiet]

theorem Config.Quiet.emitEvent {cfg : Config} (h : cfg.Quiet) (env : Ambient) (imsi : StdString)
    (action : SessionAction) (st : Store) :
    (emitEvent cfg env imsi action st).1 = .returned () := by
  cases hcallback : cfg.eventCallback with
  | none => simp [SessionManager.emitEvent, hcallback]
  | some callback => simp [SessionManager.emitEvent, hcallback, h callback hcallback]

/-! ## Public operations -/

/-- `create_session` under `blacklist_mutex_`; `none` when it goes on. -/
def createSessionBlacklist (cfg : Config) (env : Ambient) (imsi : StdString) (st : Store) :
    Completion (Option CreateResult) × Store :=
  if imsi ∈ st.blacklist then
    andThen (emitEvent cfg env imsi .rejected st) fun _ st =>
      (.returned (some .blacklisted), st)
  else (.returned none, st)

/-- `create_session` under `sessions_mutex_`. A new session reads the clock once
for each of its two time points. -/
def createSessionTable (cfg : Config) (env : Ambient) (imsi : StdString) (st : Store) :
    Completion CreateResult × Store :=
  match st.sessions.lookup imsi with
  | some session =>
      let now := st.tick env.elapsed
      (.returned .alreadyExists,
        { now with
          sessions := now.sessions.insert imsi { session with lastActivity := now.clock } })
  | none =>
      let made := st.tick env.elapsed
      let now := made.tick env.lag
      let session : Session := ⟨imsi, made.clock, now.clock⟩
      andThen (emitEvent cfg env imsi .created
          { now with sessions := now.sessions.insert imsi session }) fun _ st =>
        (.returned .created, st)

def sessionExists (imsi : StdString) (st : Store) : Bool := decide (imsi ∈ st.sessions)

def removeSession (imsi : StdString) (st : Store) : Bool × Store :=
  if imsi ∈ st.sessions then (true, { st with sessions := st.sessions.erase imsi })
  else (false, st)

def addToBlacklist (imsi : StdString) (st : Store) : Store :=
  { st with blacklist := insert imsi st.blacklist }

def removeFromBlacklist (imsi : StdString) (st : Store) : Store :=
  { st with blacklist := st.blacklist.erase imsi }

def isBlacklisted (imsi : StdString) (st : Store) : Bool := decide (imsi ∈ st.blacklist)

/-- `update_session_activity` at its write, after it has read the clock. Whoever shares
the lock may have run since the reading. Whoever holds it alone may not: if such a section
has ended since, this one has begun after it. -/
def updateSessionActivity (reading : ℤ) (imsi : StdString) (st : Store) : Store :=
  match st.sessions.lookup imsi with
  | some session =>
      { st with
        sessions := st.sessions.insert imsi
          { session with lastActivity := max st.settled reading }
        replaced := ⟨imsi, session⟩ :: st.replaced }
  | none => st

@[simp] theorem blacklist_updateSessionActivity (reading : ℤ) (imsi : StdString) (st : Store) :
    (updateSessionActivity reading imsi st).blacklist = st.blacklist := by
  rw [updateSessionActivity]
  split <;> rfl

@[simp] theorem clock_updateSessionActivity (reading : ℤ) (imsi : StdString) (st : Store) :
    (updateSessionActivity reading imsi st).clock = st.clock := by
  rw [updateSessionActivity]
  split <;> rfl

@[simp] theorem events_updateSessionActivity (reading : ℤ) (imsi : StdString) (st : Store) :
    (updateSessionActivity reading imsi st).events = st.events := by
  rw [updateSessionActivity]
  split <;> rfl

/-! ## Background threads -/

def nanosPerSecond : ℤ := 1000000000

/-- `session_timeout_` in the unit of the steady clock. A comparison of two durations
converts the coarser one, and the representation of either has 64 bits. -/
def timeoutNanos (cfg : Config) : ℤ :=
  (Int64.ofInt cfg.sessionTimeout * Int64.ofInt nanosPerSecond).toInt

/-- `now - session->last_activity >= session_timeout_`. -/
def Expired (cfg : Config) (now : ℤ) (session : Session) : Prop :=
  timeoutNanos cfg ≤ now - session.lastActivity

instance (cfg : Config) (now : ℤ) (session : Session) : Decidable (Expired cfg now session) :=
  inferInstanceAs (Decidable (timeoutNanos cfg ≤ now - session.lastActivity))

/-- The longest timeout, in seconds, that the clock's unit can express. -/
def maxTimeout : ℤ := 9223372036

/-- The conversion wraps around. -/
theorem timeoutNanos_eq (cfg : Config) :
    timeoutNanos cfg = Int.bmod (cfg.sessionTimeout * nanosPerSecond) (2 ^ 64) := by
  rw [timeoutNanos, Int64.toInt_mul, Int64.toInt_ofInt, Int64.toInt_ofInt, Int.bmod_mul_bmod,
    Int.mul_bmod_bmod]
  rfl

/-- It is exact as far as it can be. -/
theorem timeoutNanos_of_le {cfg : Config} (hpos : 0 ≤ cfg.sessionTimeout)
    (hle : cfg.sessionTimeout ≤ maxTimeout) :
    timeoutNanos cfg = cfg.sessionTimeout * nanosPerSecond := by
  rw [timeoutNanos_eq]
  simp only [maxTimeout, nanosPerSecond] at *
  exact Int.bmod_eq_of_le (by omega) (by omega)

/-- Beyond that the converted timeout is shorter than the timeout. -/
theorem timeoutNanos_lt {cfg : Config} (hgt : maxTimeout < cfg.sessionTimeout) :
    timeoutNanos cfg < cfg.sessionTimeout * nanosPerSecond := by
  have hlt : Int.bmod (cfg.sessionTimeout * nanosPerSecond) (2 ^ 64) < (2 ^ 64 + 1) / 2 :=
    Int.bmod_lt (by decide)
  rw [timeoutNanos_eq]
  simp only [maxTimeout, nanosPerSecond] at *
  omega

/-- No timeout is lengthened. -/
theorem timeoutNanos_le {cfg : Config} (hpos : 0 ≤ cfg.sessionTimeout) :
    timeoutNanos cfg ≤ cfg.sessionTimeout * nanosPerSecond := by
  rcases le_or_gt cfg.sessionTimeout maxTimeout with hle | hgt
  · exact (timeoutNanos_of_le hpos hle).le
  · exact (timeoutNanos_lt hgt).le

/-- The first loop of `cleanup_thread`, over the table in its iteration order. -/
def expiredSessions (cfg : Config) (now : ℤ) : List SessionEntry → List StdString
  | [] => []
  | ⟨imsi, session⟩ :: order =>
      if Expired cfg now session then imsi :: expiredSessions cfg now order
      else expiredSessions cfg now order

/-- The entries as the first loop of `cleanup_thread` may meet them: each key once, with its
session as it is or as it was before an update that ran at the same time. -/
def Store.Met (st : Store) (order : List SessionEntry) : Prop :=
  (↑(order.map Sigma.fst) : Multiset StdString) = st.sessions.keys.val ∧
    ∀ entry ∈ order, st.sessions.lookup entry.1 = some entry.2 ∨ entry ∈ st.replaced

instance (st : Store) (order : List SessionEntry) : Decidable (st.Met order) :=
  inferInstanceAs (Decidable (_ ∧ _))

/-- The table as it is can be met, in any order. -/
theorem Store.met_of_entries {st : Store} {order : List SessionEntry}
    (h : st.sessions.entries = ↑order) : st.Met order := by
  constructor
  · exact congrArg (Multiset.map Sigma.fst) h.symm
  · intro entry hmem
    refine Or.inl ((Finmap.lookup_eq_some_iff).mpr ?_)
    rw [h]
    exact Multiset.mem_coe.mpr hmem

/-- Whoever is met is in the table, and whoever is in the table is met. -/
theorem Store.Met.mem_iff {st : Store} {order : List SessionEntry} (h : st.Met order)
    {imsi : StdString} : imsi ∈ st.sessions ↔ ∃ session, ⟨imsi, session⟩ ∈ order := by
  rw [← Finmap.mem_keys, ← Finset.mem_val, ← h.1, Multiset.mem_coe, List.mem_map]
  constructor
  · rintro ⟨⟨_, session⟩, hmem, rfl⟩
    exact ⟨session, hmem⟩
  · rintro ⟨session, hmem⟩
    exact ⟨_, hmem, rfl⟩

/-- The second loop of `cleanup_thread`: look every candidate up again and erase it
if it is still expired. -/
def cleanupErase (cfg : Config) (env : Ambient) (now : ℤ) :
    List StdString → Store → Completion Unit × Store
  | [], st => (.returned (), st)
  | imsi :: expired, st =>
      match st.sessions.lookup imsi with
      | some session =>
          if Expired cfg now session then
            andThen (emitEvent cfg env imsi .timeout
                { st with sessions := st.sessions.erase imsi }) fun _ st =>
              cleanupErase cfg env now expired st
          else cleanupErase cfg env now expired st
      | none => cleanupErase cfg env now expired st

/-- `sessions_.begin()->first` in `graceful_shutdown_thread`; `none` when the table
is empty. -/
def pickSession (order : List SessionEntry) : Option StdString := order.head?.map Sigma.fst

/-- The second lock-held section of `graceful_shutdown_thread`. -/
def shutdownErase (cfg : Config) (env : Ambient) (imsi : StdString) (st : Store) :
    Completion Unit × Store :=
  match st.sessions.lookup imsi with
  | some _ =>
      emitEvent cfg env imsi .gracefulShutdown { st with sessions := st.sessions.erase imsi }
  | none => (.returned (), st)

end SessionManager
end Pgw
