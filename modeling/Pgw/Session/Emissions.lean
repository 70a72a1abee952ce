import Pgw.Session.Changes

/-!
# The calls of `emit_event`

The store keeps the events that the callback has taken. `emitted` is the list of
those with which `emit_event` is called in a step, taken or not, so that a count of
them does not depend on the callback. The two differ by exactly the calls in which
the callback raises, or by all when there is no callback.
-/
namespace Pgw.SessionManager
open TransitionSystem Completion

/-! ## Steps -/

/-- Only a proper, blacklisted subscriber is refused with an event. -/
def firstSectionEmitted (env : Ambient) (c : Call) (st : Store) : List SessionEvent :=
  match c with
  | .createSession imsi =>
      if IMSI.Valid imsi ∧ imsi ∈ st.blacklist then [⟨imsi, .rejected, env.wallClock imsi⟩] else []
  | _ => []

/-- The calls in the second loop of `cleanup_thread`; one that raises is the last. -/
def cleanupEmitted (cfg : Config) (env : Ambient) (now : ℤ) :
    List StdString → Store → List SessionEvent
  | [], _ => []
  | imsi :: expired, st =>
      match st.sessions.lookup imsi with
      | some session =>
          if Expired cfg now session then
            ⟨imsi, .timeout, env.wallClock imsi⟩ ::
              match emitEvent cfg env imsi .timeout
                  { st with sessions := st.sessions.erase imsi } with
              | (.returned (), st) => cleanupEmitted cfg env now expired st
              | _ => []
          else cleanupEmitted cfg env now expired st
      | none => cleanupEmitted cfg env now expired st

/-- The events with which a step calls `emit_event`. -/
def emitted {ι : Type} (cfg : Config) (s : Manager ι) : Label ι → List SessionEvent
  | .thread i env =>
      match s.threads i with
      | .entered c => firstSectionEmitted env c s.store
      | .checked imsi =>
          if imsi ∈ s.store.sessions then [] else [⟨imsi, .created, env.wallClock imsi⟩]
      | _ => []
  | .cleanup env =>
      match s.cleanup with
      | .erase now expired => cleanupEmitted cfg env now expired s.store
      | _ => []
  | .loop k env =>
      match s.loops k with
      | .erase imsi =>
          if imsi ∈ s.store.sessions then [⟨imsi, .gracefulShutdown, env.wallClock imsi⟩] else []
      | _ => []
  | _ => []

/-! ## What the callback takes -/

section Sections
variable (cfg : Config) (env : Ambient)

theorem events_firstSection (c : Call) (st : Store) :
    (firstSection cfg env c st).2.events =
      st.events ++ (firstSectionEmitted env c st).flatMap (delivered cfg) := by
  cases c with
  | createSession imsi =>
      by_cases hvalid : IMSI.Valid imsi
      · have himsi : IMSI.ofString imsi = .returned ⟨imsi, hvalid⟩ :=
          IMSI.ofString_returned.mpr rfl
        by_cases hbanned : imsi ∈ st.blacklist
        · have hstore := emitEvent_store cfg env imsi .rejected st
          simp only [firstSection, himsi, createSessionBlacklist, firstSectionEmitted,
            if_pos hbanned, if_pos (And.intro hvalid hbanned), List.flatMap_singleton]
          generalize emitEvent cfg env imsi .rejected st = emission at hstore ⊢
          obtain ⟨_ | _ | _, _⟩ := emission <;> exact congrArg Store.events hstore
        · simp [firstSection, firstSectionEmitted, himsi, createSessionBlacklist, hbanned]
      · simp [firstSection, firstSectionEmitted, IMSI.ofString_raised hvalid, hvalid]
  | removeSession imsi =>
      simp only [firstSection, firstSectionEmitted, removeSession]
      split <;> simp
  | _ => simp [firstSection, firstSectionEmitted, addToBlacklist, removeFromBlacklist]

theorem events_createSessionTable (imsi : StdString) (st : Store) :
    (createSessionTable cfg env imsi st).2.events = st.events ++
      (if imsi ∈ st.sessions then [] else
        [⟨imsi, .created, env.wallClock imsi⟩]).flatMap (delivered cfg) := by
  cases hlookup : st.sessions.lookup imsi with
  | some session =>
      rw [if_pos (Finmap.mem_of_lookup_eq_some hlookup), createSessionTable, hlookup]
      simp
  | none =>
      rw [if_neg (Finmap.lookup_eq_none.mp hlookup), createSessionTable, hlookup]
      simp [emitEvent_store]

theorem events_cleanupErase (now : ℤ) (expired : List StdString) (st : Store) :
    (cleanupErase cfg env now expired st).2.events =
      st.events ++ (cleanupEmitted cfg env now expired st).flatMap (delivered cfg) := by
  induction expired generalizing st with
  | nil => simp [cleanupErase, cleanupEmitted]
  | cons imsi expired ih =>
      rw [cleanupErase, cleanupEmitted]
      cases hlookup : st.sessions.lookup imsi with
      | none => exact ih st
      | some session =>
          by_cases hexpired : Expired cfg now session
          · have hstore := emitEvent_store cfg env imsi .timeout
              { st with sessions := st.sessions.erase imsi }
            simp only [if_pos hexpired]
            generalize emitEvent cfg env imsi .timeout
              { st with sessions := st.sessions.erase imsi } = emission at hstore ⊢
            obtain ⟨_ | _ | _, st₁⟩ := emission
            · have hevents := congrArg Store.events hstore
              simp only [andThen_returned, ih, List.flatMap_cons] at hevents ⊢
              rw [hevents, List.append_assoc]
            · simp [show st₁ = _ from hstore]
            · simp [show st₁ = _ from hstore]
          · simp only [if_neg hexpired]
            exact ih st

theorem events_shutdownErase (imsi : StdString) (st : Store) :
    (shutdownErase cfg env imsi st).2.events = st.events ++
      (if imsi ∈ st.sessions then
        [⟨imsi, .gracefulShutdown, env.wallClock imsi⟩] else []).flatMap (delivered cfg) := by
  cases hlookup : st.sessions.lookup imsi with
  | some session =>
      rw [if_pos (Finmap.mem_of_lookup_eq_some hlookup), shutdownErase, hlookup]
      simp [emitEvent_store]
  | none =>
      rw [if_neg (Finmap.lookup_eq_none.mp hlookup), shutdownErase, hlookup]
      simp

end Sections

variable {ι : Type} [Fintype ι] [DecidableEq ι] {cfg : Config} {s t : Manager ι} {l : Label ι}

/-- A step delivers what the callback takes of its calls. -/
theorem events_of_step (h : Step cfg s l t) :
    t.store.events = s.store.events ++ (emitted cfg s l).flatMap (delivered cfg) := by
  cases l with
  | call i c =>
      obtain ⟨_, _, rfl⟩ := step_call.mp h
      exact (List.append_nil _).symm
  | thread i env =>
      have hnext := (step_thread.mp h).2
      cases hpc : s.threads i <;> simp only [threadNext, hpc] at hnext
      case idle => cases hnext
      case entered c =>
        rw [Option.some.injEq] at hnext
        rw [← hnext]
        simp only [emitted, hpc]
        exact events_firstSection cfg env c s.store
      case checked imsi =>
        rw [Option.some.injEq] at hnext
        rw [← hnext]
        simp only [emitted, hpc]
        exact events_createSessionTable cfg env imsi s.store
      case spawned k =>
        split at hnext <;> cases hnext <;> simp [emitted, hpc, Manager.goto]
      all_goals
        rw [Option.some.injEq] at hnext
        rw [← hnext]
        simp [emitted, hpc, Manager.goto]
  | cleanup env =>
      have hnext := (step_cleanup.mp h).2
      cases hpc : s.cleanup <;> simp only [cleanupNext, hpc] at hnext
      case erase now expired =>
        have hevents := events_cleanupErase cfg env now expired s.store
        simp only [emitted, hpc, ← hevents]
        rcases store_of_cleanupErase hpc (step_cleanup.mp h).2 with hstore | hstore <;> rw [hstore]
        rfl
      all_goals (try split at hnext) <;> cases hnext <;> simp [emitted, hpc]
  | loop k env =>
      have hnext := (step_loop.mp h).2
      cases hpc : s.loops k <;> simp only [loopNext, hpc] at hnext
      case erase imsi =>
        have hevents := events_shutdownErase cfg env imsi s.store
        simp only [emitted, hpc, ← hevents]
        rw [store_of_shutdownErase hpc (step_loop.mp h).2, Store.events_settle]
      all_goals (try split at hnext) <;> (try split at hnext) <;> cases hnext <;>
        simp [emitted, hpc, Manager.gotoLoop]
  | destroy =>
      have hnext := (step_destroy.mp h).2
      rw [destroyNext] at hnext
      split at hnext <;> (try split at hnext) <;> (try split at hnext)
      all_goals cases hnext <;> simp [emitted]

/-- A run delivers what the callback takes of its calls. -/
theorem events_of_run {tr : List (Label ι)} (h : Run (Step cfg) s tr t) :
    t.store.events =
      s.store.events ++ (observed (next cfg) (emitted cfg) tr s).flatMap (delivered cfg) := by
  induction h with
  | nil => simp [observed]
  | snoc hrun hlast ih =>
      rw [Run.observed_snoc _ hrun, List.flatMap_append, ← List.append_assoc, ← ih]
      exact events_of_step hlast

/-- A callback that never raises takes every call. -/
theorem Config.Delivers.events_of_run (hcfg : cfg.Delivers) {tr : List (Label ι)}
    (h : Run (Step cfg) s tr t) :
    t.store.events = s.store.events ++ observed (next cfg) (emitted cfg) tr s := by
  rw [SessionManager.events_of_run h]
  congr 1
  induction observed (next cfg) (emitted cfg) tr s with
  | nil => rfl
  | cons event events ih => rw [List.flatMap_cons, ih, hcfg.delivered, List.singleton_append]

end Pgw.SessionManager
