import Pgw.Session.Drain
import Pgw.Session.Emissions

/-!
# How sessions end

A session leaves the table by a timeout, by a shutdown loop, by `remove_session`,
or with the table itself when the destructor has finished. The first two call
`emit_event`; for the others there is no `SessionAction` and no call. What is
created is therefore ended with an event, removed by hand, or still in the table,
and one equation says so for every run, a destructor's included.
-/
namespace Pgw.SessionManager
open TransitionSystem Completion

/-! ## Counts -/

def createdCount (imsi : StdString) (events : List SessionEvent) : ℕ :=
  events.countP fun event => event.imsi = imsi ∧ event.action = .created

/-- The events that end a session. -/
def endedCount (imsi : StdString) (events : List SessionEvent) : ℕ :=
  events.countP fun event =>
    event.imsi = imsi ∧ (event.action = .timeout ∨ event.action = .gracefulShutdown)

/-- 1 for a session in the table. -/
def present (imsi : StdString) (st : Store) : ℕ := if imsi ∈ st.sessions then 1 else 0

/-- The key that `remove_session` erases in a step. -/
def manuallyRemovedKey {ι : Type} (s : Manager ι) : Label ι → Option StdString
  | .thread i _ =>
      match s.threads i with
      | .entered (.removeSession imsi) => if imsi ∈ s.store.sessions then some imsi else none
      | _ => none
  | _ => none

/-- Weighs the manual removals of one key. -/
def manualRemovalOf {ι : Type} (imsi : StdString) (s : Manager ι) (l : Label ι) : ℕ :=
  if manuallyRemovedKey s l = some imsi then 1 else 0

section Counts
variable {imsi : StdString} {st st' : Store}

theorem present_congr (h : st'.sessions.keys = st.sessions.keys) :
    present imsi st' = present imsi st := by
  simp only [present, ← Finmap.mem_keys, h]

@[simp] theorem present_tick (d : ℕ) : present imsi (st.tick d) = present imsi st := rfl
@[simp] theorem present_forget : present imsi st.forget = present imsi st := rfl
@[simp] theorem present_settle : present imsi st.settle = present imsi st := rfl

variable (imsi) in
theorem present_erase {x : StdString} (hmem : x ∈ st.sessions)
    (h : st'.sessions.keys = st.sessions.keys.erase x) :
    present imsi st' + (if x = imsi then 1 else 0) = present imsi st := by
  simp only [present, ← Finmap.mem_keys, h, Finset.mem_erase] at hmem ⊢
  by_cases heq : x = imsi
  · subst heq
    simp [hmem]
  · simp [heq, Ne.symm heq]

theorem present_insert {x : StdString} (habsent : x ∉ st.sessions)
    (h : st'.sessions.keys = insert x st.sessions.keys) :
    present imsi st' = present imsi st + if x = imsi then 1 else 0 := by
  simp only [present, ← Finmap.mem_keys, h, Finset.mem_insert] at habsent ⊢
  by_cases heq : x = imsi
  · subst heq
    simp [habsent]
  · simp [heq, Ne.symm heq]

@[simp] theorem createdCount_nil : createdCount imsi [] = 0 := rfl
@[simp] theorem endedCount_nil : endedCount imsi [] = 0 := rfl

@[simp] theorem createdCount_append (events events' : List SessionEvent) :
    createdCount imsi (events ++ events') =
      createdCount imsi events + createdCount imsi events' := List.countP_append

@[simp] theorem endedCount_append (events events' : List SessionEvent) :
    endedCount imsi (events ++ events') = endedCount imsi events + endedCount imsi events' :=
  List.countP_append

theorem createdCount_cons (event : SessionEvent) (events : List SessionEvent) :
    createdCount imsi (event :: events) = createdCount imsi events +
      if event.imsi = imsi ∧ event.action = .created then 1 else 0 := by
  simp [createdCount, List.countP_cons]

theorem endedCount_cons (event : SessionEvent) (events : List SessionEvent) :
    endedCount imsi (event :: events) = endedCount imsi events +
      if event.imsi = imsi ∧ (event.action = .timeout ∨ event.action = .gracefulShutdown)
      then 1 else 0 := by
  simp [endedCount, List.countP_cons]

/-- A refusal neither creates nor ends. -/
@[simp] theorem createdCount_firstSectionEmitted (env : Ambient) (c : Call) :
    createdCount imsi (firstSectionEmitted env c st) = 0 := by
  cases c with
  | createSession x =>
      rw [firstSectionEmitted]
      split <;> simp [createdCount_cons]
  | _ => rfl

@[simp] theorem endedCount_firstSectionEmitted (env : Ambient) (c : Call) :
    endedCount imsi (firstSectionEmitted env c st) = 0 := by
  cases c with
  | createSession x =>
      rw [firstSectionEmitted]
      split <;> simp [endedCount_cons]
  | _ => rfl

end Counts

/-! ## Sections -/

section Sections
variable (cfg : Config) (env : Ambient) (imsi : StdString)

theorem keys_createSessionTable (x : StdString) (st : Store) :
    (createSessionTable cfg env x st).2.sessions.keys = insert x st.sessions.keys := by
  cases hlookup : st.sessions.lookup x with
  | some session =>
      rw [createSessionTable, hlookup]
      exact keys_insert _ _ _
  | none =>
      rw [createSessionTable, hlookup]
      simp only [snd_andThen, emitEvent_store]
      exact keys_insert _ _ _

/-- The calls of a cleanup pass account for the sessions it ends. -/
theorem present_cleanupErase (now : ℤ) (expired : List StdString) (st : Store) :
    present imsi (cleanupErase cfg env now expired st).2 +
        endedCount imsi (cleanupEmitted cfg env now expired st) = present imsi st ∧
      createdCount imsi (cleanupEmitted cfg env now expired st) = 0 := by
  induction expired generalizing st with
  | nil => exact ⟨rfl, rfl⟩
  | cons x expired ih =>
      rw [cleanupErase, cleanupEmitted]
      cases hlookup : st.sessions.lookup x with
      | none => exact ih st
      | some session =>
          by_cases hexpired : Expired cfg now session
          · have hstore := emitEvent_store cfg env x .timeout
              { st with sessions := st.sessions.erase x }
            simp only [if_pos hexpired, endedCount_cons, createdCount_cons]
            generalize emitEvent cfg env x .timeout
              { st with sessions := st.sessions.erase x } = emission at hstore ⊢
            obtain ⟨outcome, st₁⟩ := emission
            have hkeys : st₁.sessions.keys = st.sessions.keys.erase x := by
              rw [show st₁ = _ from hstore]
              exact Finmap.keys_erase x st.sessions
            have herase := present_erase imsi
              (Finmap.mem_of_lookup_eq_some hlookup) hkeys
            cases outcome with
            | returned _ =>
                obtain ⟨hpresent, hcreated⟩ := ih st₁
                simp only [andThen_returned, hcreated, reduceCtorEq, and_false, if_false, true_or,
                  and_true]
                omega
            | raised _ => simpa using herase
            | terminated => simpa using herase
          · simp only [if_neg hexpired]
            exact ih st

end Sections

/-! ## Steps -/

section Steps
variable {ι : Type} {cfg : Config} {s t : Manager ι} {l : Label ι}

/-- A step without such a deed touches no key. -/
theorem keys_of_step [Fintype ι] [DecidableEq ι] (h : Step cfg s l t)
    (hl : ∀ imsi, ¬ Permits s l (.create imsi) ∧ ¬ Permits s l (.remove imsi) ∧
      ¬ Permits s l (.expire imsi) ∧ ¬ Permits s l (.drain imsi)) :
    t.store.sessions.keys = s.store.sessions.keys := by
  obtain ⟨ds, hrun, hpermits⟩ := step_changes h
  refine keys_eq_of_run hrun fun d hd imsi => ⟨?_, ?_, ?_, ?_⟩
  · rintro rfl
    exact (hl imsi).1 (hpermits _ hd)
  · rintro rfl
    exact (hl imsi).2.1 (hpermits _ hd)
  · rintro rfl
    exact (hl imsi).2.2.1 (hpermits _ hd)
  · rintro rfl
    exact (hl imsi).2.2.2 (hpermits _ hd)

/-- Who adds a key calls for its `CREATED` event, and nobody else does. -/
theorem createdCount_emitted (cfg : Config) (s : Manager ι) (l : Label ι) (imsi : StdString) :
    createdCount imsi (emitted cfg s l) = creationOf imsi s l := by
  cases l with
  | thread i env =>
      cases hpc : s.threads i with
      | checked x =>
          by_cases hmem : x ∈ s.store.sessions <;>
            simp [emitted, creationOf, createdKey, hpc, hmem, createdCount_cons]
      | _ => simp [emitted, creationOf, createdKey, hpc]
  | cleanup env =>
      cases hpc : s.cleanup with
      | erase now expired =>
          simp [emitted, creationOf, createdKey, hpc,
            (present_cleanupErase cfg env imsi now expired s.store).2]
      | _ => simp [emitted, creationOf, createdKey, hpc]
  | loop k env =>
      cases hpc : s.loops k with
      | erase x =>
          by_cases hmem : x ∈ s.store.sessions <;>
            simp [emitted, creationOf, createdKey, hpc, hmem, createdCount_cons]
      | _ => simp [emitted, creationOf, createdKey, hpc]
  | _ => simp [emitted, creationOf, createdKey]

/-- **One step balances.** -/
theorem balance_of_step [Fintype ι] [DecidableEq ι] (h : Step cfg s l t) (imsi : StdString) :
    present imsi t.store + endedCount imsi (emitted cfg s l) + manualRemovalOf imsi s l =
      present imsi s.store + createdCount imsi (emitted cfg s l) := by
  cases l with
  | call i c =>
      obtain ⟨_, _, rfl⟩ := step_call.mp h
      rfl
  | thread i env =>
      have hnext := (step_thread.mp h).2
      cases hpc : s.threads i with
      | checked x =>
          simp only [threadNext, hpc, Option.some.injEq] at hnext
          have hkeys : t.store.sessions.keys = insert x s.store.sessions.keys := by
            rw [← hnext]
            exact keys_createSessionTable cfg env x s.store
          simp only [emitted, hpc, manualRemovalOf, manuallyRemovedKey]
          by_cases hmem : x ∈ s.store.sessions
          · rw [Finset.insert_eq_self.mpr (Finmap.mem_keys.mpr hmem)] at hkeys
            simp [hmem, present_congr hkeys]
          · rw [present_insert hmem hkeys]
            simp [hmem, createdCount_cons, endedCount_cons]
      | entered c =>
          cases c with
          | removeSession x =>
              simp only [threadNext, hpc, firstSection, Option.some.injEq] at hnext
              simp only [emitted, hpc, createdCount_firstSectionEmitted,
                endedCount_firstSectionEmitted, manualRemovalOf, manuallyRemovedKey]
              by_cases hmem : x ∈ s.store.sessions
              · have hkeys : t.store.sessions.keys = s.store.sessions.keys.erase x := by
                  rw [← hnext, removeSession, if_pos hmem]
                  exact Finmap.keys_erase x s.store.sessions
                have herase := present_erase imsi hmem hkeys
                simpa [hmem] using herase
              · rw [← hnext, removeSession, if_neg hmem]
                simp [hmem, Manager.goto]
          | _ =>
              have hkeys := keys_of_step h (by simp [Permits, hpc])
              simp [emitted, hpc, manualRemovalOf, manuallyRemovedKey, present_congr hkeys]
      | _ =>
          have hkeys := keys_of_step h (by simp [Permits, hpc])
          simp [emitted, hpc, manualRemovalOf, manuallyRemovedKey, present_congr hkeys]
  | cleanup env =>
      have hnext := (step_cleanup.mp h).2
      cases hpc : s.cleanup <;> simp only [cleanupNext, hpc] at hnext
      case erase now expired =>
        obtain ⟨hpresent, hcreated⟩ := present_cleanupErase cfg env imsi now expired s.store
        have hstore : present imsi t.store =
            present imsi (cleanupErase cfg env now expired s.store).2 := by
          rcases store_of_cleanupErase hpc (step_cleanup.mp h).2 with heq | heq <;> rw [heq]
          rfl
        simp only [emitted, hpc, manualRemovalOf, manuallyRemovedKey, hstore, hcreated]
        simpa using hpresent
      all_goals (try split at hnext) <;> cases hnext <;>
        simp [emitted, hpc, manualRemovalOf, manuallyRemovedKey]
  | loop k env =>
      have hnext := (step_loop.mp h).2
      cases hpc : s.loops k with
      | erase x =>
          have hkeys : t.store.sessions.keys = s.store.sessions.keys.erase x := by
            rw [← keys_shutdownErase cfg env x s.store, store_of_shutdownErase hpc hnext,
              Store.sessions_settle]
          simp only [emitted, hpc, manualRemovalOf, manuallyRemovedKey]
          by_cases hmem : x ∈ s.store.sessions
          · have herase := present_erase imsi hmem hkeys
            simp [hmem, createdCount_cons, endedCount_cons, herase]
          · rw [Finset.erase_eq_of_notMem fun hx => hmem (Finmap.mem_keys.mp hx)] at hkeys
            simp [hmem, present_congr hkeys]
      | _ =>
          have hkeys := keys_of_step h (by simp [Permits, hpc])
          simp [emitted, hpc, manualRemovalOf, manuallyRemovedKey, present_congr hkeys]
  | destroy =>
      have hkeys := keys_of_step h (by simp [Permits])
      simp [emitted, manualRemovalOf, manuallyRemovedKey, present_congr hkeys]

end Steps

/-! ## Runs -/

variable {ι : Type} [Fintype ι] [DecidableEq ι] {cfg : Config} {s t : Manager ι}

theorem balance_of_run {tr : List (Label ι)} (h : Run (Step cfg) s tr t) (imsi : StdString) :
    present imsi t.store + endedCount imsi (observed (next cfg) (emitted cfg) tr s) +
        tally (next cfg) (manualRemovalOf imsi) tr s =
      present imsi s.store + createdCount imsi (observed (next cfg) (emitted cfg) tr s) := by
  induction h with
  | nil => rfl
  | snoc hrun hlast ih =>
      have hstep := balance_of_step hlast imsi
      rw [Run.observed_snoc _ hrun, Run.tally_snoc _ hrun, endedCount_append, createdCount_append]
      omega

/-- **Every creation is accounted for.** In every run from the constructor, and so
when the destructor has finished, a subscriber's `CREATED` events are as many as its
ends with an event, its removals by `remove_session` and its session in the table
together. The counts are of calls of `emit_event`; a callback that never raises has
taken them all. -/
theorem created_accounted {clock : ℤ} {tr : List (Label ι)}
    (h : Run (Step cfg) (.initial cfg clock) tr s) (imsi : StdString) :
    createdCount imsi (observed (next cfg) (emitted cfg) tr (.initial cfg clock)) =
        endedCount imsi (observed (next cfg) (emitted cfg) tr (.initial cfg clock)) +
          tally (next cfg) (manualRemovalOf imsi) tr (.initial cfg clock) +
          present imsi s.store ∧
      (cfg.Delivers →
        s.store.events = observed (next cfg) (emitted cfg) tr (.initial cfg clock)) := by
  constructor
  · have hbalance := balance_of_run h imsi
    have hempty : present imsi (Manager.initial cfg clock : Manager ι).store = 0 :=
      if_neg Finmap.notMem_empty
    omega
  · intro hcfg
    rw [hcfg.events_of_run h]
    rfl

/-! A session is created and the manager destroyed. -/

private def createThenDestroy : List (Label Caller) :=
  serve .first (.createSession (text "1")) 2 ++
    [.destroy, .destroy, .cleanup (after 0 []), .destroy, .destroy]

private def destroyedEarly : Manager Caller := play createThenDestroy (by decide +kernel)

theorem created_accounted_destroyed :
    createdCount (text "1") destroyedEarly.store.events =
      endedCount (text "1") destroyedEarly.store.events +
        tally (next sample) (manualRemovalOf (text "1")) createThenDestroy (.initial sample 0) +
        present (text "1") destroyedEarly.store := by
  have hrun : Run (Step sample) (.initial sample 0) createThenDestroy destroyedEarly :=
    run_play _ _
  obtain ⟨hbalance, hevents⟩ := created_accounted hrun (text "1")
  rw [hevents sample_delivers]
  exact hbalance

/-- The destructor has finished, and of the session there is only the `CREATED` event. -/
theorem destroyed_without_end :
    Run (Step sample) (.initial sample 0) createThenDestroy destroyedEarly ∧
      destroyedEarly.destructor = .destroyed ∧
      createdCount (text "1") destroyedEarly.store.events = 1 ∧
      endedCount (text "1") destroyedEarly.store.events = 0 :=
  ⟨run_play _ _, by decide +kernel, by decide +kernel, by decide +kernel⟩

end Pgw.SessionManager
