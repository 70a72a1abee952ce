import Pgw.Session.Changes

/-!
# What a graceful shutdown drains

Nothing in `create_session` looks at `graceful_shutdown_active_`: sessions are
created during a shutdown and after it as before. What the loop does is bounded
all the same. The number of sessions is a potential that only creations pay
into, and the loop stops on an empty table.
-/
namespace Pgw.SessionManager
open TransitionSystem

variable {ι : Type}

/-! ## Creations and removals -/

/-- The key that a step adds: at the table section of `create_session`, if absent. -/
def createdKey (s : Manager ι) : Label ι → Option StdString
  | .thread i _ =>
      match s.threads i with
      | .checked imsi => if imsi ∈ s.store.sessions then none else some imsi
      | _ => none
  | _ => none

/-- The key that a loop removes: at its second section, if still there. -/
def drainedKey (s : Manager ι) : Label ι → Option StdString
  | .loop k _ =>
      match s.loops k with
      | .erase imsi => if imsi ∈ s.store.sessions then some imsi else none
      | _ => none
  | _ => none

/-- Weighs the creations of one key. -/
def creationOf (imsi : StdString) (s : Manager ι) (l : Label ι) : ℕ :=
  if createdKey s l = some imsi then 1 else 0

/-- Weighs all creations. -/
def creation (s : Manager ι) (l : Label ι) : ℕ := (createdKey s l).elim 0 fun _ => 1

/-- Weighs the removals of all loops. -/
def removal (s : Manager ι) (l : Label ι) : ℕ := (drainedKey s l).elim 0 fun _ => 1

theorem keys_shutdownErase (cfg : Config) (env : Ambient) (imsi : StdString) (st : Store) :
    (shutdownErase cfg env imsi st).2.sessions.keys = st.sessions.keys.erase imsi := by
  cases hlookup : st.sessions.lookup imsi with
  | some session =>
      rw [shutdownErase, hlookup]
      simp only [emitEvent_store]
      exact Finmap.keys_erase imsi st.sessions
  | none =>
      rw [shutdownErase, hlookup, Finset.erase_eq_of_notMem]
      rw [Finmap.mem_keys]
      exact Finmap.lookup_eq_none.mp hlookup

/-- Only loops drain. -/
theorem loop_of_drained {s : Manager ι} {l : Label ι} {imsi : StdString}
    (h : drainedKey s l = some imsi) : ∃ k env, l = .loop k env := by
  cases l with
  | loop k env => exact ⟨k, env, rfl⟩
  | _ => cases h

section Loop
variable {cfg : Config} {s t : Manager ι} {k : ℕ} {env : Ambient}

theorem keys_of_drained {imsi : StdString} (h : loopNext cfg k env s = some t)
    (hdrained : drainedKey s (.loop k env) = some imsi) :
    imsi ∈ s.store.sessions.keys ∧
      t.store.sessions.keys = s.store.sessions.keys.erase imsi := by
  cases hpc : s.loops k with
  | erase key =>
      simp only [drainedKey, hpc] at hdrained
      by_cases hpresent : key ∈ s.store.sessions
      · rw [if_pos hpresent, Option.some.injEq] at hdrained
        subst hdrained
        refine ⟨Finmap.mem_keys.mpr hpresent, ?_⟩
        rw [← keys_shutdownErase cfg env key s.store]
        rw [store_of_shutdownErase hpc h, Store.sessions_settle]
      · rw [if_neg hpresent] at hdrained
        cases hdrained
  | _ => simp [drainedKey, hpc] at hdrained

/-- A loop that ends at its choice has found the table empty. -/
theorem empty_of_completion (h : loopNext cfg k env s = some t) (hpick : s.loops k = .pick)
    (hexit : t.loops k = .exited) : t.store.sessions = ∅ := by
  simp only [loopNext, hpick] at h
  split at h
  · rename_i hmet
    cases hsession : pickSession env.order with
    | none =>
        simp only [hsession, Option.some.injEq] at h
        rw [← h]
        exact sessions_of_pick_none hmet hsession
    | some imsi =>
        simp only [hsession, Option.some.injEq] at h
        rw [← h] at hexit
        simp only [Manager.gotoLoop, Function.update_self] at hexit
        split at hexit <;> cases hexit
  · cases h

end Loop

/-! ## Steps -/

variable [Fintype ι] [DecidableEq ι] {cfg : Config} {s t : Manager ι} {l : Label ι}

theorem mem_sessions_of_step (h : Step cfg s l t) {imsi : StdString}
    (hmem : imsi ∈ t.store.sessions) : imsi ∈ s.store.sessions ∨ createdKey s l = some imsi := by
  by_cases hbefore : imsi ∈ s.store.sessions
  · exact Or.inl hbefore
  · obtain ⟨ds, hrun, hpermits⟩ := step_changes h
    obtain ⟨i, env, rfl, hpc⟩ := hpermits _ (create_of_mem_sessions hrun hbefore hmem)
    exact Or.inr (by simp [createdKey, hpc, hbefore])

/-- Creations pay for removals. -/
theorem card_keys_of_step (h : Step cfg s l t) :
    t.store.sessions.keys.card + removal s l ≤ s.store.sessions.keys.card + creation s l := by
  cases hcreated : createdKey s l with
  | some imsi =>
      have hsub : t.store.sessions.keys ⊆ insert imsi s.store.sessions.keys := by
        intro x hx
        rw [Finset.mem_insert, Finmap.mem_keys]
        rcases mem_sessions_of_step h (Finmap.mem_keys.mp hx) with hold | hnew
        · exact Or.inr hold
        · rw [hcreated, Option.some.injEq] at hnew
          exact Or.inl hnew.symm
      have hcard := Finset.card_le_card hsub
      have hinsert := Finset.card_insert_le imsi s.store.sessions.keys
      have hdrained : drainedKey s l = none := by
        rw [Option.eq_none_iff_forall_ne_some]
        intro key hkey
        obtain ⟨k, env, rfl⟩ := loop_of_drained hkey
        cases hcreated
      simp only [removal, hdrained, creation, hcreated, Option.elim_none, Option.elim_some]
      omega
  | none =>
      have hsub : t.store.sessions.keys ⊆ s.store.sessions.keys := by
        intro x hx
        rw [Finmap.mem_keys]
        rcases mem_sessions_of_step h (Finmap.mem_keys.mp hx) with hold | hnew
        · exact hold
        · rw [hcreated] at hnew
          cases hnew
      have hcard := Finset.card_le_card hsub
      cases hdrained : drainedKey s l with
      | none =>
          simp only [removal, hdrained, creation, hcreated, Option.elim_none]
          omega
      | some imsi =>
          obtain ⟨k, env, rfl⟩ := loop_of_drained hdrained
          obtain ⟨hmem, hkeys⟩ := keys_of_drained (step_loop.mp h).2 hdrained
          have hpos := Finset.card_pos.mpr ⟨imsi, hmem⟩
          have herase := Finset.card_erase_of_mem hmem
          simp only [removal, hdrained, creation, hcreated, hkeys, Option.elim_none,
            Option.elim_some]
          omega

/-! ## Runs -/

theorem created_of_run {tr : List (Label ι)} (h : Run (Step cfg) s tr t) {imsi : StdString}
    (hmem : imsi ∈ t.store.sessions) :
    imsi ∈ s.store.sessions ∨ 0 < tally (next cfg) (creationOf imsi) tr s := by
  have hpotential := Run.potential
    (fun s : Manager ι => if imsi ∈ s.store.sessions then 1 else 0) (fun _ _ => 0)
    (creationOf imsi) ?_ h
  · rw [if_pos hmem, tally_zero] at hpotential
    by_cases hbefore : imsi ∈ s.store.sessions
    · exact Or.inl hbefore
    · rw [if_neg hbefore] at hpotential
      exact Or.inr (by omega)
  · intro s l t hstep
    by_cases hafter : imsi ∈ t.store.sessions
    · rcases mem_sessions_of_step hstep hafter with hbefore | hcreated
      · simp [hafter, hbefore]
      · simp [hafter, creationOf, hcreated]
    · simp [hafter]

/-- **What a graceful shutdown drains.** From the moment in which a start sets the
flag, a key that was not in the table comes from a creation since; the loops
remove no more sessions than there were and have been created since; and once a
loop has reported completion, every key in the table was created after that. -/
theorem shutdown_drains {s₀ : Manager ι} {i : ι} {env : Ambient} {tr : List (Label ι)}
    (hstart : s₀.threads i = .entered .startGracefulShutdown)
    (hset : Step cfg s₀ (.thread i env) s) (hrun : Run (Step cfg) s tr t) :
    s.store.gracefulShutdownActive = true ∧
    (∀ imsi, imsi ∈ t.store.sessions →
      imsi ∈ s.store.sessions ∨ 0 < tally (next cfg) (creationOf imsi) tr s) ∧
    tally (next cfg) removal tr s ≤
      s.store.sessions.keys.card + tally (next cfg) creation tr s ∧
    ∀ tr₁ k env' u v tr₂, tr = tr₁ ++ .loop k env' :: tr₂ →
      Run (Step cfg) s tr₁ u → u.loops k = .pick → Step cfg u (.loop k env') v →
      v.loops k = .exited → Run (Step cfg) v tr₂ t →
      ∀ imsi, imsi ∈ t.store.sessions → 0 < tally (next cfg) (creationOf imsi) tr₂ v := by
  refine ⟨?_, fun imsi hmem => created_of_run hrun hmem, ?_, ?_⟩
  · have hnext := (step_thread.mp hset).2
    simp only [threadNext, hstart, firstSection, Option.some.injEq] at hnext
    rw [← hnext]
    rfl
  · calc
      tally (next cfg) removal tr s ≤
          t.store.sessions.keys.card + tally (next cfg) removal tr s := Nat.le_add_left _ _
      _ ≤ s.store.sessions.keys.card + tally (next cfg) creation tr s :=
        Run.potential (fun s : Manager ι => s.store.sessions.keys.card) removal creation
          (fun _ _ _ hstep => card_keys_of_step hstep) hrun
  · intro tr₁ k env' u v tr₂ _ _ hpick hstep hexit hafter imsi hmem
    have hempty := empty_of_completion (step_loop.mp hstep).2 hpick hexit
    rcases created_of_run hafter hmem with hold | hcreated
    · rw [hempty] at hold
      exact absurd hold Finmap.notMem_empty
    · exact hcreated

/-! A shutdown starts on an empty table, a session is created and drained, the loop
reports completion, and another session is created. -/

private def aboutToSet : Manager Caller :=
  play [.call .first .startGracefulShutdown] (by decide +kernel)

private def flagSet : Manager Caller :=
  (next sample (.thread .first (after 0 [])) aboutToSet).get (by decide +kernel)

def creationsDuringShutdown : List (Label Caller) :=
  serve .second (.createSession (text "1")) 2 ++ List.replicate 3 (.thread .first (after 0 [])) ++
    List.replicate 6 (.loop 0 (after 0 [⟨text "1", ⟨text "1", 0, 0⟩⟩])) ++
    List.replicate 4 (.loop 0 (after 1 [])) ++ serve .second (.createSession (text "2")) 2

private def sessionsAgain : Manager Caller :=
  replayed (next sample) creationsDuringShutdown flagSet (by decide +kernel)

theorem shutdown_drains_creations :
    0 < tally (next sample) (creationOf (text "2")) creationsDuringShutdown flagSet := by
  have hset : Step sample aboutToSet (.thread .first (after 0 [])) flagSet :=
    (Option.some_get _).symm
  have hrun : Run (Step sample) flagSet creationsDuringShutdown sessionsAgain :=
    run_replayed _ _ _ _
  obtain ⟨_, hcreated, _⟩ := shutdown_drains (by decide +kernel) hset hrun
  exact (hcreated (text "2") (by decide +kernel)).resolve_left (by decide +kernel)

/-- With the flag set and the table empty a session is added, a loop removes one,
and the table is not empty after the loop has ended. -/
theorem creations_during_shutdown :
    flagSet.store.gracefulShutdownActive = true ∧ flagSet.store.sessions.keys = ∅ ∧
      Run (Step sample) flagSet creationsDuringShutdown sessionsAgain ∧
      tally (next sample) removal creationsDuringShutdown flagSet = 1 ∧
      sessionsAgain.loops 0 = .exited ∧ sessionsAgain.store.sessions.keys = {text "2"} :=
  ⟨by decide +kernel, by decide +kernel, run_replayed _ _ _ _, by decide +kernel,
    by decide +kernel, by decide +kernel⟩

end Pgw.SessionManager
