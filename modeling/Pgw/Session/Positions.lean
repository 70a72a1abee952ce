import Pgw.Session.Manager

/-!
# Where the threads can go

The positions of the callers, of the cleanup thread and of the loops, before and
after one step. A thread moves in its own steps only, and along the arrows of its
code only; what a position says about the past is an induction over these facts.
-/
namespace Pgw.SessionManager
open TransitionSystem

variable {ι : Type}

/-! ## Callers -/

/-- The arrows of a caller between the beginning of a call and its return. -/
inductive Moves : ThreadPc → ThreadPc → Prop where
  | finish (c : Call) (v : Completion Value) : Moves (.entered c) (.returning c v)
  | check (imsi : StdString) : Moves (.entered (.createSession imsi)) (.checked imsi)
  | table (imsi : StdString) (v : Completion Value) :
      Moves (.checked imsi) (.returning (.createSession imsi) v)
  | activate : Moves (.entered .startGracefulShutdown) .activated
  | spawn (k : ℕ) : Moves .activated (.spawned k)
  | assign (k : ℕ) (v : Completion Value) : Moves (.spawned k) (.returning .startGracefulShutdown v)
  | read (imsi : StdString) (reading : ℤ) :
      Moves (.entered (.updateSessionActivity imsi)) (.touching imsi reading)
  | write (imsi : StdString) (reading : ℤ) (v : Completion Value) :
      Moves (.touching imsi reading) (.returning (.updateSessionActivity imsi) v)
  | leave (c : Call) (v : Completion Value) : Moves (.returning c v) .idle

theorem firstSection_moves (cfg : Config) (env : Ambient) (c : Call) (st : Store) :
    Moves (.entered c) (firstSection cfg env c st).1 := by
  cases c with
  | createSession imsi =>
      rw [firstSection]
      cases IMSI.ofString imsi with
      | returned _ =>
          generalize createSessionBlacklist cfg env imsi st = outcome
          obtain ⟨(_ | _) | _ | _, _⟩ := outcome
          · exact .check imsi
          all_goals exact .finish _ _
      | raised _ => exact .finish _ _
      | terminated => exact .finish _ _
  | startGracefulShutdown => exact .activate
  | updateSessionActivity imsi => exact .read imsi _
  | _ => exact .finish _ _

/-- Only a `create_session` with a proper, free subscriber gets past the check. -/
theorem firstSection_checked {cfg : Config} {env : Ambient} {c : Call} {st : Store}
    {imsi : StdString} (h : (firstSection cfg env c st).1 = .checked imsi) :
    c = .createSession imsi ∧ IMSI.Valid imsi ∧ imsi ∉ st.blacklist := by
  cases c with
  | createSession key =>
      rw [firstSection] at h
      cases hvalid : IMSI.ofString key with
      | returned imsiObj =>
          by_cases hbanned : key ∈ st.blacklist
          · simp only [hvalid, createSessionBlacklist, if_pos hbanned] at h
            generalize emitEvent cfg env key .rejected st = emitted at h
            obtain ⟨_ | _ | _, _⟩ := emitted <;> cases h
          · simp only [hvalid, createSessionBlacklist, if_neg hbanned, ThreadPc.checked.injEq] at h
            subst h
            rw [IMSI.ofString_returned] at hvalid
            exact ⟨rfl, hvalid ▸ imsiObj.valid, hbanned⟩
      | raised what => simp [hvalid] at h
      | terminated => simp [hvalid] at h
  | _ => cases h

section Threads
variable [DecidableEq ι] {cfg : Config} {s t : Manager ι}

@[simp] theorem threads_goto (s : Manager ι) (i : ι) (pc : ThreadPc) :
    (s.goto i pc).threads = Function.update s.threads i pc := rfl

/-- The moving caller follows an arrow, or the process ends. -/
theorem threads_of_threadNext {i : ι} {env : Ambient}
    (h : threadNext cfg i env s = some t) :
    t.threads = s.threads ∨ ∃ pc, Moves (s.threads i) pc ∧
      t.threads = Function.update s.threads i pc := by
  cases hpc : s.threads i with
  | idle => simp [threadNext, hpc] at h
  | entered c =>
      simp only [threadNext, hpc, Option.some.injEq] at h
      subst h
      exact Or.inr ⟨_, firstSection_moves cfg env c s.store, rfl⟩
  | checked imsi =>
      simp only [threadNext, hpc, Option.some.injEq] at h
      subst h
      exact Or.inr ⟨_, .table imsi _, rfl⟩
  | activated =>
      simp only [threadNext, hpc, Option.some.injEq] at h
      subst h
      exact Or.inr ⟨_, .spawn _, rfl⟩
  | spawned k =>
      simp only [threadNext, hpc] at h
      split at h <;> cases h
      · exact Or.inl rfl
      · exact Or.inr ⟨_, .assign k _, rfl⟩
  | touching imsi reading =>
      simp only [threadNext, hpc, Option.some.injEq] at h
      subst h
      exact Or.inr ⟨_, .write imsi reading _, rfl⟩
  | returning c v =>
      simp only [threadNext, hpc, Option.some.injEq] at h
      subst h
      exact Or.inr ⟨_, .leave c v, rfl⟩

/-- A caller adds the loops, each under a new number. -/
theorem loops_of_threadNext {i : ι} {env : Ambient} (h : threadNext cfg i env s = some t) :
    t.loops = s.loops ∧ t.spawned = s.spawned ∨
      t.loops = Function.update s.loops s.spawned .start ∧ t.spawned = s.spawned + 1 := by
  cases hpc : s.threads i <;> simp only [threadNext, hpc] at h
  case activated =>
    cases h
    exact Or.inr ⟨rfl, rfl⟩
  all_goals (try split at h) <;> cases h
  all_goals exact Or.inl ⟨rfl, rfl⟩

/-- A caller leaves the cleanup thread and the destructor alone. -/
theorem threadNext_frame {i : ι} {env : Ambient} (h : threadNext cfg i env s = some t) :
    t.cleanup = s.cleanup ∧ t.destructor = s.destructor := by
  rw [threadNext] at h
  split at h <;> (try split at h)
  all_goals cases h <;> exact ⟨rfl, rfl⟩

end Threads

section Background
variable {cfg : Config} {s t : Manager ι} {env : Ambient}

/-- The cleanup thread moves itself and the store, and may end the process. -/
theorem cleanupNext_frame (h : cleanupNext cfg env s = some t) :
    t.threads = s.threads ∧ t.loops = s.loops ∧ t.spawned = s.spawned ∧
      t.gracefulShutdownThread = s.gracefulShutdownThread ∧ t.destructor = s.destructor := by
  rw [cleanupNext] at h
  split at h <;> try split at h
  all_goals cases h <;> exact ⟨rfl, rfl, rfl, rfl, rfl⟩

/-- A loop moves itself and the store, and may end the process. -/
theorem loopNext_frame {k : ℕ} (h : loopNext cfg k env s = some t) :
    t.threads = s.threads ∧ t.cleanup = s.cleanup ∧ t.spawned = s.spawned ∧
      t.gracefulShutdownThread = s.gracefulShutdownThread ∧ t.destructor = s.destructor ∧
      ∀ j, j ≠ k → t.loops j = s.loops j := by
  have hother : ∀ (u : Manager ι) pc j, j ≠ k → (u.gotoLoop k pc).loops j = u.loops j :=
    fun u pc j hj => by simp [Manager.gotoLoop, hj]
  cases hpc : s.loops k <;> simp only [loopNext, hpc] at h <;> (try split at h) <;>
    (try split at h)
  all_goals cases h <;> exact ⟨rfl, rfl, rfl, rfl, rfl, by first | exact hother _ _ | simp⟩

/-- The destructor joins, and takes no part in the operations. -/
theorem destroyNext_frame [Fintype ι] (h : destroyNext s = some t) :
    t.threads = s.threads ∧ t.cleanup = s.cleanup ∧ t.loops = s.loops ∧ t.spawned = s.spawned ∧
      t.terminated = s.terminated := by
  rw [destroyNext] at h
  split at h <;> (try split at h) <;> (try split at h)
  all_goals cases h <;> exact ⟨rfl, rfl, rfl, rfl, rfl⟩

/-- Destruction begins when no caller is inside an operation, and is not undone. -/
theorem destroyNext_destructor [Fintype ι] (h : destroyNext s = some t) :
    (s.destructor = .alive → ∀ i, s.threads i = .idle) ∧ t.destructor ≠ .alive := by
  rw [destroyNext] at h
  split at h <;> (try split at h) <;> (try split at h)
  all_goals cases h <;> constructor
  all_goals simp_all

end Background

section Steps
variable [Fintype ι] [DecidableEq ι] {cfg : Config} {s t : Manager ι} {l : Label ι}

/-- **Where a caller can be after a step**: where it was, inside a call that begins
with the step, or one arrow further in a step of its own. -/
theorem threads_of_step (h : Step cfg s l t) (i : ι) :
    t.threads i = s.threads i ∨
      (∃ c, l = .call i c ∧ s.threads i = .idle ∧ t.threads i = .entered c) ∨
      ∃ env, l = .thread i env ∧ Moves (s.threads i) (t.threads i) := by
  cases l with
  | call j c =>
      obtain ⟨_, ⟨hidle, _⟩, rfl⟩ := step_call.mp h
      by_cases hij : i = j
      · subst hij
        exact Or.inr (Or.inl ⟨c, rfl, hidle, by simp⟩)
      · exact Or.inl (by simp [hij])
  | thread j env =>
      rcases threads_of_threadNext (step_thread.mp h).2 with hsame | ⟨pc, hmoves, hupdate⟩
      · exact Or.inl (by rw [hsame])
      · by_cases hij : i = j
        · subst hij
          exact Or.inr (Or.inr ⟨env, rfl, by simpa [hupdate] using hmoves⟩)
        · exact Or.inl (by simp [hupdate, hij])
  | cleanup env => exact Or.inl (by rw [(cleanupNext_frame (step_cleanup.mp h).2).1])
  | loop k env => exact Or.inl (by rw [(loopNext_frame (step_loop.mp h).2).1])
  | destroy => exact Or.inl (by rw [(destroyNext_frame (step_destroy.mp h).2).1])

/-- A caller stays where it is in the steps of others. -/
theorem threads_of_others (h : Step cfg s l t) {i : ι} (hcall : ∀ c, l ≠ .call i c)
    (hthread : ∀ env, l ≠ .thread i env) : t.threads i = s.threads i := by
  rcases threads_of_step h i with hsame | ⟨c, heq, _⟩ | ⟨env, heq, _⟩
  · exact hsame
  · exact absurd heq (hcall c)
  · exact absurd heq (hthread env)

/-- A caller is at the beginning of a call only if the call begins now or had begun. -/
theorem entered_of_step (h : Step cfg s l t) {i : ι} {c : Call} (hpc : t.threads i = .entered c) :
    s.threads i = .entered c ∨ l = .call i c := by
  rcases threads_of_step h i with hsame | ⟨c', rfl, _, hpc'⟩ | ⟨env, _, hmoves⟩
  · exact Or.inl (hsame ▸ hpc)
  · rw [hpc, ThreadPc.entered.injEq] at hpc'
    exact Or.inr (by rw [hpc'])
  · rw [hpc] at hmoves
    generalize s.threads i = pc at hmoves
    cases hmoves

/-- A caller that has left its first section and is not at the end was there and does not
move now, or its first section runs now. -/
theorem midway_of_step (h : Step cfg s l t) {i : ι} {pc : ThreadPc} (hpc : t.threads i = pc)
    (hmidway : (∃ imsi, pc = .checked imsi) ∨ ∃ imsi reading, pc = .touching imsi reading) :
    (s.threads i = pc ∧ ∀ env, l ≠ .thread i env) ∨
      ∃ env c, s.threads i = .entered c ∧ firstSection cfg env c s.store = (pc, t.store) := by
  by_cases hl : ∃ env, l = .thread i env
  · obtain ⟨env, rfl⟩ := hl
    have hnext := (step_thread.mp h).2
    refine Or.inr ⟨env, ?_⟩
    cases hbefore : s.threads i <;> simp only [threadNext, hbefore] at hnext
    case entered c =>
      rw [Option.some.injEq] at hnext
      rw [← hnext, threads_goto, Function.update_self] at hpc
      refine ⟨c, rfl, ?_⟩
      rw [← hpc, ← hnext]
      rfl
    case idle => cases hnext
    case spawned k =>
      split at hnext <;> cases hnext
      · rw [hbefore] at hpc
        subst hpc
        simp at hmidway
      · simp only [threads_goto, Function.update_self] at hpc
        subst hpc
        simp at hmidway
    all_goals
      rw [Option.some.injEq] at hnext
      rw [← hnext, threads_goto, Function.update_self] at hpc
      subst hpc
      simp at hmidway
  · refine Or.inl ⟨?_, fun env heq => hl ⟨env, heq⟩⟩
    rcases threads_of_step h i with hsame | ⟨c, _, _, hcall⟩ | ⟨env, heq, _⟩
    · rw [← hsame, hpc]
    · rw [hpc] at hcall
      simp [hcall] at hmidway
    · exact absurd ⟨env, heq⟩ hl

/-- A call is past the check if it was and does not move now, or if its first section
runs now on a proper, free subscriber. -/
theorem checked_of_step (h : Step cfg s l t) {i : ι} {imsi : StdString}
    (hpc : t.threads i = .checked imsi) :
    (s.threads i = .checked imsi ∧ ∀ env, l ≠ .thread i env) ∨
      s.threads i = .entered (.createSession imsi) ∧ IMSI.Valid imsi ∧
        imsi ∉ s.store.blacklist := by
  refine (midway_of_step h hpc (Or.inl ⟨imsi, rfl⟩)).imp_right ?_
  rintro ⟨env, c, hentered, hsection⟩
  obtain ⟨rfl, hvalid, hfree⟩ := firstSection_checked (congrArg Prod.fst hsection)
  exact ⟨hentered, hvalid, hfree⟩

/-- An update is between its reading and its write if it was and does not move now, or if it
reads the clock now. -/
theorem touching_of_step (h : Step cfg s l t) {i : ι} {imsi : StdString} {reading : ℤ}
    (hpc : t.threads i = .touching imsi reading) :
    (s.threads i = .touching imsi reading ∧ ∀ env, l ≠ .thread i env) ∨
      s.threads i = .entered (.updateSessionActivity imsi) ∧ s.store.clock ≤ reading ∧
        reading = t.store.clock := by
  refine (midway_of_step h hpc (Or.inr ⟨imsi, reading, rfl⟩)).imp_right ?_
  rintro ⟨env, c, hentered, hsection⟩
  have hmoves := firstSection_moves cfg env c s.store
  rw [hsection] at hmoves
  cases hmoves
  simp only [firstSection, Prod.mk.injEq, ThreadPc.touching.injEq, true_and] at hsection
  obtain ⟨hreading, hstore⟩ := hsection
  refine ⟨hentered, ?_, ?_⟩
  · rw [← hreading, Store.clock_tick]
    omega
  · rw [← hreading, ← hstore]

/-- When a thread's last call began is noted as it begins. -/
theorem began_of_step (h : Step cfg s l t) (i : ι) :
    t.began i = s.began i ∧ (∀ c, l ≠ .call i c) ∨
      (∃ c, l = .call i c) ∧ t.began i = s.store.clock := by
  cases l with
  | call j c =>
      obtain ⟨_, _, rfl⟩ := step_call.mp h
      by_cases hij : i = j
      · subst hij
        exact Or.inr ⟨⟨c, rfl⟩, by simp [Manager.goto]⟩
      · refine Or.inl ⟨by simp [Manager.goto, hij], fun c' heq => ?_⟩
        exact hij (Label.call.inj heq).1.symm
  | thread j env =>
      refine Or.inl ⟨?_, by simp⟩
      have hnext := (step_thread.mp h).2
      rw [threadNext] at hnext
      split at hnext <;> (try split at hnext)
      all_goals cases hnext <;> rfl
  | cleanup env =>
      refine Or.inl ⟨?_, by simp⟩
      have hnext := (step_cleanup.mp h).2
      rw [cleanupNext] at hnext
      split at hnext <;> try split at hnext
      all_goals cases hnext <;> rfl
  | loop k env =>
      refine Or.inl ⟨?_, by simp⟩
      have hnext := (step_loop.mp h).2
      cases hpc : s.loops k <;> simp only [loopNext, hpc] at hnext <;> (try split at hnext) <;>
        (try split at hnext)
      all_goals cases hnext <;> rfl
  | destroy =>
      refine Or.inl ⟨?_, by simp⟩
      have hnext := (step_destroy.mp h).2
      rw [destroyNext] at hnext
      split at hnext <;> (try split at hnext) <;> (try split at hnext)
      all_goals cases hnext <;> rfl

theorem began_of_others (h : Step cfg s l t) (hl : ∀ i c, l ≠ .call i c) : t.began = s.began := by
  funext i
  rcases began_of_step h i with ⟨hsame, _⟩ | ⟨⟨c, hcall⟩, _⟩
  · exact hsame
  · exact absurd hcall (hl i c)

theorem began_of_busy (h : Step cfg s l t) {i : ι} (hbusy : s.threads i ≠ .idle) :
    t.began i = s.began i := by
  rcases began_of_step h i with ⟨hsame, _⟩ | ⟨⟨c, rfl⟩, _⟩
  · exact hsame
  · exact absurd (step_call.mp h).2.1.1 hbusy

/-- Without calls to an operation, nobody is about to run its section. -/
theorem not_entered_of_run {c : Call} {tr : List (Label ι)}
    (h : Run (only (Step cfg) fun _ l => ∀ i, l ≠ .call i c) s tr t)
    (hs : ∀ i, s.threads i ≠ .entered c) : ∀ i, t.threads i ≠ .entered c := by
  refine h.invariant (P := fun s => ∀ i, s.threads i ≠ .entered c) ?_ hs
  intro s l t hs hstep i hpc
  rcases entered_of_step hstep.1 hpc with hold | hcall
  · exact hs i hold
  · exact hstep.2 i hcall

/-- Only its own steps move the cleanup thread. -/
theorem cleanup_of_step (h : Step cfg s l t) (hl : ∀ env, l ≠ .cleanup env) :
    t.cleanup = s.cleanup := by
  cases l with
  | call i c =>
      obtain ⟨_, _, rfl⟩ := step_call.mp h
      rfl
  | thread i env => exact (threadNext_frame (step_thread.mp h).2).1
  | cleanup env => exact absurd rfl (hl env)
  | loop k env => exact (loopNext_frame (step_loop.mp h).2).2.1
  | destroy => exact (destroyNext_frame (step_destroy.mp h).2).2.1

/-- A loop moves in its own steps, or is new. -/
theorem loops_of_step (h : Step cfg s l t) (k : ℕ) (hl : ∀ env, l ≠ .loop k env) :
    t.loops k = s.loops k ∨
      k = s.spawned ∧ t.spawned = s.spawned + 1 ∧ t.loops k = .start := by
  cases l with
  | call i c =>
      obtain ⟨_, _, rfl⟩ := step_call.mp h
      exact Or.inl rfl
  | thread i env =>
      rcases loops_of_threadNext (step_thread.mp h).2 with ⟨hsame, _⟩ | ⟨hupdate, hspawned⟩
      · exact Or.inl (by rw [hsame])
      · by_cases hk : k = s.spawned
        · exact Or.inr ⟨hk, hspawned, by rw [hupdate, hk, Function.update_self]⟩
        · exact Or.inl (by rw [hupdate, Function.update_of_ne hk])
  | cleanup env => exact Or.inl (by rw [(cleanupNext_frame (step_cleanup.mp h).2).2.1])
  | loop j env =>
      have hk : k ≠ j := fun heq => hl env (heq ▸ rfl)
      exact Or.inl ((loopNext_frame (step_loop.mp h).2).2.2.2.2.2 k hk)
  | destroy => exact Or.inl (by rw [(destroyNext_frame (step_destroy.mp h).2).2.2.1])

theorem spawned_of_step (h : Step cfg s l t) : s.spawned ≤ t.spawned := by
  cases l with
  | call i c =>
      obtain ⟨_, _, rfl⟩ := step_call.mp h
      exact le_refl _
  | thread i env =>
      rcases loops_of_threadNext (step_thread.mp h).2 with ⟨_, hsame⟩ | ⟨_, hnew⟩ <;> omega
  | cleanup env => exact (cleanupNext_frame (step_cleanup.mp h).2).2.2.1.ge
  | loop j env => exact (loopNext_frame (step_loop.mp h).2).2.2.1.ge
  | destroy => exact (destroyNext_frame (step_destroy.mp h).2).2.2.2.1.ge

/-- A new loop is made by a caller that has set the flag. -/
theorem activated_of_spawned (h : Step cfg s l t) (hspawned : t.spawned = s.spawned + 1) :
    ∃ i, s.threads i = .activated := by
  cases l with
  | call i c =>
      obtain ⟨_, _, rfl⟩ := step_call.mp h
      exact absurd hspawned (by simp [Manager.goto])
  | thread i env =>
      have hnext := (step_thread.mp h).2
      cases hpc : s.threads i <;> simp only [threadNext, hpc] at hnext
      case activated => exact ⟨i, hpc⟩
      all_goals (try split at hnext) <;> cases hnext
      all_goals exact absurd hspawned (by simp [Manager.goto])
  | cleanup env =>
      have hsame := (cleanupNext_frame (step_cleanup.mp h).2).2.2.1
      omega
  | loop j env =>
      have hsame := (loopNext_frame (step_loop.mp h).2).2.2.1
      omega
  | destroy =>
      have hsame := (destroyNext_frame (step_destroy.mp h).2).2.2.2.1
      omega

/-- The numbers not yet given stand for no loop. -/
theorem absent_of_reaches (h : Reaches cfg s) : ∀ k, s.spawned ≤ k → s.loops k = .absent := by
  refine h.invariant (P := fun s => ∀ k, s.spawned ≤ k → s.loops k = .absent) ?_ ?_
  · rintro s₀ ⟨clock, rfl⟩ k _
    rfl
  · intro u l v hu hstep k hk
    have hle := spawned_of_step hstep
    have habsent := hu k (by omega)
    by_cases hl : ∃ env, l = .loop k env
    · obtain ⟨env, rfl⟩ := hl
      have hnext := (step_loop.mp hstep).2
      simp [loopNext, habsent] at hnext
    · rcases loops_of_step hstep k fun env heq => hl ⟨env, heq⟩ with hsame | ⟨hnew, hspawned, _⟩
      · rw [hsame, habsent]
      · omega

/-- Another step of a reachable manager leaves a loop where it is, or begins it. -/
theorem loops_of_reaches (hreach : Reaches cfg s) (h : Step cfg s l t) (k : ℕ)
    (hl : ∀ env, l ≠ .loop k env) :
    t.loops k = s.loops k ∨ s.loops k = .absent ∧ t.loops k = .start := by
  rcases loops_of_step h k hl with hsame | ⟨hnew, _, hstart⟩
  · exact Or.inl hsame
  · exact Or.inr ⟨absent_of_reaches hreach k hnew.ge, hstart⟩

/-- Only the destructor's own steps move it. -/
theorem destructor_of_step (h : Step cfg s l t) (hl : l ≠ .destroy) :
    t.destructor = s.destructor := by
  cases l with
  | call i c =>
      obtain ⟨_, _, rfl⟩ := step_call.mp h
      rfl
  | thread i env => exact (threadNext_frame (step_thread.mp h).2).2
  | cleanup env => exact (cleanupNext_frame (step_cleanup.mp h).2).2.2.2.2
  | loop k env => exact (loopNext_frame (step_loop.mp h).2).2.2.2.2.1
  | destroy => exact absurd rfl hl

/-- During destruction nobody is inside an operation. -/
theorem idle_of_reaches (h : Reaches cfg s) (hdestructor : s.destructor ≠ .alive) :
    ∀ i, s.threads i = .idle := by
  refine h.invariant (P := fun s => s.destructor ≠ .alive → ∀ i, s.threads i = .idle) ?_ ?_
    hdestructor
  · rintro s₀ ⟨clock, rfl⟩ _ i
    rfl
  · intro u l v hu hstep hv
    by_cases hl : l = .destroy
    · subst hl
      have hnext := (step_destroy.mp hstep).2
      rw [(destroyNext_frame hnext).1]
      by_cases halive : u.destructor = .alive
      · exact (destroyNext_destructor hnext).1 halive
      · exact hu halive
    · rw [destructor_of_step hstep hl] at hv
      intro i
      rcases threads_of_step hstep i with hsame | ⟨c, hcall, _⟩ | ⟨env, _, hmoves⟩
      · rw [hsame, hu hv i]
      · subst hcall
        exact absurd (step_call.mp hstep).2.1.2 hv
      · rw [hu hv i] at hmoves
        cases hmoves

end Steps

end Pgw.SessionManager
