import Pgw.Dispatcher.Requests
import Pgw.Session.Creations

/-!
# What the server survives

Five things end the process of the server: `recvfrom` fails with an error that the I/O
thread does not know, a worker decodes a payload that is no subscriber, a callback raises on
a background thread, a loop starts with a rate of zero, and a second start of a graceful
shutdown meets the thread of the first. Where none of them is possible the process goes on,
whatever the interleaving: a call of a worker that has come to its end has a result, and
the worker has a reply for it.

## Main results

* `survives` — a run of harmless steps does not end the process.
-/
namespace Pgw.UdpServer
open SessionManager TransitionSystem
open EventDispatcher (responseTo)

/-! ## The manager -/

section Manager
variable {ι : Type} [Fintype ι] [DecidableEq ι] {cfg : Config} {s t : Manager ι} {l : Label ι}

/-- A `create_session` that returns has a result. -/
def HasResults (s : Manager ι) : Prop :=
  ∀ i imsi v, s.threads i = .returning (.createSession imsi) v →
    ∃ r, v = .returned (.result r)

omit [Fintype ι] in
/-- Without exceptions a section of `create_session` ends with a result, if it returns. -/
theorem result_of_threadNext (hquiet : cfg.Quiet) {i : ι} {env : Ambient}
    (h : threadNext cfg i env s = some t) {imsi : StdString} {v : Completion Value}
    (hpc : t.threads i = .returning (.createSession imsi) v)
    (hbefore : s.threads i ≠ .returning (.createSession imsi) v) :
    ∃ r, v = .returned (.result r) := by
  cases hold : s.threads i <;> simp only [threadNext, hold] at h
  case idle => cases h
  case entered c =>
    cases h
    rw [threads_goto, Function.update_self] at hpc
    have hmoves := firstSection_moves cfg env c s.store
    rw [hpc] at hmoves
    cases hmoves
    rw [firstSection_createSession hquiet] at hpc
    split at hpc <;> cases hpc
    exact ⟨_, rfl⟩
  case checked x =>
    cases h
    rw [threads_goto, Function.update_self, createSessionTable_returned hquiet,
      ThreadPc.returning.injEq] at hpc
    exact ⟨_, hpc.2.symm⟩
  case activated =>
    cases h
    rw [threads_goto, Function.update_self] at hpc
    cases hpc
  case spawned k =>
    split at h <;> cases h
    · exact absurd hpc hbefore
    · rw [threads_goto, Function.update_self] at hpc
      cases hpc
  case touching x reading =>
    cases h
    rw [threads_goto, Function.update_self] at hpc
    cases hpc
  case returning c v' =>
    cases h
    rw [threads_goto, Function.update_self] at hpc
    cases hpc

theorem HasResults.step (hs : HasResults s) (hquiet : cfg.Quiet) (h : Step cfg s l t) :
    HasResults t := by
  intro i imsi v hpc
  by_cases hbefore : s.threads i = .returning (.createSession imsi) v
  · exact hs i imsi v hbefore
  · rcases threads_of_step h i with hsame | ⟨c, _, _, hentered⟩ | ⟨env, rfl, _⟩
    · exact absurd (hsame ▸ hpc) hbefore
    · rw [hpc] at hentered
      cases hentered
    · exact result_of_threadNext hquiet (step_thread.mp h).2 hpc hbefore

end Manager

/-! ## The workers -/

section Workers
variable {ω κ : Type} [Fintype ω] [DecidableEq ω] [Fintype κ] [DecidableEq κ] {cfg : Config}
  {s t : Server ω κ}

/-! ## The labels of a step -/

theorem serverStep_io {found : Finding} : ServerStep cfg s (.io found) t ↔
    s.manager.terminated = false ∧ ioNext found s = some t := by
  cases hterm : s.manager.terminated <;> simp [ServerStep, serverNext, hterm]

theorem serverStep_worker {i : ω} {k : ℕ} {env : Ambient} :
    ServerStep cfg s (.worker i k env) t ↔
      s.manager.terminated = false ∧ workerNext cfg i k env s = some t := by
  cases hterm : s.manager.terminated <;> simp [ServerStep, serverNext, hterm]

theorem serverStep_manager {l : Label (ω ⊕ κ)} : ServerStep cfg s (.manager l) t ↔
    isOther l = true ∧ ∃ m, Step cfg s.manager l m ∧ { s with manager := m } = t := by
  cases hother : isOther l <;> cases hterm : s.manager.terminated <;>
    simp [ServerStep, serverNext, hterm, hother, Step, next]

omit [Fintype ω] [DecidableEq ω] [Fintype κ] [DecidableEq κ] in
/-- Only a datagram that is read arrives. -/
theorem arrived_of_ioNext {found : Finding} (h : ioNext found s = some t) :
    t.arrived = s.arrived ∨ ∃ d, found = .datagram d ∧ t.arrived = s.arrived ++ [d] := by
  unfold ioNext at h
  split at h <;> cases h
  case h_5 d _ => exact Or.inr ⟨d, rfl, rfl⟩
  all_goals exact Or.inl rfl

omit [Fintype ω] [DecidableEq ω] [Fintype κ] [DecidableEq κ] in
/-- The I/O thread leaves the manager alone, or ends the process with it. -/
theorem manager_of_ioNext {found : Finding} (h : ioNext found s = some t) :
    t.manager = s.manager ∨ (found = .failed ∧ s.io.pc = .recvfrom) ∧ t = s.terminate := by
  unfold ioNext at h
  split at h <;> cases h
  case h_8 hpc => exact Or.inr ⟨⟨rfl, hpc⟩, rfl⟩
  all_goals exact Or.inl rfl

/-! ## Steps -/

/-- The datagram spells a subscriber. -/
def Spells (d : Datagram) : Prop := IMSI.Decodable (d.payload.take bufferSize)

omit [Fintype ω] [DecidableEq ω] [Fintype κ] [DecidableEq κ] in
/-- What the worker has decodes. -/
theorem Carries.decodable (hspells : ∀ d ∈ s.arrived, Spells d) {item : Item}
    (h : Carries s.arrived item) : IMSI.Decodable item.event.data := by
  obtain ⟨d, hd, hevent⟩ := h
  rw [hevent]
  exact hspells d (List.mem_of_getElem? hd)

/-- **A worker moves the manager on, and does not end the process.** -/
theorem manager_of_workerNext (hs : Genuine s) (hspells : ∀ d ∈ s.arrived, Spells d)
    (hresults : HasResults s.manager) {i : ω} {k : ℕ} {env : Ambient}
    (h : workerNext cfg i k env s = some t) :
    t.arrived = s.arrived ∧ (t.manager = s.manager ∨ ∃ l, Step cfg s.manager l t.manager ∧
      ∀ j, l ≠ .call j .startGracefulShutdown) := by
  have hworker := hs.worker i
  rw [WorkerHonest] at hworker
  cases hpc : (s.workers i).pc <;> rw [hpc] at hworker <;> simp only [workerNext, hpc] at h
  case testStop =>
    cases h
    exact ⟨rfl, Or.inl rfl⟩
  case dequeue =>
    split at h
    · cases h
      exact ⟨rfl, Or.inl rfl⟩
    · split at h <;> cases h
      exact ⟨rfl, Or.inl rfl⟩
  case wait =>
    cases h
    exact ⟨rfl, Or.inl rfl⟩
  case decode =>
    obtain ⟨imsi, hdecoded⟩ := IMSI.fromBcd_of_decodable (hworker.decodable hspells)
    simp only [hdecoded] at h
    obtain ⟨m, hstep, rfl⟩ := Option.map_eq_some_iff.mp h
    exact ⟨rfl, Or.inr ⟨_, hstep, fun j heq => by cases heq⟩⟩
  case call =>
    split at h
    · rename_i c v hreturning
      obtain ⟨_, c', hfor, hinside⟩ := hworker
      rw [hreturning, Inside] at hinside
      obtain ⟨imsi, _, hcreate⟩ := hfor
      rw [hinside, hcreate] at hreturning
      obtain ⟨r, rfl⟩ := hresults _ _ _ hreturning
      obtain ⟨m, hstep, rfl⟩ := Option.map_eq_some_iff.mp h
      exact ⟨rfl, Or.inr ⟨_, hstep, fun j heq => by cases heq⟩⟩
    · obtain ⟨m, hstep, rfl⟩ := Option.map_eq_some_iff.mp h
      exact ⟨rfl, Or.inr ⟨_, hstep, fun j heq => by cases heq⟩⟩
  case respond response c v =>
    cases h
    split <;> exact ⟨rfl, Or.inl rfl⟩
  case exited => cases h

/-! ## Runs -/

/-- What the network brings spells a subscriber, `recvfrom` fails with no other errors than
`EAGAIN` and `EINTR`, and starts of a graceful shutdown come alone. -/
def Harmless (s : Server ω κ) : ServerLabel ω κ → Prop
  | .io (.datagram d) => Spells d
  | .io .failed => s.io.pc ≠ .recvfrom
  | .manager l => StartsAlone s.manager l
  | _ => True

theorem Genuine.serverStep (hs : Genuine s) {l : ServerLabel ω κ} (h : ServerStep cfg s l t) :
    Genuine t := by
  rcases serverStep_cases h with ⟨found, hio⟩ | ⟨i, k, env, hworker⟩ | ⟨l, m, hl, hm, rfl⟩
  · exact hs.ioNext hio
  · exact hs.workerNext hworker
  · exact hs.others hl hm

/-- The server goes on. -/
structure Healthy (s : Server ω κ) : Prop where
  genuine : Genuine s
  spells : ∀ d ∈ s.arrived, Spells d
  started : StartedOnce s.manager
  results : HasResults s.manager

theorem Healthy.step (hs : Healthy s) (hquiet : cfg.Quiet) (hrate : 1 ≤ cfg.shutdownRate)
    {l : ServerLabel ω κ} (h : ServerStep cfg s l t) (hl : Harmless s l) : Healthy t := by
  have hgenuine : Genuine t := hs.genuine.serverStep h
  cases l with
  | io found =>
      have hnext := (serverStep_io.mp h).2
      have hmanager : t.manager = s.manager := by
        rcases manager_of_ioNext hnext with hsame | ⟨⟨rfl, hpc⟩, _⟩
        · exact hsame
        · exact absurd hpc hl
      refine ⟨hgenuine, ?_, hmanager ▸ hs.started, hmanager ▸ hs.results⟩
      rcases arrived_of_ioNext hnext with hsame | ⟨d, rfl, hnew⟩
      · rw [hsame]
        exact hs.spells
      · intro d' hd'
        rw [hnew] at hd'
        rcases List.mem_append.mp hd' with hold | hread
        · exact hs.spells d' hold
        · rw [List.mem_singleton.mp hread]
          exact hl
  | worker i k env =>
      have hnext := (serverStep_worker.mp h).2
      obtain ⟨harrived, hmanager⟩ :=
        manager_of_workerNext hs.genuine hs.spells hs.results hnext
      have hspells : ∀ d ∈ t.arrived, Spells d := by
        rw [harrived]
        exact hs.spells
      rcases hmanager with hsame | ⟨l, hstep, hnot⟩
      · exact ⟨hgenuine, hspells, hsame ▸ hs.started, hsame ▸ hs.results⟩
      · have hstart : StartsAlone s.manager l := fun j heq => absurd heq (hnot j)
        exact ⟨hgenuine, hspells, hs.started.step hquiet hrate hstep hstart,
          hs.results.step hquiet hstep⟩
  | manager l =>
      obtain ⟨_, m, hstep, rfl⟩ := serverStep_manager.mp h
      exact ⟨hgenuine, hs.spells, hs.started.step hquiet hrate hstep hl,
        hs.results.step hquiet hstep⟩

/-- A worker whose call has come to its end has a result, and a reply for it. -/
def HasReplies (s : Server ω κ) : Prop :=
  ∀ i c v, (s.workers i).pc = .call → s.manager.threads (.inl i) = .returning c v →
    ∃ r, v = .returned (.result r) ∧ replyTo v = some (responseTo r)

omit [Fintype ω] [DecidableEq ω] [Fintype κ] [DecidableEq κ] in
theorem Healthy.hasReplies (hs : Healthy s) : HasReplies s := by
  intro i c v hpc hreturning
  have hworker := hs.genuine.worker i
  rw [WorkerHonest, hpc] at hworker
  obtain ⟨_, c', ⟨imsi, _, rfl⟩, hinside⟩ := hworker
  rw [hreturning] at hinside
  obtain ⟨r, rfl⟩ := hs.results (.inl i) imsi.str v (hreturning.trans (by rw [hinside]))
  exact ⟨r, rfl, rfl⟩

/-- **What the server survives.** With a callback that does not raise and a rate that is
not zero, a run in which every datagram spells a subscriber, `recvfrom` fails only in the
ways it is expected to and every start of a graceful shutdown comes alone does not end the
process, and leaves no worker without a reply. -/
theorem survives (hquiet : cfg.Quiet) (hrate : 1 ≤ cfg.shutdownRate)
    (h : Reachable (Initial cfg) (only (ServerStep cfg) Harmless) s) :
    s.manager.terminated = false ∧ HasReplies s := by
  have hs : Healthy s := by
    refine h.invariant (P := Healthy) ?_ fun _ _ _ hs hstep =>
      hs.step hquiet hrate hstep.1 hstep.2
    rintro s₀ ⟨clock, rfl⟩
    exact ⟨genuine_of_reaches ⟨_, [], ⟨clock, rfl⟩, .nil _⟩,
      fun d hd => absurd hd List.not_mem_nil, StartedOnce.initial cfg clock,
      fun i imsi v hpc => by cases hpc⟩
  exact ⟨hs.started.not_terminated, hs.hasReplies⟩

end Workers

end Pgw.UdpServer
