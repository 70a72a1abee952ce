import Pgw.Session.Lifetime
import Pgw.System.Gateway

/-!
# A subscriber that was served is active

A client has been answered `created`; then the HTTP side must say that the subscriber is
active, until it has been idle for the timeout. Between the two sides there is only the
session table, and the cleanup thread works on it.

The client knows when it asked, not when it was served. So the time is counted from an
instant before its datagram had arrived.

## Main results

* `leased_of_table` — a call that gets to the table leaves a session as new as the call.
* `Vouched.step` — an answer `created` vouches for a session.
* `served_is_active` — from the answer on, every check says `active`, until the timeout.
-/
namespace Pgw.System
open TransitionSystem
open SessionManager (Config Manager Call Value Label Ambient ThreadPc Spared LeftAlone Lease
  PassReads nanosPerSecond maxTimeout)
open UdpServer (Server ServerLabel ServerStep WorkerPc Answer)
open HttpServer (Parsed Request Response Asks)

/-! ## The table section -/

section Manager
variable {ι : Type} [Fintype ι] [DecidableEq ι] {cfg : Config} {s t : Manager ι} {i : ι}
  {env : Ambient} {imsi : StdString} {since : ℤ}

omit [Fintype ι] [DecidableEq ι] in
theorem leased_of_createSessionTable (st : SessionManager.Store) (hpast : since ≤ st.clock) :
    ((SessionManager.createSessionTable cfg env imsi st).2.registry false).Leased
      cfg imsi since := by
  cases hlookup : st.sessions.lookup imsi with
  | some session =>
      simp only [SessionManager.createSessionTable, hlookup]
      refine ⟨?_, Or.inl ⟨st.clock + env.elapsed, ?_, ?_⟩⟩
      · simp only [SessionManager.Store.registry, SessionManager.Store.clock_tick]
        omega
      · simp [SessionManager.Store.registry]
      · omega
  | none =>
      simp only [SessionManager.createSessionTable, hlookup, Completion.snd_andThen,
        SessionManager.emitEvent_store]
      refine ⟨?_, Or.inl ⟨st.clock + env.elapsed + env.lag, ?_, ?_⟩⟩
      · simp only [SessionManager.Store.registry, SessionManager.Store.clock_tick]
        omega
      · simp [SessionManager.Store.registry]
      · omega

/-- **The table section leases the session.** It is as active as the section is late. -/
theorem leased_of_table (h : SessionManager.Step cfg s (.thread i env) t)
    (hpc : s.threads i = .checked imsi) (hpast : since ≤ s.store.clock) :
    (t.store.registry false).Leased cfg imsi since := by
  have hnext := (SessionManager.step_thread.mp h).2
  simp only [SessionManager.threadNext, hpc, Option.some.injEq] at hnext
  rw [← hnext]
  have hleased : ((SessionManager.createSessionTable cfg env imsi s.store).2.registry false).Leased
      cfg imsi since := leased_of_createSessionTable s.store hpast
  exact ⟨hleased.past, hleased.active⟩

/-- It had the table to itself. -/
theorem settled_of_table (h : SessionManager.Step cfg s (.thread i env) t)
    (hpc : s.threads i = .checked imsi) : t.store.settled = t.store.clock := by
  have hnext := (SessionManager.step_thread.mp h).2
  simp only [SessionManager.threadNext, hpc, Option.some.injEq] at hnext
  rw [← hnext]
  rfl

omit [Fintype ι] [DecidableEq ι] in
/-- A first section that ends the call refuses it. -/
theorem firstSection_result {c : Call} {st : SessionManager.Store} {r : CreateResult}
    (h : (SessionManager.firstSection cfg env c st).1 =
      .returning (.createSession imsi) (.returned (.result r))) : r = .blacklisted := by
  cases c with
  | createSession x =>
      simp only [SessionManager.firstSection] at h
      split at h
      · unfold SessionManager.createSessionBlacklist at h
        by_cases hbanned : x ∈ st.blacklist
        · rw [if_pos hbanned] at h
          unfold Completion.andThen at h
          cases hemitted : SessionManager.emitEvent cfg env x .rejected st with
          | mk outcome st' =>
              rw [hemitted] at h
              cases outcome <;> cases h
              rfl
        · rw [if_neg hbanned] at h
          cases h
      · cases h
        rfl
  | _ => cases h

/-- A `create_session` succeeds at its table section. -/
theorem checked_of_success (h : SessionManager.Step cfg s (.thread i env) t) {r : CreateResult}
    (hpc : t.threads i = .returning (.createSession imsi) (.returned (.result r)))
    (hr : r ≠ .blacklisted) (hbefore : ∀ c v, s.threads i ≠ .returning c v) :
    s.threads i = .checked imsi := by
  have hnext := (SessionManager.step_thread.mp h).2
  cases hold : s.threads i <;> simp only [SessionManager.threadNext, hold] at hnext
  case idle => cases hnext
  case entered c =>
    cases hnext
    rw [SessionManager.threads_goto, Function.update_self] at hpc
    exact absurd (firstSection_result hpc) hr
  case checked x =>
    cases hnext
    rw [SessionManager.threads_goto, Function.update_self, ThreadPc.returning.injEq,
      Call.createSession.injEq] at hpc
    rw [hpc.1]
  case activated =>
    cases hnext
    rw [SessionManager.threads_goto, Function.update_self] at hpc
    cases hpc
  case spawned k =>
    split at hnext <;> cases hnext
    · rw [hold] at hpc
      cases hpc
    · rw [SessionManager.threads_goto, Function.update_self] at hpc
      cases hpc
  case touching x reading =>
    cases hnext
    rw [SessionManager.threads_goto, Function.update_self] at hpc
    cases hpc
  case returning c v => exact absurd hold (hbefore c v)

end Manager

/-! ## The answer -/

section Server
variable {ω κ : Type} [Fintype ω] [DecidableEq ω] [Fintype κ] [DecidableEq κ] {cfg : Config}
  {s t : Server ω κ} {imsi : StdString} {first : ℕ} {since : ℤ}

/-- A worker has, or has sent, the answer `created` to a datagram that is not one of the
first ones. -/
inductive Confirmed (imsi : StdString) (first : ℕ) (s : Server ω κ) : Prop where
  | returning (i : ω) (r : CreateResult) (hpc : (s.workers i).pc = .call)
      (hticket : first ≤ (s.workers i).item.ticket)
      (hreturning : s.manager.threads (.inl i) =
        .returning (.createSession imsi) (.returned (.result r)))
      (hr : r ≠ .blacklisted)
  | responding (i : ω) (v : Completion Value)
      (hpc : (s.workers i).pc = .respond (text "created") (.createSession imsi) v)
      (hticket : first ≤ (s.workers i).item.ticket)
  | sent (a : Answer) (v : Completion Value) (ha : a ∈ s.sent) (hticket : first ≤ a.ticket)
      (horigin : a.origin = .returned (.createSession imsi) v)
      (hresponse : a.response = text "created")

/-- Only a success is answered `created`. -/
theorem success_of_replyTo {v : Completion Value}
    (h : UdpServer.replyTo v = some (text "created")) :
    ∃ r, v = .returned (.result r) ∧ r ≠ .blacklisted := by
  cases v with
  | returned value =>
      cases value with
      | result r =>
          refine ⟨r, rfl, ?_⟩
          rintro rfl
          exact absurd h (by decide +kernel)
      | _ => cases h
  | raised what => exact absurd h (by simp only [UdpServer.replyTo]; decide +kernel)
  | terminated => cases h

omit [Fintype ω] [DecidableEq ω] [Fintype κ] [DecidableEq κ] in
/-- Whose place nobody has changed has confirmed nothing new. -/
theorem Confirmed.of_same (h : Confirmed imsi first t) (hsent : t.sent = s.sent)
    (hworkers : t.workers = s.workers)
    (hthreads : ∀ i, t.manager.threads (.inl i) = s.manager.threads (.inl i)) :
    Confirmed imsi first s := by
  cases h with
  | returning i r hpc hticket hreturning hr =>
      rw [hworkers] at hpc hticket
      rw [hthreads] at hreturning
      exact .returning i r hpc hticket hreturning hr
  | responding i v hpc hticket =>
      rw [hworkers] at hpc hticket
      exact .responding i v hpc hticket
  | sent a v ha hticket horigin hresponse =>
      rw [hsent] at ha
      exact .sent a v ha hticket horigin hresponse

omit [Fintype ω] [Fintype κ] [DecidableEq κ] in
/-- One worker has moved to a place, and the others are where they were. -/
theorem Confirmed.of_moved (h : Confirmed imsi first t) {i : ω} (hsent : t.sent = s.sent)
    (hworkers : ∀ j, j ≠ i → t.workers j = s.workers j)
    (hthreads : ∀ j, j ≠ i → t.manager.threads (.inl j) = s.manager.threads (.inl j))
    (hcall : ∀ r, (t.workers i).pc = .call → first ≤ (t.workers i).item.ticket →
      t.manager.threads (.inl i) = .returning (.createSession imsi) (.returned (.result r)) →
        r ≠ .blacklisted → Confirmed imsi first s)
    (hrespond : ∀ v, (t.workers i).pc = .respond (text "created") (.createSession imsi) v →
      first ≤ (t.workers i).item.ticket → Confirmed imsi first s) : Confirmed imsi first s := by
  cases h with
  | returning j r hpc hticket hreturning hr =>
      by_cases hji : j = i
      · subst hji
        exact hcall r hpc hticket hreturning hr
      · rw [hworkers j hji] at hpc hticket
        rw [hthreads j hji] at hreturning
        exact .returning j r hpc hticket hreturning hr
  | responding j v hpc hticket =>
      by_cases hji : j = i
      · subst hji
        exact hrespond v hpc hticket
      · rw [hworkers j hji] at hpc hticket
        exact .responding j v hpc hticket
  | sent a v ha hticket horigin hresponse =>
      rw [hsent] at ha
      exact .sent a v ha hticket horigin hresponse

omit [Fintype ω] [Fintype κ] [DecidableEq κ] in
/-- A worker with no datagram in its hands confirms nothing. -/
theorem Confirmed.of_jump {i : ω} {pc : WorkerPc}
    (h : Confirmed imsi first (s.gotoWorker i pc))
    (hto : ({ s.workers i with pc := pc } : UdpServer.Worker).tickets = 0) :
    Confirmed imsi first s := by
  refine h.of_moved (i := i) rfl ?_ (fun _ _ => rfl) ?_ ?_
  · intro j hji
    simp [Server.gotoWorker, hji]
  · intro r hpc
    simp only [Server.gotoWorker, Function.update_self] at hpc
    simp [hpc, UdpServer.Worker.tickets] at hto
  · intro v hpc
    simp only [Server.gotoWorker, Function.update_self] at hpc
    simp [hpc, UdpServer.Worker.tickets] at hto

omit [Fintype ω] [DecidableEq ω] [Fintype κ] [DecidableEq κ] in
/-- One more answer confirms what it says. -/
theorem Confirmed.of_sendResponse {a : Answer} (h : Confirmed imsi first (s.sendResponse a))
    (ha : ∀ v, first ≤ a.ticket → a.origin = .returned (.createSession imsi) v →
      a.response = text "created" → Confirmed imsi first s) : Confirmed imsi first s := by
  cases h with
  | returning i r hpc hticket hreturning hr => exact .returning i r hpc hticket hreturning hr
  | responding i v hpc hticket => exact .responding i v hpc hticket
  | sent a' v hmem hticket horigin hresponse =>
      rcases List.mem_append.mp hmem with hold | hnew
      · exact .sent a' v hold hticket horigin hresponse
      · rw [List.mem_singleton.mp hnew] at hticket horigin hresponse
        exact ha v hticket horigin hresponse

/-- The step is the table section of a worker's call for the subscriber. -/
def Serves (cfg : Config) (imsi : StdString) (s t : Server ω κ) : Prop :=
  ∃ i env, SessionManager.Step cfg s.manager (.thread (.inl i) env) t.manager ∧
    s.manager.threads (.inl i) = .checked imsi

theorem confirmed_of_worker {i : ω} (hmoves : UdpServer.WorkerMoves cfg i s t)
    (h : Confirmed imsi first t) : Confirmed imsi first s ∨ Serves cfg imsi s t := by
  cases hmoves with
  | jump pc _ hto => exact Or.inl (h.of_jump hto)
  | take k item _ _ =>
      left
      refine h.of_moved (i := i) rfl ?_ (fun _ _ => rfl) ?_ ?_
      · intro j hji
        simp [hji]
      · intro r hpc
        simp at hpc
      · intro v hpc
        simp at hpc
  | enter x m hpc _ hstep =>
      left
      obtain ⟨_, _, rfl⟩ := SessionManager.step_call.mp hstep
      refine h.of_moved (i := i) rfl ?_ ?_ ?_ ?_
      · intro j hji
        simp [Server.gotoWorker, hji]
      · intro j hji
        simp [Server.gotoWorker, hji]
      · intro r _ _ hreturning
        simp [Server.gotoWorker] at hreturning
      · intro v hpc'
        simp [Server.gotoWorker] at hpc'
  | inside env m hpc hnot hstep =>
      cases h with
      | returning j r hpc' hticket hreturning hr =>
          by_cases hji : j = i
          · subst hji
            exact Or.inr ⟨j, env, hstep, checked_of_success hstep hreturning hr hnot⟩
          · have hsame : s.manager.threads (.inl j) = _ :=
              (UdpServer.threads_of_thread hstep hji).symm.trans hreturning
            exact Or.inl (.returning j r hpc' hticket hsame hr)
      | responding j v hpc' hticket => exact Or.inl (.responding j v hpc' hticket)
      | sent a v ha hticket horigin hresponse =>
          exact Or.inl (.sent a v ha hticket horigin hresponse)
  | leave c v response env m hpc hreturning hresponse hstep =>
      left
      refine h.of_moved (i := i) rfl ?_ ?_ ?_ ?_
      · intro j hji
        simp [Server.gotoWorker, hji]
      · intro j hji
        exact UdpServer.threads_of_thread hstep hji
      · intro r hpc'
        simp [Server.gotoWorker] at hpc'
      · intro v' hpc' hticket
        simp only [Server.gotoWorker, Function.update_self, WorkerPc.respond.injEq] at hpc' hticket
        obtain ⟨rfl, rfl, rfl⟩ := hpc'
        obtain ⟨r, rfl, hr⟩ := success_of_replyTo hresponse
        exact .returning i r hpc hticket hreturning hr
  | respond response c v hpc =>
      left
      have hbefore := h.of_jump rfl
      split at hbefore
      · apply hbefore.of_sendResponse
        intro v' hticket horigin hresponse
        cases horigin
        cases hresponse
        exact .responding i v hpc hticket
      · exact hbefore
  | terminate => exact Or.inl (h.of_same rfl rfl fun _ => rfl)

/-- **Only the table section of a call confirms.** -/
theorem confirmed_of_step {l : ServerLabel ω κ} (hstep : ServerStep cfg s l t)
    (h : Confirmed imsi first t) : Confirmed imsi first s ∨ Serves cfg imsi s t := by
  cases l with
  | worker i k env =>
      have hnext := (UdpServer.serverStep_worker.mp hstep).2
      exact confirmed_of_worker (UdpServer.workerMoves_of_workerNext hnext) h
  | io found =>
      left
      cases UdpServer.ioMoves_of_ioNext (UdpServer.serverStep_io.mp hstep).2 with
      | refuse ticket _ =>
          have hbefore : Confirmed imsi first
              (s.sendResponse ⟨ticket, text "rejected", s.io.clientAddr, .queueFull⟩) :=
            h.of_same rfl rfl fun _ => rfl
          apply hbefore.of_sendResponse
          intro v _ horigin
          cases horigin
      | _ => exact h.of_same rfl rfl fun _ => rfl
  | manager l =>
      left
      obtain ⟨hother, m, hm, rfl⟩ := UdpServer.serverStep_manager.mp hstep
      refine h.of_same rfl rfl fun i => ?_
      apply SessionManager.threads_of_others hm
      · rintro c rfl
        cases hother
      · rintro env rfl
        cases hother

omit [Fintype ω] [DecidableEq ω] [Fintype κ] [DecidableEq κ] in
/-- Nothing is confirmed to a datagram that has not arrived. -/
theorem not_confirmed (hs : UdpServer.Genuine s) : ¬ Confirmed imsi s.arrived.length s := by
  have hearly : ∀ {n : ℕ} {d : UdpServer.Datagram}, s.arrived[n]? = some d → n < s.arrived.length :=
    fun hd => (List.getElem?_eq_some_iff.mp hd).1
  rintro (⟨i, r, hpc, hticket, _, _⟩ | ⟨i, v, hpc, hticket⟩ | ⟨a, v, ha, hticket, _, _⟩)
  · have hworker := hs.worker i
    simp only [UdpServer.WorkerHonest, hpc] at hworker
    obtain ⟨⟨d, hd, _⟩, _⟩ := hworker
    exact absurd (hearly hd) (by omega)
  · have hworker := hs.worker i
    simp only [UdpServer.WorkerHonest, hpc] at hworker
    obtain ⟨⟨d, hd, _⟩, _⟩ := hworker
    exact absurd (hearly hd) (by omega)
  · obtain ⟨d, hd, _⟩ := hs.sent a ha
    exact absurd (hearly hd) (by omega)

/-- Nobody calls the manager from outside, but to check. -/
def ChecksOnly (l : ServerLabel ω κ) : Prop :=
  ∀ i c, l = .manager (.call i c) → ∃ imsi, c = .sessionExists imsi

/-- A step of the server removes nobody and starts no shutdown. -/
theorem spared_of_serverStep {l : ServerLabel ω κ} (h : ServerStep cfg s l t)
    (hl : ChecksOnly l) (imsi : StdString) :
    t.manager = s.manager ∨ t.manager = { s.manager with terminated := true } ∨
      ∃ l', SessionManager.Step cfg s.manager l' t.manager ∧ Spared imsi s.manager l' := by
  refine (manager_of_serverStep h).imp_right (Or.imp_right ?_)
  rintro ⟨l', hstep, hcalls⟩
  have hharmless : ∀ i c, l' = .call i c → (∃ x, c = .sessionExists x) ∨
      ∃ x, c = .createSession x := by
    intro i c heq
    exact (hcalls i c heq).imp_left (hl i c)
  refine ⟨l', hstep, fun i => ⟨?_, ?_⟩⟩
  · rintro rfl
    simpa using hharmless i _ rfl
  · rintro rfl
    simpa using hharmless i _ rfl

/-- The server ends no session early either. -/
theorem lease_of_serverStep (hpos : 0 ≤ cfg.sessionTimeout)
    (hmax : cfg.sessionTimeout ≤ maxTimeout) (hs : Lease cfg imsi since s.manager)
    {l : ServerLabel ω κ} (h : ServerStep cfg s l t) (hl : ChecksOnly l) :
    Lease cfg imsi since t.manager := by
  rcases spared_of_serverStep h hl imsi with hsame | hover | ⟨l', hstep, hspared⟩
  · rw [hsame]
    exact hs
  · rw [hover]
    exact ⟨⟨hs.alone.removing, hs.alone.starting, hs.alone.loops⟩, hs.reads, hs.settled,
      hs.fenced, hs.leased⟩
  · exact hs.step hpos hmax hstep hspared

/-- What a lease needs, before there is a session. -/
structure Ready (imsi : StdString) (since : ℤ) (m : Manager (ω ⊕ κ)) : Prop where
  alone : LeftAlone imsi m
  reads : PassReads m.cleanup m.store.clock
  settled : m.store.settled ≤ m.store.clock
  past : since ≤ m.store.clock

theorem Ready.step (hs : Ready imsi since s.manager) {l : ServerLabel ω κ}
    (h : ServerStep cfg s l t) (hl : ChecksOnly l) : Ready imsi since t.manager := by
  rcases spared_of_serverStep h hl imsi with hsame | hover | ⟨l', hstep, hspared⟩
  · rw [hsame]
    exact hs
  · rw [hover]
    exact ⟨⟨hs.alone.removing, hs.alone.starting, hs.alone.loops⟩, hs.reads, hs.settled, hs.past⟩
  · exact ⟨hs.alone.step hstep hspared, SessionManager.passReads_of_step hs.reads hstep,
      (SessionManager.settled_of_step hs.settled hstep).2,
      le_trans hs.past (SessionManager.clock_of_step hstep)⟩

/-- A confirmation vouches for a session. -/
structure Vouched (cfg : Config) (imsi : StdString) (first : ℕ) (since : ℤ) (s : Server ω κ) :
    Prop where
  ready : Ready imsi since s.manager
  leased : Confirmed imsi first s → Lease cfg imsi since s.manager

/-- **A confirmation keeps vouching.** -/
theorem Vouched.step (hpos : 0 ≤ cfg.sessionTimeout) (hmax : cfg.sessionTimeout ≤ maxTimeout)
    (hs : Vouched cfg imsi first since s) {l : ServerLabel ω κ}
    (h : ServerStep cfg s l t) (hl : ChecksOnly l) : Vouched cfg imsi first since t := by
  have hready := hs.ready.step h hl
  refine ⟨hready, fun hconfirmed => ?_⟩
  rcases confirmed_of_step h hconfirmed with hbefore | ⟨i, env, hstep, hpc⟩
  · exact lease_of_serverStep hpos hmax (hs.leased hbefore) h hl
  · have hfenced : since ≤ t.manager.store.settled := by
      rw [settled_of_table hstep hpc]
      exact hready.past
    exact ⟨hready.alone, hready.reads, hready.settled, Or.inl hfenced,
      leased_of_table hstep hpc hs.ready.past⟩

end Server

/-! ## The check -/

section Gateway
variable {ω κ : Type} [Fintype ω] [DecidableEq ω] [Fintype κ] [DecidableEq κ] {cfg : Config}
  {parse : StdString → Parsed} {g g' g₀ g₁ g₂ : Gateway ω κ} {imsi : StdString} {first : ℕ}
  {since : ℤ}

/-- No graceful shutdown is asked for. -/
def NoStop (_ : Gateway ω κ) (l : GatewayLabel ω κ) : Prop :=
  ∀ k body, l ≠ .request k (.stop body)

/-- Without a `/stop` the handlers only check. -/
theorem checks_of_step {l : GatewayLabel ω κ} (h : only (GatewayStep parse cfg) NoStop g l g') :
    g'.server = g.server ∨ ∃ l', ServerStep cfg g.server l' g'.server ∧ ChecksOnly l' := by
  refine (server_of_moves (gatewayMoves_of_step h.1)).imp_right ?_
  rintro ⟨l', hstep, hhandles⟩
  refine ⟨l', hstep, fun i c heq => ?_⟩
  obtain ⟨k, request, rfl, hcall⟩ := hhandles i c heq
  rcases handled_of_callOf hcall with ⟨body, rfl, _⟩ | hcheck
  · exact absurd rfl (h.2 k body)
  · exact hcheck

/-- What every step of the server keeps, a run of the program keeps. -/
theorem server_of_run {P : Server ω κ → Prop}
    (hP : ∀ s l t, P s → ServerStep cfg s l t → ChecksOnly l → P t) (hg : P g.server)
    {tr : List (GatewayLabel ω κ)} (hrun : Run (only (GatewayStep parse cfg) NoStop) g tr g') :
    P g'.server := by
  refine hrun.invariant (P := fun g => P g.server) ?_ hg
  intro u l u' hu hstep
  rcases checks_of_step hstep with hsame | ⟨l', hserver, hchecks⟩
  · rw [hsame]
    exact hu
  · exact hP _ _ _ hu hserver hchecks

theorem Vouched.run (hpos : 0 ≤ cfg.sessionTimeout) (hmax : cfg.sessionTimeout ≤ maxTimeout)
    (hg : Vouched cfg imsi first since g.server) {tr : List (GatewayLabel ω κ)}
    (hrun : Run (only (GatewayStep parse cfg) NoStop) g tr g') :
    Vouched cfg imsi first since g'.server :=
  server_of_run (fun _ _ _ hs hstep hl => hs.step hpos hmax hstep hl) hg hrun

theorem Ready.run (hg : Ready imsi since g.server.manager) {tr : List (GatewayLabel ω κ)}
    (hrun : Run (only (GatewayStep parse cfg) NoStop) g tr g') :
    Ready imsi since g'.server.manager :=
  server_of_run (P := fun s => Ready imsi since s.manager)
    (fun _ _ _ hs hstep hl => hs.step hstep hl) hg hrun

theorem lease_of_run (hpos : 0 ≤ cfg.sessionTimeout) (hmax : cfg.sessionTimeout ≤ maxTimeout)
    (hg : Lease cfg imsi since g.server.manager) {tr : List (GatewayLabel ω κ)}
    (hrun : Run (only (GatewayStep parse cfg) NoStop) g tr g') :
    Lease cfg imsi since g'.server.manager :=
  server_of_run (P := fun s => Lease cfg imsi since s.manager)
    (fun _ _ _ hs hstep hl => lease_of_serverStep hpos hmax hs hstep hl) hg hrun

/-- Nobody has been told anything about a datagram that has not arrived. -/
theorem vouched_of_reachable (hpos : 0 ≤ cfg.sessionTimeout)
    (hmax : cfg.sessionTimeout ≤ maxTimeout) (imsi : StdString)
    (h : Reachable (Gateway.Initial cfg) (only (GatewayStep parse cfg) NoStop) g) :
    Vouched cfg imsi g.server.arrived.length g.server.manager.store.clock g.server := by
  have hgenuine := UdpServer.genuine_of_reaches (reaches_server h.of_only)
  obtain ⟨g₀, tr, ⟨clock, rfl⟩, hrun⟩ := h
  have hinitial : Vouched cfg imsi 0 clock (Server.initial cfg clock : Server ω κ) := by
    refine ⟨⟨⟨by simp [Server.initial, Manager.initial], by simp [Server.initial, Manager.initial],
      by simp [Server.initial, Manager.initial]⟩, trivial, le_refl _, le_refl _⟩,
      fun hconfirmed => ?_⟩
    have hfirst : UdpServer.Genuine (Server.initial cfg clock : Server ω κ) :=
      UdpServer.genuine_of_reaches (.of_init ⟨clock, rfl⟩)
    exact absurd hconfirmed (not_confirmed hfirst)
  have hready := (hinitial.run hpos hmax hrun).ready
  exact ⟨⟨hready.alone, hready.reads, hready.settled, le_refl _⟩,
    fun hconfirmed => absurd hconfirmed (not_confirmed hgenuine)⟩

/-- An answer `created` to a datagram of the subscriber is a confirmation. -/
theorem confirmed_of_sent (hreach : Reachable (Gateway.Initial cfg) (GatewayStep parse cfg) g)
    {a : Answer} (ha : a ∈ g.server.sent) (hfirst : first ≤ a.ticket)
    (hcreated : a.response = text "created") {d : UdpServer.Datagram}
    (hd : g.server.arrived[a.ticket]? = some d) {imsi : IMSI}
    (hspells : IMSI.fromBcd (d.payload.take UdpServer.bufferSize) = .returned imsi) :
    Confirmed imsi.str first g.server := by
  obtain ⟨d', hd', _, horigin⟩ :=
    (UdpServer.genuine_of_reaches (reaches_server hreach)).sent a ha
  cases hd'.symm.trans hd
  cases hfrom : a.origin with
  | queueFull =>
      simp only [hfrom, hcreated] at horigin
      exact absurd horigin (by decide +kernel)
  | returned c v =>
      simp only [hfrom] at horigin
      obtain ⟨⟨imsi', hspells', rfl⟩, _⟩ := horigin
      cases hspells'.symm.trans hspells
      exact .sent a v ha hfirst hfrom hcreated

/-- **A subscriber that was served is active.** Somebody is answered `created` to a datagram
that spells a subscriber and that had not yet arrived at some earlier instant. As long as
nobody asks for a shutdown, whatever else runs, every check of the subscriber that begins
after the answer says `active`, unless by then the timeout has gone by since that instant. -/
theorem served_is_active (hpos : 0 ≤ cfg.sessionTimeout)
    (hmax : cfg.sessionTimeout ≤ maxTimeout)
    (hreach : Reachable (Gateway.Initial cfg) (only (GatewayStep parse cfg) NoStop) g₀)
    {tr₁ tr₂ : List (GatewayLabel ω κ)}
    (hserved : Run (only (GatewayStep parse cfg) NoStop) g₀ tr₁ g₁) {a : Answer}
    (ha : a ∈ g₁.server.sent) (hfresh : g₀.server.arrived.length ≤ a.ticket)
    (hcreated : a.response = text "created") {d : UdpServer.Datagram}
    (hd : g₁.server.arrived[a.ticket]? = some d) {imsi : IMSI}
    (hspells : IMSI.fromBcd (d.payload.take UdpServer.bufferSize) = .returned imsi)
    (hchecked : Run (only (GatewayStep parse cfg) NoStop) g₁ tr₂ g₂) {e : Exchange}
    (he : e ∈ g₂.exchanges) (hnew : g₁.requests ≤ e.number)
    (hasks : Asks parse imsi.str e.request) :
    e.response = HttpServer.plain "active" 200 ∨ cfg.sessionTimeout * nanosPerSecond ≤
      g₂.server.manager.store.clock - g₀.server.manager.store.clock := by
  have hreached : Reachable (Gateway.Initial cfg) (GatewayStep parse cfg) g₁ :=
    (hreach.run hserved).of_only
  have hconfirmed := confirmed_of_sent hreached ha hfresh hcreated hd hspells
  have hvouched := (vouched_of_reachable hpos hmax imsi.str hreach).run hpos hmax hserved
  have hlease := hvouched.leased hconfirmed
  obtain ⟨mid, tr, tr', hbefore, hafter, hresponse⟩ :=
    check_reads_table hreached hchecked he hnew hasks
  have hmid := lease_of_run hpos hmax hlease hbefore
  rw [hresponse]
  rcases hmid.leased.active with ⟨time, hactive, _⟩ | hlong
  · left
    simp only [SessionManager.Store.registry, SessionManager.lastActivityOf,
      Option.map_eq_some_iff] at hactive
    obtain ⟨session, hlookup, _⟩ := hactive
    rw [if_pos (Finmap.mem_of_lookup_eq_some hlookup)]
  · right
    have hready : Ready imsi.str mid.server.manager.store.clock mid.server.manager :=
      ⟨hmid.alone, hmid.reads, hmid.settled, le_refl _⟩
    have hlater := (hready.run hafter).past
    simp only [SessionManager.Store.registry] at hlong
    omega

end Gateway

/-! A subscriber is served, 29 of its 30 seconds go by, a cleanup pass is made, and somebody
checks. -/

open SessionManager (Caller sample after)

private def checkBody : StdString := text "\x7b\"imsi\": \"123\"\x7d"

private def parseCheck (body : StdString) : Parsed :=
  if body = checkBody then .document (.object [(text "imsi", .string (text "123"))])
  else .parseError

private def subscriber123 : IMSI := ⟨text "123", by decide +kernel⟩

private def servingLabels : List (GatewayLabel Caller Unit) :=
  [.server (.io .readable), .server (.io .again),
    .server (.io (.datagram ⟨[0x21, 0xF3], ⟨2, 40000, 2130706433⟩⟩)), .server (.io .again),
    .server (.io .enqueued)] ++ List.replicate 7 (.server (.worker .first 0 (after 0 [])))

private def checkingLabels : List (GatewayLabel Caller Unit) :=
  [.server (.manager (.cleanup (after 29 []))),
    .server (.manager (.cleanup (after 0 [⟨text "123", ⟨text "123", 0, 0⟩⟩]))),
    .server (.manager (.cleanup (after 0 []))), .request () (.checkSubscriber checkBody),
    .handler () (after 0 []), .handler () (after 0 [])]

private def afterServing : Gateway Caller Unit :=
  replayed (gatewayNext parseCheck sample) servingLabels (.initial sample 0) (by decide +kernel)

private def afterChecking : Gateway Caller Unit :=
  replayed (gatewayNext parseCheck sample) checkingLabels afterServing (by decide +kernel)

theorem served_is_active_checked :
    afterChecking.exchanges.length = 1 ∧
      ∀ e ∈ afterChecking.exchanges, e.response = HttpServer.plain "active" 200 := by
  have hserving : ∀ l ∈ servingLabels, ∀ g, NoStop g l := by
    simp [servingLabels, NoStop]
  have hchecking : ∀ l ∈ checkingLabels, ∀ g, NoStop g l := by
    simp [checkingLabels, NoStop]
  have hserved : Run (GatewayStep parseCheck sample) (.initial sample 0) servingLabels
      afterServing := run_replayed (gatewayNext parseCheck sample) _ _ _
  have hchecked : Run (GatewayStep parseCheck sample) afterServing checkingLabels
      afterChecking := run_replayed (gatewayNext parseCheck sample) _ _ _
  have hsent : afterServing.server.sent.length = 1 := by decide +kernel
  have hanswers : ∀ a ∈ afterServing.server.sent, a.ticket = 0 ∧ a.response = text "created" := by
    decide +kernel
  have hbytes : ∀ d ∈ afterServing.server.arrived, d.payload = [0x21, 0xF3] := by decide +kernel
  have harrived : afterServing.server.arrived.length = 1 := by decide +kernel
  have hrequests : ∀ e ∈ afterChecking.exchanges, e.request = .checkSubscriber checkBody := by
    decide +kernel
  obtain ⟨a, ha⟩ := List.exists_mem_of_length_pos (Nat.lt_of_lt_of_eq Nat.one_pos hsent.symm)
  obtain ⟨hticket, hcreated⟩ := hanswers a ha
  have hlt : a.ticket < afterServing.server.arrived.length := by
    rw [hticket, harrived]
    exact Nat.one_pos
  refine ⟨by decide +kernel, fun e he => ?_⟩
  have hspells : IMSI.fromBcd ((afterServing.server.arrived[a.ticket]).payload.take
      UdpServer.bufferSize) = .returned subscriber123 := by
    rw [hbytes _ (List.getElem_mem hlt)]
    decide +kernel
  have hasks : Asks parseCheck (text "123") e.request := by
    rw [hrequests e he]
    exact HttpServer.asks_iff.mpr ⟨_, _, rfl, if_pos rfl, rfl⟩
  have hearly : ¬ sample.sessionTimeout * nanosPerSecond ≤
      afterChecking.server.manager.store.clock - 0 := by decide +kernel
  have hfirst : afterServing.requests = 0 := by decide +kernel
  rcases served_is_active (by decide) (by decide) (.of_init ⟨0, rfl⟩)
    (hserved.only_of_forall hserving) ha (Nat.zero_le _) hcreated (List.getElem?_eq_getElem hlt)
    hspells (hchecked.only_of_forall hchecking) he (hfirst ▸ Nat.zero_le _) hasks
    with hactive | hlate
  · exact hactive
  · exact absurd hlate hearly

end Pgw.System
