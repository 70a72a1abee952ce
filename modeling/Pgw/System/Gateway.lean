import Pgw.Dispatcher.Survival
import Pgw.Http.Handlers

/-!
# The whole program

The UDP side with its I/O thread and its workers, the session manager with its background
threads, and the HTTP side. A caller of the manager that is no worker is a thread of the
HTTP library's pool: it has at most one request at a time, and its handler makes at most one
call. Nothing else in the program calls the manager, so this is all of it; in particular
nobody calls `remove_session`, `update_session_activity` or an operation on the blacklist.

The requests are numbered as their handlers begin, and the answered ones are kept. Both are
bookkeeping that no step looks at. That the HTTP server stops serving some time after a
`/stop` is left out: here it may go on.

The event queue is assumed to outlive the dispatcher and the server, which keep references to
it. `PGWServerApp::init_components` does not see to that: its `event_queue` is a local
`shared_ptr`, and the queue goes with it when the function returns, although the workers are
running by then and the I/O thread is started later (`queue_of_initComponents`). The runs here
are those of components put together in the same way over a queue that lives on.

## Main results

* `reaches_server` — the program does on the UDP side and with the manager what the model of
  the server allows.
* `check_reads_table` — a check answers what the table says at one instant between the
  request and the response.
-/
namespace Pgw.System
open TransitionSystem
open SessionManager (Config Manager Call Value Label Ambient ThreadPc)
open UdpServer (Server ServerLabel ServerStep serverNext)
open HttpServer (Parsed Request Response callOf responseOf Asks)

/-! ## Data -/

/-- A request and its response. -/
structure Exchange where
  number : ℕ
  request : Request
  response : Response

structure Gateway (ω κ : Type) where
  server : Server ω κ
  /-- The request in each handler, with its number. -/
  handlers : κ → Option (ℕ × Request)
  /-- How many requests there have been. -/
  requests : ℕ
  exchanges : List Exchange

inductive GatewayLabel (ω κ : Type) where
  /-- The I/O thread, a worker or a background thread of the manager moves. -/
  | server (l : ServerLabel ω κ)
  /-- A handler begins. -/
  | request (k : κ) (request : Request)
  /-- A handler moves. -/
  | handler (k : κ) (env : Ambient)

variable {ω κ : Type}

def Gateway.initial (cfg : Config) (clock : ℤ) : Gateway ω κ :=
  ⟨.initial cfg clock, fun _ => none, 0, []⟩

/-! ## Steps -/

/-- The thread is none of the HTTP library's. -/
def isOwn : ServerLabel ω κ → Bool
  | .manager (.cleanup _) => true
  | .manager (.loop _ _) => true
  | .manager _ => false
  | _ => true

section
variable [Fintype ω] [DecidableEq ω] [Fintype κ] [DecidableEq κ]

/-- The routes, and what a handler does up to its call. -/
def requestNext (parse : StdString → Parsed) (cfg : Config) (k : κ) (request : Request)
    (g : Gateway ω κ) : Option (Gateway ω κ) :=
  if (g.handlers k).isSome ∨ g.server.manager.terminated then none
  else
    match callOf parse request with
    | .error response =>
        some { g with
          requests := g.requests + 1
          exchanges := g.exchanges ++ [⟨g.requests, request, response⟩] }
    | .ok c =>
        (serverNext cfg (.manager (.call (.inr k) c)) g.server).map fun server =>
          { g with
            server := server
            handlers := Function.update g.handlers k (some (g.requests, request))
            requests := g.requests + 1 }

/-- A handler in its call, and after it. -/
def handlerNext (cfg : Config) (k : κ) (env : Ambient) (g : Gateway ω κ) : Option (Gateway ω κ) :=
  match g.handlers k with
  | none => none
  | some (number, request) =>
      (serverNext cfg (.manager (.thread (.inr k) env)) g.server).map fun server =>
        match g.server.manager.threads (.inr k) with
        | .returning _ v =>
            { g with
              server := server
              handlers := Function.update g.handlers k none
              exchanges := g.exchanges ++ [⟨number, request, responseOf request v⟩] }
        | _ => { g with server := server }

def gatewayNext (parse : StdString → Parsed) (cfg : Config) (l : GatewayLabel ω κ)
    (g : Gateway ω κ) : Option (Gateway ω κ) :=
  match l with
  | .server l =>
      if isOwn l then (serverNext cfg l g.server).map fun server => { g with server := server }
      else none
  | .request k request => requestNext parse cfg k request g
  | .handler k env => handlerNext cfg k env g

def GatewayStep (parse : StdString → Parsed) (cfg : Config) (g : Gateway ω κ)
    (l : GatewayLabel ω κ) (g' : Gateway ω κ) : Prop :=
  gatewayNext parse cfg l g = some g'

def Gateway.Initial (cfg : Config) (g : Gateway ω κ) : Prop :=
  ∃ clock, g = Gateway.initial cfg clock

/-! ## What a step can do -/

variable {parse : StdString → Parsed} {cfg : Config} {g g' : Gateway ω κ}

inductive GatewayMoves (parse : StdString → Parsed) (cfg : Config) (g : Gateway ω κ) :
    GatewayLabel ω κ → Gateway ω κ → Prop where
  | server (l : ServerLabel ω κ) (server : Server ω κ) (hown : isOwn l = true)
      (hstep : ServerStep cfg g.server l server) :
      GatewayMoves parse cfg g (.server l) { g with server := server }
  | refuse (k : κ) (request : Request) (response : Response)
      (hcall : callOf parse request = .error response) :
      GatewayMoves parse cfg g (.request k request) { g with
        requests := g.requests + 1
        exchanges := g.exchanges ++ [⟨g.requests, request, response⟩] }
  | enter (k : κ) (request : Request) (c : Call) (server : Server ω κ)
      (hidle : g.handlers k = none) (hcall : callOf parse request = .ok c)
      (hstep : ServerStep cfg g.server (.manager (.call (.inr k) c)) server) :
      GatewayMoves parse cfg g (.request k request) { g with
        server := server
        handlers := Function.update g.handlers k (some (g.requests, request))
        requests := g.requests + 1 }
  | inside (k : κ) (env : Ambient) (number : ℕ) (request : Request) (server : Server ω κ)
      (hserving : g.handlers k = some (number, request))
      (hnot : ∀ c v, g.server.manager.threads (.inr k) ≠ .returning c v)
      (hstep : ServerStep cfg g.server (.manager (.thread (.inr k) env)) server) :
      GatewayMoves parse cfg g (.handler k env) { g with server := server }
  | leave (k : κ) (env : Ambient) (number : ℕ) (request : Request) (c : Call)
      (v : Completion Value) (server : Server ω κ)
      (hserving : g.handlers k = some (number, request))
      (hreturning : g.server.manager.threads (.inr k) = .returning c v)
      (hstep : ServerStep cfg g.server (.manager (.thread (.inr k) env)) server) :
      GatewayMoves parse cfg g (.handler k env) { g with
        server := server
        handlers := Function.update g.handlers k none
        exchanges := g.exchanges ++ [⟨number, request, responseOf request v⟩] }

theorem gatewayMoves_of_step {l : GatewayLabel ω κ} (h : GatewayStep parse cfg g l g') :
    GatewayMoves parse cfg g l g' := by
  cases l with
  | server l =>
      simp only [GatewayStep, gatewayNext] at h
      split at h
      · rename_i hown
        obtain ⟨server, hstep, rfl⟩ := Option.map_eq_some_iff.mp h
        exact .server l server hown hstep
      · cases h
  | request k request =>
      simp only [GatewayStep, gatewayNext, requestNext] at h
      split at h
      · cases h
      · rename_i hfree
        have hidle : g.handlers k = none := by
          by_contra hbusy
          exact hfree (Or.inl (Option.isSome_iff_ne_none.mpr hbusy))
        split at h
        · rename_i response hcall
          cases h
          exact .refuse k request response hcall
        · rename_i c hcall
          obtain ⟨server, hstep, rfl⟩ := Option.map_eq_some_iff.mp h
          exact .enter k request c server hidle hcall hstep
  | handler k env =>
      simp only [GatewayStep, gatewayNext, handlerNext] at h
      split at h
      · cases h
      · rename_i number request hserving
        obtain ⟨server, hstep, heq⟩ := Option.map_eq_some_iff.mp h
        split at heq
        · rename_i c v hreturning
          rw [← heq]
          exact .leave k env number request c v server hserving hreturning hstep
        · rename_i hnot
          rw [← heq]
          exact .inside k env number request server hserving hnot hstep

/-- A call that begins in the step is the one that a handler makes for its request. -/
def Handles (parse : StdString → Parsed) (l : GatewayLabel ω κ) (l' : ServerLabel ω κ) : Prop :=
  ∀ i c, l' = .manager (.call i c) → ∃ k request, l = .request k request ∧
    callOf parse request = .ok c

omit [Fintype ω] [DecidableEq ω] [Fintype κ] [DecidableEq κ] in
theorem handled_of_callOf {request : Request} {c : Call} (h : callOf parse request = .ok c) :
    (∃ body, request = .stop body ∧ c = .startGracefulShutdown) ∨
      ∃ imsi, c = .sessionExists imsi := by
  cases request with
  | stop body =>
      cases h
      exact Or.inl ⟨body, rfl, rfl⟩
  | checkSubscriber body =>
      simp only [callOf] at h
      cases hsubscriber : HttpServer.subscriberOf (parse body) with
      | error response =>
          rw [hsubscriber] at h
          cases h
      | ok imsi =>
          rw [hsubscriber] at h
          cases h
          exact Or.inr ⟨imsi, rfl⟩

/-- A step of the program is a step of the server, or leaves it alone. -/
theorem server_of_moves {l : GatewayLabel ω κ} (h : GatewayMoves parse cfg g l g') :
    g'.server = g.server ∨ ∃ l', ServerStep cfg g.server l' g'.server ∧ Handles parse l l' := by
  cases h with
  | server l server hown hstep =>
      refine Or.inr ⟨l, hstep, fun i c heq => ?_⟩
      rw [heq] at hown
      cases hown
  | refuse => exact Or.inl rfl
  | enter k request c server _ hcall hstep =>
      refine Or.inr ⟨_, hstep, fun i c' heq => ?_⟩
      cases heq
      exact ⟨k, request, rfl, hcall⟩
  | inside k env _ _ server _ _ hstep => exact Or.inr ⟨_, hstep, by simp [Handles]⟩
  | leave k env _ _ _ _ server _ _ hstep => exact Or.inr ⟨_, hstep, by simp [Handles]⟩

/-- **The program keeps to the model of the server.** -/
theorem reaches_server (h : Reachable (Gateway.Initial cfg) (GatewayStep parse cfg) g) :
    UdpServer.Reaches cfg g.server := by
  refine h.invariant (P := fun g => UdpServer.Reaches cfg g.server) ?_ ?_
  · rintro g₀ ⟨clock, rfl⟩
    exact .of_init ⟨clock, rfl⟩
  · intro g l g' hg hstep
    rcases server_of_moves (gatewayMoves_of_step hstep) with hsame | ⟨l', hserver, _⟩
    · rw [hsame]
      exact hg
    · exact hg.tail hserver

/-! ## A check reads the table -/

section Check
variable {s t : Server ω κ} {k : κ}

/-- A handler's thread is moved by its own steps only. -/
theorem threads_of_serverStep {l : ServerLabel ω κ} (h : ServerStep cfg s l t)
    (hcall : ∀ c, l ≠ .manager (.call (.inr k) c))
    (hthread : ∀ env, l ≠ .manager (.thread (.inr k) env)) :
    t.manager.threads (.inr k) = s.manager.threads (.inr k) := by
  cases l with
  | io found =>
      rcases UdpServer.manager_of_ioNext (UdpServer.serverStep_io.mp h).2 with hsame | ⟨_, rfl⟩
      · rw [hsame]
      · rfl
  | worker i n env =>
      have hworker : ∀ {l : Label (ω ⊕ κ)} {m : Manager (ω ⊕ κ)},
          SessionManager.next cfg l s.manager = some m → (∀ c, l ≠ .call (.inr k) c) →
            (∀ env, l ≠ .thread (.inr k) env) → m.threads (.inr k) = s.manager.threads (.inr k) :=
        fun hm hc ht => SessionManager.threads_of_others hm hc ht
      cases UdpServer.workerMoves_of_workerNext (UdpServer.serverStep_worker.mp h).2 with
      | enter imsi m _ _ hstep => exact hworker hstep (by simp) (by simp)
      | inside env m _ _ hstep => exact hworker hstep (by simp) (by simp)
      | leave c v response env m _ _ _ hstep => exact hworker hstep (by simp) (by simp)
      | respond response c v hpc =>
          split <;> rfl
      | _ => rfl
  | manager l =>
      obtain ⟨_, m, hstep, rfl⟩ := UdpServer.serverStep_manager.mp h
      refine SessionManager.threads_of_others hstep (fun c heq => hcall c ?_) fun env heq => ?_
      · rw [heq]
      · exact hthread env (by rw [heq])

/-- What a step of the server is to the manager. The workers begin `create_session` only. -/
theorem manager_of_serverStep {l : ServerLabel ω κ} (h : ServerStep cfg s l t) :
    t.manager = s.manager ∨ t.manager = { s.manager with terminated := true } ∨
      ∃ l', SessionManager.Step cfg s.manager l' t.manager ∧ ∀ i c, l' = .call i c →
        l = .manager (.call i c) ∨ ∃ imsi, c = .createSession imsi := by
  cases l with
  | io found =>
      rcases UdpServer.manager_of_ioNext (UdpServer.serverStep_io.mp h).2 with hsame | ⟨_, rfl⟩
      · exact Or.inl hsame
      · exact Or.inr (Or.inl rfl)
  | worker i k env =>
      cases UdpServer.workerMoves_of_workerNext (UdpServer.serverStep_worker.mp h).2 with
      | enter imsi m _ _ hstep =>
          refine Or.inr (Or.inr ⟨_, hstep, fun j c heq => Or.inr ⟨imsi.str, ?_⟩⟩)
          cases heq
          rfl
      | inside env m _ _ hstep => exact Or.inr (Or.inr ⟨_, hstep, by simp⟩)
      | leave c v response env m _ _ _ hstep => exact Or.inr (Or.inr ⟨_, hstep, by simp⟩)
      | respond response c v _ =>
          left
          split <;> rfl
      | terminate => exact Or.inr (Or.inl rfl)
      | _ => exact Or.inl rfl
  | manager l =>
      obtain ⟨_, m, hstep, rfl⟩ := UdpServer.serverStep_manager.mp h
      refine Or.inr (Or.inr ⟨l, hstep, fun i c heq => Or.inl ?_⟩)
      rw [heq]

/-- The one section of `session_exists`. -/
theorem threads_of_check {env : Ambient} {imsi : StdString}
    (h : ServerStep cfg s (.manager (.thread (.inr k) env)) t)
    (hpc : s.manager.threads (.inr k) = .entered (.sessionExists imsi)) :
    t.manager.threads (.inr k) = .returning (.sessionExists imsi)
      (.returned (.bool (decide (imsi ∈ s.manager.store.sessions)))) := by
  obtain ⟨_, m, hstep, rfl⟩ := UdpServer.serverStep_manager.mp h
  have hnext := (SessionManager.step_thread.mp hstep).2
  simp only [SessionManager.threadNext, hpc, SessionManager.firstSection,
    Option.some.injEq] at hnext
  rw [← hnext]
  simp [SessionManager.sessionExists]

end Check

/-- Numbers are given out one after the other. -/
structure Numbered (g : Gateway ω κ) : Prop where
  handlers : ∀ k number request, g.handlers k = some (number, request) → number < g.requests
  exchanges : ∀ e ∈ g.exchanges, e.number < g.requests

theorem Numbered.moves {l : GatewayLabel ω κ} (hg : Numbered g)
    (h : GatewayMoves parse cfg g l g') : Numbered g' := by
  obtain ⟨hhandlers, hexchanges⟩ := hg
  cases h with
  | server => exact ⟨hhandlers, hexchanges⟩
  | refuse k request response =>
      refine ⟨fun j number r hj => Nat.lt_succ_of_lt (hhandlers j number r hj), fun e he => ?_⟩
      rcases List.mem_append.mp he with hold | hnew
      · exact Nat.lt_succ_of_lt (hexchanges e hold)
      · rw [List.mem_singleton.mp hnew]
        exact Nat.lt_succ_self _
  | enter k request c server =>
      refine ⟨fun j number r hj => ?_, fun e he => Nat.lt_succ_of_lt (hexchanges e he)⟩
      by_cases hjk : j = k
      · subst hjk
        simp only [Function.update_self, Option.some.injEq, Prod.mk.injEq] at hj
        rw [← hj.1]
        exact Nat.lt_succ_self _
      · simp only [Function.update_of_ne hjk] at hj
        exact Nat.lt_succ_of_lt (hhandlers j number r hj)
  | inside => exact ⟨hhandlers, hexchanges⟩
  | leave k env number request c v server hserving =>
      refine ⟨fun j n r hj => ?_, fun e he => ?_⟩
      · by_cases hjk : j = k
        · simp [hjk] at hj
        · simp only [Function.update_of_ne hjk] at hj
          exact hhandlers j n r hj
      · rcases List.mem_append.mp he with hold | hnew
        · exact hexchanges e hold
        · rw [List.mem_singleton.mp hnew]
          exact hhandlers k number request hserving

theorem numbered_of_reachable (h : Reachable (Gateway.Initial cfg) (GatewayStep parse cfg) g) :
    Numbered g := by
  refine h.invariant (P := Numbered) ?_ fun _ _ _ hs hstep => hs.moves (gatewayMoves_of_step hstep)
  rintro g₀ ⟨clock, rfl⟩
  exact ⟨by simp [Gateway.initial], by simp [Gateway.initial]⟩

section Reads
variable {step : Gateway ω κ → GatewayLabel ω κ → Gateway ω κ → Prop} {imsi : StdString}
  {b : Bool} {g₁ : Gateway ω κ}

/-- The table said so at one instant of the run. -/
def Seen (step : Gateway ω κ → GatewayLabel ω κ → Gateway ω κ → Prop) (g₁ g : Gateway ω κ)
    (imsi : StdString) (b : Bool) : Prop :=
  ∃ mid tr tr', Run step g₁ tr mid ∧ Run step mid tr' g ∧
    b = decide (imsi ∈ mid.server.manager.store.sessions)

omit [Fintype ω] [DecidableEq ω] [Fintype κ] [DecidableEq κ] in
theorem Seen.tail {l : GatewayLabel ω κ} (h : Seen step g₁ g imsi b) (hstep : step g l g') :
    Seen step g₁ g' imsi b := by
  obtain ⟨mid, tr, tr', hbefore, hafter, hb⟩ := h
  exact ⟨mid, tr, tr' ++ [l], hbefore, .snoc hafter hstep, hb⟩

/-- The checks that have begun since have read the table, or are about to. -/
structure Reads (parse : StdString → Parsed)
    (step : Gateway ω κ → GatewayLabel ω κ → Gateway ω κ → Prop) (g₁ g : Gateway ω κ) : Prop where
  handlers : ∀ k number request imsi, g.handlers k = some (number, request) →
    g₁.requests ≤ number → Asks parse imsi request →
      g.server.manager.threads (.inr k) = .entered (.sessionExists imsi) ∨
        ∃ b, Seen step g₁ g imsi b ∧ g.server.manager.threads (.inr k) =
          .returning (.sessionExists imsi) (.returned (.bool b))
  exchanges : ∀ e ∈ g.exchanges, g₁.requests ≤ e.number → ∀ imsi, Asks parse imsi e.request →
    ∃ b, Seen step g₁ g imsi b ∧ e.response = responseOf e.request (.returned (.bool b))

theorem Reads.moves {tr : List (GatewayLabel ω κ)} {l : GatewayLabel ω κ}
    (hg : Reads parse step g₁ g) (hrun : Run step g₁ tr g) (hstep : step g l g')
    (h : GatewayMoves parse cfg g l g') : Reads parse step g₁ g' := by
  -- what has been read stays read, and what a thread of another handler is at stays
  have hexchanges : ∀ e ∈ g.exchanges, g₁.requests ≤ e.number → ∀ imsi,
      Asks parse imsi e.request → ∃ b, Seen step g₁ g' imsi b ∧
        e.response = responseOf e.request (.returned (.bool b)) := by
    intro e he hnew imsi hasks
    obtain ⟨b, hseen, hresponse⟩ := hg.exchanges e he hnew imsi hasks
    exact ⟨b, hseen.tail hstep, hresponse⟩
  have hothers : ∀ k, g'.server.manager.threads (.inr k) = g.server.manager.threads (.inr k) →
      ∀ number request imsi, g.handlers k = some (number, request) → g₁.requests ≤ number →
        Asks parse imsi request →
          g'.server.manager.threads (.inr k) = .entered (.sessionExists imsi) ∨
            ∃ b, Seen step g₁ g' imsi b ∧ g'.server.manager.threads (.inr k) =
              .returning (.sessionExists imsi) (.returned (.bool b)) := by
    intro k hsame number request imsi hserving hnew hasks
    rw [hsame]
    refine (hg.handlers k number request imsi hserving hnew hasks).imp_right ?_
    rintro ⟨b, hseen, hpc⟩
    exact ⟨b, hseen.tail hstep, hpc⟩
  cases h with
  | server l server hown hserver =>
      refine ⟨fun k => hothers k ?_, hexchanges⟩
      apply threads_of_serverStep hserver
      · rintro c rfl
        cases hown
      · rintro env rfl
        cases hown
  | refuse k request response hcall =>
      refine ⟨fun j => hothers j rfl, fun e he hnew imsi hasks => ?_⟩
      rcases List.mem_append.mp he with hold | hlast
      · exact hexchanges e hold hnew imsi hasks
      · rw [List.mem_singleton.mp hlast, Asks, hcall] at hasks
        cases hasks
  | enter k request c server hidle hcall hserver =>
      refine ⟨fun j number r imsi hj hnew hasks => ?_, hexchanges⟩
      by_cases hjk : j = k
      · subst hjk
        simp only [Function.update_self, Option.some.injEq, Prod.mk.injEq] at hj
        obtain ⟨_, rfl⟩ := hj
        rw [Asks, hcall] at hasks
        cases hasks
        obtain ⟨_, m, hcalled, rfl⟩ := UdpServer.serverStep_manager.mp hserver
        obtain ⟨_, _, rfl⟩ := SessionManager.step_call.mp hcalled
        left
        simp
      · simp only [Function.update_of_ne hjk] at hj
        refine hothers j ?_ number r imsi hj hnew hasks
        apply threads_of_serverStep hserver
        · rintro c' heq
          cases heq
          exact hjk rfl
        · simp
  | inside k env number request server hserving hnot hserver =>
      refine ⟨fun j n r imsi hj hnew hasks => ?_, hexchanges⟩
      by_cases hjk : j = k
      · subst hjk
        rcases hg.handlers j n r imsi hj hnew hasks with hentered | ⟨b, _, hreturning⟩
        · -- the section runs now, and reads the table as it is before this step
          have hread : Seen step g₁ { g with server := server } imsi
              (decide (imsi ∈ g.server.manager.store.sessions)) :=
            ⟨g, tr, [_], hrun, .single hstep, rfl⟩
          exact Or.inr ⟨_, hread, threads_of_check hserver hentered⟩
        · exact absurd hreturning (hnot _ _)
      · refine hothers j ?_ n r imsi hj hnew hasks
        apply threads_of_serverStep hserver
        · simp
        · rintro env' heq
          cases heq
          exact hjk rfl
  | leave k env number request c v server hserving hreturning hserver =>
      refine ⟨fun j n r imsi hj hnew hasks => ?_, fun e he hnew imsi hasks => ?_⟩
      · by_cases hjk : j = k
        · simp [hjk] at hj
        · simp only [Function.update_of_ne hjk] at hj
          refine hothers j ?_ n r imsi hj hnew hasks
          apply threads_of_serverStep hserver
          · simp
          · rintro env' heq
            cases heq
            exact hjk rfl
      · rcases List.mem_append.mp he with hold | hlast
        · exact hexchanges e hold hnew imsi hasks
        · rw [List.mem_singleton.mp hlast] at hnew hasks ⊢
          rcases hg.handlers k number request imsi hserving hnew hasks with hentered | hread
          · rw [hreturning] at hentered
            cases hentered
          · obtain ⟨b, hseen, hpc⟩ := hread
            rw [hreturning] at hpc
            cases hpc
            exact ⟨b, hseen.tail hstep, rfl⟩

end Reads

/-- **A check reads the table.** Whatever runs at the same time, the answer to a check is
what the table said at one instant between the request and the response. -/
theorem check_reads_table {C : Gateway ω κ → GatewayLabel ω κ → Prop}
    (hreach : Reachable (Gateway.Initial cfg) (GatewayStep parse cfg) g)
    {tr : List (GatewayLabel ω κ)} (hrun : Run (only (GatewayStep parse cfg) C) g tr g')
    {e : Exchange} (he : e ∈ g'.exchanges)
    (hnew : g.requests ≤ e.number) {imsi : StdString} (hasks : Asks parse imsi e.request) :
    ∃ mid tr₁ tr₂, Run (only (GatewayStep parse cfg) C) g tr₁ mid ∧
      Run (only (GatewayStep parse cfg) C) mid tr₂ g' ∧
      e.response = HttpServer.plain
        (if imsi ∈ mid.server.manager.store.sessions then "active" else "not active") 200 := by
  have hnumbered := numbered_of_reachable hreach
  have hreads : Reads parse (only (GatewayStep parse cfg) C) g g' := by
    clear he
    induction hrun with
    | snoc hbefore hlast ih => exact ih.moves hbefore hlast (gatewayMoves_of_step hlast.1)
    | nil =>
      refine ⟨fun k number request imsi hserving hlate => ?_, fun e he hlate => ?_⟩
      · have hearly := hnumbered.handlers k number request hserving
        omega
      · have hearly := hnumbered.exchanges e he
        omega
  obtain ⟨b, ⟨mid, tr₁, tr₂, hbefore, hafter, rfl⟩, hresponse⟩ :=
    hreads.exchanges e he hnew imsi hasks
  refine ⟨mid, tr₁, tr₂, hbefore, hafter, ?_⟩
  rw [hresponse, HttpServer.responseOf_asks hasks]
  simp

end

end Pgw.System
