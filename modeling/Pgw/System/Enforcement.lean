import Pgw.Config.Loading
import Pgw.Session.Linearizable
import Pgw.Session.WellFormed
import Pgw.System.Gateway

/-!
# The configured blacklist is enforced

From the document to the datagram: the strings in the `blacklist` of the configuration are
what the application collects, what the session manager is built with, what
`create_session` refuses, what the workers answer with `rejected`, and what the HTTP side
says is not active. Nothing in the program adds to the blacklist or takes from it after the
start.

The runs are those of the program on what `init_components` hands to the session manager,
over an event queue that lives on; `init_components` lets its own go.

## Main results

* `RefusesBanned.step` — a call for a blacklisted subscriber ends with a refusal.
* `Enforced.step` — so does every answer of the server.
* `blacklist_enforced` — a subscriber on the list of the document is never served.
-/
namespace Pgw.System
open TransitionSystem
open SessionManager (Config Manager Call Value Label Ambient ThreadPc NoBlacklisting)
open UdpServer (Server ServerLabel ServerStep)
open HttpServer (Parsed Asks)

/-! ## The manager -/

section Manager
variable {ι : Type} [DecidableEq ι] {cfg : Config} {s t : Manager ι} {banned : Finset StdString}

/-- A refusal, unless the callback raises. -/
def IsRefusal (v : Completion Value) : Prop :=
  v = .returned (.result .blacklisted) ∨ ∃ what, v = .raised what

/-- The calls for the subscribers of the list end with a refusal. -/
def RefusesBanned (banned : Finset StdString) (s : Manager ι) : Prop :=
  ∀ i imsi v, imsi ∈ banned → s.threads i = .returning (.createSession imsi) v → IsRefusal v

omit [DecidableEq ι] in
theorem isRefusal_announced (cfg : Config) (event : SessionEvent) :
    IsRefusal (SessionManager.Registry.announced cfg event .blacklisted) := by
  rw [SessionManager.Registry.announced]
  split
  · exact Or.inr ⟨_, rfl⟩
  · exact Or.inl rfl

omit [DecidableEq ι] in
theorem isRefusal_firstSection {env : Ambient} {imsi : StdString} {v : Completion Value}
    {st : SessionManager.Store} (hbanned : imsi ∈ st.blacklist)
    (h : (SessionManager.firstSection cfg env (.createSession imsi) st).1 =
      .returning (.createSession imsi) v) : IsRefusal v := by
  by_cases hvalid : IMSI.Valid imsi
  · rw [SessionManager.firstSection_banned cfg env hvalid hbanned, ThreadPc.returning.injEq] at h
    rw [← h.2]
    exact isRefusal_announced cfg _
  · simp only [SessionManager.firstSection, IMSI.ofString_raised hvalid,
      ThreadPc.returning.injEq] at h
    exact Or.inl h.2.symm

/-- Where a call for a blacklisted subscriber comes to its end, it is refused. -/
theorem isRefusal_of_threadNext (hs : s.Excludes banned) {i : ι} {env : Ambient}
    (h : SessionManager.threadNext cfg i env s = some t) {imsi : StdString}
    (hbanned : imsi ∈ banned) {v : Completion Value}
    (hpc : t.threads i = .returning (.createSession imsi) v)
    (hbefore : s.threads i ≠ .returning (.createSession imsi) v) : IsRefusal v := by
  cases hold : s.threads i <;> simp only [SessionManager.threadNext, hold] at h
  case idle => cases h
  case entered c =>
    cases h
    rw [SessionManager.threads_goto, Function.update_self] at hpc
    have hmoves := SessionManager.firstSection_moves cfg env c s.store
    rw [hpc] at hmoves
    cases hmoves
    exact isRefusal_firstSection (hs.store.blacklist ▸ hbanned) hpc
  case checked x =>
    cases h
    rw [SessionManager.threads_goto, Function.update_self, ThreadPc.returning.injEq,
      Call.createSession.injEq] at hpc
    exact absurd hbanned (hpc.1 ▸ hs.checked i x hold)
  case spawned k =>
    split at h <;> cases h
    · exact absurd hpc hbefore
    · rw [SessionManager.threads_goto, Function.update_self] at hpc
      cases hpc
  all_goals
    cases h
    rw [SessionManager.threads_goto, Function.update_self] at hpc
    cases hpc

variable [Fintype ι]

theorem RefusesBanned.step (hr : RefusesBanned banned s) (hs : s.Excludes banned) {l : Label ι}
    (h : SessionManager.Step cfg s l t) : RefusesBanned banned t := by
  intro i imsi v hbanned hpc
  by_cases hbefore : s.threads i = .returning (.createSession imsi) v
  · exact hr i imsi v hbanned hbefore
  · rcases SessionManager.threads_of_step h i with hsame | ⟨c, _, _, hentered⟩ | ⟨env, rfl, _⟩
    · exact absurd (hsame ▸ hpc) hbefore
    · rw [hpc] at hentered
      cases hentered
    · exact isRefusal_of_threadNext hs (SessionManager.step_thread.mp h).2 hbanned hpc hbefore

/-- What a manager with a fixed blacklist keeps to. -/
structure Refuses (banned : Finset StdString) (s : Manager ι) : Prop where
  excludes : s.Excludes banned
  refuses : RefusesBanned banned s

omit [Fintype ι] [DecidableEq ι] in
theorem Refuses.initial (cfg : Config) (clock : ℤ) :
    Refuses cfg.blacklist (Manager.initial cfg clock : Manager ι) := by
  refine ⟨⟨⟨rfl, ?_, ?_⟩, ?_, ?_⟩, ?_⟩
  · exact fun imsi hmem => absurd hmem Finmap.notMem_empty
  · exact fun event hmem => nomatch hmem
  · exact fun i imsi hpc => nomatch hpc
  · exact fun i imsi => ⟨ThreadPc.noConfusion, ThreadPc.noConfusion⟩
  · exact fun i imsi v _ hpc => nomatch hpc

theorem Refuses.step (hs : Refuses banned s) {l : Label ι} (h : SessionManager.Step cfg s l t)
    (hl : NoBlacklisting s l) : Refuses banned t :=
  ⟨hs.excludes.step h hl, hs.refuses.step hs.excludes h⟩

end Manager

/-! ## The server -/

section Server
variable {ω κ : Type} [Fintype ω] [DecidableEq ω] [Fintype κ] [DecidableEq κ] {cfg : Config}
  {s t : Server ω κ} {banned : Finset StdString}

/-- The blacklist is left alone. -/
def Fixed (s : Server ω κ) : ServerLabel ω κ → Prop
  | .manager l => NoBlacklisting s.manager l
  | _ => True

/-- A reply to a call for a blacklisted subscriber is `rejected`. -/
def RejectsBanned (banned : Finset StdString) (c : Call) (response : StdString) : Prop :=
  ∀ imsi ∈ banned, c = .createSession imsi → response = text "rejected"

structure Enforced (banned : Finset StdString) (s : Server ω κ) : Prop where
  manager : Refuses banned s.manager
  workers : ∀ i response c v, (s.workers i).pc = .respond response c v →
    RejectsBanned banned c response
  sent : ∀ a ∈ s.sent, ∀ c v, a.origin = .returned c v → RejectsBanned banned c a.response

omit [Fintype ω] [DecidableEq ω] [Fintype κ] [DecidableEq κ] in
/-- The reply to a refusal. -/
theorem rejectsBanned_of_returning (hs : Refuses banned s.manager) {i : ω} {c : Call}
    {v : Completion Value} {response : StdString}
    (hpc : s.manager.threads (.inl i) = .returning c v)
    (hresponse : UdpServer.replyTo v = some response) : RejectsBanned banned c response := by
  rintro imsi hbanned rfl
  rcases hs.refuses (.inl i) imsi v hbanned hpc with rfl | ⟨what, rfl⟩
  · exact (Option.some.inj hresponse).symm
  · exact (Option.some.inj hresponse).symm

namespace Enforced

omit [Fintype ω] [Fintype κ] [DecidableEq κ] in
/-- A worker moves to where it owes no such reply, or one that is right. -/
theorem gotoWorker (hs : Enforced banned s) {i : ω} {pc : UdpServer.WorkerPc}
    (hpc : ∀ response c v, pc = .respond response c v → RejectsBanned banned c response) :
    Enforced banned (s.gotoWorker i pc) := by
  refine ⟨hs.manager, fun j response c v hj => ?_, hs.sent⟩
  by_cases hji : j = i
  · subst hji
    exact hpc response c v (by simpa [Server.gotoWorker] using hj)
  · exact hs.workers j response c v (by simpa [Server.gotoWorker, hji] using hj)

omit [Fintype ω] [DecidableEq ω] [Fintype κ] [DecidableEq κ] in
theorem withManager (hs : Enforced banned s) {m : Manager (ω ⊕ κ)} (hm : Refuses banned m) :
    Enforced banned { s with manager := m } :=
  ⟨hm, hs.workers, hs.sent⟩

omit [Fintype ω] [DecidableEq ω] [Fintype κ] [DecidableEq κ] in
/-- One more answer. -/
theorem sendResponse (hs : Enforced banned s) {a : UdpServer.Answer}
    (ha : ∀ c v, a.origin = .returned c v → RejectsBanned banned c a.response) :
    Enforced banned (s.sendResponse a) := by
  refine ⟨hs.manager, hs.workers, fun a' hmem => ?_⟩
  rcases List.mem_append.mp hmem with hold | hnew
  · exact hs.sent a' hold
  · rw [List.mem_singleton.mp hnew]
    exact ha

omit [Fintype ω] [DecidableEq ω] [Fintype κ] [DecidableEq κ] in
/-- The end of the process breaks no promise. -/
theorem terminate (hs : Enforced banned s) : Enforced banned s.terminate := by
  obtain ⟨⟨hstore, hchecked, hfixed⟩, hrefuses⟩ := hs.manager
  exact hs.withManager ⟨⟨hstore, hchecked, hfixed⟩, hrefuses⟩

theorem worker (hs : Enforced banned s) {i : ω} {k : ℕ} {env : Ambient}
    (h : UdpServer.workerNext cfg i k env s = some t) : Enforced banned t := by
  cases UdpServer.workerMoves_of_workerNext h with
  | jump pc _ hto =>
      refine hs.gotoWorker fun response c v heq => ?_
      simp [heq, UdpServer.Worker.tickets] at hto
  | take k item _ _ =>
      refine ⟨hs.manager, fun j response c v hj => ?_, hs.sent⟩
      by_cases hji : j = i
      · subst hji
        simp at hj
      · exact hs.workers j response c v (by simpa [hji] using hj)
  | enter imsi m _ _ hstep =>
      have hm := hs.manager.step hstep (by simp [NoBlacklisting])
      apply (hs.withManager hm).gotoWorker
      intro response c v heq
      cases heq
  | inside env m _ _ hstep =>
      exact hs.withManager (hs.manager.step hstep (by simp [NoBlacklisting]))
  | leave c v response env m _ hreturning hresponse hstep =>
      have hm := hs.manager.step hstep (by simp [NoBlacklisting])
      refine (hs.withManager hm).gotoWorker fun response' c' v' heq => ?_
      cases heq
      exact rejectsBanned_of_returning hs.manager hreturning hresponse
  | respond response c v hpc =>
      have hreply := hs.workers i response c v hpc
      apply Enforced.gotoWorker
      · split
        · apply hs.sendResponse
          intro c' v' heq
          cases heq
          exact hreply
        · exact hs
      · intro response' c' v' heq
        cases heq
  | terminate => exact hs.terminate

omit [Fintype ω] [DecidableEq ω] [Fintype κ] [DecidableEq κ] in
theorem io (hs : Enforced banned s) {found : UdpServer.Finding}
    (h : UdpServer.ioNext found s = some t) : Enforced banned t := by
  cases UdpServer.ioMoves_of_ioNext h with
  | refuse ticket _ =>
      have hanswered := hs.sendResponse
        (a := ⟨ticket, text "rejected", s.io.clientAddr, .queueFull⟩) (by simp)
      exact ⟨hanswered.manager, hanswered.workers, hanswered.sent⟩
  | fail => exact hs.terminate
  | _ => exact ⟨hs.manager, hs.workers, hs.sent⟩

/-- **Every step of the server keeps to the list.** -/
theorem step (hs : Enforced banned s) {l : ServerLabel ω κ} (h : ServerStep cfg s l t)
    (hl : Fixed s l) : Enforced banned t := by
  cases l with
  | io found => exact hs.io (UdpServer.serverStep_io.mp h).2
  | worker i k env => exact hs.worker (UdpServer.serverStep_worker.mp h).2
  | manager l =>
      obtain ⟨_, m, hstep, rfl⟩ := UdpServer.serverStep_manager.mp h
      exact hs.withManager (hs.manager.step hstep hl)

omit [Fintype ω] [DecidableEq ω] [Fintype κ] [DecidableEq κ] in
theorem initial (clock : ℤ) :
    Enforced cfg.blacklist (Server.initial cfg clock : Server ω κ) := by
  refine ⟨.initial cfg clock, fun i response c v hpc => ?_, fun a ha => ?_⟩
  · cases hpc
  · cases ha

end Enforced

/-! ## The program -/

section Program
variable {parse : StdString → Parsed} {g g' : Gateway ω κ}

omit [Fintype ω] [DecidableEq ω] [Fintype κ] [DecidableEq κ] in
/-- No handler changes the blacklist. -/
theorem Handles.fixed {l : GatewayLabel ω κ} {l' : ServerLabel ω κ} (h : Handles parse l l')
    (s : Server ω κ) : Fixed s l' := by
  cases l' with
  | manager l' =>
      intro i imsi
      constructor
      · rintro rfl
        obtain ⟨k, request, _, hcall⟩ := h i _ rfl
        exact absurd (handled_of_callOf hcall) (by simp)
      · rintro rfl
        obtain ⟨k, request, _, hcall⟩ := h i _ rfl
        exact absurd (handled_of_callOf hcall) (by simp)
  | _ => trivial

theorem enforced_of_reachable
    (h : Reachable (Gateway.Initial cfg) (GatewayStep parse cfg) g) :
    Enforced cfg.blacklist g.server := by
  refine h.invariant (P := fun g => Enforced cfg.blacklist g.server) ?_ ?_
  · rintro g₀ ⟨clock, rfl⟩
    exact .initial clock
  · intro u l v hu hstep
    rcases server_of_moves (gatewayMoves_of_step hstep) with hsame | ⟨l', hserver, hhandles⟩
    · rw [hsame]
      exact hu
    · exact hu.step hserver (hhandles.fixed u.server)

/-- The HTTP side reports nobody on the list. -/
theorem notActive_of_reachable {imsi : StdString} (hbanned : imsi ∈ cfg.blacklist)
    (h : Reachable (Gateway.Initial cfg) (GatewayStep parse cfg) g) {e : Exchange}
    (he : e ∈ g.exchanges) (hasks : Asks parse imsi e.request) :
    e.response = HttpServer.plain "not active" 200 := by
  obtain ⟨g₀, tr, ⟨clock, rfl⟩, hrun⟩ := h
  have hinitial : Reachable (Gateway.Initial cfg) (GatewayStep parse cfg)
      (Gateway.initial cfg clock : Gateway ω κ) := .of_init ⟨clock, rfl⟩
  have hany : Run (only (GatewayStep parse cfg) fun _ _ => True) (.initial cfg clock) tr g :=
    hrun.mono fun _ _ _ hstep => ⟨hstep, trivial⟩
  obtain ⟨mid, _, _, hbefore, _, hresponse⟩ :=
    check_reads_table hinitial hany he (Nat.zero_le _) hasks
  have hmid := enforced_of_reachable (hinitial.run hbefore.of_only)
  have habsent : imsi ∉ mid.server.manager.store.sessions := fun hin =>
    hmid.manager.excludes.store.keys _ hin hbanned
  rw [hresponse, if_neg habsent]

end Program

/-! ## From the document -/

/-- What the application is built from has the list of the document. -/
theorem mem_blacklist_of_document {members : List (StdString × Json)} {elements : List Json}
    {app : PGWServerApp} {cdrWriter : StdString → Completion SessionEventCallback}
    {components : Components} {imsi : StdString}
    (hlist : members.lookup (text "blacklist") = some (.array elements))
    (hmem : .string imsi ∈ elements)
    (h : (app.loadBlacklist (some (.returned (.object members)))).initComponents cdrWriter =
      .returned components) : imsi ∈ components.sessionManager.blacklist := by
  obtain ⟨callback, _, hreturn⟩ := Completion.bind_eq_returned.mp h
  cases hreturn
  have hcollected : imsi ∈ (elements.filterMap Json.string?).toFinset := by
    rw [List.mem_toFinset, List.mem_filterMap]
    exact ⟨_, hmem, rfl⟩
  simp only [PGWServerApp.loadBlacklist, hlist]
  exact Finset.mem_union_right _ hcollected

/-- **The configured blacklist is enforced.** A string in the `blacklist` of the document
from which the application is built is never a key of the session table, whatever the
threads of the program do over an event queue that outlives them and whatever is requested;
no event says more of it than a rejection; every answer to a datagram that spells it is
`rejected`; and every check of it says that it is not active. -/
theorem blacklist_enforced {members : List (StdString × Json)} {elements : List Json}
    {app : PGWServerApp} {cdrWriter : StdString → Completion SessionEventCallback}
    {components : Components} {imsi : IMSI} {parse : StdString → Parsed} {g : Gateway ω κ}
    (hlist : members.lookup (text "blacklist") = some (.array elements))
    (hmem : .string imsi.str ∈ elements)
    (hbuilt : (app.loadBlacklist (some (.returned (.object members)))).initComponents cdrWriter =
      .returned components)
    (h : Reachable (Gateway.Initial components.sessionManager)
      (GatewayStep parse components.sessionManager) g) :
    imsi.str ∉ g.server.manager.store.sessions ∧
      (∀ event ∈ g.server.manager.store.events, event.imsi = imsi.str →
        event.action = .rejected) ∧
      (∀ a ∈ g.server.sent, ∀ d, g.server.arrived[a.ticket]? = some d →
        IMSI.fromBcd (d.payload.take UdpServer.bufferSize) = .returned imsi →
          a.response = text "rejected") ∧
      ∀ e ∈ g.exchanges, Asks parse imsi.str e.request →
        e.response = HttpServer.plain "not active" 200 := by
  have hbanned := mem_blacklist_of_document hlist hmem hbuilt
  have hs := enforced_of_reachable h
  refine ⟨fun hin => ?_, fun event hevent himsi => ?_, fun a ha d hd hspells => ?_, fun e he => ?_⟩
  · exact hs.manager.excludes.store.keys _ hin hbanned
  · by_contra haction
    exact hs.manager.excludes.store.events event hevent haction (himsi ▸ hbanned)
  · obtain ⟨d', hd', _, horigin⟩ := (UdpServer.genuine_of_reaches (reaches_server h)).sent a ha
    have hsame : d' = d := Option.some.inj (hd'.symm.trans hd)
    subst hsame
    cases hfrom : a.origin with
    | queueFull => simpa [hfrom] using horigin
    | returned c v =>
        simp only [hfrom] at horigin
        obtain ⟨⟨imsi', hspells', hcall⟩, _⟩ := horigin
        have himsi : imsi' = imsi := Completion.returned.inj (hspells'.symm.trans hspells)
        exact hs.sent a ha c v hfrom imsi.str hbanned (himsi ▸ hcall)
  · exact notActive_of_reachable hbanned h he

end Server

/-! The document that comes with the server, and a datagram of its first listed subscriber. -/

open SessionManager (Caller after)

private def shippedMembers : List (StdString × Json) :=
  PGWServerApp.document (.numberUnsigned 30) (.numberUnsigned 10) (.numberUnsigned 20)

private def shippedApp : PGWServerApp :=
  { configPath := "config/pgw_server.json", sessionConfig := { shutdownRate := 20 } }

private def shippedComponents : Components where
  sessionManager := {
    sessionTimeout := 30
    shutdownRate := 20
    blacklist := (shippedApp.loadBlacklist (some (.returned (.object shippedMembers)))).blacklist
    eventCallback := some fun _ => none }
  threadCount := 10
  udpPort := 9000
  http := {}
  queue := SharedQueue.make.drop

private def listedSubscriber : IMSI := ⟨text "001010123456789", by decide +kernel⟩

private def listedBytes : List UInt8 := [0x00, 0x01, 0x01, 0x21, 0x43, 0x65, 0x87, 0xf9]

private def oneRefusal : List (GatewayLabel Caller Unit) :=
  [.server (.io .readable), .server (.io .again),
    .server (.io (.datagram ⟨listedBytes, ⟨2, 40000, 2130706433⟩⟩)), .server (.io .again),
    .server (.io .enqueued), .server (.io .again)] ++
      List.replicate 6 (.server (.worker .first 0 (after 0 [])))

private def parseNothing (_ : StdString) : Parsed := .parseError

private def afterRefusal : Gateway Caller Unit :=
  replayed (gatewayNext parseNothing shippedComponents.sessionManager) oneRefusal
    (.initial shippedComponents.sessionManager 0) (by decide +kernel)

set_option maxRecDepth 4000 in
private theorem lookup_shipped : shippedMembers.lookup (text "blacklist") =
    some (.array [.string listedSubscriber.str, .string (text "001010000000001")]) := rfl

theorem blacklist_enforced_shipped : afterRefusal.server.sent.length = 1 ∧
    ∀ a ∈ afterRefusal.server.sent, a.response = text "rejected" := by
  have hrun : Run (GatewayStep parseNothing shippedComponents.sessionManager) (.initial _ 0)
      oneRefusal afterRefusal :=
    run_replayed (gatewayNext parseNothing shippedComponents.sessionManager) _ _ _
  let loaded := shippedApp.loadBlacklist (some (.returned (.object shippedMembers)))
  have hbuilt : loaded.initComponents (fun _ => .returned fun _ => none) =
      .returned shippedComponents := rfl
  obtain ⟨_, _, hanswers, _⟩ := blacklist_enforced lookup_shipped List.mem_cons_self hbuilt
    ⟨_, oneRefusal, ⟨0, rfl⟩, hrun⟩
  have hbytes : ∀ d ∈ afterRefusal.server.arrived, d.payload = listedBytes := by decide +kernel
  have harrived : afterRefusal.server.arrived.length = 1 := by decide +kernel
  have htickets : ∀ a ∈ afterRefusal.server.sent, a.ticket = 0 := by decide +kernel
  refine ⟨by decide +kernel, fun a ha => ?_⟩
  have hlt : a.ticket < afterRefusal.server.arrived.length := by
    rw [htickets a ha, harrived]
    exact Nat.one_pos
  refine hanswers a ha _ (List.getElem?_eq_getElem hlt) ?_
  rw [hbytes _ (List.getElem_mem hlt)]
  decide +kernel

end Pgw.System
