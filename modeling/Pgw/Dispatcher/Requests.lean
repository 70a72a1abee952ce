import Mathlib.Tactic.DeriveFintype
import Pgw.Dispatcher.Server
import Pgw.Lib.Custody

/-!
# No request is lost, duplicated or answered across

The server refines the custody of numbered tokens: every step hands at most one
datagram from one place to another. Whatever the interleaving, each datagram is then
with the I/O thread, in the queue, with one worker, or answered, and nowhere twice.

That an answer is made of its own datagram's bytes and goes to its own sender is an
invariant beside it. The buffer, the address and the variables of the workers are used
again and again; what counts is that each is written before it is read.

## Main results

* `genuine_of_reaches` — nobody reads anything stale.
* `refines_custody` — the server is a custody of its datagrams.
-/
namespace Pgw.UdpServer
open SessionManager TransitionSystem
open Custody (run_of_eq run_of_deal)

variable {ω κ : Type}

/-! ## Places -/

inductive Place (ω : Type) where
  | io
  | queue
  | worker (i : ω)
  | answered
  deriving DecidableEq, Fintype

/-- The datagram in the hands of the I/O thread. -/
def IoPc.tickets : IoPc → Multiset ℕ
  | .build ticket _ => {ticket}
  | .enqueue item => {item.ticket}
  | .refuse ticket => {ticket}
  | _ => 0

/-- The worker's variable counts while the event in it is being handled. -/
def Worker.tickets (w : Worker) : Multiset ℕ :=
  match w.pc with
  | .decode | .call | .respond _ _ _ => {w.item.ticket}
  | _ => 0

/-- Which datagrams are where. -/
def held (s : Server ω κ) : Place ω → Multiset ℕ
  | .io => s.io.pc.tickets
  | .queue => ↑(s.queue.map Item.ticket)
  | .worker i => (s.workers i).tickets
  | .answered => ↑(s.sent.map Answer.ticket)

/-- The server as a custody of datagrams. -/
def custody (s : Server ω κ) : Custody.Holdings (Place ω) := ⟨held s, s.arrived.length⟩

/-! ## Whose bytes -/

/-- The event holds the bytes of its datagram, as far as they fit the buffer, and the
address of its sender. -/
def Carries (arrived : List Datagram) (item : Item) : Prop :=
  ∃ d, arrived[item.ticket]? = some d ∧
    item.event = ⟨d.payload.take bufferSize, d.source, some responseCallback⟩

/-- The call is the one for the subscriber in the bytes. -/
def CallFor (data : List UInt8) (c : Call) : Prop :=
  ∃ imsi, IMSI.fromBcd data = .returned imsi ∧ c = .createSession imsi.str

/-- The answer goes to the sender of its datagram. It is the refusal by a full queue,
or the reply to the end of the call that the datagram's bytes asked for. -/
def Honest (arrived : List Datagram) (a : Answer) : Prop :=
  ∃ d, arrived[a.ticket]? = some d ∧ a.addr = d.source ∧
    match a.origin with
    | .queueFull => a.response = text "rejected"
    | .returned c v => CallFor (d.payload.take bufferSize) c ∧ replyTo v = some a.response

/-- The caller is inside this `create_session`. -/
def Inside (c : Call) : ThreadPc → Prop
  | .entered c' => c' = c
  | .checked imsi => c = .createSession imsi
  | .returning c' _ => c' = c
  | _ => False

def IoHonest (arrived : List Datagram) (io : Io) : Prop :=
  match io.pc with
  | .build ticket recv => ∃ d, arrived[ticket]? = some d ∧
      io.buffer.take recv = d.payload.take bufferSize ∧ io.clientAddr = d.source
  | .enqueue item => Carries arrived item ∧ io.clientAddr = item.event.clientAddr
  | .refuse ticket => ∃ d, arrived[ticket]? = some d ∧ io.clientAddr = d.source
  | _ => True

def WorkerHonest (arrived : List Datagram) (pc : ThreadPc) (w : Worker) : Prop :=
  match w.pc with
  | .decode => Carries arrived w.item
  | .call => Carries arrived w.item ∧ ∃ c, CallFor w.item.event.data c ∧ Inside c pc
  | .respond response c v => Carries arrived w.item ∧ CallFor w.item.event.data c ∧
      replyTo v = some response
  | _ => True

structure Genuine (s : Server ω κ) : Prop where
  buffer : s.io.buffer.length = bufferSize
  io : IoHonest s.arrived s.io
  queue : ∀ item ∈ s.queue, Carries s.arrived item
  worker : ∀ i, WorkerHonest s.arrived (s.manager.threads (.inl i)) (s.workers i)
  sent : ∀ a ∈ s.sent, Honest s.arrived a

/-! ## Arrivals -/

section Arrivals
variable {arrived : List Datagram} (d : Datagram)

theorem getElem?_of_arrived {t : ℕ} {d' : Datagram} (h : arrived[t]? = some d') :
    (arrived ++ [d])[t]? = some d' := by
  have hlt := (List.getElem?_eq_some_iff.mp h).1
  rw [List.getElem?_append_left hlt, h]

theorem Carries.arrive {item : Item} (h : Carries arrived item) :
    Carries (arrived ++ [d]) item := by
  obtain ⟨d', hd', hevent⟩ := h
  exact ⟨d', getElem?_of_arrived d hd', hevent⟩

theorem Honest.arrive {a : Answer} (h : Honest arrived a) : Honest (arrived ++ [d]) a := by
  obtain ⟨d', hd', hrest⟩ := h
  exact ⟨d', getElem?_of_arrived d hd', hrest⟩

theorem WorkerHonest.arrive {pc : ThreadPc} {w : Worker} (h : WorkerHonest arrived pc w) :
    WorkerHonest (arrived ++ [d]) pc w := by
  rw [WorkerHonest] at h ⊢
  split at h
  · exact h.arrive d
  · exact ⟨h.1.arrive d, h.2⟩
  · exact ⟨h.1.arrive d, h.2⟩
  · trivial

/-- What `recvfrom` reports is the front of what it has written. -/
theorem take_overwrite (buffer payload : List UInt8) :
    (overwrite buffer payload).take (min payload.length buffer.length) =
      payload.take buffer.length := by
  have hlength : (payload.take buffer.length).length = min payload.length buffer.length := by
    rw [List.length_take, Nat.min_comm]
  rw [overwrite, ← hlength, List.take_left]

theorem length_overwrite (buffer payload : List UInt8) :
    (overwrite buffer payload).length = buffer.length := by
  simp only [overwrite, List.length_append, List.length_take, List.length_drop]
  omega

end Arrivals

/-! ## Steps of the I/O thread -/

section Io
variable {s t : Server ω κ} {found : Finding}

/-- What a step of the I/O thread can do. -/
inductive IoMoves (s : Server ω κ) : Server ω κ → Prop where
  /-- It moves on with no datagram in its hands. -/
  | jump (pc : IoPc) (clientAddr : EventDispatcher.SockaddrIn) (hfrom : s.io.pc.tickets = 0)
      (hto : pc.tickets = 0) :
      IoMoves s { s with io := { s.io with pc := pc, clientAddr := clientAddr } }
  | receive (d : Datagram) (hpc : s.io.pc = .recvfrom) :
      IoMoves s { s with
        io := ⟨.build s.arrived.length (min d.payload.length s.io.buffer.length),
          overwrite s.io.buffer d.payload, d.source⟩
        arrived := s.arrived ++ [d] }
  | build (ticket recv : ℕ) (hpc : s.io.pc = .build ticket recv) :
      IoMoves s (s.gotoIo (.enqueue
        ⟨ticket, s.io.buffer.take recv, s.io.clientAddr, some responseCallback⟩))
  | enqueue (item : Item) (hpc : s.io.pc = .enqueue item) :
      IoMoves s ({ s with queue := s.queue ++ [item] }.gotoIo .notify)
  | full (item : Item) (hpc : s.io.pc = .enqueue item) :
      IoMoves s (s.gotoIo (.refuse item.ticket))
  | refuse (ticket : ℕ) (hpc : s.io.pc = .refuse ticket) :
      IoMoves s ((s.sendResponse ⟨ticket, text "rejected", s.io.clientAddr, .queueFull⟩).gotoIo
        .testRunning)
  /-- `recvfrom` has failed. -/
  | fail (hpc : s.io.pc = .recvfrom) : IoMoves s s.terminate

theorem ioMoves_of_ioNext (h : ioNext found s = some t) : IoMoves s t := by
  have hjump : ∀ {pc pc' : IoPc}, s.io.pc = pc → pc.tickets = 0 → pc'.tickets = 0 →
      IoMoves s (s.gotoIo pc') := by
    rintro pc pc' rfl hfrom hto
    exact .jump pc' s.io.clientAddr hfrom hto
  unfold ioNext at h
  split at h <;> cases h
  case h_1 hpc => exact .jump .testRunning ⟨0, 0, 0⟩ (by rw [hpc]; rfl) rfl
  case h_2 hpc => exact .jump s.io.pc s.io.clientAddr (by rw [hpc]; rfl) (by rw [hpc]; rfl)
  case h_3 hpc => exact hjump hpc rfl rfl
  case h_4 hpc =>
    refine hjump hpc rfl ?_
    cases s.running <;> rfl
  case h_5 d hpc => exact .receive d hpc
  case h_6 hpc => exact hjump hpc rfl rfl
  case h_7 hpc => exact hjump hpc rfl rfl
  case h_8 hpc => exact .fail hpc
  case h_9 ticket recv hpc => exact .build ticket recv hpc
  case h_10 item hpc => exact .enqueue item hpc
  case h_11 item hpc => exact .full item hpc
  case h_12 ticket hpc => exact .refuse ticket hpc
  case h_13 hpc => exact hjump hpc rfl rfl

theorem Genuine.terminate (hs : Genuine s) : Genuine s.terminate :=
  ⟨hs.buffer, hs.io, hs.queue, hs.worker, hs.sent⟩

/-- With no datagram in its hands the I/O thread owes nothing. -/
theorem ioHonest_of_tickets {arrived : List Datagram} {io : Io} (h : io.pc.tickets = 0) :
    IoHonest arrived io := by
  rw [IoHonest]
  cases hpc : io.pc <;> first | trivial | simp [hpc, IoPc.tickets] at h

theorem Genuine.gotoIo (hs : Genuine s) {pc : IoPc}
    (hpc : IoHonest s.arrived { s.io with pc := pc }) : Genuine (s.gotoIo pc) :=
  ⟨hs.buffer, hpc, hs.queue, hs.worker, hs.sent⟩

/-- One honest answer more. -/
theorem Genuine.sendResponse (hs : Genuine s) {a : Answer} (ha : Honest s.arrived a) :
    Genuine (s.sendResponse a) := by
  refine ⟨hs.buffer, hs.io, hs.queue, hs.worker, fun a' ha' => ?_⟩
  rcases List.mem_append.mp ha' with hold | hnew
  · exact hs.sent a' hold
  · rw [List.mem_singleton.mp hnew]
    exact ha

/-- **The I/O thread reads nothing stale.** -/
theorem Genuine.ioNext (hs : Genuine s) (h : ioNext found s = some t) : Genuine t := by
  have hio := hs.io
  rw [IoHonest] at hio
  cases ioMoves_of_ioNext h with
  | jump pc clientAddr _ hto =>
      exact ⟨hs.buffer, ioHonest_of_tickets hto, hs.queue, hs.worker, hs.sent⟩
  | receive d hpc =>
      have hnew : (s.arrived ++ [d])[s.arrived.length]? = some d := by simp
      constructor
      · exact (length_overwrite _ _).trans hs.buffer
      · refine ⟨d, hnew, ?_, rfl⟩
        rw [take_overwrite, hs.buffer]
      · exact fun item hitem => (hs.queue item hitem).arrive d
      · exact fun i => (hs.worker i).arrive d
      · exact fun a ha => (hs.sent a ha).arrive d
  | build ticket recv hpc =>
      rw [hpc] at hio
      obtain ⟨d, hd, hdata, haddr⟩ := hio
      rw [hdata, haddr]
      exact hs.gotoIo ⟨⟨d, hd, rfl⟩, haddr⟩
  | enqueue item hpc =>
      rw [hpc] at hio
      refine ⟨hs.buffer, trivial, fun item' hitem' => ?_, hs.worker, hs.sent⟩
      rcases List.mem_append.mp hitem' with hold | hnew
      · exact hs.queue item' hold
      · rw [List.mem_singleton.mp hnew]
        exact hio.1
  | full item hpc =>
      rw [hpc] at hio
      obtain ⟨⟨d, hd, hevent⟩, haddr⟩ := hio
      exact hs.gotoIo ⟨d, hd, by rw [haddr, hevent]⟩
  | refuse ticket hpc =>
      rw [hpc] at hio
      obtain ⟨d, hd, haddr⟩ := hio
      have hanswered : Genuine (s.sendResponse
          ⟨ticket, text "rejected", s.io.clientAddr, .queueFull⟩) :=
        hs.sendResponse ⟨d, hd, haddr, rfl⟩
      exact hanswered.gotoIo trivial
  | fail => exact hs.terminate

/-- The same datagrams are in the same places. -/
theorem custody_eq (hio : t.io.pc.tickets = s.io.pc.tickets) (hqueue : t.queue = s.queue)
    (hworkers : ∀ i, (t.workers i).tickets = (s.workers i).tickets) (hsent : t.sent = s.sent)
    (harrived : t.arrived = s.arrived) : custody t = custody s := by
  have hheld : held t = held s := by
    funext p
    cases p with
    | io => exact hio
    | queue => simp only [held, hqueue]
    | worker i => exact hworkers i
    | answered => simp only [held, hsent]
  rw [custody, custody, hheld, harrived]

theorem custody_gotoIo {pc : IoPc} (h : pc.tickets = s.io.pc.tickets) :
    custody (s.gotoIo pc) = custody s :=
  custody_eq h rfl (fun _ => rfl) rfl rfl

/-- The I/O thread takes a datagram in, or gives one to the queue or back to its sender. -/
theorem deals_of_ioNext (h : ioNext found s = some t) :
    ∃ deals, Run Custody.Step (custody s) deals (custody t) := by
  cases ioMoves_of_ioNext h with
  | jump pc clientAddr hfrom hto =>
      exact run_of_eq (custody_eq (hto.trans hfrom.symm) rfl (fun _ => rfl) rfl rfl)
  | receive d hpc =>
      refine run_of_deal (.arrive .io ?_ ?_ ?_)
      · simp [custody, held, hpc, IoPc.tickets]
      · intro r hr
        cases r <;> first | exact absurd rfl hr | rfl
      · simp [custody]
  | build ticket recv hpc =>
      exact run_of_eq (custody_gotoIo (by simp [hpc, IoPc.tickets]))
  | enqueue item hpc =>
      refine run_of_deal (.hand .io .queue item.ticket (by simp) ?_ ?_ ?_ rfl)
      · simp [custody, held, hpc, IoPc.tickets, Server.gotoIo]
      · simp [custody, held, Server.gotoIo]
      · intro r hio hqueue
        cases r <;> first | exact absurd rfl hio | exact absurd rfl hqueue | rfl
  | full item hpc =>
      exact run_of_eq (custody_gotoIo (by simp [hpc, IoPc.tickets]))
  | refuse ticket hpc =>
      refine run_of_deal (.hand .io .answered ticket (by simp) ?_ ?_ ?_ rfl)
      · simp [custody, held, hpc, IoPc.tickets, Server.gotoIo, Server.sendResponse]
      · simp [custody, held, Server.gotoIo, Server.sendResponse]
      · intro r hio hanswered
        cases r <;> first | exact absurd rfl hio | exact absurd rfl hanswered | rfl
  | fail => exact run_of_eq rfl

end Io

/-! ## Steps of the workers -/

section Workers
variable [Fintype ω] [DecidableEq ω] [Fintype κ] [DecidableEq κ] {cfg : Config}
  {s t : Server ω κ} {i : ω} {k : ℕ} {env : Ambient}

/-- A caller inside a `create_session` stays inside until the call returns. -/
theorem Inside.moves {c : Call} {pc pc' : ThreadPc} (h : Inside c pc) {data : List UInt8}
    (hfor : CallFor data c) (hnot : ∀ c v, pc ≠ .returning c v) (hmoves : Moves pc pc') :
    Inside c pc' := by
  obtain ⟨imsi, _, rfl⟩ := hfor
  cases hmoves with
  | finish c' v => exact h
  | check imsi' =>
      rw [Inside, Call.createSession.injEq] at h
      rw [Inside, h]
  | table imsi' v => exact h.symm
  | activate => cases h
  | spawn k => cases h
  | assign k v => cases h
  | read imsi' reading => cases h
  | write imsi' reading v => cases h
  | leave c' v => exact absurd rfl (hnot c' v)

omit [Fintype ω] [Fintype κ] [DecidableEq κ] in
/-- A worker moves, and no other worker's call does. -/
theorem Genuine.update (hs : Genuine s) {m : Manager (ω ⊕ κ)} {w : Worker}
    (hothers : ∀ j, j ≠ i → m.threads (.inl j) = s.manager.threads (.inl j))
    (hw : WorkerHonest s.arrived (m.threads (.inl i)) w) :
    Genuine { s with manager := m, workers := Function.update s.workers i w } := by
  refine ⟨hs.buffer, hs.io, hs.queue, fun j => ?_, hs.sent⟩
  by_cases hji : j = i
  · subst hji
    simpa using hw
  · simpa [hji, hothers j hji] using hs.worker j

omit [Fintype ω] [Fintype κ] [DecidableEq κ] in
theorem Genuine.gotoWorker (hs : Genuine s) {pc : WorkerPc}
    (hpc : WorkerHonest s.arrived (s.manager.threads (.inl i)) { s.workers i with pc := pc }) :
    Genuine (s.gotoWorker i pc) :=
  hs.update (fun _ _ => rfl) hpc

/-- No step of a worker's own call moves another worker's. -/
theorem threads_of_thread {m : Manager (ω ⊕ κ)}
    (h : next cfg (.thread (.inl i) env) s.manager = some m) {j : ω} (hji : j ≠ i) :
    m.threads (.inl j) = s.manager.threads (.inl j) := by
  refine threads_of_others h ?_ ?_
  · intro c heq
    cases heq
  · intro env' heq
    cases heq
    exact hji rfl

/-- Nor does the beginning of a worker's call. -/
theorem threads_of_call {m : Manager (ω ⊕ κ)} {c : Call}
    (h : next cfg (.call (.inl i) c) s.manager = some m) {j : ω} (hji : j ≠ i) :
    m.threads (.inl j) = s.manager.threads (.inl j) := by
  refine threads_of_others h ?_ ?_
  · intro c' heq
    cases heq
    exact hji rfl
  · intro env' heq
    cases heq

/-- What a step of a worker can do. -/
inductive WorkerMoves (cfg : Config) (i : ω) (s : Server ω κ) : Server ω κ → Prop where
  /-- It moves on with no datagram in its hands. -/
  | jump (pc : WorkerPc) (hfrom : (s.workers i).tickets = 0)
      (hto : ({ s.workers i with pc := pc } : Worker).tickets = 0) :
      WorkerMoves cfg i s (s.gotoWorker i pc)
  | take (k : ℕ) (item : Item) (hitem : s.queue[k]? = some item)
      (hfrom : (s.workers i).tickets = 0) :
      WorkerMoves cfg i s { s with
        queue := s.queue.eraseIdx k
        workers := Function.update s.workers i ⟨.decode, item⟩ }
  | enter (imsi : IMSI) (m : Manager (ω ⊕ κ)) (hpc : (s.workers i).pc = .decode)
      (hdecoded : IMSI.fromBcd (s.workers i).item.event.data = .returned imsi)
      (hstep : next cfg (.call (.inl i) (.createSession imsi.str)) s.manager = some m) :
      WorkerMoves cfg i s ({ s with manager := m }.gotoWorker i .call)
  | inside (env : Ambient) (m : Manager (ω ⊕ κ)) (hpc : (s.workers i).pc = .call)
      (hnot : ∀ c v, s.manager.threads (.inl i) ≠ .returning c v)
      (hstep : next cfg (.thread (.inl i) env) s.manager = some m) :
      WorkerMoves cfg i s { s with manager := m }
  | leave (c : Call) (v : Completion Value) (response : StdString) (env : Ambient)
      (m : Manager (ω ⊕ κ)) (hpc : (s.workers i).pc = .call)
      (hreturning : s.manager.threads (.inl i) = .returning c v)
      (hresponse : replyTo v = some response)
      (hstep : next cfg (.thread (.inl i) env) s.manager = some m) :
      WorkerMoves cfg i s ({ s with manager := m }.gotoWorker i (.respond response c v))
  | respond (response : StdString) (c : Call) (v : Completion Value)
      (hpc : (s.workers i).pc = .respond response c v) :
      WorkerMoves cfg i s ((if (s.workers i).item.event.responseCallback.isSome then
        s.sendResponse ⟨(s.workers i).item.ticket, response, (s.workers i).item.event.clientAddr,
          .returned c v⟩ else s).gotoWorker i .testStop)
  | terminate : WorkerMoves cfg i s s.terminate

theorem workerMoves_of_workerNext (h : workerNext cfg i k env s = some t) :
    WorkerMoves cfg i s t := by
  cases hpc : (s.workers i).pc with
  | testStop =>
      simp only [workerNext, hpc, Option.some.injEq] at h
      rw [← h]
      refine .jump _ (by simp [Worker.tickets, hpc]) ?_
      cases s.stop <;> rfl
  | dequeue =>
      simp only [workerNext, hpc] at h
      split at h
      · rename_i item hitem
        cases h
        exact .take k item hitem (by simp [Worker.tickets, hpc])
      · split at h <;> cases h
        exact .jump .wait (by simp [Worker.tickets, hpc]) rfl
  | wait =>
      simp only [workerNext, hpc, Option.some.injEq] at h
      rw [← h]
      exact .jump .testStop (by simp [Worker.tickets, hpc]) rfl
  | decode =>
      simp only [workerNext, hpc] at h
      split at h
      · rename_i imsi hdecoded
        obtain ⟨m, hstep, rfl⟩ := Option.map_eq_some_iff.mp h
        exact .enter imsi m hpc hdecoded hstep
      · cases h
        exact .terminate
  | call =>
      simp only [workerNext, hpc] at h
      split at h
      · rename_i c v hreturning
        split at h
        · rename_i response hresponse
          obtain ⟨m, hstep, rfl⟩ := Option.map_eq_some_iff.mp h
          exact .leave c v response env m hpc hreturning hresponse hstep
        · cases h
          exact .terminate
      · rename_i hnot
        obtain ⟨m, hstep, rfl⟩ := Option.map_eq_some_iff.mp h
        exact .inside env m hpc hnot hstep
  | respond response c v =>
      simp only [workerNext, hpc, Option.some.injEq] at h
      rw [← h]
      exact .respond response c v hpc
  | exited =>
      simp only [workerNext, hpc] at h
      cases h

omit [Fintype ω] [DecidableEq ω] [Fintype κ] [DecidableEq κ] in
/-- With no datagram in its hands a worker owes nothing. -/
theorem workerHonest_of_tickets {arrived : List Datagram} {pc : ThreadPc} {w : Worker}
    (h : w.tickets = 0) : WorkerHonest arrived pc w := by
  rw [Worker.tickets] at h
  rw [WorkerHonest]
  cases hpc : w.pc <;> first | trivial | simp [hpc] at h

/-- **A worker reads nothing stale.** -/
theorem Genuine.workerNext (hs : Genuine s) (h : workerNext cfg i k env s = some t) :
    Genuine t := by
  have hworker := hs.worker i
  rw [WorkerHonest] at hworker
  cases workerMoves_of_workerNext h with
  | jump pc _ hto => exact hs.gotoWorker (workerHonest_of_tickets hto)
  | take k item hitem _ =>
      have htaken : Genuine { s with queue := s.queue.eraseIdx k } :=
        ⟨hs.buffer, hs.io, fun item' hitem' => hs.queue item' (List.mem_of_mem_eraseIdx hitem'),
          hs.worker, hs.sent⟩
      exact htaken.update (fun _ _ => rfl) (hs.queue item (List.mem_of_getElem? hitem))
  | enter imsi m hpc hdecoded hstep =>
      rw [hpc] at hworker
      obtain ⟨_, _, hgoto⟩ := step_call.mp hstep
      refine hs.update (fun j hji => threads_of_call hstep hji) ?_
      refine ⟨hworker, .createSession imsi.str, ⟨imsi, hdecoded, rfl⟩, ?_⟩
      rw [← hgoto, threads_goto, Function.update_self]
      rfl
  | inside env m hpc hnot hstep =>
      rw [hpc] at hworker
      obtain ⟨hcarries, c, hfor, hinside⟩ := hworker
      refine ⟨hs.buffer, hs.io, hs.queue, fun j => ?_, hs.sent⟩
      by_cases hji : j = i
      · subst hji
        have hinside' : Inside c (m.threads (.inl j)) := by
          rcases threads_of_step hstep (.inl j) with hsame | ⟨c, heq, _⟩ | ⟨_, _, hmoves⟩
          · rw [hsame]
            exact hinside
          · cases heq
          · exact hinside.moves hfor hnot hmoves
        simp only [WorkerHonest, hpc]
        exact ⟨hcarries, c, hfor, hinside'⟩
      · change WorkerHonest s.arrived (m.threads (.inl j)) (s.workers j)
        rw [threads_of_thread hstep hji]
        exact hs.worker j
  | leave c v response env m hpc hreturning hresponse hstep =>
      rw [hpc] at hworker
      obtain ⟨hcarries, c', hfor, hinside⟩ := hworker
      rw [hreturning] at hinside
      refine hs.update (fun j hji => threads_of_thread hstep hji) ⟨hcarries, ?_, hresponse⟩
      rw [show c = c' from hinside]
      exact hfor
  | respond response c v hpc =>
      rw [hpc] at hworker
      obtain ⟨⟨d, hd, hevent⟩, hfor, hresponse⟩ := hworker
      rw [hevent] at hfor ⊢
      have hanswered : Genuine (s.sendResponse
          ⟨(s.workers i).item.ticket, response, d.source, .returned c v⟩) :=
        hs.sendResponse ⟨d, hd, rfl, hfor, hresponse⟩
      exact hanswered.gotoWorker trivial
  | terminate => exact hs.terminate

omit [Fintype ω] [Fintype κ] [DecidableEq κ] in
theorem custody_gotoWorker {pc : WorkerPc}
    (h : ({ s.workers i with pc := pc } : Worker).tickets = (s.workers i).tickets) :
    custody (s.gotoWorker i pc) = custody s := by
  refine custody_eq rfl rfl (fun j => ?_) rfl rfl
  by_cases hji : j = i
  · subst hji
    simpa [Server.gotoWorker] using h
  · simp [Server.gotoWorker, hji]

/-- A worker takes a datagram from the queue, or answers the one it has. -/
theorem deals_of_workerNext (hs : Genuine s) (h : workerNext cfg i k env s = some t) :
    ∃ deals, Run Custody.Step (custody s) deals (custody t) := by
  have hworker := hs.worker i
  rw [WorkerHonest] at hworker
  cases workerMoves_of_workerNext h with
  | jump pc hfrom hto => exact run_of_eq (custody_gotoWorker (hto.trans hfrom.symm))
  | take k item hitem hfrom =>
      obtain ⟨hk, hget⟩ := List.getElem?_eq_some_iff.mp hitem
      have hperm : (item :: s.queue.eraseIdx k).Perm s.queue := by
        rw [← hget]
        exact List.getElem_cons_eraseIdx_perm hk
      refine run_of_deal (.hand .queue (.worker i) item.ticket (by simp) ?_ ?_ ?_ rfl)
      · exact (Multiset.coe_eq_coe.mpr (hperm.map Item.ticket)).symm
      · have htaken : (⟨.decode, item⟩ : Worker).tickets = {item.ticket} := rfl
        simp [custody, held, hfrom, htaken]
      · intro r hqueue hworker
        cases r with
        | worker j =>
            have hji : j ≠ i := fun heq => hworker (by rw [heq])
            simp [custody, held, hji]
        | queue => exact absurd rfl hqueue
        | _ => rfl
  | enter imsi m hpc hdecoded hstep =>
      exact run_of_eq (custody_gotoWorker (s := { s with manager := m })
        (by simp [Worker.tickets, hpc]))
  | inside env m hpc hnot hstep => exact run_of_eq rfl
  | leave c v response env m hpc hreturning hresponse hstep =>
      exact run_of_eq (custody_gotoWorker (s := { s with manager := m })
        (by simp [Worker.tickets, hpc]))
  | respond response c v hpc =>
      rw [hpc] at hworker
      obtain ⟨⟨d, hd, hevent⟩, _, _⟩ := hworker
      rw [hevent, Option.isSome_some, if_pos rfl]
      refine run_of_deal
        (.hand (.worker i) .answered (s.workers i).item.ticket (by simp) ?_ ?_ ?_ rfl)
      · simp [custody, held, Worker.tickets, hpc, Server.gotoWorker, Server.sendResponse]
      · simp [custody, held, Server.gotoWorker, Server.sendResponse]
      · intro r hworker hanswered
        cases r with
        | worker j =>
            have hji : j ≠ i := fun heq => hworker (by rw [heq])
            simp [custody, held, Server.gotoWorker, Server.sendResponse, hji]
        | answered => exact absurd rfl hanswered
        | _ => rfl
  | terminate => exact run_of_eq rfl

end Workers

/-! ## Runs -/

section Runs
variable [Fintype ω] [DecidableEq ω] [Fintype κ] [DecidableEq κ] {cfg : Config}
  {s t : Server ω κ}

/-- The other threads of the manager are in no worker's call. -/
theorem Genuine.others (hs : Genuine s) {l : Label (ω ⊕ κ)} {m : Manager (ω ⊕ κ)}
    (hl : isOther l) (h : next cfg l s.manager = some m) : Genuine { s with manager := m } := by
  refine ⟨hs.buffer, hs.io, hs.queue, fun i => ?_, hs.sent⟩
  have hsame : m.threads (.inl i) = s.manager.threads (.inl i) := by
    refine threads_of_others h ?_ ?_
    · rintro c rfl
      cases hl
    · rintro env rfl
      cases hl
  change WorkerHonest s.arrived (m.threads (.inl i)) (s.workers i)
  rw [hsame]
  exact hs.worker i

theorem serverStep_cases {l : ServerLabel ω κ} (h : ServerStep cfg s l t) :
    (∃ found, ioNext found s = some t) ∨ (∃ i k env, workerNext cfg i k env s = some t) ∨
      ∃ l m, isOther l ∧ next cfg l s.manager = some m ∧ { s with manager := m } = t := by
  rw [ServerStep] at h
  unfold serverNext at h
  split at h
  · cases h
  · cases l with
    | io found => exact Or.inl ⟨found, h⟩
    | worker i k env => exact Or.inr (Or.inl ⟨i, k, env, h⟩)
    | manager l =>
        simp only at h
        split at h
        · rename_i hother
          obtain ⟨m, hm, ht⟩ := Option.map_eq_some_iff.mp h
          exact Or.inr (Or.inr ⟨l, m, hother, hm, ht⟩)
        · cases h

theorem genuine_of_reaches (h : Reaches cfg s) : Genuine s := by
  refine h.invariant (P := Genuine) ?_ ?_
  · rintro s₀ ⟨clock, rfl⟩
    constructor
    · exact List.length_replicate
    · trivial
    · exact fun item hitem => absurd hitem List.not_mem_nil
    · exact fun i => trivial
    · exact fun a ha => absurd ha List.not_mem_nil
  · intro s l t hs hstep
    rcases serverStep_cases hstep with ⟨found, hio⟩ | ⟨i, k, env, hworker⟩ | ⟨l, m, hl, hm, rfl⟩
    · exact hs.ioNext hio
    · exact hs.workerNext hworker
    · exact hs.others hl hm

/-- **The server is a custody of its datagrams.** -/
theorem refines_custody (cfg : Config) :
    WeakSimulation (Initial cfg) (ServerStep cfg) Custody.Initial Custody.Step
      (custody : Server ω κ → Custody.Holdings (Place ω)) := by
  constructor
  · rintro s ⟨clock, rfl⟩
    refine ⟨fun p => ?_, rfl⟩
    cases p <;> rfl
  · intro s l t hreach hstep
    have hs := genuine_of_reaches hreach
    rcases serverStep_cases hstep with ⟨found, hio⟩ | ⟨i, k, env, hworker⟩ | ⟨l, m, hl, hm, rfl⟩
    · exact deals_of_ioNext hio
    · exact deals_of_workerNext hs hworker
    · exact run_of_eq rfl

end Runs

end Pgw.UdpServer
