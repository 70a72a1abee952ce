import Pgw.Lib.FrontEnd
import Pgw.Session.DrainLoop
import Pgw.System.Enforcement

/-!
# The program is one atomic service

Datagrams wait in a socket's buffer, in a queue and with a worker; HTTP requests have a
handler each; both call the session manager, whose background threads run on. Outside all
this looks like one registry of subscribers that serves one request at a time: a datagram
creates a session or is turned away by a full queue, a check reads the table, a stop starts
the shutdown.

A datagram is named by its number of arrival and a request by its own; the history consists
of their arrivals and of the answers and responses that are sent, each with the instant that
the steady clock shows. An answer says whether a full queue has turned its datagram away.

The event queue is taken to outlive the threads, as in all runs of the program.

## Main definitions

* `frontEnd` — what datagrams and requests ask of the session manager, and their answers.
* `stance` — where a datagram stands, by its place.
* `Mirrors` — where everything stands.

## Main results

* `simulates_service` — every step of the program is some moves of the atomic service.
* `service_linearizable` — whatever the program shows is linearizable.
-/
namespace Pgw.System
open TransitionSystem Linearizability
open SessionManager (Config Manager Call Value Label Ambient ThreadPc Registry registry maxTimeout)
open UdpServer (Server ServerLabel ServerStep WorkerPc Answer Item Place held custody)
open HttpServer (Parsed Request Response callOf responseOf)

/-! ## The service -/

deriving instance DecidableEq for UdpServer.Datagram

inductive Demand where
  | datagram (d : UdpServer.Datagram)
  | http (request : Request)
  deriving DecidableEq

inductive Reply where
  /-- `refused`: by a full queue, and not at the end of a call. -/
  | datagram (response : StdString) (addr : EventDispatcher.SockaddrIn) (refused : Bool)
  | http (response : Response)
  deriving DecidableEq

/-- The response to a datagram by the end of its call. -/
def answerTo : Completion Value → StdString
  | .returned (.result r) => EventDispatcher.responseTo r
  | _ => text "rejected"

/-- What the two ways into the program make of a call. Without one, a datagram may be
refused by a full queue, and a request answered with an error. -/
def frontEnd (parse : StdString → Parsed) : FrontEnd Demand Reply Call (Completion Value) where
  call
    | .datagram d =>
        match IMSI.fromBcd (d.payload.take UdpServer.bufferSize) with
        | .returned imsi => some (.createSession imsi.str)
        | _ => none
    | .http request => (callOf parse request).toOption
  reply
    | .datagram d, v => .datagram (answerTo v) d.source false
    | .http request, v => .http (responseOf request v)
  direct
    | .datagram d, reply => reply = .datagram (text "rejected") d.source true
    | .http request, reply => ∃ response, callOf parse request = .error response ∧
        reply = .http response

variable {ω κ : Type}

abbrev Shown := Event (ℕ ⊕ ℕ) Demand Reply ℤ

/-- What the steady clock shows. -/
def Gateway.now (g : Gateway ω κ) : ℤ := g.server.manager.store.clock

/-- An answer on its way, with where it comes from. -/
def replyOf (a : Answer) : Reply :=
  match a.origin with
  | .queueFull => .datagram a.response a.addr true
  | .returned _ _ => .datagram a.response a.addr false

/-- What is seen on the network between two states: arrivals, answers and responses. -/
def seen (g g' : Gateway ω κ) : List Shown :=
  (g'.server.arrived.drop g.server.arrived.length).map
      (fun d => .invoke (.inl g.server.arrived.length) (.datagram d) g.now) ++
    (g'.server.sent.drop g.server.sent.length).map
      (fun a => .respond (.inl a.ticket) (replyOf a) g.now) ++
    (g'.exchanges.drop g.exchanges.length).map
      (fun e => .respond (.inr e.number) (.http e.response) g.now)

/-- A request is seen when its handler begins. -/
def begun (g : Gateway ω κ) : GatewayLabel ω κ → List Shown
  | .request _ request => [.invoke (.inr g.requests) (.http request) g.now]
  | _ => []

/-- What a step shows. -/
def shows [Fintype ω] [DecidableEq ω] [Fintype κ] [DecidableEq κ] (parse : StdString → Parsed)
    (cfg : Config) (g : Gateway ω κ) (l : GatewayLabel ω κ) : List Shown :=
  begun g l ++ (gatewayNext parse cfg l g).elim [] (seen g)

/-! ## Where the datagrams stand -/

abbrev Stance (ω κ : Type) := Linearizability.Status (ω ⊕ κ) Demand Reply ℤ

/-- A datagram by the place that has it, with the instant of its arrival. -/
def stance (s : Server ω κ) (d : UdpServer.Datagram) (since : ℤ) : Place ω → Stance ω κ
  | .answered => .idle
  | .worker i =>
      match (s.workers i).pc with
      | .call => .inside (.datagram d) since (.inl i)
      | .respond response _ _ => .finished (.datagram d) (.datagram response d.source false)
      | _ => .waiting (.datagram d) since
  | _ => .waiting (.datagram d) since

/-- Every datagram stands where its place says, since an instant in the past. -/
structure Placed (s : Server ω κ) (st : ℕ ⊕ ℕ → Stance ω κ) : Prop where
  stands : ∀ p t, t ∈ held s p → ∃ d since, s.arrived[t]? = some d ∧
    since ≤ s.manager.store.clock ∧ st (.inl t) = stance s d since p
  unborn : ∀ t, s.arrived.length ≤ t → st (.inl t) = .idle

namespace Placed
variable {s t : Server ω κ} {st : ℕ ⊕ ℕ → Stance ω κ} {ticket : ℕ} {d : UdpServer.Datagram}
  {since : ℤ} {p : Place ω}

theorem at_place (h : Placed s st) (hp : ticket ∈ held s p) (hd : s.arrived[ticket]? = some d) :
    ∃ since ≤ s.manager.store.clock, st (.inl ticket) = stance s d since p := by
  obtain ⟨d', since, hd', hpast, hst⟩ := h.stands p ticket hp
  cases hd.symm.trans hd'
  exact ⟨since, hpast, hst⟩

/-- Of the manager only the clock matters. -/
theorem withManager (h : Placed s st) {m : Manager (ω ⊕ κ)}
    (hclock : s.manager.store.clock ≤ m.store.clock) : Placed { s with manager := m } st := by
  refine ⟨fun p ticket hp => ?_, h.unborn⟩
  obtain ⟨d, since, hd, hpast, hst⟩ := h.stands p ticket hp
  exact ⟨d, since, hd, hpast.trans hclock, hst⟩

theorem update_inr (h : Placed s st) (n : ℕ) (status : Stance ω κ) :
    Placed s (Function.update st (.inr n) status) :=
  ⟨h.stands, h.unborn⟩

/-- Datagrams that change places without a change of their stance. -/
theorem moved (h : Placed s st) (harrived : t.arrived = s.arrived)
    (hmanager : t.manager = s.manager)
    (hplaces : ∀ p ticket, ticket ∈ held t p → ∃ q, ticket ∈ held s q ∧
      ∀ d since, stance t d since p = stance s d since q) : Placed t st := by
  constructor
  · intro p ticket hp
    obtain ⟨q, hq, hsame⟩ := hplaces p ticket hp
    obtain ⟨d, since, hd, hpast, hst⟩ := h.stands q ticket hq
    exact ⟨d, since, harrived ▸ hd, hmanager ▸ hpast, by rw [hst, hsame]⟩
  · intro ticket hticket
    exact h.unborn ticket (harrived ▸ hticket)

/-- One datagram changes its stance. -/
theorem restand (h : Placed s st) (hexclusive : Custody.Exclusive (custody t))
    (harrived : t.arrived = s.arrived) (hmanager : t.manager = s.manager)
    (hp : ticket ∈ held t p) (hd : s.arrived[ticket]? = some d)
    (hsince : since ≤ s.manager.store.clock)
    (hothers : ∀ q other, other ∈ held t q → other ≠ ticket →
      ∃ q', other ∈ held s q' ∧ ∀ d since, stance t d since q = stance s d since q') :
    Placed t (Function.update st (.inl ticket) (stance t d since p)) := by
  constructor
  · intro q other hq
    by_cases hother : other = ticket
    · subst hother
      rw [hexclusive.apart q p other hq hp]
      exact ⟨d, since, harrived ▸ hd, hmanager ▸ hsince, Function.update_self ..⟩
    · obtain ⟨q', hq', hsame⟩ := hothers q other hq hother
      obtain ⟨d', since', hd', hpast, hst⟩ := h.stands q' other hq'
      refine ⟨d', since', harrived ▸ hd', hmanager ▸ hpast, ?_⟩
      rw [Function.update_of_ne (by simpa using hother), hst, hsame]
  · intro other hlate
    have hlt : ticket < s.arrived.length := (List.getElem?_eq_some_iff.mp hd).1
    have hother : other ≠ ticket := by
      rw [harrived] at hlate
      omega
    rw [Function.update_of_ne (by simpa using hother)]
    exact h.unborn other (harrived ▸ hlate)

/-- A datagram arrives at the I/O thread. -/
theorem arrive (h : Placed s st) (hio : t.io.pc.tickets = {s.arrived.length})
    (harrived : t.arrived = s.arrived ++ [d]) (hmanager : t.manager = s.manager)
    (hqueue : t.queue = s.queue) (hworkers : t.workers = s.workers) (hsent : t.sent = s.sent) :
    Placed t (Function.update st (.inl s.arrived.length)
      (.waiting (.datagram d) s.manager.store.clock)) := by
  have hold : ∀ p other, other ∈ held s p →
      (∀ d' since, stance t d' since p = stance s d' since p) →
      ∃ d' since, t.arrived[other]? = some d' ∧ since ≤ t.manager.store.clock ∧
        Function.update st (.inl s.arrived.length)
          (.waiting (.datagram d) s.manager.store.clock) (.inl other) = stance t d' since p := by
    intro p other hp hsame
    obtain ⟨d', since, hd', hpast, hst⟩ := h.stands p other hp
    have hne : other ≠ s.arrived.length :=
      Nat.ne_of_lt (List.getElem?_eq_some_iff.mp hd').1
    refine ⟨d', since, harrived ▸ UdpServer.getElem?_of_arrived d hd', hmanager ▸ hpast, ?_⟩
    rw [Function.update_of_ne (by simpa using hne), hst, hsame]
  constructor
  · intro p other hp
    cases p with
    | io =>
        have hother : other = s.arrived.length := by simpa [held, hio] using hp
        subst hother
        exact ⟨d, s.manager.store.clock, by simp [harrived], hmanager ▸ le_refl _,
          Function.update_self ..⟩
    | queue => exact hold .queue other (by simpa [held, hqueue] using hp) fun _ _ => rfl
    | worker i =>
        refine hold (.worker i) other (by simpa [held, hworkers] using hp) fun d' since => ?_
        simp only [stance, hworkers]
    | answered => exact hold .answered other (by simpa [held, hsent] using hp) fun _ _ => rfl
  · intro other hlate
    have hlength : t.arrived.length = s.arrived.length + 1 := by simp [harrived]
    have hne : other ≠ s.arrived.length := by omega
    rw [Function.update_of_ne (by simpa using hne)]
    exact h.unborn other (by omega)

/-- Where only one worker moves, a datagram elsewhere stands as before. -/
theorem elsewhere {i : ω} {other : ℕ} (hother : other ∈ held t p) (hp : p ≠ .worker i)
    (hio : t.io = s.io) (hworkers : ∀ j, j ≠ i → t.workers j = s.workers j)
    (hqueue : other ∈ held t .queue → other ∈ held s .queue)
    (hsent : other ∈ held t .answered → other ∈ held s .answered) :
    ∃ q, other ∈ held s q ∧ ∀ d since, stance t d since p = stance s d since q := by
  refine ⟨p, ?_⟩
  cases p with
  | io => exact ⟨by simpa [held, hio] using hother, fun _ _ => rfl⟩
  | queue => exact ⟨hqueue hother, fun _ _ => rfl⟩
  | worker j =>
      have hsame := hworkers j fun heq => hp (by rw [heq])
      exact ⟨by simpa [held, hsame] using hother, fun d since => by simp only [stance, hsame]⟩
  | answered => exact ⟨hsent hother, fun _ _ => rfl⟩

/-- The I/O thread gives away no more than it has, and only to the queue. -/
theorem pass (h : Placed s st) (hio : ∀ x, x ∈ held t .io → x ∈ held s .io)
    (hqueue : ∀ x, x ∈ held t .queue → x ∈ held s .queue ∨ x ∈ held s .io)
    (harrived : t.arrived = s.arrived) (hmanager : t.manager = s.manager)
    (hworkers : t.workers = s.workers) (hsent : t.sent = s.sent) : Placed t st := by
  refine h.moved harrived hmanager fun p other hother => ?_
  cases p with
  | io => exact ⟨.io, hio other hother, fun _ _ => rfl⟩
  | queue =>
      rcases hqueue other hother with hqueued | hgiven
      · exact ⟨.queue, hqueued, fun _ _ => rfl⟩
      · exact ⟨.io, hgiven, fun _ _ => rfl⟩
  | worker i =>
      refine ⟨.worker i, ?_, fun d since => by simp only [stance, hworkers]⟩
      simpa [held, hworkers] using hother
  | answered => exact ⟨.answered, by simpa [held, hsent] using hother, fun _ _ => rfl⟩

/-- The I/O thread refuses the datagram in its hands. -/
theorem refuse (h : Placed s st) {a : Answer} {pc : UdpServer.IoPc} (hto : pc.tickets = 0)
    (hexclusive : Custody.Exclusive (custody ((s.sendResponse a).gotoIo pc)))
    (hd : s.arrived[a.ticket]? = some d) :
    Placed ((s.sendResponse a).gotoIo pc) (Function.update st (.inl a.ticket) .idle) := by
  refine h.restand (p := .answered) hexclusive rfl rfl ?_ hd (le_refl _) ?_
  · simp [held, Server.gotoIo, Server.sendResponse]
  · intro q other hother hne
    refine ⟨q, ?_, fun d' since => by cases q <;> rfl⟩
    cases q with
    | io => simp [held, Server.gotoIo, hto] at hother
    | answered => simpa [held, Server.gotoIo, Server.sendResponse, hne] using hother
    | _ => exact hother

section Workers
variable [DecidableEq ω] {i : ω} {pc : WorkerPc}

/-- A worker with no datagram in its hands moves on. -/
theorem jump (h : Placed s st)
    (hto : ({ s.workers i with pc := pc } : UdpServer.Worker).tickets = 0) :
    Placed (s.gotoWorker i pc) st := by
  refine h.moved rfl rfl fun p other hother => ?_
  by_cases hp : p = .worker i
  · subst hp
    simp [held, Server.gotoWorker, hto] at hother
  · refine elsewhere hother hp rfl (fun j hji => ?_) id id
    simp [Server.gotoWorker, hji]

/-- A worker takes a datagram from the queue. -/
theorem take (h : Placed s st) {k : ℕ} {item : Item} (hitem : s.queue[k]? = some item) :
    Placed { s with
      queue := s.queue.eraseIdx k
      workers := Function.update s.workers i ⟨.decode, item⟩ } st := by
  refine h.moved rfl rfl fun p other hother => ?_
  by_cases hp : p = .worker i
  · subst hp
    have hother : other = item.ticket := by
      simpa [held, UdpServer.Worker.tickets] using hother
    refine ⟨.queue, ?_, fun d since => by simp [stance]⟩
    rw [hother]
    exact Multiset.mem_coe.mpr (List.mem_map_of_mem (List.mem_of_getElem? hitem))
  · refine elsewhere hother hp rfl (fun j hji => ?_) (fun hqueue => ?_) id
    · simp [hji]
    · obtain ⟨item', hitem', hticket⟩ := List.mem_map.mp (Multiset.mem_coe.mp hqueue)
      exact Multiset.mem_coe.mpr
        (List.mem_map.mpr ⟨item', List.mem_of_mem_eraseIdx hitem', hticket⟩)

/-- A worker goes on with the datagram in its hands. -/
theorem handle (h : Placed s st) (hexclusive : Custody.Exclusive (custody (s.gotoWorker i pc)))
    (hd : s.arrived[(s.workers i).item.ticket]? = some d)
    (hsince : since ≤ s.manager.store.clock)
    (hto : ({ s.workers i with pc := pc } : UdpServer.Worker).tickets =
      {(s.workers i).item.ticket}) :
    Placed (s.gotoWorker i pc) (Function.update st (.inl (s.workers i).item.ticket)
      (stance (s.gotoWorker i pc) d since (.worker i))) := by
  refine h.restand hexclusive rfl rfl (by simp [held, Server.gotoWorker, hto]) hd hsince ?_
  intro q other hother hne
  by_cases hq : q = .worker i
  · subst hq
    exact absurd (by simpa [held, Server.gotoWorker, hto] using hother) hne
  · refine elsewhere hother hq rfl (fun j hji => ?_) id id
    simp [Server.gotoWorker, hji]

/-- A worker answers the datagram in its hands. -/
theorem answer (h : Placed s st) {a : Answer}
    (hexclusive : Custody.Exclusive (custody ((s.sendResponse a).gotoWorker i .testStop)))
    (hd : s.arrived[a.ticket]? = some d) :
    Placed ((s.sendResponse a).gotoWorker i .testStop)
      (Function.update st (.inl a.ticket) .idle) := by
  refine h.restand (p := .answered) hexclusive rfl rfl ?_ hd (le_refl _) ?_
  · simp [held, Server.gotoWorker, Server.sendResponse]
  · intro q other hother hne
    by_cases hq : q = .worker i
    · subst hq
      simp [held, Server.gotoWorker, UdpServer.Worker.tickets] at hother
    · refine elsewhere hother hq rfl (fun j hji => ?_) id fun hsent => ?_
      · simp [Server.gotoWorker, Server.sendResponse, hji]
      · simpa [held, Server.gotoWorker, Server.sendResponse, hne] using hsent

end Workers

end Placed

/-! ## Where the requests stand -/

/-- Every request of a handler is inside its call, and the numbers to come are free. -/
structure Handled (handlers : κ → Option (ℕ × Request)) (requests : ℕ)
    (st : ℕ ⊕ ℕ → Stance ω κ) : Prop where
  stands : ∀ k number request, handlers k = some (number, request) →
    ∃ since, st (.inr number) = .inside (.http request) since (.inr k)
  unborn : ∀ number, requests ≤ number → st (.inr number) = .idle

namespace Handled
variable {handlers : κ → Option (ℕ × Request)} {requests number : ℕ}
  {st : ℕ ⊕ ℕ → Stance ω κ} {k : κ} {request : Request}

theorem update_inl (h : Handled handlers requests st) (ticket : ℕ) (status : Stance ω κ) :
    Handled handlers requests (Function.update st (.inl ticket) status) :=
  ⟨h.stands, h.unborn⟩

/-- A request that comes and goes. -/
theorem succ (h : Handled handlers requests st) : Handled handlers (requests + 1) st :=
  ⟨h.stands, fun number hlate => h.unborn number (by omega)⟩

variable [DecidableEq κ]

theorem enter (h : Handled handlers requests st) (k : κ) (request : Request) (since : ℤ) :
    Handled (Function.update handlers k (some (requests, request))) (requests + 1)
      (Function.update st (.inr requests) (.inside (.http request) since (.inr k))) := by
  constructor
  · intro j number r hj
    by_cases hjk : j = k
    · subst hjk
      simp only [Function.update_self, Option.some.injEq, Prod.mk.injEq] at hj
      obtain ⟨rfl, rfl⟩ := hj
      exact ⟨since, Function.update_self ..⟩
    · rw [Function.update_of_ne hjk] at hj
      obtain ⟨since', hold⟩ := h.stands j number r hj
      have hne : number ≠ requests := by
        rintro rfl
        rw [h.unborn number (le_refl _)] at hold
        cases hold
      exact ⟨since', by rw [Function.update_of_ne (by simpa using hne), hold]⟩
  · intro number hlate
    have hne : number ≠ requests := by omega
    rw [Function.update_of_ne (by simpa using hne)]
    exact h.unborn number (by omega)

theorem leave (h : Handled handlers requests st) (hk : handlers k = some (number, request)) :
    Handled (Function.update handlers k none) requests
      (Function.update st (.inr number) .idle) := by
  obtain ⟨since, hinside⟩ := h.stands k number request hk
  constructor
  · intro j n r hj
    by_cases hjk : j = k
    · simp [hjk] at hj
    · rw [Function.update_of_ne hjk] at hj
      obtain ⟨since', hold⟩ := h.stands j n r hj
      have hne : n ≠ number := by
        rintro rfl
        rw [hold] at hinside
        cases hinside
        exact hjk rfl
      exact ⟨since', by rw [Function.update_of_ne (by simpa using hne), hold]⟩
  · intro n hlate
    by_cases hn : n = number
    · rw [hn, Function.update_self]
    · rw [Function.update_of_ne (by simpa using hn)]
      exact h.unborn n hlate

end Handled

/-! ## Steps -/

variable [Fintype ω] [Fintype κ]

/-- Everything stands where its place says, and so do the threads of the manager. -/
structure Mirrors (parse : StdString → Parsed) (g : Gateway ω κ) (st : ℕ ⊕ ℕ → Stance ω κ) :
    Prop where
  attended : Attended (frontEnd parse) g.server.manager.view st
  placed : Placed g.server st
  handled : Handled g.handlers g.requests st

/-- The program as the atomic service. -/
def Gateway.view (parse : StdString → Parsed) (g : Gateway ω κ) (st : ℕ ⊕ ℕ → Stance ω κ) :
    Machine (ℕ ⊕ ℕ) Demand Reply Registry ℤ :=
  (frontEnd parse).view g.server.manager.view st

/-- The service can show the events and get to where the program got. -/
def Mirrored (parse : StdString → Parsed) (cfg : Config) (g g' : Gateway ω κ)
    (st : ℕ ⊕ ℕ → Stance ω κ) (events : List Shown) : Prop :=
  ∃ st', Performs ((frontEnd parse).serve (registry cfg)) (g.view parse st) events
    (g'.view parse st') ∧ Mirrors parse g' st'

omit [Fintype ω] [Fintype κ] in
theorem seen_eq_nil {g g' : Gateway ω κ} (harrived : g'.server.arrived = g.server.arrived)
    (hsent : g'.server.sent = g.server.sent) (hexchanges : g'.exchanges = g.exchanges) :
    seen g g' = [] := by
  simp [seen, harrived, hsent, hexchanges]

omit [Fintype ω] [Fintype κ] in
theorem seen_of_sent (g : Gateway ω κ) {server : Server ω κ} (a : Answer)
    (harrived : server.arrived = g.server.arrived) (hsent : server.sent = g.server.sent ++ [a]) :
    seen g { g with server := server } =
      [.respond (.inl a.ticket) (replyOf a) g.now] := by
  simp [seen, harrived, hsent]

section Steps
variable {parse : StdString → Parsed} {cfg : Config} {g : Gateway ω κ}
  {server : Server ω κ} {st : ℕ ⊕ ℕ → Stance ω κ}

/-- A step that nobody sees, in which no stance changes. -/
theorem mirrored_of_placed (hs : Mirrors parse g st)
    (hmanager : server.manager.view = g.server.manager.view) (hplaced : Placed server st)
    (harrived : server.arrived = g.server.arrived) (hsent : server.sent = g.server.sent) :
    Mirrored parse cfg g { g with server := server } st (seen g { g with server := server }) := by
  refine ⟨st, ?_, ⟨hmanager ▸ hs.attended, hplaced, hs.handled⟩⟩
  have hnothing : seen g { g with server := server } = [] := seen_eq_nil harrived hsent rfl
  rw [hnothing]
  exact .of_eq (by simp only [Gateway.view, hmanager])

/-- **The I/O thread.** -/
theorem mirrored_io (hs : Mirrors parse g st) (hgenuine : UdpServer.Genuine g.server)
    (hexclusive : Custody.Exclusive (custody server)) (h : UdpServer.IoMoves g.server server) :
    Mirrored parse cfg g { g with server := server } st (seen g { g with server := server }) := by
  have hio := hgenuine.io
  rw [UdpServer.IoHonest] at hio
  cases h with
  | jump pc clientAddr hfrom hto =>
      refine mirrored_of_placed hs rfl (hs.placed.pass ?_ ?_ rfl rfl rfl rfl) rfl rfl
      · exact fun x hx => by simp [held, hto] at hx
      · exact fun x hx => Or.inl hx
  | receive d hpc =>
      have hidle : st (.inl g.server.arrived.length) = .idle := hs.placed.unborn _ (le_refl _)
      refine ⟨_, ?_, ?_, hs.placed.arrive rfl rfl rfl rfl rfl rfl, hs.handled.update_inl _ _⟩
      · have hseen : seen g { g with server := { g.server with
            io := ⟨.build g.server.arrived.length (min d.payload.length g.server.io.buffer.length),
              UdpServer.overwrite g.server.io.buffer d.payload, d.source⟩
            arrived := g.server.arrived ++ [d] } } =
            [.invoke (.inl g.server.arrived.length) (.datagram d) g.now] := by
          simp [seen]
        rw [hseen]
        exact performs_arrive hidle _
      · exact hs.attended.update (by simp [hidle]) (by simp)
  | build ticket recv hpc =>
      refine mirrored_of_placed hs rfl (hs.placed.pass ?_ ?_ rfl rfl rfl rfl) rfl rfl
      · exact fun x hx => by simpa [held, Server.gotoIo, hpc, UdpServer.IoPc.tickets] using hx
      · exact fun x hx => Or.inl hx
  | enqueue item hpc =>
      refine mirrored_of_placed hs rfl (hs.placed.pass ?_ ?_ rfl rfl rfl rfl) rfl rfl
      · exact fun x hx => by simp [held, Server.gotoIo, UdpServer.IoPc.tickets] at hx
      · intro x hx
        simpa [held, Server.gotoIo, hpc, UdpServer.IoPc.tickets, or_and_right, exists_or] using hx
  | full item hpc =>
      refine mirrored_of_placed hs rfl (hs.placed.pass ?_ ?_ rfl rfl rfl rfl) rfl rfl
      · exact fun x hx => by simpa [held, Server.gotoIo, hpc, UdpServer.IoPc.tickets] using hx
      · exact fun x hx => Or.inl hx
  | refuse ticket hpc =>
      rw [hpc] at hio
      obtain ⟨d, hd, haddr⟩ := hio
      have hticket : ticket ∈ held g.server .io := by simp [held, hpc, UdpServer.IoPc.tickets]
      obtain ⟨since, _, hwaiting⟩ := hs.placed.at_place hticket hd
      replace hwaiting : st (.inl ticket) = .waiting (.datagram d) since := hwaiting
      rw [haddr] at hexclusive ⊢
      refine ⟨_, ?_, ?_, hs.placed.refuse rfl hexclusive hd, hs.handled.update_inl _ _⟩
      · rw [seen_of_sent g ⟨ticket, text "rejected", d.source, .queueFull⟩]
        · exact performs_dismiss hwaiting rfl
        · rfl
        · rfl
      · exact hs.attended.update (by simp [hwaiting]) (by simp)
  | fail hpc => exact mirrored_of_placed hs rfl ⟨hs.placed.stands, hs.placed.unborn⟩ rfl rfl

omit [Fintype ω] [Fintype κ] in
/-- The bytes in a worker's hands are those of a datagram. -/
theorem carries_of_tickets (hgenuine : UdpServer.Genuine g.server) {i : ω}
    (hhas : (g.server.workers i).tickets ≠ 0) :
    UdpServer.Carries g.server.arrived (g.server.workers i).item := by
  have hworker := hgenuine.worker i
  rw [UdpServer.WorkerHonest] at hworker
  rw [UdpServer.Worker.tickets] at hhas
  cases hpc : (g.server.workers i).pc <;> rw [hpc] at hworker hhas
  case decode => exact hworker
  case call => exact hworker.1
  case respond => exact hworker.1
  all_goals exact absurd rfl hhas

omit [Fintype ω] [Fintype κ] in
/-- What the workers reply is what the front end answers. -/
theorem answerTo_of_replyTo {v : Completion Value} {response : StdString}
    (h : UdpServer.replyTo v = some response) : answerTo v = response := by
  cases v with
  | returned value =>
      cases value with
      | result r => exact Option.some.inj h
      | _ => cases h
  | raised what => exact Option.some.inj h
  | terminated => cases h

section Workers
variable [DecidableEq ω] [DecidableEq κ] {i : ω}

/-- A call that goes on inside the manager. -/
theorem mirrored_inside (hpos : 0 ≤ cfg.sessionTimeout) (hmax : cfg.sessionTimeout ≤ maxTimeout)
    (hs : Mirrors parse g st) {l : Label (ω ⊕ κ)} {m : Manager (ω ⊕ κ)}
    (horderly : SessionManager.Orderly g.server.manager)
    (hstep : SessionManager.Step cfg g.server.manager l m)
    (hsilent : SessionManager.shows g.server.manager l = []) :
    Mirrored parse cfg g { g with server := { g.server with manager := m } } st [] := by
  have hperforms := SessionManager.performs_step hpos hmax horderly hstep
  rw [hsilent] at hperforms
  obtain ⟨hservice, hattended⟩ := hs.attended.performs hperforms
  have hclock := SessionManager.clock_of_step hstep
  exact ⟨st, hservice, hattended, hs.placed.withManager hclock, hs.handled⟩

/-- A worker begins the call that the datagram in its hands asks for. -/
theorem mirrored_enter (hs : Mirrors parse g st) (hgenuine : UdpServer.Genuine g.server)
    {imsi : IMSI} {m : Manager (ω ⊕ κ)} (hpc : (g.server.workers i).pc = .decode)
    (hdecoded : IMSI.fromBcd (g.server.workers i).item.event.data = .returned imsi)
    (hstep : SessionManager.Step cfg g.server.manager (.call (.inl i) (.createSession imsi.str)) m)
    (hexclusive : Custody.Exclusive
      (custody ({ g.server with manager := m }.gotoWorker i .call))) :
    Mirrored parse cfg g { g with server := { g.server with manager := m }.gotoWorker i .call }
      st [] := by
  obtain ⟨d, hd, hevent⟩ := carries_of_tickets (i := i) hgenuine (by
    simp [UdpServer.Worker.tickets, hpc])
  have hhas : (g.server.workers i).item.ticket ∈ held g.server (.worker i) := by
    simp [held, UdpServer.Worker.tickets, hpc]
  obtain ⟨since, hpast, hstands⟩ := hs.placed.at_place hhas hd
  have hwaiting : st (.inl (g.server.workers i).item.ticket) = .waiting (.datagram d) since := by
    rw [hstands]
    simp [stance, hpc]
  have hcall : (frontEnd parse).call (.datagram d) = some (.createSession imsi.str) := by
    rw [hevent] at hdecoded
    simp [frontEnd, hdecoded]
  obtain ⟨hidle, hview⟩ := SessionManager.view_call hstep
  have hclock := SessionManager.clock_of_step hstep
  have hplaced := (hs.placed.withManager hclock).handle hexclusive hd (hpast.trans hclock) rfl
  have hstance : stance ({ g.server with manager := m }.gotoWorker i .call) d since (.worker i) =
      .inside (.datagram d) since (.inl i) := by
    simp [stance, Server.gotoWorker]
  rw [hstance] at hplaced
  refine ⟨_, ?_, ?_, hplaced, hs.handled.update_inl _ _⟩
  · apply Performs.of_eq
    change (frontEnd parse).view m.view _ = _
    rw [hview, view_enter hs.attended _ hidle, ← hwaiting, Function.update_eq_self]
    rfl
  · change Attended (frontEnd parse) m.view _
    rw [hview]
    exact hs.attended.enter (by simp [hwaiting]) hcall hpast hidle

/-- A worker takes the result of its call. -/
theorem mirrored_leave (hs : Mirrors parse g st) (hgenuine : UdpServer.Genuine g.server)
    {c : Call} {v : Completion Value} {response : StdString} {env : Ambient}
    {m : Manager (ω ⊕ κ)} (hpc : (g.server.workers i).pc = .call)
    (hreturning : g.server.manager.threads (.inl i) = .returning c v)
    (hresponse : UdpServer.replyTo v = some response)
    (hstep : SessionManager.Step cfg g.server.manager (.thread (.inl i) env) m)
    (hexclusive : Custody.Exclusive
      (custody ({ g.server with manager := m }.gotoWorker i (.respond response c v)))) :
    Mirrored parse cfg g { g with
      server := { g.server with manager := m }.gotoWorker i (.respond response c v) } st [] := by
  obtain ⟨d, hd, hevent⟩ := carries_of_tickets (i := i) hgenuine (by
    simp [UdpServer.Worker.tickets, hpc])
  have hhas : (g.server.workers i).item.ticket ∈ held g.server (.worker i) := by
    simp [held, UdpServer.Worker.tickets, hpc]
  obtain ⟨since, hpast, hstands⟩ := hs.placed.at_place hhas hd
  have hinside : st (.inl (g.server.workers i).item.ticket) =
      .inside (.datagram d) since (.inl i) := by
    rw [hstands]
    simp [stance, hpc]
  have hdone : g.server.manager.view.phases (.inl i) = .done c v := by
    rw [SessionManager.phases_view, hreturning]
    rfl
  have hview := SessionManager.view_return (SessionManager.step_thread.mp hstep).2 hreturning
  have hclock := SessionManager.clock_of_step hstep
  have hplaced := (hs.placed.withManager hclock).handle hexclusive hd (hpast.trans hclock) rfl
  have hstance : stance ({ g.server with manager := m }.gotoWorker i (.respond response c v)) d
      since (.worker i) = .finished (.datagram d) ((frontEnd parse).reply (.datagram d) v) := by
    simp [stance, Server.gotoWorker, frontEnd, answerTo_of_replyTo hresponse]
  rw [hstance] at hplaced
  refine ⟨_, ?_, ?_, hplaced, hs.handled.update_inl _ _⟩
  · apply Performs.of_eq
    change (frontEnd parse).view m.view _ = _
    rw [hview, view_leave hs.attended hinside hdone]
    rfl
  · change Attended (frontEnd parse) m.view _
    rw [hview]
    exact hs.attended.leave hinside (by simp)

/-- **The workers.** -/
theorem mirrored_worker (hpos : 0 ≤ cfg.sessionTimeout) (hmax : cfg.sessionTimeout ≤ maxTimeout)
    (hs : Mirrors parse g st) (hgenuine : UdpServer.Genuine g.server)
    (hexclusive : Custody.Exclusive (custody server))
    (horderly : SessionManager.Orderly g.server.manager)
    (h : UdpServer.WorkerMoves cfg i g.server server) :
    Mirrored parse cfg g { g with server := server } st (seen g { g with server := server }) := by
  cases h with
  | jump pc hfrom hto => exact mirrored_of_placed hs rfl (hs.placed.jump hto) rfl rfl
  | take k item hitem hfrom => exact mirrored_of_placed hs rfl (hs.placed.take hitem) rfl rfl
  | enter imsi m hpc hdecoded hstep =>
      have hmirrored := mirrored_enter hs hgenuine hpc hdecoded hstep hexclusive
      rwa [← seen_eq_nil rfl rfl rfl] at hmirrored
  | inside env m hpc hnot hstep =>
      have hmirrored := mirrored_inside hpos hmax hs horderly hstep
        (SessionManager.shows_eq_nil hnot)
      rwa [← seen_eq_nil rfl rfl rfl] at hmirrored
  | leave c v response env m hpc hreturning hresponse hstep =>
      have hmirrored := mirrored_leave hs hgenuine hpc hreturning hresponse hstep hexclusive
      rwa [← seen_eq_nil rfl rfl rfl] at hmirrored
  | respond response c v hpc =>
      obtain ⟨d, hd, hevent⟩ := carries_of_tickets (i := i) hgenuine (by
        simp [UdpServer.Worker.tickets, hpc])
      have hhas : (g.server.workers i).item.ticket ∈ held g.server (.worker i) := by
        simp [held, UdpServer.Worker.tickets, hpc]
      have hfinished : st (.inl (g.server.workers i).item.ticket) =
          .finished (.datagram d) (.datagram response d.source false) := by
        obtain ⟨since, _, hstands⟩ := hs.placed.at_place hhas hd
        rw [hstands]
        simp [stance, hpc]
      simp only [hevent, Option.isSome_some, if_true] at hexclusive ⊢
      refine ⟨_, ?_, ?_, hs.placed.answer hexclusive hd, hs.handled.update_inl _ _⟩
      · rw [seen_of_sent g ⟨(g.server.workers i).item.ticket, response, d.source, .returned c v⟩]
        · exact performs_respond hfinished
        · rfl
        · rfl
      · exact hs.attended.update (by simp [hfinished]) (by simp)
  | terminate => exact mirrored_of_placed hs rfl ⟨hs.placed.stands, hs.placed.unborn⟩ rfl rfl

end Workers

/-! ## Requests -/

section Requests
variable {k : κ} {request : Request}

/-- A request that is answered without a call. -/
theorem mirrored_refusal (hs : Mirrors parse g st) {response : Response}
    (hcall : callOf parse request = .error response) :
    Mirrored parse cfg g { g with
        requests := g.requests + 1
        exchanges := g.exchanges ++ [⟨g.requests, request, response⟩] } st
      [.invoke (.inr g.requests) (.http request) g.now,
        .respond (.inr g.requests) (.http response) g.now] := by
  have hidle : st (.inr g.requests) = .idle := hs.handled.unborn _ (le_refl _)
  refine ⟨st, ?_, hs.attended, hs.placed, hs.handled.succ⟩
  have harrived : Performs ((frontEnd parse).serve (registry cfg)) (g.view parse st)
      [.invoke (.inr g.requests) (.http request) g.now]
      (g.view parse (Function.update st (.inr g.requests) (.waiting (.http request) g.now))) :=
    performs_arrive hidle _
  have hanswered := harrived.append (performs_dismiss (b := .http response)
    (Function.update_self ..) ⟨response, hcall, rfl⟩)
  rw [Function.update_idem, ← hidle, Function.update_eq_self] at hanswered
  exact hanswered

variable [DecidableEq ω] [DecidableEq κ]

/-- A handler begins the call that its request asks for. -/
theorem mirrored_request (hs : Mirrors parse g st) {c : Call} {m : Manager (ω ⊕ κ)}
    (hcall : callOf parse request = .ok c)
    (hstep : SessionManager.Step cfg g.server.manager (.call (.inr k) c) m) :
    Mirrored parse cfg g { g with
        server := { g.server with manager := m }
        handlers := Function.update g.handlers k (some (g.requests, request))
        requests := g.requests + 1 } st [.invoke (.inr g.requests) (.http request) g.now] := by
  have hnew : st (.inr g.requests) = .idle := hs.handled.unborn _ (le_refl _)
  have hasks : (frontEnd parse).call (.http request) = some c := by
    simp [frontEnd, hcall, Except.toOption]
  obtain ⟨hidle, hview⟩ := SessionManager.view_call hstep
  have hclock := SessionManager.clock_of_step hstep
  refine ⟨_, ?_, ?_, (hs.placed.withManager hclock).update_inr _ _,
    hs.handled.enter k request g.now⟩
  · change Performs _ _ _ ((frontEnd parse).view m.view _)
    rw [hview, view_enter hs.attended _ hidle]
    exact performs_arrive hnew _
  · change Attended (frontEnd parse) m.view _
    rw [hview]
    exact hs.attended.enter (by simp [hnew]) hasks (le_refl _) hidle

/-- A handler answers. -/
theorem mirrored_response (hs : Mirrors parse g st) {number : ℕ} {c : Call}
    {v : Completion Value} {env : Ambient} {m : Manager (ω ⊕ κ)}
    (hserving : g.handlers k = some (number, request))
    (hreturning : g.server.manager.threads (.inr k) = .returning c v)
    (hstep : SessionManager.Step cfg g.server.manager (.thread (.inr k) env) m) :
    Mirrored parse cfg g { g with
        server := { g.server with manager := m }
        handlers := Function.update g.handlers k none
        exchanges := g.exchanges ++ [⟨number, request, responseOf request v⟩] } st
      [.respond (.inr number) (.http (responseOf request v)) g.now] := by
  obtain ⟨since, hinside⟩ := hs.handled.stands k number request hserving
  have hdone : g.server.manager.view.phases (.inr k) = .done c v := by
    rw [SessionManager.phases_view, hreturning]
    rfl
  have hview := SessionManager.view_return (SessionManager.step_thread.mp hstep).2 hreturning
  have hclock := SessionManager.clock_of_step hstep
  refine ⟨_, ?_, ?_, (hs.placed.withManager hclock).update_inr _ _, hs.handled.leave hserving⟩
  · change Performs _ _ _ ((frontEnd parse).view m.view _)
    rw [hview]
    exact hs.attended.performs_return hinside hdone
  · change Attended (frontEnd parse) m.view _
    rw [hview]
    exact hs.attended.leave hinside (by simp)

end Requests

end Steps

/-! ## Runs -/

section Program
variable [DecidableEq ω] [DecidableEq κ] {parse : StdString → Parsed} {cfg : Config}
  {g g' : Gateway ω κ}

/-- **The manager of the program is in an orderly run**, as long as the process lives:
nobody is blacklisted. -/
theorem orderly_of_alive (h : Reachable (Gateway.Initial cfg) (GatewayStep parse cfg) g)
    (halive : g.server.manager.terminated = false) :
    SessionManager.Orderly g.server.manager := by
  refine SessionManager.orderly_of_reachable (?_ : Reachable (SessionManager.Initial cfg) _ _)
  obtain ⟨g₀, tr, ⟨clock, rfl⟩, hrun⟩ := h
  induction hrun with
  | nil => exact .of_init ⟨clock, rfl⟩
  | snoc hbefore hlast ih =>
      have hfixed := (enforced_of_reachable ⟨_, _, ⟨clock, rfl⟩, hbefore⟩).manager.excludes.fixed
      rcases server_of_moves (gatewayMoves_of_step hlast) with hsame | ⟨l', hserver, _⟩
      · rw [hsame] at halive ⊢
        exact ih halive
      · rcases manager_of_serverStep hserver with hsame | hover | ⟨l, hstep, _⟩
        · rw [hsame] at halive ⊢
          exact ih halive
        · rw [hover] at halive
          cases halive
        · refine (ih (SessionManager.not_terminated_of_step hstep)).tail ⟨hstep, ?_⟩
          intro i env imsi _ hentered
          exact absurd hentered (hfixed i imsi).1

omit [DecidableEq ω] [DecidableEq κ] in
theorem mirrors_initial (parse : StdString → Parsed) (cfg : Config) (clock : ℤ) :
    Mirrors parse (Gateway.initial cfg clock : Gateway ω κ) (fun _ => .idle) := by
  refine ⟨.initial _ fun i => rfl, ⟨fun p ticket hp => ?_, fun _ _ => rfl⟩,
    ⟨fun k number request hk => ?_, fun _ _ => rfl⟩⟩
  · cases p <;> simp [held, Gateway.initial, Server.initial, UdpServer.IoPc.tickets,
      UdpServer.Worker.tickets] at hp
  · cases hk

/-- A step of the server alone. -/
theorem mirrored_server (hpos : 0 ≤ cfg.sessionTimeout) (hmax : cfg.sessionTimeout ≤ maxTimeout)
    {l : ServerLabel ω κ} {server : Server ω κ}
    {st : ℕ ⊕ ℕ → Stance ω κ} (hs : Mirrors parse g st)
    (hreach : Reachable (Gateway.Initial cfg) (GatewayStep parse cfg) g) (hown : isOwn l = true)
    (hstep : ServerStep cfg g.server l server) (hexclusive : Custody.Exclusive (custody server)) :
    Mirrored parse cfg g { g with server := server } st (seen g { g with server := server }) := by
  have hgenuine := UdpServer.genuine_of_reaches (reaches_server hreach)
  cases l with
  | io found =>
      have hnext := (UdpServer.serverStep_io.mp hstep).2
      exact mirrored_io hs hgenuine hexclusive (UdpServer.ioMoves_of_ioNext hnext)
  | worker i k env =>
      obtain ⟨halive, hnext⟩ := UdpServer.serverStep_worker.mp hstep
      exact mirrored_worker hpos hmax hs hgenuine hexclusive (orderly_of_alive hreach halive)
        (UdpServer.workerMoves_of_workerNext hnext)
  | manager l =>
      obtain ⟨_, m, hmanager, rfl⟩ := UdpServer.serverStep_manager.mp hstep
      have halive := SessionManager.not_terminated_of_step hmanager
      have hsilent : SessionManager.shows g.server.manager l = [] := by
        cases l <;> first | rfl | cases hown
      have hmirrored := mirrored_inside hpos hmax hs (orderly_of_alive hreach halive) hmanager
        hsilent
      rwa [← seen_eq_nil rfl rfl rfl] at hmirrored

theorem shows_of_step {l : GatewayLabel ω κ} (h : GatewayStep parse cfg g l g') :
    shows parse cfg g l = begun g l ++ seen g g' := by
  rw [shows, show gatewayNext parse cfg l g = some g' from h, Option.elim_some]

/-- **A step of the program is mirrored by the service.** -/
theorem mirrored_of_step (hpos : 0 ≤ cfg.sessionTimeout) (hmax : cfg.sessionTimeout ≤ maxTimeout)
    {l : GatewayLabel ω κ} {st : ℕ ⊕ ℕ → Stance ω κ}
    (hs : Mirrors parse g st)
    (hreach : Reachable (Gateway.Initial cfg) (GatewayStep parse cfg) g)
    (h : GatewayStep parse cfg g l g') : Mirrored parse cfg g g' st (shows parse cfg g l) := by
  have hexclusive : Custody.Exclusive (custody g'.server) :=
    Custody.exclusive_of_reachable
      ((UdpServer.refines_custody cfg).reachable (reaches_server (hreach.tail h)))
  rw [shows_of_step h]
  cases gatewayMoves_of_step h with
  | server l server hown hstep =>
      exact mirrored_server hpos hmax hs hreach hown hstep hexclusive
  | refuse k request response hcall =>
      have hseen : seen g { g with
          requests := g.requests + 1
          exchanges := g.exchanges ++ [⟨g.requests, request, response⟩] } =
          [.respond (.inr g.requests) (.http response) g.now] := by
        simp [seen]
      rw [hseen]
      exact mirrored_refusal hs hcall
  | enter k request c server hidle hcall hstep =>
      obtain ⟨_, m, hmanager, rfl⟩ := UdpServer.serverStep_manager.mp hstep
      rw [seen_eq_nil]
      · exact mirrored_request hs hcall hmanager
      all_goals rfl
  | inside k env number request server hserving hnot hstep =>
      obtain ⟨_, m, hmanager, rfl⟩ := UdpServer.serverStep_manager.mp hstep
      have halive := SessionManager.not_terminated_of_step hmanager
      rw [seen_eq_nil]
      · exact mirrored_inside hpos hmax hs (orderly_of_alive hreach halive) hmanager
          (SessionManager.shows_eq_nil hnot)
      all_goals rfl
  | leave k env number request c v server hserving hreturning hstep =>
      obtain ⟨_, m, hmanager, rfl⟩ := UdpServer.serverStep_manager.mp hstep
      have hseen : seen g { g with
          server := { g.server with manager := m }
          handlers := Function.update g.handlers k none
          exchanges := g.exchanges ++ [⟨number, request, responseOf request v⟩] } =
          [.respond (.inr number) (.http (responseOf request v)) g.now] := by
        simp [seen]
      rw [hseen]
      exact mirrored_response hs hserving hreturning hmanager

/-- **Every step of the program is some moves of the atomic service** that show what the
step shows. -/
theorem simulates_service (parse : StdString → Parsed) (hpos : 0 ≤ cfg.sessionTimeout)
    (hmax : cfg.sessionTimeout ≤ maxTimeout) :
    Simulates ((frontEnd parse).serve (registry cfg)) (Gateway.Initial cfg)
      (GatewayStep (ω := ω) (κ := κ) parse cfg) (shows parse cfg)
      (fun g m => ∃ st, Mirrors parse g st ∧ m = g.view parse st) where
  starts g hg := by
    obtain ⟨clock, rfl⟩ := hg
    refine ⟨_, ⟨?_, fun k => rfl⟩, _, mirrors_initial parse cfg clock, rfl⟩
    exact (SessionManager.view_initial cfg clock).1
  follows g l g' m hreach hm hstep := by
    obtain ⟨st, hs, rfl⟩ := hm
    obtain ⟨st', hperforms, hs'⟩ := mirrored_of_step hpos hmax hs hreach hstep
    exact ⟨_, hperforms, st', hs', rfl⟩

/-- **The program is linearizable.** Whatever arrives, and however the I/O thread, the
workers, the handlers, the cleanup thread and the shutdown loops interleave: the datagrams
and requests with their answers and responses are what one registry of subscribers would
give that serves them one at a time, each at one instant between its arrival and its
answer, by the clock by which it forgets who is idle. Only the datagrams that a full queue has
turned away, and the requests that are in error, are answered without it. -/
theorem service_linearizable (hpos : 0 ≤ cfg.sessionTimeout)
    (hmax : cfg.sessionTimeout ≤ maxTimeout) {clock : ℤ} {tr : List (GatewayLabel ω κ)}
    (h : Run (GatewayStep parse cfg) (.initial cfg clock) tr g) :
    Linearizable ((frontEnd parse).serve (registry cfg))
      (observed (gatewayNext parse cfg) (shows parse cfg) tr (.initial cfg clock)) :=
  (simulates_service parse hpos hmax).linearizable (fun _ _ _ hstep => hstep) ⟨clock, rfl⟩ h

end Program

/-! A check overlaps the datagram that makes the subscriber active: it sees the session
before the datagram is answered. -/

open SessionManager (Caller sample after)

private def overlappingBody : StdString := text "\x7b\"imsi\": \"123\"\x7d"

private def parseOverlapping (body : StdString) : Parsed :=
  if body = overlappingBody then .document (.object [(text "imsi", .string (text "123"))])
  else .parseError

private def overlappingDatagram : UdpServer.Datagram := ⟨[0x21, 0xF3], ⟨2, 40000, 2130706433⟩⟩

/-- A step of the worker, some seconds after the last reading of the clock. -/
private def workerStep (seconds : ℕ) : GatewayLabel Caller Unit :=
  .server (.worker .first 0 (after seconds []))

private def overlappingLabels : List (GatewayLabel Caller Unit) :=
  [.server (.io .readable), .server (.io .again), .server (.io (.datagram overlappingDatagram)),
    .server (.io .again), .server (.io .enqueued), workerStep 0, workerStep 0, workerStep 0,
    workerStep 0, workerStep 1, .request () (.checkSubscriber overlappingBody),
    .handler () (after 0 []), .handler () (after 0 []), workerStep 0, workerStep 0]

private def overlappingHistory : List Shown :=
  [.invoke (.inl 0) (.datagram overlappingDatagram) 0,
    .invoke (.inr 0) (.http (.checkSubscriber overlappingBody)) 1000000000,
    .respond (.inr 0) (.http (HttpServer.plain "active" 200)) 1000000000,
    .respond (.inl 0) (.datagram (text "created") ⟨2, 40000, 2130706433⟩ false) 1000000000]

theorem service_linearizable_overlapping :
    Linearizable ((frontEnd parseOverlapping).serve (registry sample)) overlappingHistory := by
  have hrun : Run (GatewayStep parseOverlapping sample) (.initial sample 0) overlappingLabels
      (replayed (gatewayNext parseOverlapping sample) overlappingLabels (.initial sample 0)
        (by decide +kernel)) := run_replayed (gatewayNext parseOverlapping sample) _ _ _
  have hshown : observed (gatewayNext parseOverlapping sample) (shows parseOverlapping sample)
      overlappingLabels (.initial sample 0) = overlappingHistory := by
    decide +kernel
  rw [← hshown]
  exact service_linearizable (by decide) (by decide) hrun

end Pgw.System
