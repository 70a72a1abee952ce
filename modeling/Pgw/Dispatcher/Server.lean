import Mathlib.Data.Fintype.Sum
import Pgw.Dispatcher.UdpEvent
import Pgw.Session.Positions

/-!
# The server: one I/O thread, a queue and the workers

The I/O thread receives datagrams into one buffer and one address, makes an event of
each, and enqueues it or refuses it on the spot. The workers take events from the
queue into a variable of their own, call `create_session` and send the reply. The
calls run on the session manager's own model, together with its background threads
and with callers that are no workers.

The queue is a bag: any of its events may be taken next. It is taken to outlive the
threads, which only have references to it. What a worker waits for when it finds none is
left out here, and so are the notifications; the wait may end at any time. Nothing in
this system writes `running_` or `stop_`, and the manager is not destroyed, since the
dispatcher shares it.

Datagrams are numbered as they arrive. The numbers, the list of arrivals and the
origin of an answer are bookkeeping that no step looks at.
-/
namespace Pgw.UdpServer
open SessionManager TransitionSystem
open EventDispatcher (SockaddrIn UdpEvent ResponseCallback responseTo)

/-! ## Data -/

/-- `BUFFER_SIZE`. -/
def bufferSize : ℕ := 1024

/-- What the network hands to `recvfrom`. -/
structure Datagram where
  payload : List UInt8
  source : SockaddrIn

/-- An event under the number of its datagram. -/
structure Item where
  ticket : ℕ
  event : UdpEvent

inductive IoPc where
  | epollWait
  | testRunning
  | recvfrom
  /-- `recv` bytes are in the buffer; the event is made next. -/
  | build (ticket recv : ℕ)
  | enqueue (item : Item)
  /-- `try_enqueue` has failed; `send_response("rejected", client_addr)` is next. -/
  | refuse (ticket : ℕ)
  | notify
  | exited

/-- The I/O thread with the buffer of `epoll_loop` and the address of
`process_incoming_packets`. -/
structure Io where
  pc : IoPc
  buffer : List UInt8
  clientAddr : SockaddrIn

/-- What the I/O thread finds outside. -/
inductive Finding where
  | readable
  | datagram (d : Datagram)
  /-- `EAGAIN`. -/
  | again
  /-- `EINTR`. -/
  | interrupted
  /-- Any other error. -/
  | failed
  | enqueued
  | full

inductive WorkerPc where
  | testStop
  | dequeue
  | wait
  /-- `handleUdpEvent` has the event; `IMSI::from_bcd` is next. -/
  | decode
  | call
  | respond (response : StdString) (c : Call) (v : Completion Value)
  | exited

/-- A worker with its variable `event`, which no step clears. -/
structure Worker where
  pc : WorkerPc
  item : Item

/-- Where an answer comes from. -/
inductive Origin where
  | queueFull
  | returned (c : Call) (v : Completion Value)

/-- A call of `send_response`. -/
structure Answer where
  ticket : ℕ
  response : StdString
  addr : SockaddrIn
  origin : Origin

/-- The threads `ω` are workers, the callers `κ` are not. -/
structure Server (ω κ : Type) where
  io : Io
  queue : List Item
  workers : ω → Worker
  manager : Manager (ω ⊕ κ)
  running : Bool
  stop : Bool
  arrived : List Datagram
  sent : List Answer

inductive ServerLabel (ω κ : Type) where
  | io (found : Finding)
  /-- A worker moves; `k` is the event of the bag that `try_dequeue` would take. -/
  | worker (i : ω) (k : ℕ) (env : Ambient)
  /-- Another thread of the manager moves. -/
  | manager (l : Label (ω ⊕ κ))

variable {ω κ : Type}

/-- `Event event;` holds a value-initialised `UdpEvent`. -/
def Item.initial : Item := ⟨0, ⟨[], ⟨0, 0, 0⟩, none⟩⟩

def Server.initial (cfg : Config) (clock : ℤ) : Server ω κ where
  io := ⟨.epollWait, List.replicate bufferSize 0, ⟨0, 0, 0⟩⟩
  queue := []
  workers := fun _ => ⟨.testStop, .initial⟩
  manager := .initial cfg clock
  running := true
  stop := false
  arrived := []
  sent := []

/-! ## The I/O thread -/

/-- `recvfrom` overwrites the front of the buffer and cuts off what does not fit. -/
def overwrite (buffer payload : List UInt8) : List UInt8 :=
  payload.take buffer.length ++ buffer.drop payload.length

def Server.gotoIo (s : Server ω κ) (pc : IoPc) : Server ω κ :=
  { s with io := { s.io with pc := pc } }

def Server.sendResponse (s : Server ω κ) (answer : Answer) : Server ω κ :=
  { s with sent := s.sent ++ [answer] }

/-- The reply goes out through the server's socket, and a failure is only logged. -/
def responseCallback : ResponseCallback := fun _ _ => none

/-- The process ends. -/
def Server.terminate (s : Server ω κ) : Server ω κ :=
  { s with manager := { s.manager with terminated := true } }

/-- `epoll_loop` and `process_incoming_packets`. An error of `epoll_wait` ends the loop. One
of `recvfrom` is not looked at: the event is made of −1 bytes, and nobody catches what its
constructor throws. -/
def ioNext (found : Finding) (s : Server ω κ) : Option (Server ω κ) :=
  match s.io.pc, found with
  | .epollWait, .readable =>
      some { s with io := { s.io with pc := .testRunning, clientAddr := ⟨0, 0, 0⟩ } }
  | .epollWait, .interrupted => some s
  | .epollWait, .failed => some (s.gotoIo .exited)
  | .testRunning, _ => some (s.gotoIo (if s.running then .recvfrom else .epollWait))
  | .recvfrom, .datagram d =>
      let recv := min d.payload.length s.io.buffer.length
      some { s with
        io := ⟨.build s.arrived.length recv, overwrite s.io.buffer d.payload, d.source⟩
        arrived := s.arrived ++ [d] }
  | .recvfrom, .again => some (s.gotoIo .epollWait)
  | .recvfrom, .interrupted => some (s.gotoIo .testRunning)
  | .recvfrom, .failed => some s.terminate
  | .build ticket recv, _ =>
      some (s.gotoIo (.enqueue
        ⟨ticket, s.io.buffer.take recv, s.io.clientAddr, some responseCallback⟩))
  | .enqueue item, .enqueued => some ({ s with queue := s.queue ++ [item] }.gotoIo .notify)
  | .enqueue item, .full => some (s.gotoIo (.refuse item.ticket))
  | .refuse ticket, _ =>
      some ((s.sendResponse ⟨ticket, text "rejected", s.io.clientAddr, .queueFull⟩).gotoIo
        .testRunning)
  | .notify, _ => some (s.gotoIo .testRunning)
  | _, _ => none

/-! ## The workers -/

/-- The reply to the end of a `create_session`; none when it ends the process. -/
def replyTo : Completion Value → Option StdString
  | .returned (.result r) => some (responseTo r)
  | .raised _ => some (text "rejected")
  | _ => none

section
variable [DecidableEq ω]

def Server.gotoWorker (s : Server ω κ) (i : ω) (pc : WorkerPc) : Server ω κ :=
  { s with workers := Function.update s.workers i { s.workers i with pc := pc } }

variable [Fintype ω] [Fintype κ] [DecidableEq κ]

/-- The loop of `EventDispatcher::EventDispatcher` with `handleUdpEvent` in it. -/
def workerNext (cfg : Config) (i : ω) (k : ℕ) (env : Ambient) (s : Server ω κ) :
    Option (Server ω κ) :=
  let event := (s.workers i).item.event
  match (s.workers i).pc with
  | .testStop => some (s.gotoWorker i (if s.stop then .exited else .dequeue))
  | .dequeue =>
      match s.queue[k]? with
      | some item =>
          some { s with
            queue := s.queue.eraseIdx k
            workers := Function.update s.workers i ⟨.decode, item⟩ }
      | none => if s.queue.isEmpty then some (s.gotoWorker i .wait) else none
  | .wait => some (s.gotoWorker i .testStop)
  | .decode =>
      match IMSI.fromBcd event.data with
      | .returned imsi =>
          (next cfg (.call (.inl i) (.createSession imsi.str)) s.manager).map fun manager =>
            { s with manager := manager }.gotoWorker i .call
      | _ => some s.terminate
  | .call =>
      match s.manager.threads (.inl i) with
      | .returning c v =>
          match replyTo v with
          | some response =>
              (next cfg (.thread (.inl i) env) s.manager).map fun manager =>
                { s with manager := manager }.gotoWorker i (.respond response c v)
          | none => some s.terminate
      | _ =>
          (next cfg (.thread (.inl i) env) s.manager).map fun manager =>
            { s with manager := manager }
  | .respond response c v =>
      let answer : Answer := ⟨(s.workers i).item.ticket, response, event.clientAddr, .returned c v⟩
      let sent := if event.responseCallback.isSome then s.sendResponse answer else s
      some (sent.gotoWorker i .testStop)
  | .exited => none

/-! ## The system -/

/-- The threads of the manager that are neither a worker nor its destructor. -/
def isOther : Label (ω ⊕ κ) → Bool
  | .call (.inr _) _ => true
  | .thread (.inr _) _ => true
  | .cleanup _ => true
  | .loop _ _ => true
  | _ => false

def serverNext (cfg : Config) (l : ServerLabel ω κ) (s : Server ω κ) : Option (Server ω κ) :=
  if s.manager.terminated then none
  else
    match l with
    | .io found => ioNext found s
    | .worker i k env => workerNext cfg i k env s
    | .manager l =>
        if isOther l then (next cfg l s.manager).map fun manager => { s with manager := manager }
        else none

def ServerStep (cfg : Config) (s : Server ω κ) (l : ServerLabel ω κ) (t : Server ω κ) : Prop :=
  serverNext cfg l s = some t

def Initial (cfg : Config) (s : Server ω κ) : Prop := ∃ clock, s = Server.initial cfg clock

/-- Every run of the server from its start. -/
def Reaches (cfg : Config) (s : Server ω κ) : Prop := Reachable (Initial cfg) (ServerStep cfg) s

end

end Pgw.UdpServer
