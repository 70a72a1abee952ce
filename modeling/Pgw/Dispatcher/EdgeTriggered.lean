import Pgw.Dispatcher.Survival
import Pgw.Lib.EdgeTriggered

/-!
# The socket, the edge and the I/O thread

The server's socket is registered with `EPOLLIN | EPOLLET`: `epoll_wait` reports it when a
datagram has come in since the last report, and not because datagrams are still there. The
I/O thread has to empty the socket before it waits again. `Endpoint` puts the socket and the
pending report beside the server; what `epoll_wait` and `recvfrom` find is now up to them.

Both calls may fail in other ways than with `EINTR` and `EAGAIN`. Then the loop ends, or the
process does, and whatever is in the socket stays there; the runs below are those in which
this does not happen.

## Main results

* `refines_edgeTriggered` — the endpoint is an edge-triggered consumer.
* `no_datagram_waits` — unread datagrams never wait without a report, none is lost or
  reordered, and the I/O thread reads them all in a bounded number of its steps.
-/
namespace Pgw.UdpServer
open TransitionSystem
open SessionManager (Config Manager Label Ambient)

variable {ω κ : Type}

/-! ## The endpoint -/

structure Endpoint (ω κ : Type) where
  server : Server ω κ
  /-- The datagrams that have come in and have not been read, oldest first. -/
  socket : List Datagram
  /-- `epoll_wait` has something to report. -/
  ready : Bool
  /-- All that has come in. -/
  offered : List Datagram

inductive EndpointLabel (ω κ : Type) where
  /-- A datagram comes in; the socket has room for it. -/
  | arrive (d : Datagram)
  /-- `recvfrom` with a datagram to read. -/
  | receive
  /-- Any other step of the server. -/
  | server (l : ServerLabel ω κ)

/-- What came in before the start has left its report with `epoll_ctl`. -/
def Endpoint.initial (cfg : Config) (clock : ℤ) (socket : List Datagram) : Endpoint ω κ where
  server := .initial cfg clock
  socket := socket
  ready := !socket.isEmpty
  offered := socket

/-- `epoll_wait` reports the socket once for an edge, and only if something can be read;
`recvfrom` says `EAGAIN` when nothing can. -/
def Finding.possible (found : Finding) (e : Endpoint ω κ) : Bool :=
  match e.server.io.pc, found with
  | _, .datagram _ => false
  | .epollWait, .readable => e.ready && !e.socket.isEmpty
  | .recvfrom, .again => e.socket.isEmpty
  | _, _ => true

/-- A report takes the edge with it. -/
def Finding.readyAfter (found : Finding) (e : Endpoint ω κ) : Bool :=
  match e.server.io.pc, found with
  | .epollWait, .readable => false
  | _, _ => e.ready

section
variable [Fintype ω] [DecidableEq ω] [Fintype κ] [DecidableEq κ]

def endpointNext (cfg : Config) (l : EndpointLabel ω κ) (e : Endpoint ω κ) :
    Option (Endpoint ω κ) :=
  match l with
  | .arrive d =>
      some { e with socket := e.socket ++ [d], ready := true, offered := e.offered ++ [d] }
  | .receive =>
      match e.server.io.pc, e.socket with
      | .recvfrom, d :: socket =>
          (serverNext cfg (.io (.datagram d)) e.server).map fun server =>
            { e with server := server, socket := socket }
      | _, _ => none
  | .server (.io found) =>
      if found.possible e then
        (serverNext cfg (.io found) e.server).map fun server =>
          { e with server := server, ready := found.readyAfter e }
      else none
  | .server l => (serverNext cfg l e.server).map fun server => { e with server := server }

def EndpointStep (cfg : Config) (e : Endpoint ω κ) (l : EndpointLabel ω κ) (e' : Endpoint ω κ) :
    Prop :=
  endpointNext cfg l e = some e'

def Endpoint.Initial (cfg : Config) (e : Endpoint ω κ) : Prop :=
  ∃ clock socket, e = Endpoint.initial cfg clock socket

/-- `epoll_wait` and `recvfrom` do not fail in a way that the code does not expect. -/
def Foreseen (_ : Endpoint ω κ) (l : EndpointLabel ω κ) : Prop := l ≠ .server (.io .failed)

/-- Every run of the endpoint from the server's start without such a failure. -/
def Endpoint.Reaches (cfg : Config) (e : Endpoint ω κ) : Prop :=
  Reachable (Endpoint.Initial cfg) (only (EndpointStep cfg) Foreseen) e

/-! ## The I/O thread as a consumer -/

def IoPc.waiting : IoPc → Bool
  | .epollWait => true
  | _ => false

def Endpoint.channel (e : Endpoint ω κ) : EdgeTriggered.Channel Datagram where
  queue := e.socket
  edge := e.ready
  waiting := e.server.io.pc.waiting
  produced := e.offered
  consumed := e.server.arrived

variable {cfg : Config} {s t : Server ω κ} {e e' : Endpoint ω κ}

/-- A worker leaves the I/O thread alone. -/
theorem io_of_workerNext {i : ω} {k : ℕ} {env : Ambient} (h : workerNext cfg i k env s = some t) :
    t.io = s.io ∧ t.arrived = s.arrived ∧ t.running = s.running := by
  cases workerMoves_of_workerNext h with
  | respond response c v _ => split <;> exact ⟨rfl, rfl, rfl⟩
  | _ => exact ⟨rfl, rfl, rfl⟩

omit [Fintype ω] [DecidableEq ω] [Fintype κ] [DecidableEq κ] in
theorem running_of_ioNext {found : Finding} (h : ioNext found s = some t) :
    t.running = s.running := by
  cases ioMoves_of_ioNext h <;> rfl

/-- A step of the endpoint is an arrival, a datagram read, a step of the I/O thread, or
one of a worker or the manager. -/
inductive EndpointMoves (cfg : Config) (e : Endpoint ω κ) : Endpoint ω κ → Prop where
  | arrive (d : Datagram) : EndpointMoves cfg e
      { e with socket := e.socket ++ [d], ready := true, offered := e.offered ++ [d] }
  | receive (d : Datagram) (socket : List Datagram) (server : Server ω κ)
      (hpc : e.server.io.pc = .recvfrom) (hsocket : e.socket = d :: socket)
      (hstep : ServerStep cfg e.server (.io (.datagram d)) server) :
      EndpointMoves cfg e { e with server := server, socket := socket }
  | io (found : Finding) (server : Server ω κ) (hpossible : found.possible e = true)
      (hforeseen : found ≠ .failed)
      (hstep : ServerStep cfg e.server (.io found) server) :
      EndpointMoves cfg e { e with server := server, ready := found.readyAfter e }
  | other (server : Server ω κ) (hio : server.io = e.server.io)
      (harrived : server.arrived = e.server.arrived)
      (hrunning : server.running = e.server.running) :
      EndpointMoves cfg e { e with server := server }

theorem endpointMoves_of_step {l : EndpointLabel ω κ}
    (hstep : only (EndpointStep cfg) Foreseen e l e') : EndpointMoves cfg e e' := by
  obtain ⟨h, hforeseen⟩ := hstep
  rw [EndpointStep] at h
  cases l with
  | arrive d =>
      cases h
      exact .arrive d
  | receive =>
      rw [endpointNext] at h
      split at h
      · rename_i d socket hpc hsocket
        obtain ⟨server, hstep, rfl⟩ := Option.map_eq_some_iff.mp h
        exact .receive d socket server hpc hsocket hstep
      · cases h
  | server l =>
      cases l with
      | io found =>
          rw [endpointNext] at h
          split at h
          · rename_i hpossible
            obtain ⟨server, hstep, rfl⟩ := Option.map_eq_some_iff.mp h
            refine .io found server hpossible ?_ hstep
            rintro rfl
            exact hforeseen rfl
          · cases h
      | worker i k env =>
          obtain ⟨server, hstep, rfl⟩ := Option.map_eq_some_iff.mp h
          obtain ⟨hio, harrived, hrunning⟩ := io_of_workerNext (serverStep_worker.mp hstep).2
          exact .other server hio harrived hrunning
      | manager l =>
          obtain ⟨server, hstep, rfl⟩ := Option.map_eq_some_iff.mp h
          obtain ⟨_, m, _, rfl⟩ := serverStep_manager.mp hstep
          exact .other _ rfl rfl rfl

/-- Where a step takes the I/O thread while `running_` is true and no call fails. -/
inductive IoPcMoves : IoPc → Finding → IoPc → Prop where
  | report : IoPcMoves .epollWait .readable .testRunning
  | waitAgain : IoPcMoves .epollWait .interrupted .epollWait
  | loop (found : Finding) : IoPcMoves .testRunning found .recvfrom
  | drained : IoPcMoves .recvfrom .again .epollWait
  | readAgain : IoPcMoves .recvfrom .interrupted .testRunning
  | receive (d : Datagram) (ticket recv : ℕ) :
      IoPcMoves .recvfrom (.datagram d) (.build ticket recv)
  | build (ticket recv : ℕ) (found : Finding) (item : Item) :
      IoPcMoves (.build ticket recv) found (.enqueue item)
  | enqueued (item : Item) : IoPcMoves (.enqueue item) .enqueued .notify
  | full (item : Item) : IoPcMoves (.enqueue item) .full (.refuse item.ticket)
  | refuse (ticket : ℕ) (found : Finding) : IoPcMoves (.refuse ticket) found .testRunning
  | notify (found : Finding) : IoPcMoves .notify found .testRunning

omit [Fintype ω] [DecidableEq ω] [Fintype κ] [DecidableEq κ] in
theorem ioPcMoves_of_ioNext {found : Finding} (hrunning : s.running = true)
    (hforeseen : found ≠ .failed) (h : ioNext found s = some t) :
    IoPcMoves s.io.pc found t.io.pc := by
  unfold ioNext at h
  split at h <;> cases h <;> rename_i hpc
  case h_2 =>
    rw [hpc]
    exact .waitAgain
  all_goals rw [hpc]
  case h_1 => exact .report
  case h_3 => exact absurd rfl hforeseen
  case h_4 =>
    rw [hrunning]
    exact .loop _
  case h_5 d => exact .receive d _ _
  case h_6 => exact .drained
  case h_7 => exact .readAgain
  case h_8 => exact absurd rfl hforeseen
  case h_9 ticket recv => exact .build ticket recv _ _
  case h_10 item => exact .enqueued item
  case h_11 item => exact .full item
  case h_12 ticket => exact .refuse ticket _
  case h_13 => exact .notify _

/-- The I/O thread is in its loop and goes on. -/
structure Looping (s : Server ω κ) : Prop where
  running : s.running = true
  inLoop : s.io.pc ≠ .exited

omit [Fintype ω] [DecidableEq ω] [Fintype κ] [DecidableEq κ] in
theorem Looping.io (hs : Looping s) {found : Finding} (hforeseen : found ≠ .failed)
    (h : ioNext found s = some t) : Looping t := by
  refine ⟨(running_of_ioNext h).trans hs.running, fun hexited => ?_⟩
  have hmoves := ioPcMoves_of_ioNext hs.running hforeseen h
  rw [hexited] at hmoves
  generalize s.io.pc = pc at hmoves
  cases hmoves

theorem looping_of_reaches (h : Endpoint.Reaches cfg e) : Looping e.server := by
  refine h.invariant (P := fun e => Looping e.server) ?_ ?_
  · rintro e₀ ⟨clock, socket, rfl⟩
    exact ⟨rfl, fun hexited => by cases hexited⟩
  · intro u l v hu hstep
    cases endpointMoves_of_step hstep with
    | arrive d => exact hu
    | receive d socket server _ _ hserver =>
        exact hu.io Finding.noConfusion (serverStep_io.mp hserver).2
    | io found server _ hforeseen hserver => exact hu.io hforeseen (serverStep_io.mp hserver).2
    | other server hio _ hrunning => exact ⟨hrunning.trans hu.running, hio ▸ hu.inLoop⟩

/-- A step that the channel does not see. -/
theorem run_of_same {c c' : EdgeTriggered.Channel Datagram} (h : c' = c) :
    ∃ tr, Run EdgeTriggered.Step c tr c' := ⟨[], h ▸ Run.nil c'⟩

/-- `recvfrom` takes the oldest datagram. -/
theorem channel_of_receive {d : Datagram} {socket : List Datagram} {server : Server ω κ}
    (hpc : e.server.io.pc = .recvfrom) (hsocket : e.socket = d :: socket)
    (hstep : ServerStep cfg e.server (.io (.datagram d)) server) :
    EdgeTriggered.Step e.channel (.take d)
      (Endpoint.channel { e with server := server, socket := socket }) := by
  have hio := (serverStep_io.mp hstep).2
  simp only [ioNext, hpc, Option.some.injEq] at hio
  have hwaiting : e.channel.waiting = false := by rw [Endpoint.channel, hpc]; rfl
  rw [← hio]
  convert EdgeTriggered.Step.take (c := e.channel) hwaiting hsocket using 1
  rw [Endpoint.channel, hwaiting]
  rfl

/-- The other steps of the I/O thread end a wait, begin one, or are not seen. -/
theorem channel_of_io {found : Finding} {server : Server ω κ}
    (hloop : Looping e.server) (hpossible : found.possible e = true) (hforeseen : found ≠ .failed)
    (hstep : ServerStep cfg e.server (.io found) server) :
    ∃ tr, Run EdgeTriggered.Step e.channel tr
      (Endpoint.channel { e with server := server, ready := found.readyAfter e }) := by
  have hio := (serverStep_io.mp hstep).2
  have harrived : server.arrived = e.server.arrived := by
    rcases arrived_of_ioNext hio with hsame | ⟨d, rfl, _⟩
    · exact hsame
    · simp [Finding.possible] at hpossible
  have hchannel : Endpoint.channel { e with server := server, ready := found.readyAfter e } =
      { e.channel with edge := found.readyAfter e, waiting := server.io.pc.waiting } := by
    rw [Endpoint.channel, harrived]
    rfl
  have hmoves := ioPcMoves_of_ioNext hloop.running hforeseen hio
  have hbefore : e.channel.waiting = e.server.io.pc.waiting := rfl
  rw [hchannel]
  generalize hpc : e.server.io.pc = pc at hmoves hbefore
  generalize server.io.pc = pc' at hmoves
  cases hmoves with
  | report =>
      have hready : e.channel.edge = true := by
        simp only [Finding.possible, hpc, Bool.and_eq_true] at hpossible
        exact hpossible.1
      rw [show Finding.readyAfter .readable e = false by simp [Finding.readyAfter, hpc]]
      exact ⟨_, Run.single (.wake hbefore hready)⟩
  | drained =>
      have hempty : e.socket = [] := by simpa [Finding.possible, hpc] using hpossible
      rw [show Finding.readyAfter .again e = e.ready by simp [Finding.readyAfter, hpc]]
      exact ⟨_, Run.single (.rest hbefore hempty)⟩
  | receive d ticket recv => simp [Finding.possible] at hpossible
  | _ => exact run_of_same (by simp [Finding.readyAfter, hpc, Endpoint.channel, IoPc.waiting])

/-- **The I/O thread is an edge-triggered consumer of the socket.** -/
theorem refines_edgeTriggered (cfg : Config) :
    WeakSimulation (Endpoint.Initial cfg) (only (EndpointStep cfg) Foreseen)
      EdgeTriggered.Channel.Initial EdgeTriggered.Step
      (Endpoint.channel : Endpoint ω κ → EdgeTriggered.Channel Datagram) := by
  constructor
  · rintro e ⟨clock, socket, rfl⟩
    refine ⟨rfl, ?_, rfl, rfl⟩
    cases socket with
    | nil => exact Or.inr rfl
    | cons d socket => exact Or.inl rfl
  · intro e l e' hreach hstep
    cases endpointMoves_of_step hstep with
    | arrive d => exact ⟨_, Run.single (.produce d)⟩
    | receive d socket server hpc hsocket hserver =>
        exact ⟨_, Run.single (channel_of_receive hpc hsocket hserver)⟩
    | io found server hpossible hforeseen hserver =>
        exact channel_of_io (looping_of_reaches hreach) hpossible hforeseen hserver
    | other server hio harrived _ =>
        refine run_of_same ?_
        rw [Endpoint.channel, Endpoint.channel, hio, harrived]

/-! ## The way to an empty socket -/

/-- A label of the I/O thread. -/
def EndpointLabel.isIo : EndpointLabel ω κ → Bool
  | .receive => true
  | .server (.io _) => true
  | _ => false

/-- Nothing comes in, no signal interrupts a call and no call fails. -/
def Undisturbed (_ : Endpoint ω κ) : EndpointLabel ω κ → Prop
  | .arrive _ => False
  | .server (.io .interrupted) => False
  | .server (.io .failed) => False
  | _ => True

omit [Fintype ω] [DecidableEq ω] [Fintype κ] [DecidableEq κ] in
theorem Undisturbed.foreseen {l : EndpointLabel ω κ} (h : Undisturbed e l) : Foreseen e l := by
  rintro rfl
  exact h

/-- How many steps the I/O thread is from its next wait if nothing more can be read. -/
def IoPc.rank : IoPc → ℕ
  | .epollWait => 0
  | .exited => 0
  | .recvfrom => 1
  | .testRunning => 2
  | .notify => 3
  | .refuse _ => 3
  | .enqueue _ => 4
  | .build _ _ => 5

/-- How many steps the I/O thread has to go at most. -/
def Endpoint.toGo (e : Endpoint ω κ) : ℕ :=
  5 * e.socket.length +
    if e.server.io.pc.waiting = true ∧ e.socket ≠ [] then 3 else e.server.io.pc.rank

theorem IoPc.rank_le (pc : IoPc) : pc.rank ≤ 5 := by
  cases pc <;> simp [IoPc.rank]

omit [Fintype ω] [DecidableEq ω] [Fintype κ] [DecidableEq κ] in
theorem toGo_le (e : Endpoint ω κ) : e.toGo ≤ 5 * e.socket.length + 5 := by
  have hrank := e.server.io.pc.rank_le
  rw [Endpoint.toGo]
  split <;> omega

theorem toGo_of_receive {d : Datagram} {socket : List Datagram} {server : Server ω κ}
    (hpc : e.server.io.pc = .recvfrom) (hsocket : e.socket = d :: socket)
    (hstep : ServerStep cfg e.server (.io (.datagram d)) server) :
    Endpoint.toGo { e with server := server, socket := socket } + 1 ≤ e.toGo := by
  have hio := (serverStep_io.mp hstep).2
  simp only [ioNext, hpc, Option.some.injEq] at hio
  rw [← hio]
  simp only [Endpoint.toGo, hpc, hsocket, IoPc.waiting, IoPc.rank, List.length_cons,
    Bool.false_eq_true, false_and, if_false]
  omega

theorem toGo_of_io {found : Finding} {server : Server ω κ} (hloop : Looping e.server)
    (hpossible : found.possible e = true) (hfound : found ≠ .interrupted)
    (hforeseen : found ≠ .failed)
    (hstep : ServerStep cfg e.server (.io found) server) :
    Endpoint.toGo { e with server := server, ready := found.readyAfter e } + 1 ≤ e.toGo := by
  have hmoves := ioPcMoves_of_ioNext hloop.running hforeseen (serverStep_io.mp hstep).2
  simp only [Endpoint.toGo]
  generalize hpc : e.server.io.pc = pc at hmoves
  generalize server.io.pc = pc' at hmoves
  cases hmoves with
  | report =>
      have hsocket : e.socket ≠ [] := by
        simp only [Finding.possible, hpc, Bool.and_eq_true, Bool.not_eq_true',
          List.isEmpty_eq_false_iff] at hpossible
        exact hpossible.2
      simp [IoPc.waiting, IoPc.rank, hsocket]
  | drained =>
      have hsocket : e.socket = [] := by simpa [Finding.possible, hpc] using hpossible
      simp [IoPc.waiting, IoPc.rank, hsocket]
  | waitAgain => exact absurd rfl hfound
  | readAgain => exact absurd rfl hfound
  | receive d ticket recv => simp [Finding.possible] at hpossible
  | _ => simp [IoPc.waiting, IoPc.rank]

/-- Every step of the I/O thread brings it nearer, and no other step takes it back. -/
theorem toGo_of_step (hloop : Looping e.server) {l : EndpointLabel ω κ}
    (h : endpointNext cfg l e = some e') (hl : Undisturbed e l) :
    e'.toGo + (if l.isIo then 1 else 0) ≤ e.toGo := by
  cases l with
  | arrive d => cases hl
  | receive =>
      rw [endpointNext] at h
      split at h
      · rename_i d socket hpc hsocket
        obtain ⟨server, hstep, rfl⟩ := Option.map_eq_some_iff.mp h
        exact toGo_of_receive hpc hsocket hstep
      · cases h
  | server l =>
      cases l with
      | io found =>
          rw [endpointNext] at h
          split at h
          · rename_i hpossible
            obtain ⟨server, hstep, rfl⟩ := Option.map_eq_some_iff.mp h
            refine toGo_of_io hloop hpossible ?_ ?_ hstep
            · rintro rfl
              exact hl
            · rintro rfl
              exact hl
          · cases h
      | worker i k env =>
          obtain ⟨server, hstep, rfl⟩ := Option.map_eq_some_iff.mp h
          have hio := (io_of_workerNext (serverStep_worker.mp hstep).2).1
          simp [Endpoint.toGo, EndpointLabel.isIo, hio]
      | manager l =>
          obtain ⟨server, hstep, rfl⟩ := Option.map_eq_some_iff.mp h
          obtain ⟨_, m, _, rfl⟩ := serverStep_manager.mp hstep
          exact le_refl _

/-- While datagrams are unread the I/O thread can move, signals or not. -/
theorem io_enabled (h : Endpoint.Reaches cfg e) (hrun : e.server.manager.terminated = false)
    (hsocket : e.socket ≠ []) :
    ∃ l e', l.isIo = true ∧ only (EndpointStep cfg) Undisturbed e l e' := by
  have hfair := EdgeTriggered.fair_of_reachable ((refines_edgeTriggered cfg).reachable h)
  have hmove : ∀ found, found.possible e = true → found ≠ .interrupted → found ≠ .failed →
      (∃ server, ioNext found e.server = some server) →
      ∃ l e', l.isIo = true ∧ only (EndpointStep cfg) Undisturbed e l e' := by
    rintro found hpossible hfound hforeseen ⟨server, hio⟩
    have hstep : ServerStep cfg e.server (.io found) server := serverStep_io.mpr ⟨hrun, hio⟩
    refine ⟨.server (.io found), { e with server := server, ready := found.readyAfter e }, rfl,
      ?_, ?_⟩
    · rw [EndpointStep, endpointNext, if_pos hpossible]
      exact Option.map_eq_some_iff.mpr ⟨server, hstep, rfl⟩
    · cases found <;> trivial
  cases hpc : e.server.io.pc with
  | epollWait =>
      have hwaiting : e.channel.waiting = true := by rw [Endpoint.channel, hpc]; rfl
      have hready : e.ready = true := (hfair.edge hwaiting).resolve_right hsocket
      refine hmove .readable ?_ (by simp) (by simp) (by simp [ioNext, hpc])
      simp [Finding.possible, hpc, hready, hsocket]
  | recvfrom =>
      obtain ⟨d, socket, hcons⟩ := List.exists_cons_of_ne_nil hsocket
      obtain ⟨server, hio⟩ : ∃ server, ioNext (.datagram d) e.server = some server := by
        simp [ioNext, hpc]
      have hstep : ServerStep cfg e.server (.io (.datagram d)) server :=
        serverStep_io.mpr ⟨hrun, hio⟩
      refine ⟨.receive, { e with server := server, socket := socket }, rfl, ?_, trivial⟩
      simp only [EndpointStep, endpointNext, hpc, hcons]
      exact Option.map_eq_some_iff.mpr ⟨server, hstep, rfl⟩
  | enqueue item =>
      exact hmove .enqueued (by simp [Finding.possible]) (by simp) (by simp) (by simp [ioNext, hpc])
  | exited => exact absurd hpc (looping_of_reaches h).inLoop
  | _ =>
      have hpossible : Finding.possible .again e = true := by simp [Finding.possible, hpc]
      exact hmove .again hpossible (by simp) (by simp) (by simp [ioNext, hpc])

/-- **No datagram is left in the socket.** As long as `epoll_wait` and `recvfrom` fail in the
foreseen ways only, the datagrams that came in are those that were read, in their order,
and then the unread ones. While datagrams are unread and the process lives, the I/O thread
can move without the help of a signal or of a new arrival, although an edge is reported only
once. And however the other threads run in between, it makes at most five steps for every
unread datagram, and five more, before it can move no more: by then the socket is empty. -/
theorem no_datagram_waits (h : Endpoint.Reaches cfg e) :
    e.offered = e.server.arrived ++ e.socket ∧
      (e.server.manager.terminated = false → e.socket ≠ [] →
        ∃ l e', l.isIo = true ∧ only (EndpointStep cfg) Undisturbed e l e') ∧
      ∀ tr e', Run (only (EndpointStep cfg) Undisturbed) e tr e' →
        tr.countP EndpointLabel.isIo ≤ 5 * e.socket.length + 5 := by
  have hfair := EdgeTriggered.fair_of_reachable ((refines_edgeTriggered cfg).reachable h)
  refine ⟨hfair.ordered, fun hrun hsocket => io_enabled h hrun hsocket, fun tr e' hrun => ?_⟩
  have hranked := hrun.ranked (I := fun e => Endpoint.Reaches cfg e) Endpoint.toGo
    (fun _ l => if l.isIo then 1 else 0)
    (fun _ _ _ hs hstep => hs.tail ⟨hstep.1, hstep.2.foreseen⟩)
    (fun u l v hs hnext hl => toGo_of_step (looping_of_reaches hs) hnext hl) h
  rw [hrun.of_only.tally_eq_countP] at hranked
  have hle := toGo_le e
  omega

end

/-! A second datagram comes in after the only report. -/

open SessionManager (Caller sample)

private def late : List (EndpointLabel Caller Unit) :=
  [.arrive ⟨[0x21, 0xf3], ⟨2, 40000, 2130706433⟩⟩, .server (.io .readable),
    .arrive ⟨[0x54, 0xf6], ⟨2, 40001, 2130706433⟩⟩]

private def afterLate : Endpoint Caller Unit :=
  replayed (endpointNext sample) late (.initial sample 0 []) (by decide +kernel)

private theorem run_late : Run (EndpointStep sample) (.initial sample 0 []) late afterLate :=
  run_replayed (endpointNext sample) late _ _

theorem no_datagram_waits_late :
    (∃ l e', l.isIo = true ∧ only (EndpointStep sample) Undisturbed afterLate l e') ∧
      ∀ tr e', Run (only (EndpointStep sample) Undisturbed) afterLate tr e' →
        tr.countP EndpointLabel.isIo ≤ 15 := by
  have hforeseen : ∀ l ∈ late, ∀ e, Foreseen e l := by simp [late, Foreseen]
  obtain ⟨_, henabled, hbound⟩ :=
    no_datagram_waits ⟨_, late, ⟨0, [], rfl⟩, run_late.only_of_forall hforeseen⟩
  have hlength : afterLate.socket.length = 2 := by decide +kernel
  refine ⟨henabled (by decide +kernel) ?_, fun tr e' hrun => ?_⟩
  · exact List.ne_nil_of_length_pos (by omega)
  · have hsteps := hbound tr e' hrun
    omega

end Pgw.UdpServer
