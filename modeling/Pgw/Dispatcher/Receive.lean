import Pgw.Dispatcher.Requests
import Pgw.Imsi.Codec

/-!
# One call of the receive loop

`process_incoming_packets` alone, with every outcome that `recvfrom` has. The call
runs over the turns of its loop: what `running_` reads, what `recvfrom` reports and
whether the queue has room. Its record keeps how it ended, the turns it left, the
end of every range it took from the buffer and all that it handed on.

The test of `errno` knows three errors. Any other one falls through to the
construction of the event, with −1 for the number of bytes.

## Main results

* `receiveLoop_append` — a good beginning is handed on in full, whatever follows it.
* `processIncomingPackets_drains_iff` — the socket is drained unless an error falls
  through.
* `ioNext_performs` — the I/O thread of the server does what the call says.
* `fromBcd_accepts_iff` — which slices the decoder makes an identity of.
-/
namespace Pgw.UdpServer
open EventDispatcher (SockaddrIn UdpEvent)

/-! ## The loop -/

inductive Errno where
  /-- `EAGAIN`. -/
  | again
  /-- `EWOULDBLOCK`. -/
  | wouldBlock
  /-- `EINTR`. -/
  | interrupted
  | other (code : ℕ)
  deriving DecidableEq

/-- What `recvfrom` reports. -/
inductive Outcome where
  | datagram (d : Datagram)
  | error (errno : Errno)

/-- One turn of the loop, as far as others decide it. -/
structure Turn where
  /-- What `running_.load()` reads. -/
  running : Bool
  outcome : Outcome
  /-- Whether `try_enqueue` finds room. -/
  room : Bool

inductive Effect where
  | enqueue (event : UdpEvent)
  | notify
  | respond (response : StdString) (addr : SockaddrIn)

inductive Exit where
  /-- Out of the loop by `break`. -/
  | drained
  /-- Out of the loop since `running_` is false. -/
  | stopped
  /-- No return: the range ends before the buffer begins. The length of the vector
  wraps around, and nobody catches the exception of its constructor. -/
  | outOfRange

/-- The record of a call. -/
structure Pass where
  /-- `none` while the call waits for its next turn. -/
  exit : Option Exit
  unread : List Turn
  /-- The ends of the ranges taken from the buffer. -/
  copied : List ℤ
  effects : List Effect

/-- The result of `recvfrom`, and the buffer and the address after it. -/
def recvfrom (outcome : Outcome) (buffer : List UInt8) (clientAddr : SockaddrIn) :
    ℤ × List UInt8 × SockaddrIn :=
  match outcome with
  | .datagram d =>
      ((min d.payload.length buffer.length : ℕ), overwrite buffer d.payload, d.source)
  | .error _ => (-1, buffer, clientAddr)

/-- The range from `buffer.begin()` to `buffer.begin() + recv`, if there is one. -/
def slice (buffer : List UInt8) (recv : ℤ) : Option (List UInt8) :=
  if 0 ≤ recv ∧ recv ≤ buffer.length then some (buffer.take recv.toNat) else none

/-- `try_enqueue` and the two branches after it. -/
def handOn (notification room : Bool) (event : UdpEvent) (clientAddr : SockaddrIn) :
    List Effect :=
  if !room then [.respond (text "rejected") clientAddr]
  else .enqueue event :: if notification then [.notify] else []

/-- `errno`, looked at only when `recv` is negative. -/
def Outcome.errno : Outcome → Option Errno
  | .datagram _ => none
  | .error errno => some errno

/-- The `while` loop. -/
def receiveLoop (notification : Bool) : List Turn → List UInt8 → SockaddrIn → Pass
  | [], _, _ => ⟨none, [], [], []⟩
  | turn :: turns, buffer, clientAddr =>
      if turn.running then
        let (recv, buffer, clientAddr) := recvfrom turn.outcome buffer clientAddr
        let errno := turn.outcome.errno
        if recv < 0 ∧ (errno = some .again ∨ errno = some .wouldBlock) then
          ⟨some .drained, turns, [], []⟩
        else if recv < 0 ∧ errno = some .interrupted then
          receiveLoop notification turns buffer clientAddr
        else
          match slice buffer recv with
          | none => ⟨some .outOfRange, turns, [recv], []⟩
          | some data =>
              let event : UdpEvent := ⟨data, clientAddr, some responseCallback⟩
              let rest := receiveLoop notification turns buffer clientAddr
              { rest with
                copied := recv :: rest.copied
                effects := handOn notification turn.room event clientAddr ++ rest.effects }
      else ⟨some .stopped, turns, [], []⟩

/-- `process_incoming_packets`; `notification` says whether
`event_notification_callback_` is set. -/
def processIncomingPackets (notification : Bool) (turns : List Turn) (buffer : List UInt8) :
    Pass :=
  receiveLoop notification turns buffer ⟨0, 0, 0⟩

/-! ## What a call owes -/

/-- Each datagram once, with its own bytes and its own sender. -/
def expected (notification : Bool) (turn : Turn) : List Effect :=
  match turn.outcome, turn.room with
  | .datagram d, true =>
      [.enqueue ⟨d.payload, d.source, some responseCallback⟩] ++
        if notification then [.notify] else []
  | .datagram d, false => [.respond (text "rejected") d.source]
  | .error _, _ => []

/-- The call has come to the end of the turns by `break`, never left the buffer, and
handed on what arrived in `turns` and nothing else. -/
structure Drains (notification : Bool) (turns : List Turn) (pass : Pass) : Prop where
  exit : pass.exit = some .drained
  unread : pass.unread = []
  inBounds : ∀ recv ∈ pass.copied, 0 ≤ recv ∧ recv ≤ bufferSize
  effects : pass.effects = turns.flatMap (expected notification)

/-- A turn that does not end the loop: a datagram that fits, or an error other than
the two that say there is none. -/
def Outcome.Earlier : Outcome → Prop
  | .datagram d => d.payload.length ≤ bufferSize
  | .error errno => errno ≠ .again ∧ errno ≠ .wouldBlock

/-- The error falls through the tests of `errno`. -/
def Outcome.FallsThrough (outcome : Outcome) : Prop := ∃ code, outcome = .error (.other code)

/-- The end of the range that a good turn takes from the buffer. -/
def Outcome.copied : Outcome → List ℤ
  | .datagram d => [(d.payload.length : ℤ)]
  | .error _ => []

/-! ## One turn -/

section
variable {notification : Bool} {turn : Turn} {turns : List Turn} {buffer : List UInt8}
  {clientAddr : SockaddrIn}

theorem slice_recvfrom (buffer payload : List UInt8) (h : payload.length ≤ buffer.length) :
    slice (overwrite buffer payload) (min payload.length buffer.length : ℕ) = some payload := by
  have htake := take_overwrite buffer payload
  rw [List.take_of_length_le h] at htake
  have hbound : min payload.length buffer.length ≤ buffer.length := Nat.min_le_right _ _
  rw [slice, length_overwrite, if_pos ⟨by omega, by omega⟩, Int.toNat_natCast, htake]

theorem handOn_eq_expected {d : Datagram} (h : turn.outcome = .datagram d) :
    handOn notification turn.room ⟨d.payload, d.source, some responseCallback⟩ d.source =
      expected notification turn := by
  cases hroom : turn.room <;> simp [handOn, expected, h, hroom]

theorem receiveLoop_datagram {d : Datagram} (hrunning : turn.running = true)
    (h : turn.outcome = .datagram d) (hfits : d.payload.length ≤ buffer.length) :
    receiveLoop notification (turn :: turns) buffer clientAddr =
      let rest := receiveLoop notification turns (overwrite buffer d.payload) d.source
      { rest with
        copied := (d.payload.length : ℤ) :: rest.copied
        effects := expected notification turn ++ rest.effects } := by
  have hrecv : ¬ ((min d.payload.length buffer.length : ℕ) : ℤ) < 0 := by omega
  have hmin : min d.payload.length buffer.length = d.payload.length := Nat.min_eq_left hfits
  rw [receiveLoop, if_pos hrunning]
  simp only [h, recvfrom, hrecv, false_and, if_false, slice_recvfrom buffer d.payload hfits]
  rw [handOn_eq_expected h, hmin]

theorem receiveLoop_interrupted (hrunning : turn.running = true)
    (h : turn.outcome = .error .interrupted) :
    receiveLoop notification (turn :: turns) buffer clientAddr =
      receiveLoop notification turns buffer clientAddr := by
  rw [receiveLoop, if_pos hrunning]
  simp [h, recvfrom, Outcome.errno]

theorem receiveLoop_drained (hrunning : turn.running = true)
    (h : turn.outcome = .error .again ∨ turn.outcome = .error .wouldBlock) :
    receiveLoop notification (turn :: turns) buffer clientAddr =
      ⟨some .drained, turns, [], []⟩ := by
  rw [receiveLoop, if_pos hrunning]
  obtain h | h := h <;> simp [h, recvfrom, Outcome.errno]

/-- A good turn with an error is an interruption. -/
theorem interrupted_of_good {outcome : Outcome} {errno : Errno} (hearlier : outcome.Earlier)
    (hgood : ¬ outcome.FallsThrough) (h : outcome = .error errno) : errno = .interrupted := by
  subst h
  cases errno with
  | again => exact absurd rfl hearlier.1
  | wouldBlock => exact absurd rfl hearlier.2
  | interrupted => rfl
  | other code => exact absurd ⟨code, rfl⟩ hgood

/-- Offset −1: the call ends in the constructor, with the socket not drained. -/
theorem receiveLoop_fallsThrough (hrunning : turn.running = true)
    (h : turn.outcome.FallsThrough) :
    receiveLoop notification (turn :: turns) buffer clientAddr =
      ⟨some .outOfRange, turns, [-1], []⟩ := by
  obtain ⟨code, h⟩ := h
  rw [receiveLoop, if_pos hrunning]
  simp [h, recvfrom, Outcome.errno, slice]

end

/-! ## The whole call -/

/-- **A good beginning is handed on in full**, and the rest of the call is that of a
loop which starts after it, on a buffer of the same length. -/
theorem receiveLoop_append (notification : Bool) (turns rest : List Turn)
    (hrunning : ∀ t ∈ turns, t.running = true)
    (hearlier : ∀ t ∈ turns, t.outcome.Earlier) (hgood : ∀ t ∈ turns, ¬ t.outcome.FallsThrough)
    (buffer : List UInt8) (clientAddr : SockaddrIn) (hbuffer : buffer.length = bufferSize) :
    ∃ buffer' clientAddr', buffer'.length = bufferSize ∧
      let pass := receiveLoop notification rest buffer' clientAddr'
      receiveLoop notification (turns ++ rest) buffer clientAddr =
        { pass with
          copied := turns.flatMap (·.outcome.copied) ++ pass.copied
          effects := turns.flatMap (expected notification) ++ pass.effects } := by
  induction turns generalizing buffer clientAddr with
  | nil => exact ⟨buffer, clientAddr, hbuffer, rfl⟩
  | cons turn turns ih =>
      simp only [List.forall_mem_cons] at hrunning hearlier hgood
      have htail := ih hrunning.2 hearlier.2 hgood.2
      cases hturn : turn.outcome with
      | datagram d =>
          have hfits : d.payload.length ≤ buffer.length := by
            rw [hbuffer]
            simpa [Outcome.Earlier, hturn] using hearlier.1
          have hlength : (overwrite buffer d.payload).length = bufferSize := by
            rw [length_overwrite, hbuffer]
          obtain ⟨buffer', clientAddr', hbuffer', hpass⟩ :=
            htail (overwrite buffer d.payload) d.source hlength
          refine ⟨buffer', clientAddr', hbuffer', ?_⟩
          rw [List.cons_append, receiveLoop_datagram hrunning.1 hturn hfits, hpass]
          simp [hturn, Outcome.copied]
      | error errno =>
          have herrno := interrupted_of_good hearlier.1 hgood.1 hturn
          subst herrno
          obtain ⟨buffer', clientAddr', hbuffer', hpass⟩ := htail buffer clientAddr hbuffer
          refine ⟨buffer', clientAddr', hbuffer', ?_⟩
          rw [List.cons_append, receiveLoop_interrupted hrunning.1 hturn, hpass]
          simp [hturn, Outcome.copied, expected]

/-- The ends of the good ranges are in the buffer. -/
theorem mem_copied_le {turns : List Turn} (hearlier : ∀ t ∈ turns, t.outcome.Earlier) :
    ∀ recv ∈ turns.flatMap (·.outcome.copied), 0 ≤ recv ∧ recv ≤ (bufferSize : ℤ) := by
  intro recv hrecv
  obtain ⟨turn, hturn, hmem⟩ := List.mem_flatMap.mp hrecv
  have hfits := hearlier turn hturn
  cases houtcome : turn.outcome with
  | datagram d =>
      simp only [houtcome, Outcome.copied, List.mem_singleton, Outcome.Earlier] at hmem hfits
      omega
  | error errno => simp [houtcome, Outcome.copied] at hmem

/-- Everything before the first error that falls through, and nothing from there on:
neither that the socket is drained nor what arrived after the error. -/
theorem receiveLoop_of_fallsThrough (notification : Bool) (turns rest : List Turn) (bad : Turn)
    (hrunning : ∀ t ∈ turns, t.running = true) (hbad : bad.running = true)
    (hearlier : ∀ t ∈ turns, t.outcome.Earlier) (hgood : ∀ t ∈ turns, ¬ t.outcome.FallsThrough)
    (hfalls : bad.outcome.FallsThrough)
    (buffer : List UInt8) (clientAddr : SockaddrIn) (hbuffer : buffer.length = bufferSize) :
    receiveLoop notification (turns ++ bad :: rest) buffer clientAddr =
      ⟨some .outOfRange, rest, turns.flatMap (·.outcome.copied) ++ [-1],
        turns.flatMap (expected notification)⟩ := by
  obtain ⟨buffer', clientAddr', -, hpass⟩ := receiveLoop_append notification turns (bad :: rest)
    hrunning hearlier hgood buffer clientAddr hbuffer
  rw [hpass, receiveLoop_fallsThrough hbad hfalls, List.append_nil]

/-- The first error that falls through. -/
theorem exists_first_fallsThrough {turns : List Turn}
    (h : ¬ ∀ t ∈ turns, ¬ t.outcome.FallsThrough) :
    ∃ before bad after, turns = before ++ bad :: after ∧ bad.outcome.FallsThrough ∧
      ∀ t ∈ before, ¬ t.outcome.FallsThrough := by
  classical
  push Not at h
  obtain ⟨t, ht, hfalls⟩ := h
  have hsome : (turns.find? fun t => decide t.outcome.FallsThrough).isSome := by
    rw [List.find?_isSome]
    exact ⟨t, ht, by simpa using hfalls⟩
  obtain ⟨bad, hbad⟩ := Option.isSome_iff_exists.mp hsome
  obtain ⟨hp, before, after, hturns, hbefore⟩ := List.find?_eq_some_iff_append.mp hbad
  exact ⟨before, bad, after, hturns, by simpa using hp, fun t ht => by simpa using hbefore t ht⟩

/-- **The socket is drained unless an error falls through.** Whatever the datagrams and
the interruptions, and whether or not the queue has room. -/
theorem processIncomingPackets_drains_iff (notification : Bool) (turns : List Turn) (last : Turn)
    (buffer : List UInt8) (hbuffer : buffer.length = bufferSize)
    (hrunning : ∀ t ∈ turns ++ [last], t.running = true)
    (hearlier : ∀ t ∈ turns, t.outcome.Earlier)
    (hlast : last.outcome = .error .again ∨ last.outcome = .error .wouldBlock) :
    Drains notification turns (processIncomingPackets notification (turns ++ [last]) buffer) ↔
      ∀ t ∈ turns, ¬ t.outcome.FallsThrough := by
  simp only [List.forall_mem_append, List.forall_mem_singleton] at hrunning
  rw [processIncomingPackets]
  by_cases hgood : ∀ t ∈ turns, ¬ t.outcome.FallsThrough
  · refine iff_of_true ?_ hgood
    obtain ⟨buffer', clientAddr', -, hpass⟩ := receiveLoop_append notification turns [last]
      hrunning.1 hearlier hgood buffer ⟨0, 0, 0⟩ hbuffer
    rw [hpass, receiveLoop_drained hrunning.2 hlast]
    simp only [List.append_nil]
    exact ⟨rfl, rfl, mem_copied_le hearlier, rfl⟩
  · refine iff_of_false ?_ hgood
    obtain ⟨before, bad, after, rfl, hfalls, hbefore⟩ := exists_first_fallsThrough hgood
    simp only [List.forall_mem_append, List.forall_mem_cons] at hrunning hearlier
    rw [List.append_assoc, List.cons_append, receiveLoop_of_fallsThrough notification before
      (after ++ [last]) bad hrunning.1.1 hrunning.1.2.1 hearlier.1 hbefore hfalls buffer ⟨0, 0, 0⟩
      hbuffer]
    intro hdrains
    have hexit := hdrains.exit
    simp at hexit

theorem processIncomingPackets_drains_two :
    Drains true
      [⟨true, .datagram ⟨[0x21], ⟨1, 2, 3⟩⟩, true⟩, ⟨true, .error .interrupted, true⟩,
        ⟨true, .datagram ⟨[], ⟨4, 5, 6⟩⟩, false⟩]
      (processIncomingPackets true
        ([⟨true, .datagram ⟨[0x21], ⟨1, 2, 3⟩⟩, true⟩, ⟨true, .error .interrupted, true⟩,
          ⟨true, .datagram ⟨[], ⟨4, 5, 6⟩⟩, false⟩] ++ [⟨true, .error .again, true⟩])
        (List.replicate bufferSize 0)) := by
  refine (processIncomingPackets_drains_iff true _ ⟨true, .error .again, true⟩ _ (by simp)
    (by simp) ?_ (Or.inl rfl)).mpr ?_
  · simp [Outcome.Earlier, bufferSize]
  · simp [Outcome.FallsThrough]

/-- A datagram behind an error: `ENOMEM` falls through, the range from the beginning of
the buffer to one before it is no range, and the call does not return. The datagram
stays in the socket. -/
theorem processIncomingPackets_enomem :
    let turns : List Turn :=
      [⟨true, .error (.other 12), true⟩, ⟨true, .datagram ⟨[0x21], ⟨1, 2, 3⟩⟩, true⟩]
    let pass := processIncomingPackets true (turns ++ [⟨true, .error .again, true⟩])
      (List.replicate bufferSize 0)
    (∀ t ∈ turns, t.running = true ∧ t.outcome.Earlier) ∧ pass.exit = some .outOfRange ∧
      pass.copied = [-1] ∧ pass.effects = [] ∧ pass.unread.length = 2 ∧
      ¬ Drains true turns pass := by
  intro turns pass
  have hpass : pass = ⟨some .outOfRange, turns.tail ++ [⟨true, .error .again, true⟩], [-1], []⟩ :=
    receiveLoop_fallsThrough rfl ⟨12, rfl⟩
  rw [hpass]
  refine ⟨by simp [turns, Outcome.Earlier, bufferSize], rfl, rfl, rfl, rfl, ?_⟩
  intro hdrains
  have hexit := hdrains.exit
  simp at hexit

/-! ## The I/O thread runs this loop -/

section
open TransitionSystem
variable {ω κ : Type}

/-- The events of a call, in order. -/
def enqueued (effects : List Effect) : List UdpEvent :=
  effects.filterMap fun
    | .enqueue event => some event
    | _ => none

/-- The responses of a call, in order. -/
def responded (effects : List Effect) : List (StdString × SockaddrIn) :=
  effects.filterMap fun
    | .respond response addr => some (response, addr)
    | _ => none

/-- What the I/O thread finds in a turn. -/
def Turn.findings (turn : Turn) : List Finding :=
  match turn.outcome with
  | .datagram d =>
      [.readable, .datagram d, .readable, if turn.room then .enqueued else .full, .readable]
  | .error .interrupted => [.readable, .interrupted]
  | .error _ => [.readable, .again]

/-- The server has got and answered what the call has handed on. -/
structure Performs (effects : List Effect) (s t : Server ω κ) : Prop where
  running : t.running = s.running
  buffer : t.io.buffer.length = s.io.buffer.length
  queue : t.queue.map Item.event = s.queue.map Item.event ++ enqueued effects
  sent : t.sent.map (fun a => (a.response, a.addr)) =
    s.sent.map (fun a => (a.response, a.addr)) ++ responded effects

/-- A jump of the I/O thread hands on nothing. -/
theorem performs_gotoIo (s : Server ω κ) (pc : IoPc) : Performs [] s (s.gotoIo pc) :=
  ⟨rfl, rfl, by simp [enqueued, Server.gotoIo], by simp [responded, Server.gotoIo]⟩

theorem Performs.trans {effects effects' : List Effect} {s t u : Server ω κ}
    (h : Performs effects s t) (h' : Performs effects' t u) :
    Performs (effects ++ effects') s u where
  running := h'.running.trans h.running
  buffer := h'.buffer.trans h.buffer
  queue := by rw [h'.queue, h.queue, enqueued, enqueued, enqueued, List.filterMap_append,
    List.append_assoc]
  sent := by rw [h'.sent, h.sent, responded, responded, responded, List.filterMap_append,
    List.append_assoc]

/-- The I/O thread back at the head of the loop, with a datagram in the buffer. -/
def Server.received (s : Server ω κ) (d : Datagram) : Server ω κ :=
  { s with
    io := ⟨.testRunning, overwrite s.io.buffer d.payload, d.source⟩
    arrived := s.arrived ++ [d] }

/-- The five statements of a turn that reads a datagram. -/
theorem replay_datagram {s : Server ω κ} {d : Datagram} {room : Bool}
    (hpc : s.io.pc = .testRunning) (hrunning : s.running = true)
    (hfits : d.payload.length ≤ s.io.buffer.length) :
    replay ioNext
        [.readable, .datagram d, .readable, if room then .enqueued else .full, .readable] s =
      some (if room then
        { s.received d with
          queue := s.queue ++
            [⟨s.arrived.length, ⟨d.payload, d.source, some responseCallback⟩⟩] }
      else (s.received d).sendResponse
        ⟨s.arrived.length, text "rejected", d.source, .queueFull⟩) := by
  have htake := take_overwrite s.io.buffer d.payload
  rw [List.take_of_length_le hfits] at htake
  cases room <;>
    simp [replay, ioNext, hpc, hrunning, htake, Server.gotoIo, Server.sendResponse,
      Server.received]

/-- One good turn, statement by statement. -/
theorem performs_of_turn {s : Server ω κ} {turn : Turn} (hpc : s.io.pc = .testRunning)
    (hrunning : s.running = true) (hbuffer : s.io.buffer.length = bufferSize)
    (hearlier : turn.outcome.Earlier) (hgood : ¬ turn.outcome.FallsThrough) :
    ∃ t, replay ioNext turn.findings s = some t ∧ t.io.pc = .testRunning ∧
      Performs (expected true turn) s t := by
  cases houtcome : turn.outcome with
  | datagram d =>
      have hfits : d.payload.length ≤ s.io.buffer.length := by
        rw [hbuffer]
        simpa [Outcome.Earlier, houtcome] using hearlier
      have hlength := length_overwrite s.io.buffer d.payload
      rw [Turn.findings, houtcome, expected.eq_def, houtcome]
      refine ⟨_, replay_datagram hpc hrunning hfits, ?_, ?_⟩
      · cases turn.room <;> rfl
      · cases turn.room
        · exact ⟨rfl, hlength, by simp [enqueued, Server.received, Server.sendResponse],
            by simp [responded, Server.received, Server.sendResponse]⟩
        · exact ⟨rfl, hlength, by simp [enqueued], by simp [responded, Server.received]⟩
  | error errno =>
      have herrno : errno = .interrupted := interrupted_of_good hearlier hgood houtcome
      subst herrno
      rw [Turn.findings, houtcome, expected.eq_def, houtcome]
      refine ⟨s.gotoIo .testRunning, ?_, rfl, performs_gotoIo s _⟩
      simp [replay, ioNext, hpc, hrunning, Server.gotoIo]

/-- **The I/O thread runs this loop.** Statement by statement, over the turns of a call
that drains the socket, it gives the queue and the network what the call hands on, and
is back at `epoll_wait`. -/
theorem ioNext_performs {s : Server ω κ} {turns : List Turn} {last : Turn}
    (hpc : s.io.pc = .testRunning) (hrunning : s.running = true)
    (hbuffer : s.io.buffer.length = bufferSize) (hturns : ∀ t ∈ turns ++ [last], t.running = true)
    (hearlier : ∀ t ∈ turns, t.outcome.Earlier) (hgood : ∀ t ∈ turns, ¬ t.outcome.FallsThrough)
    (hlast : last.outcome = .error .again ∨ last.outcome = .error .wouldBlock) :
    ∃ t, replay ioNext ((turns ++ [last]).flatMap Turn.findings) s = some t ∧
      t.io.pc = .epollWait ∧
      Performs (processIncomingPackets true (turns ++ [last]) s.io.buffer).effects s t := by
  have hdrains := (processIncomingPackets_drains_iff true turns last s.io.buffer hbuffer hturns
    hearlier hlast).mpr hgood
  rw [hdrains.effects]
  clear hdrains hturns
  induction turns generalizing s with
  | nil =>
      refine ⟨s.gotoIo .epollWait, ?_, rfl, performs_gotoIo s _⟩
      obtain hlast | hlast := hlast <;>
        simp [Turn.findings, hlast, replay, ioNext, hpc, hrunning, Server.gotoIo]
  | cons turn turns ih =>
      simp only [List.forall_mem_cons] at hearlier hgood
      obtain ⟨t, hreplay, htpc, hfirst⟩ :=
        performs_of_turn hpc hrunning hbuffer hearlier.1 hgood.1
      obtain ⟨u, hrest, hupc, hperforms⟩ := ih htpc (hfirst.running.trans hrunning)
        (hfirst.buffer.trans hbuffer) hearlier.2 hgood.2
      refine ⟨u, ?_, hupc, hfirst.trans hperforms⟩
      rw [List.cons_append, List.flatMap_cons, replay_append, hreplay]
      exact hrest

end

/-! ## What the decoder makes of a slice -/

open IMSI PackedDigits in
/-- **Which slices are identities.** The loop of `from_bcd` looks at nothing; the
check of the constructor catches every bad nibble and every bad length. A byte has
two digits, or one and the filler, so that no more than `MaxDigits` bytes can pass, and
no datagram that was cut off. -/
theorem fromBcd_accepts_iff (data : List UInt8) :
    (Valid (fromBcdLoop data []) ↔
      (∀ b ∈ data, low b < 10) ∧ (∀ b ∈ data, high b < 10 ∨ high b = filler) ∧
        1 ≤ 2 * data.length - data.countP (fun b => high b = filler) ∧
        2 * data.length - data.countP (fun b => high b = filler) ≤ maxDigits) ∧
    (Valid (fromBcdLoop data []) → ∃ imsi, ofString (fromBcdLoop data []) = .returned imsi ∧
      fromBcd data = .returned imsi ∧
      imsi.str = data.flatMap fun b =>
        if high b = filler then [zeroChar + low b] else [zeroChar + low b, zeroChar + high b]) ∧
    ((∃ b ∈ data, 10 ≤ low b ∨ 10 ≤ high b ∧ high b ≠ filler) →
      ∀ imsi, fromBcd data ≠ .returned imsi) ∧
    (maxDigits < data.length → ∀ imsi, fromBcd data ≠ .returned imsi) ∧
    ∀ payload : List UInt8, bufferSize < payload.length → data = payload.take bufferSize →
      ∀ imsi, fromBcd data ≠ .returned imsi := by
  have hvalid := valid_fromBcdLoop data
  have hlong : maxDigits < data.length → ∀ imsi, fromBcd data ≠ .returned imsi := by
    intro hlength imsi himsi
    have hcount := (decodable_of_fromBcd himsi).2.2
    have hfillers : data.countP (fun b => high b = filler) ≤ data.length := List.countP_le_length
    rw [digitCount] at hcount
    omega
  refine ⟨?_, ?_, ?_, hlong, ?_⟩
  · rw [hvalid, Decodable, digitCount, forall₂_and, and_assoc]
  · intro hv
    obtain ⟨imsi, himsi⟩ := fromBcd_of_decodable (hvalid.mp hv)
    refine ⟨imsi, Completion.noexcept_eq_returned.mp himsi, himsi, ?_⟩
    rw [← map_values, fromBcd_returned_iff.mp himsi, unpack, List.map_flatMap]
    congr 1
    funext b
    rw [digitsOf]
    split <;> rfl
  · rintro ⟨b, hb, hbad⟩ imsi himsi
    obtain ⟨hlow, hhigh⟩ := (decodable_of_fromBcd himsi).1 b hb
    obtain hl | ⟨hh, hne⟩ := hbad
    · exact UInt8.not_lt.mpr hl hlow
    · exact hhigh.elim (UInt8.not_lt.mpr hh) hne
  · rintro payload hpayload rfl
    apply hlong
    rw [List.length_take, Nat.min_eq_left hpayload.le]
    decide

end Pgw.UdpServer
