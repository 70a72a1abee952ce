import Pgw.Dispatcher.UdpEvent
import Pgw.Lib.Datagrams
import Pgw.Lib.TransitionSystem

/-!
# The client, the network and the server's replies

`send_imsi_with_response` sends one datagram through the client's socket, waits until
the socket is readable, and reads one datagram from it. Requests and replies carry no
number, and one socket serves every call. `World` is the client between two of its
system calls, with what is under way in the network and what waits in the socket.

The server is what the client can know of it: it may reply to any request that
reaches it, with any text. Requests are numbered as they are sent. The numbers, the
log of the replies and the log of the returned calls are bookkeeping that no step
looks at.
-/
namespace Pgw.UdpClient
open TransitionSystem Datagrams
open EventDispatcher (SockaddrIn)

/-! ## Data -/

inductive SendResult where
  | success
  | sendFailed
  | timeout
  | invalidResponse
  | networkError
  deriving DecidableEq, Repr

/-- The time counts milliseconds. -/
structure Response where
  result : SendResult
  responseText : StdString
  responseTime : ℕ
  deriving DecidableEq, Repr

/-- A request under way, with its number. -/
structure Request where
  number : ℕ
  payload : List UInt8
  deriving DecidableEq, Repr

/-- A datagram under way to the client; the number of the request it answers, if it
is a reply of the server. -/
structure Packet where
  payload : StdString
  source : SockaddrIn
  answers : Option ℕ
  deriving DecidableEq, Repr

/-- A request that has been sent, and the numbers of those that were not over then:
a copy of them or of a reply to them was under way, or unread in the socket. -/
structure Sending where
  number : ℕ
  pending : List ℕ
  deriving DecidableEq, Repr

inductive ClientPc where
  | idle
  | construct (imsi : StdString)
  | send (bcd : List UInt8)
  | select (sending : Sending)
  | recvfrom (sending : Sending)
  deriving DecidableEq, Repr

/-- A call that has returned: what it sent, whose datagram it read, and its result. -/
structure Returned where
  sending : Option Sending
  source : Option SockaddrIn
  response : Response
  deriving DecidableEq, Repr

structure World where
  client : ClientPc
  /-- How many requests have been sent. -/
  sent : ℕ
  requests : List Request
  replies : List Packet
  socket : List Packet
  /-- What the server has replied, and to which request. -/
  replied : List (ℕ × StdString)
  returned : List Returned

/-- How a system call of the client ends. -/
inductive Outcome where
  | done
  /-- `EAGAIN` or `EWOULDBLOCK`. -/
  | again
  /-- `EINTR`. -/
  | interrupted
  | timeout
  /-- Ready, but not this socket. -/
  | unexpected
  /-- Any other error, with the text of `strerror`. -/
  | failed (error : StdString)

inductive WorldLabel where
  | call (imsi : StdString)
  | client (outcome : Outcome) (elapsed : ℕ)
  | server (k : ℕ) (response : StdString)
  | loseRequest (fault : Fault)
  | loseReply (fault : Fault)
  | deliver (k : ℕ)
  /-- Somebody else sends to the client's socket. -/
  | foreign (payload : StdString) (source : SockaddrIn)

def World.initial : World where
  client := .idle
  sent := 0
  requests := []
  replies := []
  socket := []
  replied := []
  returned := []

/-- The comparison in `receive_response`. -/
def SameAddress (serverAddr source : SockaddrIn) : Prop :=
  source.sinAddr = serverAddr.sinAddr ∧ source.sinPort = serverAddr.sinPort

instance (serverAddr source : SockaddrIn) : Decidable (SameAddress serverAddr source) :=
  inferInstanceAs (Decidable (_ ∧ _))

/-- The requests that are not over. -/
def World.pending (s : World) : List ℕ :=
  s.requests.map Request.number ++ (s.replies ++ s.socket).filterMap Packet.answers

/-! ## The client -/

/-- The call returns. -/
def World.leave (s : World) (sending : Option Sending) (source : Option SockaddrIn)
    (result : SendResult) (responseText : StdString) (responseTime : ℕ) : World :=
  { s with
    client := .idle
    returned := s.returned ++ [⟨sending, source, ⟨result, responseText, responseTime⟩⟩] }

/-- `receive_response` on what `recvfrom` has read. A wrong sender is only logged. -/
def receiveResponse (packet : Packet) : SendResult × StdString :=
  let responseText := packet.payload.take 1023
  if responseText = [] then (.invalidResponse, text "Empty response")
  else if responseText = text "created" ∨ responseText = text "rejected" then
    (.success, responseText)
  else (.invalidResponse, responseText)

/-- `send_imsi_with_response`, one system call at a time. `select` finds the socket
readable exactly when a datagram waits in it. -/
def clientNext (outcome : Outcome) (elapsed : ℕ) (s : World) : Option World :=
  match s.client, outcome with
  | .construct imsi, _ =>
      match IMSI.ofString imsi with
      | .returned imsi => imsi.toBcd.map fun bcd => { s with client := .send bcd }
      | .raised what => some (s.leave none none .invalidResponse (text what) 0)
      | .terminated => none
  | .send bcd, .done =>
      some { s with
        client := .select ⟨s.sent, s.pending⟩
        sent := s.sent + 1
        requests := s.requests ++ [⟨s.sent, bcd⟩] }
  | .send _, .again => some (s.leave none none .sendFailed [] 0)
  | .send _, .failed error => some (s.leave none none .sendFailed error 0)
  | .select sending, .done =>
      if s.socket = [] then none else some { s with client := .recvfrom sending }
  | .select sending, .timeout =>
      if s.socket = [] then
        some (s.leave sending none .timeout (text "No response within timeout") elapsed)
      else none
  | .select sending, .interrupted =>
      some (s.leave sending none .networkError (text "Interrupted") elapsed)
  | .select sending, .unexpected =>
      some (s.leave sending none .networkError (text "Unexpected select result") elapsed)
  | .select sending, .failed error => some (s.leave sending none .networkError error elapsed)
  | .recvfrom sending, .done =>
      match s.socket with
      | packet :: socket =>
          let (result, responseText) := receiveResponse packet
          some ({ s with socket := socket }.leave sending packet.source result responseText elapsed)
      | [] => none
  | .recvfrom sending, .again =>
      some (s.leave sending none .timeout (text "No data available") elapsed)
  | .recvfrom sending, .failed error => some (s.leave sending none .networkError error elapsed)
  | _, _ => none

/-! ## The system -/

/-- One system call of the client, one reply of the server, or one event of the network.
`serverAddr` is the configured address. -/
def worldNext (serverAddr : SockaddrIn) (l : WorldLabel) (s : World) : Option World :=
  match l with
  | .call imsi => if s.client = .idle then some { s with client := .construct imsi } else none
  | .client outcome elapsed => clientNext outcome elapsed s
  | .server k response =>
      (Datagrams.deliver k s.requests).map fun (request, requests) =>
        { s with
          requests := requests
          replies := s.replies ++ [⟨response, serverAddr, some request.number⟩]
          replied := s.replied ++ [(request.number, response)] }
  | .loseRequest fault => some { s with requests := fault.apply s.requests }
  | .loseReply fault => some { s with replies := fault.apply s.replies }
  | .deliver k =>
      (Datagrams.deliver k s.replies).map fun (packet, replies) =>
        { s with replies := replies, socket := s.socket ++ [packet] }
  | .foreign payload source =>
      if SameAddress serverAddr source then none
      else some { s with replies := s.replies ++ [⟨payload, source, none⟩] }

def WorldStep (serverAddr : SockaddrIn) (s : World) (l : WorldLabel) (t : World) : Prop :=
  worldNext serverAddr l s = some t

/-- Every run of one client from its constructor. -/
def Reaches (serverAddr : SockaddrIn) (s : World) : Prop :=
  Reachable (· = World.initial) (WorldStep serverAddr) s

end Pgw.UdpClient
