import Pgw.Client.Model
import Pgw.Dispatcher.Server

/-!
# Clients, the network and the server

Any number of clients, each with its own socket, send to one server over a network that
loses, copies and reorders. A request that leaves the network is the datagram that the
server's I/O thread reads; an answer of the server sets out for the socket whose address
the server has kept for it. Strangers may send to the server and to the clients.

The parts are those of the client's model and of the server's model; here only the
network between them is new. In the client's model the server answered whatever it liked,
here it is the real one.

Whose request a received datagram was, and what each client has asked for, is bookkeeping
that no step looks at. So is the list that a client's `Sending` keeps of its requests that
are not over: a request that the server has received and not answered is on it.
-/
namespace Pgw.System
open TransitionSystem Datagrams
open SessionManager (Config)
open EventDispatcher (SockaddrIn)
open UdpClient (World WorldLabel Request Packet ClientPc Outcome worldNext)
open UdpServer (Server ServerLabel Datagram Answer serverNext)

/-! ## Data -/

/-- Where everybody's socket is: the address the clients are configured with, and the
source address of each client's socket. -/
structure Addresses (γ : Type) where
  server : SockaddrIn
  client : γ → SockaddrIn
  distinct : Function.Injective client

structure Deployment (γ ω κ : Type) where
  /-- Every client with what is under way on its side. -/
  links : γ → World
  server : Server ω κ
  /-- Whose request each received datagram was; `none` is a stranger's. -/
  origins : List (Option (γ × Request))
  /-- The payloads of each client's requests, by their numbers. -/
  asked : γ → List (List UInt8)

inductive DeploymentLabel (γ ω κ : Type) where
  /-- A client, or the network on its side, moves. -/
  | link (c : γ) (l : WorldLabel)
  /-- The I/O thread reads a request of a client. -/
  | arrive (c : γ) (k : ℕ)
  /-- The I/O thread reads a datagram of somebody else. -/
  | stranger (d : Datagram)
  | server (l : ServerLabel ω κ)

variable {γ ω κ : Type}

def Deployment.initial (cfg : Config) (clock : ℤ) : Deployment γ ω κ where
  links := fun _ => .initial
  server := .initial cfg clock
  origins := []
  asked := fun _ => []

/-! ## Requests at the server -/

section Requests
variable [DecidableEq γ]

/-- The request behind a ticket, if it is this client's and not answered yet. -/
def requestOf (c : γ) (answered : List ℕ) (origin : Option (γ × Request) × ℕ) : Option Request :=
  match origin with
  | (some (c', request), ticket) => if c' = c ∧ ticket ∉ answered then some request else none
  | (none, _) => none

/-- The client's requests that the server has received and not answered. -/
def Deployment.received (d : Deployment γ ω κ) (c : γ) : List Request :=
  d.origins.zipIdx.filterMap (requestOf c (d.server.sent.map Answer.ticket))

/-- The world as it is for one client. -/
def Deployment.world (d : Deployment γ ω κ) (c : γ) : World :=
  { d.links c with requests := d.received c ++ (d.links c).requests }

end Requests

/-! ## Steps -/

/-- What the client sends in this step. -/
def sentPayload : ClientPc → Outcome → List (List UInt8)
  | .send bcd, .done => [bcd]
  | _, _ => []

/-- A reply of the server sets out, under the number of the request it answers. -/
def reply (packet : Packet) (w : World) : World :=
  { w with
    replies := w.replies ++ [packet]
    replied := w.replied ++ (packet.answers.map fun number => (number, packet.payload)).toList }

section Steps
variable [DecidableEq γ]

def Deployment.setLink (d : Deployment γ ω κ) (c : γ) (w : World) (asked : List (List UInt8)) :
    Deployment γ ω κ :=
  { d with links := Function.update d.links c w, asked := Function.update d.asked c asked }

/-- The client's own system calls, and the rest of what happens on its side. -/
def linkNext (addrs : Addresses γ) (c : γ) (l : WorldLabel) (d : Deployment γ ω κ) :
    Option (Deployment γ ω κ) :=
  match l with
  | .client outcome elapsed =>
      (UdpClient.clientNext outcome elapsed (d.world c)).map fun w =>
        -- the requests at the server come first in the client's world
        d.setLink c { w with requests := w.requests.drop (d.received c).length }
          (d.asked c ++ sentPayload (d.links c).client outcome)
  | .server _ _ => none
  | l => (worldNext addrs.server l (d.links c)).map fun w => d.setLink c w (d.asked c)

/-- The number of the request of this client that a ticket stands for. -/
def Deployment.numberOf (d : Deployment γ ω κ) (c : γ) (ticket : ℕ) : Option ℕ :=
  match d.origins[ticket]? with
  | some (some (c', request)) => if c' = c then some request.number else none
  | _ => none

/-- An answer goes to the socket at its address. -/
def Deployment.post (addrs : Addresses γ) (d : Deployment γ ω κ) (a : Answer) :
    Deployment γ ω κ :=
  { d with
    links := fun c =>
      if a.addr = addrs.client c then
        reply ⟨a.response, addrs.server, d.numberOf c a.ticket⟩ (d.links c)
      else d.links c }

variable [Fintype γ] [Fintype ω] [DecidableEq ω] [Fintype κ] [DecidableEq κ]

/-- `recvfrom` with a datagram to read. -/
def receive (cfg : Config) (datagram : Datagram) (s : Server ω κ) : Option (Server ω κ) :=
  match s.io.pc with
  | .recvfrom => serverNext cfg (.io (.datagram datagram)) s
  | _ => none

/-- What `recvfrom` finds is under way to the server, and what the server sends in a step
is under way after it. -/
def deploymentNext (cfg : Config) (addrs : Addresses γ) (l : DeploymentLabel γ ω κ)
    (d : Deployment γ ω κ) : Option (Deployment γ ω κ) :=
  match l with
  | .link c l => linkNext addrs c l d
  | .arrive c k =>
      (deliver k (d.links c).requests).bind fun (request, requests) =>
        (receive cfg ⟨request.payload, addrs.client c⟩ d.server).map fun server =>
          { d.setLink c { d.links c with requests := requests } (d.asked c) with
            server := server
            origins := d.origins ++ [some (c, request)] }
  | .stranger datagram =>
      if ∃ c, addrs.client c = datagram.source then none
      else (receive cfg datagram d.server).map fun server =>
        { d with server := server, origins := d.origins ++ [none] }
  | .server (.io (.datagram _)) => none
  | .server l =>
      (serverNext cfg l d.server).map fun server =>
        (server.sent.drop d.server.sent.length).foldl (Deployment.post addrs)
          { d with server := server }

def DeploymentStep (cfg : Config) (addrs : Addresses γ) (d : Deployment γ ω κ)
    (l : DeploymentLabel γ ω κ) (d' : Deployment γ ω κ) : Prop :=
  deploymentNext cfg addrs l d = some d'

def Initial (cfg : Config) (d : Deployment γ ω κ) : Prop :=
  ∃ clock, d = Deployment.initial cfg clock

/-- Every run of the deployment from its start. -/
def Reaches (cfg : Config) (addrs : Addresses γ) (d : Deployment γ ω κ) : Prop :=
  Reachable (Initial cfg) (DeploymentStep cfg addrs) d

end Steps

end Pgw.System
