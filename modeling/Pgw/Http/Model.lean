import Mathlib.Data.Fintype.Option
import Pgw.Lib.TransitionSystem

/-!
# The HTTP server and its thread

`start` claims `running_`, then makes the thread; the thread clears `running_` when
`listen` has come back; `stop` clears `running_` and joins the thread. Any number of
threads call `start` and `stop`, those that `handle_stop` detaches among them, and the
destructor calls `stop` before the members go.

A `std::thread` that has not been joined must neither be assigned nor destroyed, even
if its function has returned, and a thread that is none cannot be joined. Each of the
three ends the process.

Successful exchanges of `start` are counted. A call of `start` keeps its number up to
the assignment, and a call of `stop` keeps the number of the start that it answers.
The count and the numbers are bookkeeping that no step looks at. What else the handlers
do, and the routes, are left out.
-/
namespace Pgw
open TransitionSystem

/-! ## Data -/

/-- The thread made by `start`. -/
inductive ServerPc where
  /-- In `server_->listen`. -/
  | listen
  /-- `listen` has come back; `running_ = false` is next. -/
  | clear
  /-- The function has returned. -/
  | finished
  deriving DecidableEq

/-- The statement that a call, or the destructor, is at. -/
inductive HttpPc where
  | idle
  | startExchange
  | startAssign (turn : ℕ)
  /-- Asleep, then the last test of `running_` for the log. -/
  | startReport
  /-- A thread of `handle_stop`, asleep. -/
  | delay
  | stopExchange
  | stopServer (turn : ℕ)
  | stopTest (turn : ℕ)
  | stopJoin (turn : ℕ)
  /-- The destructor's `stop` has returned; `server_thread_` is destroyed next. -/
  | destroyThread
  | destroyed
  deriving DecidableEq

/-- In a call of `start`. -/
def HttpPc.starting : HttpPc → Bool
  | .startExchange => true
  | .startAssign _ => true
  | .startReport => true
  | _ => false

/-- The number of a start that has claimed `running_` and not yet made its thread. -/
def HttpPc.assigning : HttpPc → Option ℕ
  | .startAssign turn => some turn
  | _ => none

/-- The number of the start that a call of `stop` answers, until it returns. -/
def HttpPc.stopping : HttpPc → Option ℕ
  | .stopServer turn => some turn
  | .stopTest turn => some turn
  | .stopJoin turn => some turn
  | _ => none

/-- The calls `κ` and the destructor, which is `none`. -/
structure HttpServer (κ : Type) where
  running : Bool
  shutdownRequested : Bool
  /-- `none` when `server_thread_` is not joinable. -/
  serverThread : Option ServerPc
  /-- `server_->stop()` has been called. -/
  stopped : Bool
  pcs : Option κ → HttpPc
  /-- Calls of `start` that found `running_` false. -/
  starts : ℕ
  terminated : Bool

inductive HttpLabel (κ : Type) where
  | callStart (k : κ)
  | callStop (k : κ)
  /-- A request is handled; the thread `k` is detached. -/
  | handleStop (k : κ)
  | destroy
  | thread (a : Option κ)
  | listenFails
  | listenReturns
  | clear
  deriving DecidableEq

namespace HttpServer
variable {κ : Type}

def initial : HttpServer κ := ⟨false, false, none, false, fun _ => .idle, 0, false⟩

/-! ## Steps -/

/-- Where `stop` returns to. -/
def returned : Option κ → HttpPc
  | some _ => .idle
  | none => .destroyThread

variable [DecidableEq κ]

def goto (s : HttpServer κ) (a : Option κ) (pc : HttpPc) : HttpServer κ :=
  { s with pcs := Function.update s.pcs a pc }

/-- `std::terminate`. -/
def terminate (s : HttpServer κ) : HttpServer κ := { s with terminated := true }

/-- `start`, `stop` and the rest of the destructor. -/
def threadNext (a : Option κ) (s : HttpServer κ) : Option (HttpServer κ) :=
  match s.pcs a with
  | .idle => none
  | .startExchange =>
      if s.running then some (s.goto a .idle)
      else
        some ({ s with running := true, starts := s.starts + 1 }.goto a
          (.startAssign (s.starts + 1)))
  | .startAssign _ =>
      if s.serverThread.isSome then some s.terminate
      else some ({ s with serverThread := some .listen }.goto a .startReport)
  | .startReport => some (s.goto a .idle)
  | .delay => some (s.goto a .stopExchange)
  | .stopExchange =>
      if s.running then some ({ s with running := false }.goto a (.stopServer s.starts))
      else some (s.goto a (returned a))
  | .stopServer turn => some ({ s with stopped := true }.goto a (.stopTest turn))
  | .stopTest turn =>
      some (s.goto a (if s.serverThread.isSome then .stopJoin turn else returned a))
  | .stopJoin _ =>
      match s.serverThread with
      | none => some s.terminate
      | some .finished => some ({ s with serverThread := none }.goto a (returned a))
      | some _ => none
  | .destroyThread =>
      if s.serverThread.isSome then some s.terminate else some (s.goto a .destroyed)
  | .destroyed => none

/-- One step of anybody; no call begins once the destructor has. -/
def next (l : HttpLabel κ) (s : HttpServer κ) : Option (HttpServer κ) :=
  if s.terminated ∨ s.pcs none = .destroyed then none
  else
    match l with
    | .callStart k =>
        if s.pcs none = .idle ∧ s.pcs (some k) = .idle then some (s.goto (some k) .startExchange)
        else none
    | .callStop k =>
        if s.pcs none = .idle ∧ s.pcs (some k) = .idle then some (s.goto (some k) .stopExchange)
        else none
    | .handleStop k =>
        if s.serverThread = some .listen ∧ s.pcs (some k) = .idle then
          some ({ s with shutdownRequested := true }.goto (some k) .delay)
        else none
    | .destroy => if s.pcs none = .idle then some (s.goto none .stopExchange) else none
    | .thread a => threadNext a s
    | .listenFails =>
        if s.serverThread = some .listen then some { s with serverThread := some .clear }
        else none
    | .listenReturns =>
        if s.serverThread = some .listen ∧ s.stopped then
          some { s with serverThread := some .clear }
        else none
    | .clear =>
        if s.serverThread = some .clear then
          some { s with running := false, serverThread := some .finished }
        else none

/-- The owner destroys the object only when its calls of `start` have returned. -/
def Permitted (s : HttpServer κ) (l : HttpLabel κ) : Prop :=
  l = .destroy → ∀ k, (s.pcs (some k)).starting = false

def Step (s : HttpServer κ) (l : HttpLabel κ) (t : HttpServer κ) : Prop :=
  next l s = some t ∧ Permitted s l

end HttpServer
end Pgw
