import Pgw.Config.Model
import Pgw.Http.Model
import Pgw.Session.Manager

/-!
# The handlers of the two routes

`handle_check_subscriber` parses the body, asks the session manager, and answers;
`handle_stop` starts the graceful shutdown and answers. Each makes one call on the session
manager, so a handler is cut there: `callOf` is what it does before the call, `responseOf`
what it makes of the call's end.

`nlohmann::json::parse` is a parameter; of its failures the handler tells a `parse_error`
from the rest. The two other `catch` blocks of the source are the last branches below. Log
lines are left out; `shutdown_requested_` and the thread that `handle_stop` detaches are in
the server's lifecycle.
-/
namespace Pgw.HttpServer
open SessionManager (Call Value)

/-- What `nlohmann::json::parse` makes of a body. -/
inductive Parsed where
  | document (j : Json)
  | parseError
  /-- Any other exception. -/
  | failed

/-- A request on one of the two routes; the rest is answered by the library. -/
inductive Request where
  | checkSubscriber (body : StdString)
  | stop (body : StdString)
  deriving DecidableEq

structure Response where
  content : StdString
  contentType : StdString
  status : ℕ
  deriving DecidableEq

/-- `res.set_content(content, "text/plain"); res.status = status;` -/
def plain (content : String) (status : ℕ) : Response := ⟨text content, text "text/plain", status⟩

/-- The value at a key; anything but an object contains none. -/
def member? (key : StdString) : Json → Option Json
  | .object members => members.lookup key
  | _ => none

/-- `handle_check_subscriber` up to `session_exists`: the subscriber asked for, or the
response at once. -/
def subscriberOf : Parsed → Except Response StdString
  | .document j =>
      match member? (text "imsi") j with
      | some (.string imsi) => .ok imsi
      | _ => .error (plain "Invalid request: missing 'imsi' field" 400)
  | .parseError => .error (plain "Invalid JSON" 400)
  | .failed => .error (plain "Internal server error" 500)

/-- The call that a handler makes, or the response without one. -/
def callOf (parse : StdString → Parsed) : Request → Except Response Call
  | .checkSubscriber body => (subscriberOf (parse body)).map .sessionExists
  | .stop _ => .ok .startGracefulShutdown

/-- What a handler answers when its call has come to an end. -/
def responseOf : Request → Completion Value → Response
  | .checkSubscriber _, .returned (.bool isActive) =>
      plain (if isActive then "active" else "not active") 200
  | .stop _, .returned _ => plain "Graceful shutdown initiated" 200
  | _, _ => plain "Internal server error" 500

/-- The request asks whether the subscriber is active. -/
def Asks (parse : StdString → Parsed) (imsi : StdString) (request : Request) : Prop :=
  callOf parse request = .ok (.sessionExists imsi)

variable {parse : StdString → Parsed} {imsi : StdString}

theorem responseOf_asks {request : Request} (h : Asks parse imsi request) (isActive : Bool) :
    responseOf request (.returned (.bool isActive)) =
      plain (if isActive then "active" else "not active") 200 := by
  cases request with
  | checkSubscriber body => rfl
  | stop body => simp [Asks, callOf] at h

/-- A body asks for a subscriber exactly if it is an object with that string in it. -/
theorem asks_iff {request : Request} : Asks parse imsi request ↔
    ∃ body members, request = .checkSubscriber body ∧ parse body = .document (.object members) ∧
      members.lookup (text "imsi") = some (.string imsi) := by
  constructor
  · intro h
    cases request with
    | stop body => simp [Asks, callOf] at h
    | checkSubscriber body =>
        rw [Asks, callOf] at h
        cases hparsed : parse body with
        | document j =>
            rw [hparsed, subscriberOf] at h
            split at h
            · rename_i imsi' hmember
              cases h
              cases j with
              | object members => exact ⟨body, members, rfl, hparsed, hmember⟩
              | _ => cases hmember
            · cases h
        | parseError =>
            rw [hparsed] at h
            cases h
        | failed =>
            rw [hparsed] at h
            cases h
  · rintro ⟨body, members, rfl, hparsed, hlookup⟩
    simp only [Asks, callOf, hparsed, subscriberOf, member?, hlookup]
    rfl

end Pgw.HttpServer
