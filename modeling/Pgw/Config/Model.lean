import Pgw.Imsi.Model
import Pgw.Session.Store
import Mathlib.Data.Rat.Defs

/-!
# Loading the server's configuration

Three parts of one JSON document are read into the application, key by key, and the
components are built from what was read. The JSON library is not part of the
repository: `Nlohmann` is what the code calls of it, `Documented` is what its manual
says about these calls.
-/
namespace Pgw

/-! ## The JSON library -/

/-- A JSON value as the library keeps it: a whole number in 64 bits, with or without a
sign, any other number in floating point. -/
inductive Json where
  | null
  | boolean (b : Bool)
  | numberInteger (n : Int64)
  | numberUnsigned (n : UInt64)
  | numberFloat (x : ℚ)
  | string (s : StdString)
  | array (elements : List Json)
  | object (members : List (StdString × Json))

namespace Json
variable {w : ℕ}

/-- The whole number that the document writes. -/
def written? : Json → Option ℤ
  | numberInteger n => some n.toInt
  | numberUnsigned n => some n.toNat
  | _ => none

def string? : Json → Option StdString
  | string s => some s
  | _ => none

/-- `static_cast` drops the fraction. -/
def truncate (x : ℚ) : ℤ := x.num.tdiv x.den

/-- What `static_cast` makes of a number or a truth value. It promises nothing where the
target cannot hold what is left of a floating-point number. -/
def CastsTo : Json → BitVec w → Prop
  | numberInteger n, a => a = BitVec.ofInt w n.toInt
  | numberUnsigned n, a => a = BitVec.ofInt w n.toNat
  | numberFloat x, a =>
      0 ≤ truncate x → truncate x < 2 ^ w → a = BitVec.ofInt w (truncate x)
  | boolean b, a => a = BitVec.ofNat w b.toNat
  | _, _ => False

end Json

/-- The library's calls: `at`, `get_to` on a string, and `get_to` on an unsigned type of
`w` bits. -/
structure Nlohmann where
  atKey : Json → StdString → Completion Json
  getString : Json → Completion StdString
  getUnsigned : (w : ℕ) → Json → Completion (BitVec w)

/-- The manual: `at` finds the keys of an object and raises on anything else, a string is
read from a string only, and a number is read by `static_cast` without a look at its
size. -/
structure Nlohmann.Documented (lib : Nlohmann) : Prop where
  at_object : ∀ {members key v}, members.lookup key = some v →
    lib.atKey (.object members) key = .returned v
  at_returned : ∀ {j key v}, lib.atKey j key = .returned v →
    ∃ members, j = .object members ∧ members.lookup key = some v
  getString_string : ∀ {j s}, j.string? = some s → lib.getString j = .returned s
  getString_returned : ∀ {j s}, lib.getString j = .returned s → j = .string s
  getUnsigned_integer : ∀ w {j n}, j.written? = some n →
    lib.getUnsigned w j = .returned (BitVec.ofInt w n)
  getUnsigned_returned : ∀ {w j a}, lib.getUnsigned w j = .returned a → j.CastsTo a

/-! ## `server_config.h` -/

structure UdpConfig where
  ip : StdString := text "0.0.0.0"
  port : BitVec 16 := 9000
  logLevel : StdString := text "INFO"
  logFile : StdString := text "udp.log"

structure HttpConfig where
  port : BitVec 16 := 8080
  logLevel : StdString := text "INFO"
  logFile : StdString := text "udp.log"

structure SessionConfig where
  sessionTimeoutSec : BitVec 16 := 30
  cdrFile : StdString := text "cdr.log"
  threadsCount : BitVec 16 := 10
  shutdownRate : BitVec 64 := 10

section FromJson
variable (lib : Nlohmann) (j : Json)

/-- `j.at(key).get_to(target)` for a string. -/
def stringAt (key : String) : Completion StdString :=
  lib.atKey j (text key) >>= lib.getString

/-- `j.at(key).get_to(target)` for an unsigned type. -/
def unsignedAt (w : ℕ) (key : String) : Completion (BitVec w) :=
  lib.atKey j (text key) >>= lib.getUnsigned w

def UdpConfig.fromJson (cfg : UdpConfig) : Completion UdpConfig := do
  let cfg := { cfg with ip := ← stringAt lib j "udp_ip" }
  let cfg := { cfg with port := ← unsignedAt lib j 16 "udp_port" }
  let cfg := { cfg with logLevel := ← stringAt lib j "udp_log_level" }
  let cfg := { cfg with logFile := ← stringAt lib j "udp_log_file" }
  return cfg

def HttpConfig.fromJson (cfg : HttpConfig) : Completion HttpConfig := do
  let cfg := { cfg with port := ← unsignedAt lib j 16 "http_port" }
  let cfg := { cfg with logLevel := ← stringAt lib j "http_log_level" }
  let cfg := { cfg with logFile := ← stringAt lib j "http_log_file" }
  return cfg

def SessionConfig.fromJson (cfg : SessionConfig) : Completion SessionConfig := do
  let cfg := { cfg with sessionTimeoutSec := ← unsignedAt lib j 16 "session_timeout_sec" }
  let cfg := { cfg with cdrFile := ← stringAt lib j "cdr_file" }
  let cfg := { cfg with threadsCount := ← unsignedAt lib j 16 "threads_count" }
  let cfg := { cfg with shutdownRate := ← unsignedAt lib j 64 "shutdown_rate" }
  return cfg

end FromJson

/-! ## `PGWServerApp` -/

structure PGWServerApp where
  configPath : String
  blacklist : Finset StdString := ∅
  udpConfig : UdpConfig := {}
  httpConfig : HttpConfig := {}
  sessionConfig : SessionConfig := {}

/-- The event queue behind its `shared_ptr`s. -/
structure SharedQueue where
  owners : ℕ

namespace SharedQueue

/-- `std::make_shared`. -/
def make : SharedQueue := ⟨1⟩

/-- A `shared_ptr` goes out of scope. -/
def drop (queue : SharedQueue) : SharedQueue := ⟨queue.owners - 1⟩

/-- Without an owner the queue is destroyed. -/
def Alive (queue : SharedQueue) : Prop := 0 < queue.owners

end SharedQueue

/-- What the servers are built from. -/
structure Components where
  sessionManager : SessionManager.Config
  /-- The number of the dispatcher's threads. -/
  threadCount : ℕ
  udpPort : BitVec 16
  http : HttpConfig
  /-- What `queue_` refers to in the dispatcher and in the UDP server. Neither owns it. -/
  queue : SharedQueue

/-- `load_config`. `file` is what the path leads to: nothing that opens, or what parsing
its content comes to. -/
def loadConfig {T : Type} (fromJson : Json → T → Completion T) (config : T) (path : String)
    (file : Option (Completion Json)) : Completion T :=
  match file with
  | none => .raised ("Failed to open config: " ++ path)
  | some parsed => parsed >>= fun j => fromJson j config

namespace PGWServerApp

def loadConfigs (lib : Nlohmann) (file : Option (Completion Json)) (app : PGWServerApp) :
    Completion PGWServerApp := do
  let app := { app with
    udpConfig := ← loadConfig (UdpConfig.fromJson lib) {} app.configPath file }
  let app := { app with
    httpConfig := ← loadConfig (HttpConfig.fromJson lib) {} app.configPath file }
  let app := { app with
    sessionConfig := ← loadConfig (SessionConfig.fromJson lib) {} app.configPath file }
  return app

/-- What is no string in the list is passed over, and an exception is only logged. -/
def loadBlacklist (file : Option (Completion Json)) (app : PGWServerApp) : PGWServerApp :=
  match file with
  | some (.returned (.object members)) =>
      match members.lookup (text "blacklist") with
      | some (.array elements) =>
          { app with blacklist := app.blacklist ∪ (elements.filterMap Json.string?).toFinset }
      | _ => app
  | _ => app

/-- `cdrWriter` opens the journal and yields the callback that writes to it. -/
def initComponents (cdrWriter : StdString → Completion SessionEventCallback)
    (app : PGWServerApp) : Completion Components := do
  let callback ← cdrWriter app.sessionConfig.cdrFile
  let queue := SharedQueue.make
  return {
    sessionManager := {
      sessionTimeout := app.sessionConfig.sessionTimeoutSec.toNat
      shutdownRate := app.sessionConfig.shutdownRate.toNat
      blacklist := app.blacklist
      eventCallback := some callback }
    threadCount := app.sessionConfig.threadsCount.toNat
    udpPort := app.udpConfig.port
    http := app.httpConfig
    -- `queue` is a local variable, and the components got `*queue`
    queue := queue.drop }

end PGWServerApp

end Pgw
