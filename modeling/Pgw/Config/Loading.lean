import Pgw.Config.Model
import Pgw.Session.Manager
import Mathlib.Tactic.Linarith

/-!
# Which configurations are accepted

A key that is missing or has a value of another kind raises. No number is refused for
its size: it is cast to the field's type, and what the field holds is what was written
exactly when it fits. A rate that comes out as zero takes the process down when a drain
loop starts; a thread count that comes out as zero leaves the dispatcher without a
worker.
-/
namespace Pgw
open SessionManager (Manager Step)

/-! ## Casts -/

section Casts

theorem toNat_ofInt_eq_iff (w : ℕ) (n : ℤ) :
    ((BitVec.ofInt w n).toNat : ℤ) = n ↔ 0 ≤ n ∧ n < 2 ^ w := by
  have hpos : (0 : ℤ) < 2 ^ w := by positivity
  have htoNat : ((BitVec.ofInt w n).toNat : ℤ) = n % 2 ^ w := by
    rw [BitVec.toNat_ofInt, Int.toNat_of_nonneg (Int.emod_nonneg _ (by positivity))]
    push_cast
    rfl
  rw [htoNat]
  constructor
  · intro h
    rw [← h]
    exact ⟨Int.emod_nonneg _ hpos.ne', Int.emod_lt_of_pos _ hpos⟩
  · rintro ⟨hnonneg, hlt⟩
    exact Int.emod_eq_of_lt hnonneg hlt

theorem ofInt_eq_zero_iff (w : ℕ) (n : ℤ) : BitVec.ofInt w n = 0#w ↔ (2 ^ w : ℤ) ∣ n := by
  rw [← BitVec.toNat_inj, BitVec.toNat_ofInt, BitVec.toNat_zero]
  have hnonneg : 0 ≤ n % ((2 ^ w : ℕ) : ℤ) := Int.emod_nonneg _ (by positivity)
  rw [Int.dvd_iff_emod_eq_zero]
  push_cast at hnonneg ⊢
  omega

end Casts

/-! ## Fields -/

/-- The whole number that the document writes at the key. -/
def writtenAt (members : List (StdString × Json)) (key : String) : Option ℤ :=
  (members.lookup (text key)).bind Json.written?

/-- The field holds the value at its key, cast to the field's type. -/
structure LoadedFrom {w : ℕ} (members : List (StdString × Json)) (key : String) (a : BitVec w) :
    Prop where
  cast : ∃ v, members.lookup (text key) = some v ∧ v.CastsTo a
  exact_iff : ∀ n, writtenAt members key = some n → ((a.toNat : ℤ) = n ↔ 0 ≤ n ∧ n < 2 ^ w)
  zero_iff : ∀ n, writtenAt members key = some n → (a = 0#w ↔ (2 ^ w : ℤ) ∣ n)

theorem Json.CastsTo.eq_ofInt {w : ℕ} {v : Json} {a : BitVec w} (h : v.CastsTo a) {n : ℤ}
    (hn : v.written? = some n) : a = BitVec.ofInt w n := by
  cases v with
  | numberInteger m =>
      rw [← Option.some.inj hn]
      exact h
  | numberUnsigned m =>
      rw [← Option.some.inj hn]
      exact h
  | _ => cases hn

theorem eq_ofInt_of_castsTo {w : ℕ} {members : List (StdString × Json)} {key : String} {v : Json}
    {a : BitVec w} (hv : members.lookup (text key) = some v) (hcast : v.CastsTo a) {n : ℤ}
    (hn : writtenAt members key = some n) : a = BitVec.ofInt w n := by
  rw [writtenAt, hv] at hn
  exact hcast.eq_ofInt hn

theorem loadedFrom_of_castsTo {w : ℕ} {members : List (StdString × Json)} {key : String} {v : Json}
    {a : BitVec w} (hv : members.lookup (text key) = some v) (hcast : v.CastsTo a) :
    LoadedFrom members key a := by
  constructor
  · exact ⟨v, hv, hcast⟩
  · intro n hn
    rw [eq_ofInt_of_castsTo hv hcast hn]
    exact toNat_ofInt_eq_iff w n
  · intro n hn
    rw [eq_ofInt_of_castsTo hv hcast hn]
    exact ofInt_eq_zero_iff w n

section FromJson
variable {lib : Nlohmann} {j : Json} {members : List (StdString × Json)} {key : String}

/-- A key is found in an object only. -/
theorem isObject_of_unsignedAt (hlib : lib.Documented) {w : ℕ} {a : BitVec w}
    (h : unsignedAt lib j w key = .returned a) : ∃ members, j = .object members := by
  obtain ⟨v, hat, _⟩ := Completion.bind_eq_returned.mp h
  obtain ⟨members, hj, _⟩ := hlib.at_returned hat
  exact ⟨members, hj⟩

theorem stringAt_returned (hlib : lib.Documented) {s : StdString}
    (h : stringAt lib (.object members) key = .returned s) :
    members.lookup (text key) = some (.string s) := by
  obtain ⟨v, hat, hget⟩ := Completion.bind_eq_returned.mp h
  obtain ⟨_, hmembers, hv⟩ := hlib.at_returned hat
  cases hmembers
  rw [hv, hlib.getString_returned hget]

theorem unsignedAt_returned (hlib : lib.Documented) {w : ℕ} {a : BitVec w}
    (h : unsignedAt lib (.object members) w key = .returned a) : LoadedFrom members key a := by
  obtain ⟨v, hat, hget⟩ := Completion.bind_eq_returned.mp h
  obtain ⟨_, hmembers, hv⟩ := hlib.at_returned hat
  cases hmembers
  exact loadedFrom_of_castsTo hv (hlib.getUnsigned_returned hget)

/-- Nothing of the session part but what the document says. -/
theorem SessionConfig.fromJson_returned (hlib : lib.Documented) {cfg loaded : SessionConfig}
    (h : cfg.fromJson lib j = .returned loaded) :
    ∃ members, j = .object members ∧
      LoadedFrom members "session_timeout_sec" loaded.sessionTimeoutSec ∧
      members.lookup (text "cdr_file") = some (.string loaded.cdrFile) ∧
      LoadedFrom members "threads_count" loaded.threadsCount ∧
      LoadedFrom members "shutdown_rate" loaded.shutdownRate := by
  simp only [SessionConfig.fromJson, Completion.bind_eq_returned, Completion.pure_eq,
    Completion.returned.injEq] at h
  obtain ⟨timeout, htimeout, cdrFile, hcdrFile, threads, hthreads, rate, hrate, rfl⟩ := h
  obtain ⟨members, rfl⟩ := isObject_of_unsignedAt hlib htimeout
  exact ⟨members, rfl, unsignedAt_returned hlib htimeout, stringAt_returned hlib hcdrFile,
    unsignedAt_returned hlib hthreads, unsignedAt_returned hlib hrate⟩

end FromJson

/-! ## Acceptance -/

/-- What an operator may expect of an accepted document: the numbers that are written,
and at least one thread and one session a second. -/
def Usable (members : List (StdString × Json)) (cfg : SessionConfig) : Prop :=
  writtenAt members "session_timeout_sec" = some (cfg.sessionTimeoutSec.toNat : ℤ) ∧
    writtenAt members "threads_count" = some (cfg.threadsCount.toNat : ℤ) ∧
    writtenAt members "shutdown_rate" = some (cfg.shutdownRate.toNat : ℤ) ∧
    1 ≤ cfg.threadsCount.toNat ∧ 1 ≤ cfg.shutdownRate.toNat

/-- The document writes whole numbers that fit, two of them positive. -/
def Fits (members : List (StdString × Json)) : Prop :=
  ∃ timeout threads rate : ℤ,
    writtenAt members "session_timeout_sec" = some timeout ∧ 0 ≤ timeout ∧ timeout < 2 ^ 16 ∧
    writtenAt members "threads_count" = some threads ∧ 1 ≤ threads ∧ threads < 2 ^ 16 ∧
    writtenAt members "shutdown_rate" = some rate ∧ 1 ≤ rate ∧ rate < 2 ^ 64

/-- The fields are as usable as the document. -/
theorem usable_iff_fits {members : List (StdString × Json)} {cfg : SessionConfig}
    (htimeout : LoadedFrom members "session_timeout_sec" cfg.sessionTimeoutSec)
    (hthreads : LoadedFrom members "threads_count" cfg.threadsCount)
    (hrate : LoadedFrom members "shutdown_rate" cfg.shutdownRate) :
    Usable members cfg ↔ Fits members := by
  constructor
  · rintro ⟨hn, hm, hr, hthread, hpositive⟩
    have hfits := cfg.sessionTimeoutSec.isLt
    have hfits' := cfg.threadsCount.isLt
    have hfits'' := cfg.shutdownRate.isLt
    exact ⟨_, _, _, hn, by omega, by omega, hm, by omega, by omega, hr, by omega, by omega⟩
  · rintro ⟨n, m, r, hn, hn₀, hn₁, hm, hm₀, hm₁, hr, hr₀, hr₁⟩
    have hnfield := (htimeout.exact_iff n hn).mpr ⟨hn₀, hn₁⟩
    have hmfield := (hthreads.exact_iff m hm).mpr ⟨by omega, hm₁⟩
    have hrfield := (hrate.exact_iff r hr).mpr ⟨by omega, hr₁⟩
    refine ⟨?_, ?_, ?_, by omega, by omega⟩
    · rw [hn, hnfield]
    · rw [hm, hmfield]
    · rw [hr, hrfield]

/-- The keys that the three parts read as strings. -/
def stringKeys : List String :=
  ["udp_ip", "udp_log_level", "udp_log_file", "http_log_level", "http_log_file", "cdr_file"]

/-- The keys that the three parts read as unsigned numbers. -/
def unsignedKeys : List String :=
  ["udp_port", "http_port", "session_timeout_sec", "threads_count", "shutdown_rate"]

/-- Every key has a value of its kind: a string, or a whole number, fitting or not. -/
structure Complete (members : List (StdString × Json)) : Prop where
  strings : ∀ key ∈ stringKeys, ((members.lookup (text key)).bind Json.string?).isSome
  numbers : ∀ key ∈ unsignedKeys, (writtenAt members key).isSome

section Complete
variable {lib : Nlohmann} {members : List (StdString × Json)}

theorem Complete.stringAt (h : Complete members) (hlib : lib.Documented) (key : String)
    (hkey : key ∈ stringKeys) :
    ∃ s, stringAt lib (.object members) key = .returned s := by
  obtain ⟨s, hs⟩ := Option.isSome_iff_exists.mp (h.strings key hkey)
  obtain ⟨v, hv, hstring⟩ := Option.bind_eq_some_iff.mp hs
  have hget : lib.getString v = .returned s := hlib.getString_string hstring
  exact ⟨s, Completion.bind_eq_returned.mpr ⟨v, hlib.at_object hv, hget⟩⟩

theorem Complete.unsignedAt (h : Complete members) (hlib : lib.Documented) (key : String)
    (hkey : key ∈ unsignedKeys) (w : ℕ) :
    ∃ a, unsignedAt lib (.object members) w key = .returned a := by
  obtain ⟨n, hn⟩ := Option.isSome_iff_exists.mp (h.numbers key hkey)
  obtain ⟨v, hv, hn⟩ := Option.bind_eq_some_iff.mp hn
  exact ⟨_, Completion.bind_eq_returned.mpr ⟨v, hlib.at_object hv, hlib.getUnsigned_integer w hn⟩⟩

theorem UdpConfig.fromJson_of_complete (hlib : lib.Documented) (h : Complete members)
    (cfg : UdpConfig) : ∃ loaded, cfg.fromJson lib (.object members) = .returned loaded := by
  obtain ⟨ip, hip⟩ := h.stringAt hlib "udp_ip" (by decide)
  obtain ⟨port, hport⟩ := h.unsignedAt hlib "udp_port" (by decide) 16
  obtain ⟨level, hlevel⟩ := h.stringAt hlib "udp_log_level" (by decide)
  obtain ⟨logFile, hlogFile⟩ := h.stringAt hlib "udp_log_file" (by decide)
  simp [UdpConfig.fromJson, hip, hport, hlevel, hlogFile]

theorem HttpConfig.fromJson_of_complete (hlib : lib.Documented) (h : Complete members)
    (cfg : HttpConfig) : ∃ loaded, cfg.fromJson lib (.object members) = .returned loaded := by
  obtain ⟨port, hport⟩ := h.unsignedAt hlib "http_port" (by decide) 16
  obtain ⟨level, hlevel⟩ := h.stringAt hlib "http_log_level" (by decide)
  obtain ⟨logFile, hlogFile⟩ := h.stringAt hlib "http_log_file" (by decide)
  simp [HttpConfig.fromJson, hport, hlevel, hlogFile]

theorem SessionConfig.fromJson_of_complete (hlib : lib.Documented) (h : Complete members)
    (cfg : SessionConfig) : ∃ loaded, cfg.fromJson lib (.object members) = .returned loaded := by
  obtain ⟨timeout, htimeout⟩ := h.unsignedAt hlib "session_timeout_sec" (by decide) 16
  obtain ⟨cdrFile, hcdrFile⟩ := h.stringAt hlib "cdr_file" (by decide)
  obtain ⟨threads, hthreads⟩ := h.unsignedAt hlib "threads_count" (by decide) 16
  obtain ⟨rate, hrate⟩ := h.unsignedAt hlib "shutdown_rate" (by decide) 64
  simp [SessionConfig.fromJson, htimeout, hcdrFile, hthreads, hrate]

end Complete

/-- The division at the start of a drain loop is undefined for a zero rate only. -/
theorem SessionManager.terminated_of_start {ι : Type} [Fintype ι] [DecidableEq ι] {cfg : Config}
    {s t : Manager ι} {k : ℕ} {env : Ambient} (hstart : s.loops k = .start)
    (h : Step cfg s (.loop k env) t) : t.terminated = false ↔ cfg.shutdownRate ≠ 0 := by
  obtain ⟨halive, hnext⟩ := step_loop.mp h
  simp only [loopNext, hstart] at hnext
  split at hnext
  · rename_i hzero
    cases hnext
    exact iff_of_false (by simp) (not_not_intro hzero)
  · rename_i hpositive
    cases hnext
    exact iff_of_true halive hpositive

namespace PGWServerApp
variable {lib : Nlohmann} {file : Option (Completion Json)} {app loaded : PGWServerApp}

/-- No number is refused. -/
theorem loadConfigs_of_complete (hlib : lib.Documented) {members : List (StdString × Json)}
    (h : Complete members) (app : PGWServerApp) :
    ∃ loaded, app.loadConfigs lib (some (.returned (.object members))) = .returned loaded := by
  obtain ⟨udp, hudp⟩ := UdpConfig.fromJson_of_complete hlib h {}
  obtain ⟨http, hhttp⟩ := HttpConfig.fromJson_of_complete hlib h {}
  obtain ⟨session, hsession⟩ := SessionConfig.fromJson_of_complete hlib h {}
  simp only [loadConfigs, loadConfig, Completion.returned_bind, hudp, hhttp, hsession]
  exact ⟨_, rfl⟩

theorem loadConfigs_returned (h : app.loadConfigs lib file = .returned loaded) :
    ∃ j, file = some (.returned j) ∧
      SessionConfig.fromJson lib j {} = .returned loaded.sessionConfig := by
  simp only [loadConfigs, Completion.bind_eq_returned, Completion.pure_eq,
    Completion.returned.injEq] at h
  obtain ⟨_, _, _, _, session, hsession, rfl⟩ := h
  cases file with
  | none => cases hsession
  | some parsed =>
      obtain ⟨j, hparsed, hj⟩ := Completion.bind_eq_returned.mp hsession
      exact ⟨j, congrArg some hparsed, hj⟩

@[simp] theorem sessionConfig_loadBlacklist (file : Option (Completion Json))
    (app : PGWServerApp) : (app.loadBlacklist file).sessionConfig = app.sessionConfig := by
  rw [loadBlacklist.eq_def]
  split
  · split <;> rfl
  · rfl

/-- The components take the session part as it is. -/
theorem initComponents_returned {cdrWriter : StdString → Completion SessionEventCallback}
    {components : Components} (h : app.initComponents cdrWriter = .returned components) :
    components.sessionManager.shutdownRate = app.sessionConfig.shutdownRate.toNat ∧
      components.threadCount = app.sessionConfig.threadsCount.toNat := by
  obtain ⟨callback, _, hreturn⟩ := Completion.bind_eq_returned.mp h
  cases hreturn
  exact ⟨rfl, rfl⟩

/-- **The components outlive their queue.** Nobody owns the queue any more when they are
there; so every run of them is one over a queue that is assumed to live on. -/
theorem queue_of_initComponents {cdrWriter : StdString → Completion SessionEventCallback}
    {components : Components} (h : app.initComponents cdrWriter = .returned components) :
    ¬ components.queue.Alive := by
  obtain ⟨callback, _, hreturn⟩ := Completion.bind_eq_returned.mp h
  cases hreturn
  exact lt_irrefl 0

/-- **What an accepted configuration holds.** A document that has every key with a value
of its kind is accepted, whatever the numbers are. Of every accepted document the fields
hold the casts of the values at their keys: of a whole number that number exactly when
it fits, and zero exactly when two to the field's width divides it. So they are usable
exactly when the document is. A drain loop gets past its division, and the dispatcher
has a worker, exactly when the fields they are built from are not zero. -/
theorem loaded_as_cast (hlib : lib.Documented) (app : PGWServerApp) :
    (∀ members, Complete members →
      ∃ loaded, app.loadConfigs lib (some (.returned (.object members))) = .returned loaded) ∧
    ∀ file loaded, app.loadConfigs lib file = .returned loaded →
      (∃ members, file = some (.returned (.object members)) ∧
        LoadedFrom members "session_timeout_sec" loaded.sessionConfig.sessionTimeoutSec ∧
        LoadedFrom members "threads_count" loaded.sessionConfig.threadsCount ∧
        LoadedFrom members "shutdown_rate" loaded.sessionConfig.shutdownRate ∧
        (Usable members loaded.sessionConfig ↔ Fits members)) ∧
      ∀ cdrWriter components,
        (loaded.loadBlacklist file).initComponents cdrWriter = .returned components →
          (∀ (ι : Type) [Fintype ι] [DecidableEq ι] (s t : Manager ι) k env, s.loops k = .start →
            Step components.sessionManager s (.loop k env) t →
              (t.terminated = false ↔ loaded.sessionConfig.shutdownRate ≠ 0#64)) ∧
          (0 < components.threadCount ↔ loaded.sessionConfig.threadsCount ≠ 0#16) := by
  refine ⟨fun members h => loadConfigs_of_complete hlib h app, fun file loaded h => ⟨?_, ?_⟩⟩
  · obtain ⟨j, hfile, hj⟩ := loadConfigs_returned h
    obtain ⟨members, rfl, htimeout, _, hthreads, hrate⟩ := SessionConfig.fromJson_returned hlib hj
    exact ⟨members, hfile, htimeout, hthreads, hrate, usable_iff_fits htimeout hthreads hrate⟩
  · intro cdrWriter components hcomponents
    obtain ⟨hrate, hthreads⟩ := initComponents_returned hcomponents
    rw [sessionConfig_loadBlacklist] at hrate hthreads
    constructor
    · intro ι _ _ s t k env hstart hstep
      rw [SessionManager.terminated_of_start hstart hstep, hrate, not_iff_not]
      exact BitVec.toNat_inj (y := 0#64)
    · rw [hthreads, Nat.pos_iff_ne_zero, not_iff_not]
      exact BitVec.toNat_inj (y := 0#16)

/-! A library that does what the manual says, and two documents. -/

/-- The texts of its exceptions are shorter than the library's own. -/
def reference : Nlohmann where
  atKey j key :=
    match j with
    | .object members =>
        match members.lookup key with
        | some v => .returned v
        | none => .raised "[json.exception.out_of_range.403] key not found"
    | _ => .raised "[json.exception.type_error.304] cannot use at()"
  getString j :=
    match j with
    | .string s => .returned s
    | _ => .raised "[json.exception.type_error.302] type must be string"
  getUnsigned w j :=
    match j with
    | .numberInteger n => .returned (BitVec.ofInt w n.toInt)
    | .numberUnsigned n => .returned (BitVec.ofInt w n.toNat)
    | .numberFloat x => .returned (BitVec.ofInt w (Json.truncate x))
    | .boolean b =>
        if w = 64 then .raised "[json.exception.type_error.302] type must be number"
        else .returned (BitVec.ofNat w b.toNat)
    | _ => .raised "[json.exception.type_error.302] type must be number"

theorem reference_documented : reference.Documented := by
  constructor
  · intro members key v hv
    simp [reference, hv]
  · intro j key v h
    cases j with
    | object members =>
        simp only [reference] at h
        split at h
        · rename_i hv
          cases h
          exact ⟨members, rfl, hv⟩
        · cases h
    | _ => cases h
  · intro j s hs
    cases j <;> cases hs
    rfl
  · intro j s h
    cases j <;> cases h
    rfl
  · intro w j n hn
    cases j <;> cases hn <;> rfl
  · intro w j a h
    cases j with
    | boolean b =>
        simp only [reference] at h
        split at h <;> cases h
        rfl
    | numberInteger n => exact (Completion.returned.inj h).symm
    | numberUnsigned n => exact (Completion.returned.inj h).symm
    | numberFloat x => exact fun _ _ => (Completion.returned.inj h).symm
    | _ => cases h

/-- `config/pgw_server.json` with other values for the three fields. -/
def document (timeout threads rate : Json) : List (StdString × Json) :=
  [(text "udp_ip", .string (text "0.0.0.0")), (text "udp_port", .numberUnsigned 9000),
    (text "udp_log_file", .string (text "pgw.log")), (text "udp_log_level", .string (text "INFO")),
    (text "http_port", .numberUnsigned 8080), (text "session_timeout_sec", timeout),
    (text "cdr_file", .string (text "cdr.log")),
    (text "graceful_shutdown_rate", .numberUnsigned 10),
    (text "http_log_file", .string (text "pgw.log")),
    (text "http_log_level", .string (text "INFO")), (text "threads_count", threads),
    (text "shutdown_rate", rate),
    (text "blacklist", .array [.string (text "001010123456789"), .string (text "001010000000001")])]

private def started : PGWServerApp := { configPath := "config/pgw_server.json" }

private def shipped : List (StdString × Json) :=
  document (.numberUnsigned 30) (.numberUnsigned 10) (.numberUnsigned 20)

theorem loaded_as_cast_shipped :
    ∃ loaded, started.loadConfigs reference (some (.returned (.object shipped))) =
        .returned loaded ∧
      loaded.sessionConfig.sessionTimeoutSec.toNat = (30 : ℤ) ∧
      loaded.sessionConfig.threadsCount.toNat = (10 : ℤ) ∧
      loaded.sessionConfig.shutdownRate.toNat = (20 : ℤ) := by
  have hcomplete : Complete shipped := ⟨by decide +kernel, by decide +kernel⟩
  obtain ⟨haccepts, hholds⟩ := loaded_as_cast reference_documented started
  obtain ⟨loaded, hloaded⟩ := haccepts shipped hcomplete
  obtain ⟨⟨members, hmembers, htimeout, hthreads, hrate, _⟩, _⟩ := hholds _ loaded hloaded
  cases hmembers
  exact ⟨loaded, hloaded, (htimeout.exact_iff 30 (by decide +kernel)).mpr (by decide),
    (hthreads.exact_iff 10 (by decide +kernel)).mpr (by decide),
    (hrate.exact_iff 20 (by decide +kernel)).mpr (by decide)⟩

private def unusable : List (StdString × Json) :=
  document (.numberInteger (-1)) (.numberUnsigned 65536) (.numberUnsigned 0)

/-- Accepted without a word: a timeout of minus one second, 65536 threads and a rate of
zero, of which the fields hold 65535, 0 and 0. -/
theorem unusable_accepted :
    ∃ loaded, started.loadConfigs reference (some (.returned (.object unusable))) =
        .returned loaded ∧
      loaded.sessionConfig.sessionTimeoutSec = 65535#16 ∧
      loaded.sessionConfig.threadsCount = 0#16 ∧ loaded.sessionConfig.shutdownRate = 0#64 ∧
      ¬ Usable unusable loaded.sessionConfig := by
  have hcomplete : Complete unusable := ⟨by decide +kernel, by decide +kernel⟩
  obtain ⟨loaded, hloaded⟩ := loadConfigs_of_complete reference_documented hcomplete started
  obtain ⟨j, hj, hsession⟩ := loadConfigs_returned hloaded
  cases hj
  obtain ⟨members, hmembers, htimeout, _, hthreads, hrate⟩ :=
    SessionConfig.fromJson_returned reference_documented hsession
  cases hmembers
  obtain ⟨v, hv, hcast⟩ := htimeout.cast
  have hzero := (hrate.zero_iff 0 (by decide +kernel)).mpr (dvd_zero _)
  refine ⟨loaded, hloaded, ?_, ?_, hzero, ?_⟩
  · exact eq_ofInt_of_castsTo hv hcast (by decide +kernel : writtenAt unusable _ = some (-1))
  · exact (hthreads.zero_iff 65536 (by decide +kernel)).mpr (by decide)
  · rintro ⟨_, _, _, _, hpositive⟩
    rw [hzero] at hpositive
    exact absurd hpositive (by decide)

end PGWServerApp

end Pgw
