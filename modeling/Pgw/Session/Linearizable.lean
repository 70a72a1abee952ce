import Mathlib
import Pgw.Lib.Linearizability
import Pgw.Session.WellFormed

/-!
# The public operations are linearizable

`Registry` is what a session manager is for, without locks and threads: who is active
since when, who is blacklisted, and a clock. `serve` answers one call at one instant.
By itself the registry only grows older, drops who has been idle for the timeout, and,
once a graceful shutdown has been started, anyone. Its clock is the manager's: invocations
and responses are stamped with it, so nobody is dropped before the timeout has passed
between two stamps.

Most operations are a single lock-held section, which is their instant. `create_session`
reads the blacklist in one section and writes the table in the next; its instant is the
second one, and the blacklist it read is then still the right one unless the same subscriber
has been blacklisted in between. `update_session_activity` reads the clock and writes
while others do the same under the shared lock; its instant is the write, and what it
writes is an instant of the call that may lie before what another one has written.

## Main results

* `refines_registry` — every step of the manager is some moves of the atomic registry.
* `calls_linearizable` — every history of calls and returns is linearizable, with the registry
  as its sequential specification.
-/
namespace Pgw.SessionManager
open TransitionSystem Linearizability Completion

/-! ## The registry -/

/-- Who is active since when, who is blacklisted, what time it is, and whether a graceful
shutdown has ever been started. No update that goes on when a table operation is served is
dated before it. -/
structure Registry where
  lastActivity : StdString → Option ℤ
  blacklist : Finset StdString
  clock : ℤ
  settled : ℤ
  shutdownStarted : Bool

namespace Registry

def tick (g : Registry) (delay : ℕ) : Registry := { g with clock := g.clock + delay }

def settle (g : Registry) : Registry := { g with settled := g.clock }

/-- The subscriber was active then. -/
def activate (g : Registry) (imsi : StdString) (time : ℤ) : Registry :=
  { g with lastActivity := Function.update g.lastActivity imsi (some time) }

def drop (g : Registry) (imsi : StdString) : Registry :=
  { g with lastActivity := Function.update g.lastActivity imsi none }

/-- A result that is announced to the callback first. -/
def announced (cfg : Config) (event : SessionEvent) (r : CreateResult) : Completion Value :=
  match cfg.eventCallback.bind fun callback => callback event with
  | some what => .raised what
  | none => .returned (.result r)

/-- **The sequential specification.** An event is stamped by the wall clock, an update by
its reading of the steady clock. -/
def serve (cfg : Config) (stamp reading : ℤ) (c : Call) (g : Registry) :
    Completion Value × Registry :=
  match c with
  | .createSession imsi =>
      if ¬ IMSI.Valid imsi then (.returned (.result .blacklisted), g)
      else if imsi ∈ g.blacklist then (announced cfg ⟨imsi, .rejected, stamp⟩ .blacklisted, g)
      else if (g.lastActivity imsi).isSome then
        (.returned (.result .alreadyExists), (g.activate imsi g.clock).settle)
      else (announced cfg ⟨imsi, .created, stamp⟩ .created, (g.activate imsi g.clock).settle)
  | .sessionExists imsi => (.returned (.bool (g.lastActivity imsi).isSome), g)
  | .removeSession imsi =>
      (.returned (.bool (g.lastActivity imsi).isSome), (g.drop imsi).settle)
  | .addToBlacklist imsi => (.returned .unit, { g with blacklist := insert imsi g.blacklist })
  | .removeFromBlacklist imsi =>
      (.returned .unit, { g with blacklist := g.blacklist.erase imsi })
  | .isBlacklisted imsi => (.returned (.bool (decide (imsi ∈ g.blacklist))), g)
  | .startGracefulShutdown => (.returned .unit, { g with shutdownStarted := true })
  | .updateSessionActivity imsi =>
      (.returned .unit, if (g.lastActivity imsi).isSome then g.activate imsi reading else g)

theorem clock_serve (cfg : Config) (stamp reading : ℤ) (c : Call) (g : Registry) :
    (g.serve cfg stamp reading c).2.clock = g.clock := by
  cases c <;> simp only [serve] <;> (try split) <;> (try split) <;> (try split) <;> rfl

section Create
variable {cfg : Config} {stamp reading : ℤ} {imsi : StdString} {g : Registry}

theorem serve_banned (hvalid : IMSI.Valid imsi) (hbanned : imsi ∈ g.blacklist) :
    g.serve cfg stamp reading (.createSession imsi) =
      (announced cfg ⟨imsi, .rejected, stamp⟩ .blacklisted, g) := by
  simp [serve, hvalid, hbanned]

theorem serve_active (hvalid : IMSI.Valid imsi) (hfree : imsi ∉ g.blacklist)
    (hactive : (g.lastActivity imsi).isSome) :
    g.serve cfg stamp reading (.createSession imsi) =
      (.returned (.result .alreadyExists), (g.activate imsi g.clock).settle) := by
  simp [serve, hvalid, hfree, hactive]

theorem serve_new (hvalid : IMSI.Valid imsi) (hfree : imsi ∉ g.blacklist)
    (hnew : ¬ (g.lastActivity imsi).isSome) :
    g.serve cfg stamp reading (.createSession imsi) =
      (announced cfg ⟨imsi, .created, stamp⟩ .created, (g.activate imsi g.clock).settle) := by
  rw [serve, if_neg (not_not_intro hvalid), if_neg hfree, if_neg hnew]

end Create

/-- What the registry does by itself. -/
inductive Moves (cfg : Config) : Registry → Registry → Prop where
  | tick (g : Registry) (delay : ℕ) : Moves cfg g (g.tick delay)
  | settle (g : Registry) : Moves cfg g g.settle
  | expire {g : Registry} {imsi : StdString} {time : ℤ} (hactive : g.lastActivity imsi = some time)
      (hidle : cfg.sessionTimeout * nanosPerSecond ≤ g.clock - time) : Moves cfg g (g.drop imsi)
  | drain {g : Registry} {imsi : StdString} (hactive : (g.lastActivity imsi).isSome)
      (hstarted : g.shutdownStarted = true) : Moves cfg g (g.drop imsi)

theorem Moves.clock_le {cfg : Config} {g g' : Registry} (h : Moves cfg g g') :
    g.clock ≤ g'.clock := by
  cases h with
  | tick => exact le_add_of_nonneg_right (Int.natCast_nonneg _)
  | _ => exact le_refl _

end Registry

/-- The registry as an object. The stamp of an event is the wall clock's, so any. An
update reads the clock during the call. -/
def registry (cfg : Config) : Object Call (Completion Value) Registry ℤ where
  init g := ∃ clock, g = ⟨fun _ => none, cfg.blacklist, clock, clock, false⟩
  clock := Registry.clock
  apply c since g v g' := ∃ stamp reading, since ≤ reading ∧ g.settled ≤ reading ∧
    reading ≤ g.clock ∧ g.serve cfg stamp reading c = (v, g')
  internal := Registry.Moves cfg
  clock_apply := by
    rintro c since g v g' ⟨stamp, reading, _, _, _, hserve⟩
    have hclock := Registry.clock_serve cfg stamp reading c g
    rw [hserve] at hclock
    exact hclock.ge
  clock_internal := Registry.Moves.clock_le

/-! ## The store as a registry -/

/-- The table, reduced to what the registry keeps. -/
def lastActivityOf (sessions : SessionTable) (imsi : StdString) : Option ℤ :=
  (sessions.lookup imsi).map Session.lastActivity

def Store.registry (st : Store) (shutdownStarted : Bool) : Registry :=
  ⟨lastActivityOf st.sessions, st.blacklist, st.clock, st.settled, shutdownStarted⟩

@[simp] theorem lastActivityOf_insert (sessions : SessionTable) (imsi : StdString)
    (session : Session) : lastActivityOf (sessions.insert imsi session) =
      Function.update (lastActivityOf sessions) imsi (some session.lastActivity) := by
  funext x
  by_cases hx : x = imsi
  · subst hx
    simp [lastActivityOf]
  · simp [lastActivityOf, Finmap.lookup_insert_of_ne _ hx, hx]

@[simp] theorem lastActivityOf_erase (sessions : SessionTable) (imsi : StdString) :
    lastActivityOf (sessions.erase imsi) = Function.update (lastActivityOf sessions) imsi none := by
  funext x
  by_cases hx : x = imsi
  · subst hx
    simp [lastActivityOf]
  · simp [lastActivityOf, Finmap.lookup_erase_ne hx, hx]

@[simp] theorem isSome_lastActivityOf (sessions : SessionTable) (imsi : StdString) :
    (lastActivityOf sessions imsi).isSome = decide (imsi ∈ sessions) := by
  rw [lastActivityOf, Option.isSome_map, Bool.eq_iff_iff, Finmap.lookup_isSome, decide_eq_true_iff]

@[simp] theorem Store.registry_tick (st : Store) (d : ℕ) (b : Bool) :
    (st.tick d).registry b = (st.registry b).tick d := rfl

@[simp] theorem Store.registry_settle (st : Store) (b : Bool) :
    st.settle.registry b = (st.registry b).settle := rfl

@[simp] theorem Store.registry_forget (st : Store) (b : Bool) :
    st.forget.registry b = st.registry b := rfl

/-- An announced result ends as `emit_event` does. -/
theorem announced_eq (cfg : Config) (env : Ambient) (imsi : StdString) (action : SessionAction)
    (r : CreateResult) (st : Store) :
    Registry.announced cfg ⟨imsi, action, env.wallClock imsi⟩ r =
      tableResult (andThen (emitEvent cfg env imsi action st) fun _ st => (.returned r, st)).1 := by
  cases hcallback : cfg.eventCallback with
  | none => simp [Registry.announced, emitEvent, hcallback, tableResult]
  | some callback =>
      cases hwhat : callback ⟨imsi, action, env.wallClock imsi⟩ <;>
        simp [Registry.announced, emitEvent, hcallback, hwhat, tableResult]

/-! ## The sections serve the calls -/

/-- `create_session` takes effect at its table section, `start_graceful_shutdown` when it
sets the flag, `update_session_activity` when it writes. -/
def phaseOf (since : ℤ) : ThreadPc → Phase Call (Completion Value) ℤ
  | .idle => .idle
  | .entered c => .called c since
  | .checked imsi => .called (.createSession imsi) since
  | .activated => .done .startGracefulShutdown (.returned .unit)
  | .spawned _ => .done .startGracefulShutdown (.returned .unit)
  | .touching imsi _ => .called (.updateSessionActivity imsi) since
  | .returning c v => .done c v

/-- The registry answers the call after some time has passed. -/
def Serves (cfg : Config) (c : Call) (since : ℤ) (g : Registry) (v : Completion Value)
    (g' : Registry) : Prop :=
  ∃ delay, (registry cfg).apply c since (g.tick delay) v g'

theorem Serves.performs {ι : Type} [DecidableEq ι] {cfg : Config} {c : Call} {since : ℤ}
    {v : Completion Value} {m : Machine ι Call (Completion Value) Registry ℤ} {g : Registry} {i : ι}
    (h : Serves cfg c since m.object v g) (hcalled : m.phases i = .called c since) :
    Performs (registry cfg) m [] ⟨g, Function.update m.phases i (.done c v)⟩ := by
  obtain ⟨delay, happly⟩ := h
  have htick : Performs (registry cfg) m [] { m with object := m.object.tick delay } :=
    .internals (.single (.tick m.object delay))
  exact htick.append (.effect hcalled happly)

/-- A call that does not depend on its reading of the clock. -/
theorem Serves.of_delayed {cfg : Config} {c : Call} {since : ℤ} {g g' : Registry}
    {v : Completion Value} (hsince : since ≤ g.clock) (hsettled : g.settled ≤ g.clock) (delay : ℕ)
    (stamp : ℤ) (h : (g.tick delay).serve cfg stamp (g.tick delay).clock c = (v, g')) :
    Serves cfg c since g v g' := by
  have hlater : g.clock ≤ (g.tick delay).clock := by simp [Registry.tick]
  exact ⟨delay, stamp, _, hsince.trans hlater, hsettled.trans hlater, le_refl _, h⟩

/-- A call that is answered at once. -/
theorem Serves.of_serve {cfg : Config} {c : Call} {since : ℤ} {g g' : Registry}
    {v : Completion Value} (hsince : since ≤ g.clock) (hsettled : g.settled ≤ g.clock) (stamp : ℤ)
    (h : g.serve cfg stamp g.clock c = (v, g')) : Serves cfg c since g v g' := by
  refine .of_delayed hsince hsettled 0 stamp ?_
  rw [show g.tick 0 = g by simp [Registry.tick]]
  exact h

/-- The first section of a call for a blacklisted subscriber. -/
theorem firstSection_banned (cfg : Config) (env : Ambient) {imsi : StdString} {st : Store}
    (hvalid : IMSI.Valid imsi) (hbanned : imsi ∈ st.blacklist) :
    firstSection cfg env (.createSession imsi) st =
      (.returning (.createSession imsi)
        (Registry.announced cfg ⟨imsi, .rejected, env.wallClock imsi⟩ .blacklisted),
      (emitEvent cfg env imsi .rejected st).2) := by
  have hreturned : IMSI.ofString imsi = .returned ⟨imsi, hvalid⟩ :=
    IMSI.ofString_returned.mpr rfl
  rw [announced_eq cfg env imsi .rejected .blacklisted st, firstSection, hreturned]
  simp only [createSessionBlacklist, if_pos hbanned]
  generalize emitEvent cfg env imsi .rejected st = emitted
  obtain ⟨_ | _ | _, _⟩ := emitted <;> rfl

section Sections
variable {cfg : Config} {since : ℤ} {st : Store}

/-- The table section of a subscriber that is free. -/
theorem serves_createSessionTable (env : Ambient) {imsi : StdString} (hsince : since ≤ st.clock)
    (hsettled : st.settled ≤ st.clock) (hvalid : IMSI.Valid imsi) (hfree : imsi ∉ st.blacklist)
    (b : Bool) :
    Serves cfg (.createSession imsi) since (st.registry b)
      (tableResult (createSessionTable cfg env imsi st).1)
      ((createSessionTable cfg env imsi st).2.settle.registry b) := by
  cases hlookup : st.sessions.lookup imsi with
  | some session =>
      have hmem : imsi ∈ st.sessions := Finmap.mem_of_lookup_eq_some hlookup
      refine .of_delayed hsince hsettled env.elapsed 0 ?_
      rw [createSessionTable, hlookup, Registry.serve_active hvalid hfree
        (by simpa [Store.registry, Registry.tick] using hmem)]
      simp [Store.registry, Registry.tick, Registry.activate, Registry.settle, tableResult]
  | none =>
      have habsent : imsi ∉ st.sessions := Finmap.lookup_eq_none.mp hlookup
      refine .of_delayed hsince hsettled (env.elapsed + env.lag) (env.wallClock imsi) ?_
      rw [createSessionTable, hlookup, Registry.serve_new hvalid hfree
        (by simpa [Store.registry, Registry.tick] using habsent)]
      simp only [← announced_eq, snd_andThen, emitEvent_store]
      simp [Store.registry, Registry.tick, Registry.activate, Registry.settle, add_assoc]

/-- An update at its write. It may have read the clock before a table operation ran that it
then waited for; in the model it waits before it reads. -/
theorem serves_updateSessionActivity {imsi : StdString} {reading : ℤ} (hsince : since ≤ reading)
    (hreading : reading ≤ st.clock) (hsettled : st.settled ≤ st.clock) (b : Bool) :
    Serves cfg (.updateSessionActivity imsi) since (st.registry b) (.returned .unit)
      ((updateSessionActivity reading imsi st).registry b) := by
  refine ⟨0, 0, max st.settled reading, hsince.trans (le_max_right _ _), le_max_left _ _, ?_, ?_⟩
  · simpa [Registry.tick, Store.registry] using ⟨hsettled, hreading⟩
  · cases hlookup : st.sessions.lookup imsi with
    | some session =>
        have hmem : imsi ∈ st.sessions := Finmap.mem_of_lookup_eq_some hlookup
        simp [Registry.serve, Registry.activate, Registry.tick, Store.registry,
          updateSessionActivity, hlookup, hmem]
    | none =>
        have habsent : imsi ∉ st.sessions := Finmap.lookup_eq_none.mp hlookup
        simp [Registry.serve, Registry.tick, Store.registry, updateSessionActivity, hlookup,
          habsent]

variable (cfg) in
/-- **What a first section does for its call**: it lets a free subscriber pass, it reads the
clock for an update, or it serves the call. -/
theorem firstSection_serves (env : Ambient) (c : Call) (hsince : since ≤ st.clock)
    (hsettled : st.settled ≤ st.clock) (b : Bool) :
    (∃ imsi, c = .createSession imsi ∧ firstSection cfg env c st = (.checked imsi, st)) ∨
      (∃ imsi reading, c = .updateSessionActivity imsi ∧
        firstSection cfg env c st = (.touching imsi reading, st.tick env.elapsed)) ∨
      ∃ v, (∀ since', phaseOf since' (firstSection cfg env c st).1 = .done c v) ∧
        Serves cfg c since (st.registry b) v
          ((firstSection cfg env c st).2.registry (b || decide (c = .startGracefulShutdown))) := by
  cases c with
  | createSession imsi =>
      simp only [reduceCtorEq, decide_false, Bool.or_false]
      by_cases hvalid : IMSI.Valid imsi
      · by_cases hbanned : imsi ∈ st.blacklist
        · rw [firstSection_banned cfg env hvalid hbanned]
          refine Or.inr (Or.inr
            ⟨_, fun _ => rfl, .of_serve hsince hsettled (env.wallClock imsi) ?_⟩)
          rw [Registry.serve_banned hvalid hbanned, emitEvent_store]
          rfl
        · have hreturned : IMSI.ofString imsi = .returned ⟨imsi, hvalid⟩ :=
            IMSI.ofString_returned.mpr rfl
          refine Or.inl ⟨imsi, rfl, ?_⟩
          simp [firstSection, hreturned, createSessionBlacklist, hbanned]
      · have hraised := IMSI.ofString_raised hvalid
        refine Or.inr (Or.inr
          ⟨.returned (.result .blacklisted), fun _ => ?_, .of_serve hsince hsettled 0 ?_⟩)
        · simp [firstSection, hraised, phaseOf]
        · simp [firstSection, hraised, Registry.serve, hvalid]
  | startGracefulShutdown =>
      refine Or.inr (Or.inr ⟨.returned .unit, fun _ => rfl, .of_serve hsince hsettled 0 ?_⟩)
      simp [firstSection, Registry.serve, Store.registry]
  | sessionExists imsi =>
      refine Or.inr (Or.inr ⟨_, fun _ => rfl, .of_serve hsince hsettled 0 ?_⟩)
      simp [firstSection, Registry.serve, Store.registry, sessionExists]
  | removeSession imsi =>
      refine Or.inr (Or.inr ⟨_, fun _ => rfl, .of_serve hsince hsettled 0 ?_⟩)
      by_cases hmem : imsi ∈ st.sessions
      · simp [firstSection, Registry.serve, Registry.drop, Registry.settle, Store.registry,
          removeSession, hmem]
      · have hnone : lastActivityOf st.sessions imsi = none := by
          simp [lastActivityOf, Finmap.lookup_eq_none.mpr hmem]
        simp [firstSection, Registry.serve, Registry.drop, Registry.settle, Store.registry,
          removeSession, hmem, Function.update_eq_self_iff, hnone]
  | addToBlacklist imsi =>
      refine Or.inr (Or.inr ⟨_, fun _ => rfl, .of_serve hsince hsettled 0 ?_⟩)
      simp [firstSection, Registry.serve, Store.registry, addToBlacklist]
  | removeFromBlacklist imsi =>
      refine Or.inr (Or.inr ⟨_, fun _ => rfl, .of_serve hsince hsettled 0 ?_⟩)
      simp [firstSection, Registry.serve, Store.registry, removeFromBlacklist]
  | isBlacklisted imsi =>
      refine Or.inr (Or.inr
        ⟨.returned (.bool (isBlacklisted imsi st)), fun _ => rfl, .of_serve hsince hsettled 0 ?_⟩)
      simp only [reduceCtorEq, decide_false, Bool.or_false]
      rfl
  | updateSessionActivity imsi => exact Or.inr (Or.inl ⟨imsi, _, rfl, rfl⟩)

end Sections

/-! ## The background threads move the registry -/

section Background

/-- A pass that reads an instant of the past drops only who has been idle for long, if the
conversion of the timeout is exact. -/
theorem moves_cleanupErase {cfg : Config} (hpos : 0 ≤ cfg.sessionTimeout)
    (hmax : cfg.sessionTimeout ≤ maxTimeout) (env : Ambient) {now : ℤ} (expired : List StdString)
    {st : Store} (hnow : now ≤ st.clock) (b : Bool) :
    Relation.ReflTransGen (Registry.Moves cfg)
      (st.registry b) ((cleanupErase cfg env now expired st).2.registry b) := by
  induction expired generalizing st with
  | nil => exact .refl
  | cons imsi expired ih =>
      cases hlookup : st.sessions.lookup imsi with
      | none =>
          simp only [cleanupErase, hlookup]
          exact ih hnow
      | some session =>
          by_cases hexpired : Expired cfg now session
          · simp only [cleanupErase, hlookup, if_pos hexpired]
            have hstore := emitEvent_store cfg env imsi .timeout
              { st with sessions := st.sessions.erase imsi }
            generalize emitEvent cfg env imsi .timeout
              { st with sessions := st.sessions.erase imsi } = emitted at hstore ⊢
            obtain ⟨outcome, st₁⟩ := emitted
            have hclock : now ≤ st₁.clock := by
              rw [show st₁ = _ from hstore]
              exact hnow
            have hregistry : st₁.registry b = (st.registry b).drop imsi := by
              rw [show st₁ = _ from hstore]
              simp [Store.registry, Registry.drop]
            have hactive : (st.registry b).lastActivity imsi = some session.lastActivity := by
              simp [Store.registry, lastActivityOf, hlookup]
            have hidle : cfg.sessionTimeout * nanosPerSecond ≤
                (st.registry b).clock - session.lastActivity := by
              have hlong : timeoutNanos cfg ≤ now - session.lastActivity := hexpired
              have hpast : (st.registry b).clock = st.clock := rfl
              rw [timeoutNanos_of_le hpos hmax] at hlong
              omega
            have hfirst : Registry.Moves cfg (st.registry b) (st₁.registry b) := by
              rw [hregistry]
              exact .expire hactive hidle
            cases outcome with
            | returned _ => exact .head hfirst (ih hclock)
            | raised _ => exact .single hfirst
            | terminated => exact .single hfirst
          · simp only [cleanupErase, hlookup, if_neg hexpired]
            exact ih hnow

/-- A shutdown loop drops whom it picked, if still there. -/
theorem moves_shutdownErase (cfg : Config) (env : Ambient) (imsi : StdString) (st : Store) :
    Relation.ReflTransGen (Registry.Moves cfg) (st.registry true)
      ((shutdownErase cfg env imsi st).2.registry true) := by
  cases hlookup : st.sessions.lookup imsi with
  | none =>
      simp only [shutdownErase, hlookup]
      exact .refl
  | some session =>
      have hmem : imsi ∈ st.sessions := Finmap.mem_of_lookup_eq_some hlookup
      have hdrop : (shutdownErase cfg env imsi st).2.registry true =
          (st.registry true).drop imsi := by
        simp only [shutdownErase, hlookup, emitEvent_store]
        simp [Store.registry, Registry.drop]
      rw [hdrop]
      exact .single (.drain (by simpa [Store.registry] using hmem) rfl)

/-- While a pass is on, its reading of the clock is past. -/
def PassReads : CleanupPc → ℤ → Prop
  | .snapshot now, clock => now ≤ clock
  | .erase now _, clock => now ≤ clock
  | _, _ => True

theorem PassReads.mono {pc : CleanupPc} {clock clock' : ℤ} (h : PassReads pc clock)
    (hle : clock ≤ clock') : PassReads pc clock' := by
  cases pc with
  | snapshot now => exact le_trans h hle
  | erase now expired => exact le_trans h hle
  | _ => trivial

end Background

/-! ## The manager -/

variable {ι : Type} [Fintype ι] [DecidableEq ι]

/-- A start has set the flag, whether or not its loop runs by now. -/
def Manager.shutdownStarted (s : Manager ι) : Bool :=
  decide (0 < s.spawned ∨ ∃ i, s.threads i = .activated)

/-- The manager as threads that use a registry. -/
def Manager.view (s : Manager ι) : Machine ι Call (Completion Value) Registry ℤ where
  object := s.store.registry s.shutdownStarted
  phases i := phaseOf (s.began i) (s.threads i)

/-- The invocations and responses in the steps of the callers, by the steady clock. -/
def shows (s : Manager ι) : Label ι → List (Event ι Call (Completion Value) ℤ)
  | .call i c => [.invoke i c s.store.clock]
  | .thread i _ =>
      match s.threads i with
      | .returning _ v => [.respond i v s.store.clock]
      | _ => []
  | _ => []

/-- Nobody is blacklisted between the two sections of a call that creates a session for
the same subscriber. -/
def NotOvertaken (s : Manager ι) (l : Label ι) : Prop :=
  ∀ i env imsi, l = .thread i env → s.threads i = .entered (.addToBlacklist imsi) →
    ∀ j, s.threads j ≠ .checked imsi

/-! ## What the manager keeps meanwhile -/

section Kept
variable {cfg : Config} {s t : Manager ι} {l : Label ι}

theorem Change.notMem_blacklist {st st' : Store} {d : Deed} {imsi : StdString}
    (h : Change cfg st d st') (hd : d ≠ .ban imsi) (hfree : imsi ∉ st.blacklist) :
    imsi ∉ st'.blacklist := by
  cases h with
  | ban x =>
      have hne : imsi ≠ x := fun heq => hd (heq ▸ rfl)
      simp [hne, hfree]
  | unban x => simp [hfree]
  | _ => exact hfree

/-- Only the section of `add_to_blacklist` blacklists. -/
theorem notMem_blacklist_of_step (h : Step cfg s l t) {imsi : StdString}
    (hban : ∀ i env, l = .thread i env → s.threads i ≠ .entered (.addToBlacklist imsi))
    (hfree : imsi ∉ s.store.blacklist) : imsi ∉ t.store.blacklist := by
  obtain ⟨ds, hrun, hpermits⟩ := step_changes h
  refine hrun.invariant_of_labels (P := fun st => imsi ∉ st.blacklist) (Q := fun d => d ≠ .ban imsi)
    (fun _ _ _ hst hd hchange => hchange.notMem_blacklist hd hst) ?_ hfree
  rintro d hd rfl
  obtain ⟨i, env, hl, hpc⟩ := hpermits _ hd
  exact hban i env hl hpc

/-- Who is past the check is still free. -/
def StillFree (s : Manager ι) : Prop :=
  ∀ i imsi, s.threads i = .checked imsi → IMSI.Valid imsi ∧ imsi ∉ s.store.blacklist

theorem stillFree_of_step (hs : StillFree s) (h : Step cfg s l t) (hl : NotOvertaken s l) :
    StillFree t := by
  intro i imsi hpc
  rcases checked_of_step h hpc with ⟨hbefore, _⟩ | ⟨hbefore, hvalid, hfree⟩
  · obtain ⟨hvalid, hfree⟩ := hs i imsi hbefore
    refine ⟨hvalid, notMem_blacklist_of_step h (fun j env heq hadd => ?_) hfree⟩
    exact hl j env imsi heq hadd i hbefore
  · refine ⟨hvalid, notMem_blacklist_of_step h (fun j env heq hadd => ?_) hfree⟩
    -- the section that passes the check is this step, so no other section is
    have hij : i ≠ j := by
      rintro rfl
      rw [hbefore] at hadd
      cases hadd
    have hsame : t.threads i = s.threads i := by
      refine threads_of_others h (fun c hc => ?_) (fun env' henv => ?_)
      · rw [heq] at hc
        cases hc
      · rw [heq, Label.thread.injEq] at henv
        exact hij henv.1.symm
    rw [hpc, hbefore] at hsame
    cases hsame

theorem passReads_of_step (hs : PassReads s.cleanup s.store.clock) (h : Step cfg s l t) :
    PassReads t.cleanup t.store.clock := by
  have hclock := clock_of_step h
  by_cases hl : ∃ env, l = .cleanup env
  · obtain ⟨env, rfl⟩ := hl
    have hnext := (step_cleanup.mp h).2
    cases hpc : s.cleanup <;> rw [hpc] at hs <;> simp only [cleanupNext, hpc] at hnext
    case testRunning =>
      split at hnext <;> cases hnext
      · exact le_refl _
      · trivial
    case snapshot now =>
      split at hnext <;> cases hnext
      exact hs
    case erase now expired =>
      split at hnext <;> cases hnext
      · trivial
      · exact le_trans hs hclock
    case sleep =>
      cases hnext
      trivial
    case exited => cases hnext
  · rw [cleanup_of_step h fun env heq => hl ⟨env, heq⟩]
    exact hs.mono hclock

/-- No call begins in the future, and an update reads the clock during its call. -/
structure Punctual (s : Manager ι) : Prop where
  began : ∀ i, s.began i ≤ s.store.clock
  touching : ∀ i imsi reading, s.threads i = .touching imsi reading → s.began i ≤ reading

theorem punctual_of_step (hs : Punctual s) (h : Step cfg s l t) : Punctual t := by
  constructor
  · intro i
    rcases began_of_step h i with ⟨hsame, _⟩ | ⟨_, hnow⟩
    · exact hsame ▸ (hs.began i).trans (clock_of_step h)
    · exact hnow ▸ clock_of_step h
  · intro i imsi reading hpc
    rcases touching_of_step h hpc with ⟨hbefore, _⟩ | ⟨hbefore, hlater, _⟩
    · rw [began_of_busy h (by simp [hbefore])]
      exact hs.touching i imsi reading hbefore
    · rw [began_of_busy h (by simp [hbefore])]
      exact (hs.began i).trans hlater

/-- What holds of a manager in which nobody is overtaken. -/
structure Orderly (s : Manager ι) : Prop where
  free : StillFree s
  reads : PassReads s.cleanup s.store.clock
  punctual : Punctual s
  absent : ∀ k, s.spawned ≤ k → s.loops k = .absent
  wellFormed : s.WellFormed

theorem orderly_of_reachable
    (h : Reachable (Initial cfg) (only (Step cfg) NotOvertaken) s) : Orderly s := by
  have hkept : StillFree s ∧ PassReads s.cleanup s.store.clock ∧ Punctual s := by
    refine h.invariant
      (P := fun s => StillFree s ∧ PassReads s.cleanup s.store.clock ∧ Punctual s) ?_ ?_
    · rintro s₀ ⟨clock, rfl⟩
      refine ⟨fun i imsi hpc => ?_, trivial, fun i => le_refl _, fun i imsi reading hpc => ?_⟩
      · cases hpc
      · cases hpc
    · rintro u l v ⟨hfree, hreads, hpunctual⟩ hstep
      exact ⟨stillFree_of_step hfree hstep.1 hstep.2, passReads_of_step hreads hstep.1,
        punctual_of_step hpunctual hstep.1⟩
  exact ⟨hkept.1, hkept.2.1, hkept.2.2, absent_of_reaches h.of_only,
    wellFormed_of_reaches h.of_only⟩

end Kept

/-! ## The refinement -/

section Views
variable {cfg : Config} {s t : Manager ι}

omit [DecidableEq ι] in
@[simp] theorem phases_view (s : Manager ι) (i : ι) :
    s.view.phases i = phaseOf (s.began i) (s.threads i) := rfl

theorem shutdownStarted_goto {i : ι} (hpc : s.threads i ≠ .activated) (st : Store)
    (pc : ThreadPc) : (({ s with store := st }).goto i pc).shutdownStarted =
      (s.shutdownStarted || decide (pc = .activated)) := by
  have hsomeone : (∃ j, Function.update s.threads i pc j = .activated) ↔
      pc = .activated ∨ ∃ j, s.threads j = .activated := by
    rw [Function.exists_update_iff s.threads fun _ pc => pc = .activated]
    refine or_congr_right (exists_congr fun j => and_iff_right_of_imp ?_)
    rintro hj rfl
    exact hpc hj
  simp only [Manager.shutdownStarted, ← Bool.decide_or, threads_goto, hsomeone]
  congr 1
  simp only [Manager.goto, eq_iff_iff]
  tauto

/-- What the view makes of a caller's step. -/
theorem view_goto {i : ι} (hpc : s.threads i ≠ .activated) (st : Store) (pc : ThreadPc) :
    (({ s with store := st }).goto i pc).view =
      ⟨st.registry (s.shutdownStarted || decide (pc = .activated)),
        Function.update s.view.phases i (phaseOf (s.began i) pc)⟩ := by
  have hphases : (fun j => phaseOf (s.began j) (Function.update s.threads i pc j)) =
      Function.update s.view.phases i (phaseOf (s.began i) pc) := by
    funext j
    by_cases hj : j = i
    · subst hj
      simp
    · simp [hj]
  rw [← hphases, ← shutdownStarted_goto hpc st pc]
  rfl

/-- A caller that shows nothing and whose phase stays the same. -/
theorem view_goto_same {i : ι} (hpc : s.threads i ≠ .activated) {pc : ThreadPc}
    (hpc' : pc ≠ .activated) (hphase : phaseOf (s.began i) pc = s.view.phases i) :
    (s.goto i pc).view = s.view := by
  have hview := view_goto hpc s.store pc
  rw [decide_eq_false hpc', Bool.or_false, hphase, Function.update_eq_self] at hview
  exact hview

/-- A call begins. -/
theorem view_call {i : ι} {c : Call} (h : Step cfg s (.call i c) t) :
    s.view.phases i = .idle ∧
      t.view = { s.view with
        phases := Function.update s.view.phases i (.called c s.store.clock) } := by
  obtain ⟨_, ⟨hidle, _⟩, rfl⟩ := step_call.mp h
  refine ⟨by rw [phases_view, hidle]; rfl, ?_⟩
  have hactivated : s.threads i ≠ .activated := by simp [hidle]
  have hview := view_goto (s := { s with began := Function.update s.began i s.store.clock })
    hactivated s.store (.entered c)
  rw [decide_eq_false ThreadPc.noConfusion, Bool.or_false] at hview
  refine hview.trans (congrArg (Machine.mk _) ?_)
  funext j
  by_cases hj : j = i
  · subst hj
    simp [phaseOf]
  · simp [hj]

omit [Fintype ι] [DecidableEq ι] in
/-- A caller shows nothing inside its call. -/
theorem shows_eq_nil {i : ι} {env : Ambient} (hnot : ∀ c v, s.threads i ≠ .returning c v) :
    shows s (.thread i env) = [] := by
  cases hpc : s.threads i with
  | returning c v => exact absurd hpc (hnot c v)
  | _ => simp only [shows, hpc]

/-- A call returns. -/
theorem view_return {i : ι} {env : Ambient} {c : Call} {v : Completion Value}
    (h : threadNext cfg i env s = some t) (hpc : s.threads i = .returning c v) :
    t.view = { s.view with phases := Function.update s.view.phases i .idle } := by
  simp only [threadNext, hpc, Option.some.injEq] at h
  subst h
  have hactivated : s.threads i ≠ .activated := by simp [hpc]
  have hview := view_goto hactivated s.store .idle
  rw [decide_eq_false ThreadPc.noConfusion, Bool.or_false] at hview
  exact hview

omit [DecidableEq ι] in
/-- A step that leaves the callers and the number of the loops alone. -/
theorem view_eq (hthreads : t.threads = s.threads) (hspawned : t.spawned = s.spawned)
    (hbegan : t.began = s.began) :
    t.view = { s.view with object := t.store.registry s.shutdownStarted } := by
  simp [Manager.view, Manager.shutdownStarted, hthreads, hspawned, hbegan]

theorem performs_internals (hthreads : t.threads = s.threads) (hspawned : t.spawned = s.spawned)
    (hbegan : t.began = s.began)
    (h : Relation.ReflTransGen (Registry.Moves cfg) (s.store.registry s.shutdownStarted)
      (t.store.registry s.shutdownStarted)) : Performs (registry cfg) s.view [] t.view := by
  rw [view_eq hthreads hspawned hbegan]
  exact .internals h

theorem activated_iff (cfg : Config) (env : Ambient) (c : Call) (st : Store) :
    (firstSection cfg env c st).1 = .activated ↔ c = .startGracefulShutdown := by
  constructor
  · intro h
    have hmoves := firstSection_moves cfg env c st
    rw [h] at hmoves
    cases hmoves
    rfl
  · rintro rfl
    rfl

/-- **The first section of a call**: its effect, or nothing yet. -/
theorem performs_firstSection {i : ι} (env : Ambient) {c : Call} (hs : Orderly s)
    (hpc : s.threads i = .entered c) :
    Performs (registry cfg) s.view []
      (({ s with store := (firstSection cfg env c s.store).2 }).goto i
        (firstSection cfg env c s.store).1).view := by
  have hcalled : s.view.phases i = .called c (s.began i) := by rw [phases_view, hpc]; rfl
  have hactivated : s.threads i ≠ .activated := by simp [hpc]
  rcases firstSection_serves cfg env c (hs.punctual.began i) hs.wellFormed.store.past
    s.shutdownStarted with ⟨imsi, rfl, hpass⟩ | ⟨imsi, reading, rfl, hreads⟩ | ⟨v, hv, hserves⟩
  · rw [hpass]
    exact .of_eq (view_goto_same hactivated ThreadPc.noConfusion (hcalled ▸ rfl))
  · rw [hreads, view_goto hactivated, decide_eq_false ThreadPc.noConfusion, Bool.or_false]
    have hphase : phaseOf (s.began i) (.touching imsi reading) = s.view.phases i := hcalled ▸ rfl
    rw [hphase, Function.update_eq_self]
    exact .internals (.single (.tick _ env.elapsed))
  · rw [view_goto hactivated, hv, decide_eq_decide.mpr (activated_iff cfg env c s.store)]
    exact hserves.performs hcalled

/-- **The table section of `create_session`** is its effect. -/
theorem performs_table {i : ι} (env : Ambient) {imsi : StdString} (hs : Orderly s)
    (hpc : s.threads i = .checked imsi) :
    Performs (registry cfg) s.view []
      (({ s with store := (createSessionTable cfg env imsi s.store).2.settle }).goto i
        (.returning (.createSession imsi)
          (tableResult (createSessionTable cfg env imsi s.store).1))).view := by
  have hcalled : s.view.phases i = .called (.createSession imsi) (s.began i) := by
    rw [phases_view, hpc]
    rfl
  have hactivated : s.threads i ≠ .activated := by simp [hpc]
  obtain ⟨hvalid, hnotBanned⟩ := hs.free i imsi hpc
  rw [view_goto hactivated, decide_eq_false ThreadPc.noConfusion, Bool.or_false]
  exact (serves_createSessionTable env (hs.punctual.began i) hs.wellFormed.store.past hvalid
    hnotBanned s.shutdownStarted).performs hcalled

/-- **The write of `update_session_activity`** is its effect. -/
theorem performs_write {i : ι} {imsi : StdString} {reading : ℤ} (hs : Orderly s)
    (hpc : s.threads i = .touching imsi reading) :
    Performs (registry cfg) s.view []
      (({ s with store := updateSessionActivity reading imsi s.store }).goto i
        (.returning (.updateSessionActivity imsi) (.returned .unit))).view := by
  have hcalled : s.view.phases i = .called (.updateSessionActivity imsi) (s.began i) := by
    rw [phases_view, hpc]
    rfl
  have hactivated : s.threads i ≠ .activated := by simp [hpc]
  rw [view_goto hactivated, decide_eq_false ThreadPc.noConfusion, Bool.or_false]
  exact (serves_updateSessionActivity (hs.punctual.touching i imsi reading hpc)
    (hs.wellFormed.touching i imsi reading hpc) hs.wellFormed.store.past
    s.shutdownStarted).performs hcalled

/-- The start of a loop: the shutdown was started by the same call already. -/
theorem view_spawn {i : ι} (hpc : s.threads i = .activated) :
    (({ s with
      loops := Function.update s.loops s.spawned .start
      spawned := s.spawned + 1 }).goto i (.spawned s.spawned)).view = s.view := by
  have hphases :
      (fun j => phaseOf (s.began j) (Function.update s.threads i (.spawned s.spawned) j)) =
        fun j => phaseOf (s.began j) (s.threads j) := by
    funext j
    by_cases hj : j = i
    · subst hj
      simp [hpc, phaseOf]
    · simp [hj]
  have hstarted : s.shutdownStarted = true := by
    rw [Manager.shutdownStarted, decide_eq_true_iff]
    exact Or.inr ⟨i, hpc⟩
  have hafter : (({ s with
      loops := Function.update s.loops s.spawned .start
      spawned := s.spawned + 1 }).goto i (.spawned s.spawned)).shutdownStarted = true :=
    decide_eq_true (Or.inl (Nat.succ_pos _))
  exact congrArg₂ Machine.mk (congrArg s.store.registry (hafter.trans hstarted.symm)) hphases

/-- **The steps of a caller.** -/
theorem performs_thread {i : ι} {env : Ambient} (hs : Orderly s)
    (h : threadNext cfg i env s = some t) :
    Performs (registry cfg) s.view (shows s (.thread i env)) t.view := by
  have hnext := h
  cases hpc : s.threads i <;> simp only [threadNext, hpc] at h <;> simp only [shows, hpc]
  case idle => cases h
  case entered c =>
    cases h
    exact performs_firstSection env hs hpc
  case checked imsi =>
    cases h
    exact performs_table env hs hpc
  case activated =>
    cases h
    exact .of_eq (view_spawn hpc)
  case spawned k =>
    split at h <;> cases h
    · exact .of_eq rfl
    · refine .of_eq (view_goto_same (s := { s with gracefulShutdownThread := some k }) ?_
        ThreadPc.noConfusion ?_)
      · simp [hpc]
      · simp [hpc, phaseOf]
  case touching imsi reading =>
    cases h
    exact performs_write hs hpc
  case returning c v =>
    have hdone : s.view.phases i = .done c v := by rw [phases_view, hpc]; rfl
    exact view_return hnext hpc ▸ Performs.of_step (.respond hdone)

/-- Time that passes. -/
theorem reflTransGen_tick (st : Store) (d : ℕ) (b : Bool) :
    Relation.ReflTransGen (Registry.Moves cfg) (st.registry b) ((st.tick d).registry b) :=
  .single (.tick _ d)

/-- **The steps of the cleanup thread.** -/
theorem performs_cleanup (hpos : 0 ≤ cfg.sessionTimeout) (hmax : cfg.sessionTimeout ≤ maxTimeout)
    {env : Ambient} (hs : Orderly s) (h : Step cfg s (.cleanup env) t) :
    Performs (registry cfg) s.view [] t.view := by
  have hbegan := began_of_others h (by simp)
  replace h := (step_cleanup.mp h).2
  obtain ⟨hthreads, _, hspawned, _⟩ := cleanupNext_frame h
  refine performs_internals hthreads hspawned hbegan ?_
  have hreads := hs.reads
  cases hpc : s.cleanup <;> simp only [cleanupNext, hpc] at h
  case testRunning =>
    split at h <;> cases h
    · exact reflTransGen_tick _ _ _
    · exact .refl
  case snapshot now =>
    split at h <;> cases h
    exact .refl
  case erase now expired =>
    rw [hpc] at hreads
    have hmoves := moves_cleanupErase hpos hmax env expired hreads s.shutdownStarted
    split at h <;> rename_i heq <;> cases h <;> rw [heq] at hmoves
    · dsimp only
      split
      · exact hmoves
      · exact hmoves.tail (.settle _)
    · exact hmoves
  case sleep =>
    cases h
    exact .refl
  case exited => cases h

omit [DecidableEq ι] in
/-- A loop that runs has been started. -/
theorem started_of_loop (hs : Orderly s) {k : ℕ} (hpc : s.loops k ≠ .absent) :
    s.shutdownStarted = true := by
  refine decide_eq_true (Or.inl ?_)
  by_contra hnone
  exact hpc (hs.absent k (by omega))

/-- **The steps of a shutdown loop.** -/
theorem performs_loop {k : ℕ} {env : Ambient} (hs : Orderly s) (h : Step cfg s (.loop k env) t) :
    Performs (registry cfg) s.view [] t.view := by
  have hbegan := began_of_others h (by simp)
  replace h := (step_loop.mp h).2
  obtain ⟨hthreads, _, hspawned, _⟩ := loopNext_frame h
  refine performs_internals hthreads hspawned hbegan ?_
  cases hpc : s.loops k <;> simp only [loopNext, hpc] at h
  case absent => cases h
  case exited => cases h
  case start => split at h <;> cases h <;> exact .refl
  case testActive =>
    cases h
    exact .refl
  case testRunning =>
    cases h
    exact .refl
  case pick =>
    split at h
    · split at h <;> cases h <;> exact .refl
    · cases h
  case erase imsi =>
    have hmoves := moves_shutdownErase cfg env imsi s.store
    rw [started_of_loop hs (k := k) (by simp [hpc])]
    split at h <;> rename_i heq <;> cases h <;> rw [heq] at hmoves
    · exact hmoves.tail (.settle _)
    · exact hmoves.tail (.settle _)
  case limit =>
    cases h
    exact reflTransGen_tick _ _ _
  case wait deadline =>
    split at h <;> cases h
    exact reflTransGen_tick _ _ _

/-- **The steps of the destructor.** -/
theorem performs_destroy (h : Step cfg s .destroy t) :
    Performs (registry cfg) s.view [] t.view := by
  have hbegan := began_of_others h (by simp)
  replace h := (step_destroy.mp h).2
  obtain ⟨hthreads, _, _, hspawned, _⟩ := destroyNext_frame h
  refine performs_internals hthreads hspawned hbegan ?_
  rw [destroyNext] at h
  split at h <;> (try split at h) <;> (try split at h)
  all_goals cases h <;> exact .refl

omit [DecidableEq ι] in
theorem view_initial (cfg : Config) (clock : ℤ) :
    (Manager.initial cfg clock : Manager ι).view.Initial (registry cfg) := by
  refine ⟨⟨clock, ?_⟩, fun i => rfl⟩
  have hspawned : (Manager.initial cfg clock : Manager ι).shutdownStarted = false := by
    simp [Manager.shutdownStarted, Manager.initial]
  rw [Manager.view, hspawned]
  rfl

/-- **A step of an orderly manager.** -/
theorem performs_step (hpos : 0 ≤ cfg.sessionTimeout) (hmax : cfg.sessionTimeout ≤ maxTimeout)
    {l : Label ι} (hs : Orderly s) (h : Step cfg s l t) :
    Performs (registry cfg) s.view (shows s l) t.view := by
  cases l with
  | call i c =>
      obtain ⟨hidle, hview⟩ := view_call h
      exact hview ▸ Performs.of_step (.invoke i c hidle)
  | thread i env => exact performs_thread hs (step_thread.mp h).2
  | cleanup env => exact performs_cleanup hpos hmax hs h
  | loop k env => exact performs_loop hs h
  | destroy => exact performs_destroy h

/-- **Every step of the manager is some moves of the atomic registry** that show the same
invocation or response, as long as nobody is overtaken by a blacklisting. -/
theorem refines_registry (hpos : 0 ≤ cfg.sessionTimeout) (hmax : cfg.sessionTimeout ≤ maxTimeout) :
    Refines (registry cfg) (Initial cfg) (next (ι := ι) cfg) NotOvertaken shows Manager.view where
  starts s hs := by
    obtain ⟨clock, rfl⟩ := hs
    exact view_initial cfg clock
  follows s l t hreach hstep := performs_step hpos hmax (orderly_of_reachable hreach) hstep.1

/-- **The public operations of the session manager are linearizable.** Whatever calls the
threads make and however the sections of the calls, of the cleanup thread and of the
shutdown loops interleave, every answered call has an instant between its invocation and
its response, in order and by the clock, at which the sequential registry, served call by
call, answers it as it was answered. -/
theorem calls_linearizable (hpos : 0 ≤ cfg.sessionTimeout) (hmax : cfg.sessionTimeout ≤ maxTimeout)
    {clock : ℤ} {tr : List (Label ι)}
    (h : Run (only (Step cfg) NotOvertaken) (Manager.initial cfg clock) tr t) :
    Linearizable (registry cfg) (observed (next cfg) shows tr (Manager.initial cfg clock)) :=
  (refines_registry hpos hmax).linearizable ⟨clock, rfl⟩ h

/-- Without calls to `add_to_blacklist` nobody is overtaken. -/
theorem notOvertaken_of_run {clock : ℤ} {tr : List (Label ι)}
    (h : Run (Step cfg) (Manager.initial cfg clock) tr t)
    (hcalls : ∀ i imsi, .call i (.addToBlacklist imsi) ∉ tr) :
    Run (only (Step cfg) NotOvertaken) (Manager.initial cfg clock) tr t := by
  induction h with
  | nil => exact .nil _
  | @snoc u v tr l hrun hlast ih =>
      have hearlier : ∀ i imsi, Label.call i (.addToBlacklist imsi) ∉ tr := fun i imsi hmem =>
        hcalls i imsi (List.mem_append_left _ hmem)
      refine .snoc (ih hearlier) ⟨hlast, fun i env imsi _ hadd => ?_⟩
      have hlabels : ∀ l ∈ tr, ∀ (_ : Manager ι), ∀ j, l ≠ .call j (.addToBlacklist imsi) := by
        rintro l hl _ j rfl
        exact absurd hl (hearlier j imsi)
      exact absurd hadd (not_entered_of_run (hrun.only_of_forall hlabels)
        (fun j => ThreadPc.noConfusion) i)

/-! Two calls for one subscriber overlap: the one that began first comes second. -/

private def overlapping : List (Label Caller) :=
  [.call .first (.createSession (text "1")), .thread .first (after 0 []),
    .call .second (.createSession (text "1")), .thread .second (after 0 []),
    .thread .second (after 1 []), .thread .first (after 1 []),
    .thread .second (after 0 []), .thread .first (after 0 [])]

private def overlap : List (Event Caller Call (Completion Value) ℤ) :=
  [.invoke .first (.createSession (text "1")) 0, .invoke .second (.createSession (text "1")) 0,
    .respond .second (.returned (.result .created)) 2000000000,
    .respond .first (.returned (.result .alreadyExists)) 2000000000]

theorem calls_linearizable_overlapping : Linearizable (registry sample) overlap := by
  have hrun : Run (Step sample) (.initial sample 0) overlapping _ :=
    run_play overlapping (by decide +kernel)
  have hshown : observed (next sample) shows overlapping (.initial sample 0) = overlap := by
    decide +kernel
  rw [← hshown]
  have halone := notOvertaken_of_run hrun (by simp [overlapping])
  exact calls_linearizable (by decide) (by decide) halone

end Views

end Pgw.SessionManager
