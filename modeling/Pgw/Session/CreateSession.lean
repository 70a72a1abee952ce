import Pgw.Session.Changes
import Pgw.Session.Positions

/-!
# One call of `create_session`

`createSession` is the whole call as its caller sees it: two lock-held sections,
and between them whatever the other threads make of the store, given as a
function. The events are those of the call itself. `createSession_of_run` shows
that a caller of the manager gets what the function says, and so do
`createSession_of_early` and `createSession_of_table` one section at a time.
-/
namespace Pgw.SessionManager
open TransitionSystem Completion

/-- The store as a call meets it, and the events the call has delivered. -/
structure CallState where
  store : Store
  emitted : List SessionEvent

/-- A section run by this call. -/
def inSection {α : Type} (piece : Store → Completion α × Store) (call : CallState) :
    Completion α × CallState :=
  ((piece call.store).1, ⟨(piece call.store).2,
    call.emitted ++ (piece call.store).2.events.drop call.store.events.length⟩)

/-- `create_session`; the other threads do `between` while no lock is held. -/
def createSession (cfg : Config) (env env' : Ambient) (between : Store → Store)
    (imsi : StdString) (call : CallState) : Completion CreateResult × CallState :=
  match IMSI.ofString imsi with
  | .returned _ =>
      andThen (inSection (createSessionBlacklist cfg env imsi) call) fun early call =>
        match early with
        | some result => (.returned result, call)
        | none =>
            inSection (createSessionTable cfg env' imsi)
              { call with store := between call.store }
  | _ => (.returned .blacklisted, call)

/-! ## Outcomes -/

section Outcomes
variable {cfg : Config} (env env' : Ambient) (between : Store → Store) (imsi : IMSI) {st : Store}

/-- A new session as its constructor leaves it. -/
def newSession (env : Ambient) (imsi : StdString) (st : Store) : Session :=
  ⟨imsi, st.clock + env.elapsed, st.clock + env.elapsed + env.lag⟩

theorem createSession_blacklisted (hcfg : cfg.Delivers) (hbanned : imsi.str ∈ st.blacklist) :
    createSession cfg env env' between imsi.str ⟨st, []⟩ =
      (.returned .blacklisted,
        ⟨{ st with events := st.events ++ [⟨imsi.str, .rejected, env.wallClock imsi.str⟩] },
          [⟨imsi.str, .rejected, env.wallClock imsi.str⟩]⟩) := by
  simp [createSession, inSection, createSessionBlacklist, hbanned, hcfg.emitEvent]

theorem createSession_alreadyExists (hfree : imsi.str ∉ st.blacklist) {session : Session}
    (hlookup : (between st).sessions.lookup imsi.str = some session) :
    createSession cfg env env' between imsi.str ⟨st, []⟩ =
      (.returned .alreadyExists,
        ⟨{ between st with
            sessions := (between st).sessions.insert imsi.str
              { session with lastActivity := (between st).clock + env'.elapsed }
            clock := (between st).clock + env'.elapsed }, []⟩) := by
  simp [createSession, inSection, createSessionBlacklist, hfree, createSessionTable, hlookup,
    Store.tick]

theorem createSession_created (hcfg : cfg.Delivers) (hfree : imsi.str ∉ st.blacklist)
    (hlookup : (between st).sessions.lookup imsi.str = none) :
    createSession cfg env env' between imsi.str ⟨st, []⟩ =
      (.returned .created,
        ⟨{ between st with
            sessions :=
              (between st).sessions.insert imsi.str (newSession env' imsi.str (between st))
            clock := (between st).clock + env'.elapsed + env'.lag
            events := (between st).events ++ [⟨imsi.str, .created, env'.wallClock imsi.str⟩] },
          [⟨imsi.str, .created, env'.wallClock imsi.str⟩]⟩) := by
  simp [createSession, inSection, createSessionBlacklist, hfree, createSessionTable, hlookup,
    Store.tick, hcfg.emitEvent, newSession]

/-- Without a raising callback the call returns. -/
theorem createSession_returned (st : Store) (hquiet : cfg.Quiet) :
    ∃ result after, createSession cfg env env' between imsi.str ⟨st, []⟩ =
      (.returned result, after) := by
  by_cases hbanned : imsi.str ∈ st.blacklist
  · simp only [createSession, inSection, createSessionBlacklist, hbanned, if_true,
      IMSI.ofString_str, hquiet.emitEvent_eq, andThen_returned]
    exact ⟨.blacklisted, _, rfl⟩
  · cases hlookup : (between st).sessions.lookup imsi.str with
    | some session =>
        exact ⟨_, _, createSession_alreadyExists env env' between imsi hbanned hlookup⟩
    | none =>
        simp only [createSession, inSection, createSessionBlacklist, hbanned, if_false,
          IMSI.ofString_str, createSessionTable, hlookup, hquiet.emitEvent_eq, andThen_returned]
        exact ⟨.created, _, rfl⟩

end Outcomes

/-! ## Exceptions -/

section Exceptions
variable {cfg : Config}

/-- The callback raises on the event. -/
def Config.Refuses (cfg : Config) (event : SessionEvent) (what : String) : Prop :=
  ∃ callback, cfg.eventCallback = some callback ∧ callback event = some what

theorem emitEvent_raised {env : Ambient} {imsi : StdString} {action : SessionAction}
    {st st' : Store}
    {what : String} : emitEvent cfg env imsi action st = (.raised what, st') ↔
      cfg.Refuses ⟨imsi, action, env.wallClock imsi⟩ what ∧ st' = st := by
  cases hcallback : cfg.eventCallback with
  | none => simp [emitEvent, Config.Refuses, hcallback]
  | some callback =>
      cases hwhat : callback ⟨imsi, action, env.wallClock imsi⟩ <;>
        simp [emitEvent, Config.Refuses, hcallback, hwhat, eq_comm]

theorem emitEvent_returned {env : Ambient} {imsi : StdString} {action : SessionAction}
    (htakes : ∀ what, ¬ cfg.Refuses ⟨imsi, action, env.wallClock imsi⟩ what) (st : Store) :
    emitEvent cfg env imsi action st = (.returned (),
      { st with events := st.events ++ delivered cfg ⟨imsi, action, env.wallClock imsi⟩ }) := by
  refine Prod.ext ?_ (emitEvent_store cfg env imsi action st)
  cases hcallback : cfg.eventCallback with
  | none => simp [emitEvent, hcallback]
  | some callback =>
      cases hwhat : callback ⟨imsi, action, env.wallClock imsi⟩ with
      | none => simp [emitEvent, hcallback, hwhat]
      | some what => exact absurd ⟨callback, hcallback, hwhat⟩ (htakes what)

/-- The table with one more session. -/
def Store.addSession (env : Ambient) (imsi : StdString) (st : Store) : Store :=
  { st with
    sessions := st.sessions.insert imsi (newSession env imsi st)
    clock := st.clock + env.elapsed + env.lag }

/-- The table section raises when the callback refuses the creation, and leaves the
session behind. -/
theorem createSessionTable_raised {env : Ambient} {imsi : StdString} {st st' : Store}
    {what : String} : createSessionTable cfg env imsi st = (.raised what, st') ↔
      imsi ∉ st.sessions ∧ cfg.Refuses ⟨imsi, .created, env.wallClock imsi⟩ what ∧
        st' = st.addSession env imsi := by
  cases hlookup : st.sessions.lookup imsi with
  | some session =>
      have hmem := Finmap.mem_of_lookup_eq_some hlookup
      simp [createSessionTable, hlookup, hmem]
  | none =>
      have habsent := Finmap.lookup_eq_none.mp hlookup
      have hemit : createSessionTable cfg env imsi st = (.raised what, st') ↔
          emitEvent cfg env imsi .created (st.addSession env imsi) = (.raised what, st') := by
        rw [createSessionTable, hlookup]
        exact andThen_returns_eq_raised
      rw [hemit, emitEvent_raised]
      simp [habsent]

/-- **When `create_session` raises, and what it leaves.** -/
theorem createSession_raised {env env' : Ambient} {between : Store → Store} {imsi : StdString}
    {st : Store} {after : CallState} {what : String} :
    createSession cfg env env' between imsi ⟨st, []⟩ = (.raised what, after) ↔
      IMSI.Valid imsi ∧
        (imsi ∈ st.blacklist ∧ cfg.Refuses ⟨imsi, .rejected, env.wallClock imsi⟩ what ∧
            after = ⟨st, []⟩ ∨
          imsi ∉ st.blacklist ∧ imsi ∉ (between st).sessions ∧
            cfg.Refuses ⟨imsi, .created, env'.wallClock imsi⟩ what ∧
            after = ⟨(between st).addSession env' imsi, []⟩) := by
  by_cases hvalid : IMSI.Valid imsi
  · have himsi : IMSI.ofString imsi = .returned ⟨imsi, hvalid⟩ := IMSI.ofString_returned.mpr rfl
    by_cases hbanned : imsi ∈ st.blacklist
    · cases hcallback : cfg.eventCallback with
      | none =>
          simp [createSession, inSection, createSessionBlacklist, emitEvent, Config.Refuses, himsi,
            hbanned, hcallback]
      | some callback =>
          cases hwhat : callback ⟨imsi, .rejected, env.wallClock imsi⟩ <;>
            simp [createSession, inSection, createSessionBlacklist, emitEvent, Config.Refuses,
              himsi, hvalid, hbanned, hcallback, hwhat, eq_comm]
    · have htable : createSession cfg env env' between imsi ⟨st, []⟩ =
          inSection (createSessionTable cfg env' imsi) ⟨between st, []⟩ := by
        simp [createSession, inSection, createSessionBlacklist, himsi, hbanned]
      rw [htable, inSection, Prod.mk.injEq]
      constructor
      · rintro ⟨hraised, rfl⟩
        have hboth : createSessionTable cfg env' imsi (between st) = (.raised what, _) :=
          Prod.ext hraised rfl
        obtain ⟨habsent, hrefuses, hstore⟩ := createSessionTable_raised.mp hboth
        refine ⟨hvalid, Or.inr ⟨hbanned, habsent, hrefuses, ?_⟩⟩
        simp only [hstore]
        simp [Store.addSession]
      · rintro ⟨_, ⟨hmem, _⟩ | ⟨_, habsent, hrefuses, rfl⟩⟩
        · exact absurd hmem hbanned
        · rw [createSessionTable_raised.mpr ⟨habsent, hrefuses, rfl⟩]
          simp [Store.addSession]
  · simp [createSession, IMSI.ofString_raised hvalid, hvalid]

/-- **No call changes the blacklist**, however it ends: it is as the others have left it, or
as it was if the call has come to its end before they ran. -/
theorem blacklist_createSession (env env' : Ambient) (between : Store → Store) (imsi : StdString)
    (st : Store) : (createSession cfg env env' between imsi ⟨st, []⟩).2.store.blacklist =
      if IMSI.Valid imsi ∧ imsi ∉ st.blacklist then (between st).blacklist else st.blacklist := by
  by_cases hvalid : IMSI.Valid imsi
  · have himsi : IMSI.ofString imsi = .returned ⟨imsi, hvalid⟩ := IMSI.ofString_returned.mpr rfl
    by_cases hbanned : imsi ∈ st.blacklist
    · have hsection := emitEvent_store cfg env imsi .rejected st
      simp only [createSession, himsi, inSection, createSessionBlacklist, hbanned,
        not_true_eq_false, and_false, if_true, if_false]
      generalize emitEvent cfg env imsi .rejected st = emission at hsection ⊢
      obtain ⟨_ | _ | _, st₁⟩ := emission <;> simp [show st₁ = _ from hsection]
    · simp only [createSession, himsi, inSection, createSessionBlacklist, hvalid, hbanned,
        not_false_eq_true, and_self, if_true, if_false]
      cases hlookup : (between st).sessions.lookup imsi <;>
        simp [createSessionTable, hlookup, emitEvent_store, Store.tick]
  · simp [createSession, IMSI.ofString_raised hvalid, hvalid]

/-- A creation that the callback does not refuse succeeds. -/
theorem createSession_taken (env : Ambient) {env' : Ambient} {between : Store → Store} (imsi : IMSI)
    {st : Store} (hfree : imsi.str ∉ st.blacklist) (habsent : imsi.str ∉ (between st).sessions)
    (htakes : ∀ what, ¬ cfg.Refuses ⟨imsi.str, .created, env'.wallClock imsi.str⟩ what) :
    createSession cfg env env' between imsi.str ⟨st, []⟩ =
      (.returned .created,
        ⟨{ (between st).addSession env' imsi.str with
            events := (between st).events ++
              delivered cfg ⟨imsi.str, .created, env'.wallClock imsi.str⟩ },
          delivered cfg ⟨imsi.str, .created, env'.wallClock imsi.str⟩⟩) := by
  have hlookup := Finmap.lookup_eq_none.mpr habsent
  simp [createSession, inSection, createSessionBlacklist, hfree, createSessionTable, hlookup,
    Store.tick, emitEvent_returned htakes, Store.addSession, newSession]

end Exceptions

/-! ## The call in the manager -/

variable {ι : Type} [Fintype ι] [DecidableEq ι] {cfg : Config} {i : ι}

/-- A caller at its table section waits there while the others run. -/
theorem checked_of_others {s t : Manager ι} {tr : List (Label ι)} {imsi : StdString}
    (h : Run (only (Step cfg) fun _ l => ∀ env, l ≠ .thread i env) s tr t)
    (hs : s.threads i = .checked imsi) : t.threads i = .checked imsi := by
  refine Run.invariant (P := fun s => s.threads i = .checked imsi) ?_ h hs
  intro u l v hu hstep
  rcases threads_of_step hstep.1 i with hsame | ⟨_, _, hidle, _⟩ | ⟨env, hl, _⟩
  · rw [hsame, hu]
  · rw [hu] at hidle
    cases hidle
  · exact absurd hl (hstep.2 env)

/-- A caller that does not get past its check has its result. -/
theorem createSession_of_early {s s' : Manager ι} {env : Ambient} {imsi : StdString}
    (hbegin : s.threads i = .entered (.createSession imsi)) (hcheck : Step cfg s (.thread i env) s')
    (hearly : s'.threads i ≠ .checked imsi) (env' : Ambient) (between : Store → Store) :
    ∃ result after, createSession cfg env env' between imsi ⟨s.store, []⟩ = (result, after) ∧
      s'.threads i = .returning (.createSession imsi) (tableResult result) := by
  have hfirst := (step_thread.mp hcheck).2
  simp only [threadNext, hbegin, Option.some.injEq] at hfirst
  rw [← hfirst, threads_goto, Function.update_self] at hearly
  simp only [firstSection] at hearly
  rw [← hfirst]
  simp only [firstSection]
  cases hvalid : IMSI.ofString imsi with
  | returned _ =>
      simp only [createSession, inSection, hvalid] at hearly ⊢
      generalize createSessionBlacklist cfg env imsi s.store = first at hearly ⊢
      obtain ⟨(_ | _) | _ | _, st⟩ := first
      · exact absurd rfl hearly
      all_goals exact ⟨_, _, rfl, by simp [tableResult]⟩
  | raised _ => exact ⟨.returned .blacklisted, ⟨s.store, []⟩, by simp [createSession, hvalid],
      by simp [tableResult]⟩
  | terminated => exact ⟨.returned .blacklisted, ⟨s.store, []⟩, by simp [createSession, hvalid],
      by simp [tableResult]⟩

/-- A caller that got past its check on `st` has its result when the table section ends. -/
theorem createSession_of_table {u v : Manager ι} {env' : Ambient} {imsi : StdString}
    {st : Store} (hvalid : IMSI.Valid imsi) (hfree : imsi ∉ st.blacklist)
    (hchecked : u.threads i = .checked imsi) (htable : Step cfg u (.thread i env') v)
    (env : Ambient) :
    ∃ result after, createSession cfg env env' (fun _ => u.store) imsi ⟨st, []⟩ =
        (result, after) ∧
      v.threads i = .returning (.createSession imsi) (tableResult result) ∧
      v.store = after.store.settle := by
  have hreturned : IMSI.ofString imsi = .returned ⟨imsi, hvalid⟩ := IMSI.ofString_returned.mpr rfl
  have hlast := (step_thread.mp htable).2
  simp only [threadNext, hchecked, Option.some.injEq] at hlast
  rw [← hlast]
  simp only [createSession, inSection, hreturned, createSessionBlacklist, if_neg hfree]
  exact ⟨_, _, rfl, by simp, rfl⟩

/-- **A caller of the manager gets what `createSession` says**, with the steps of
the others as what happens between its sections, and then gives the lock back. -/
theorem createSession_of_run {s s' u v : Manager ι} {env env' : Ambient} {tr : List (Label ι)}
    {imsi : StdString} (hcheck : Step cfg s (.thread i env) s')
    (hothers : Run (only (Step cfg) fun _ l => ∀ env, l ≠ .thread i env) s' tr u)
    (hchecked : s'.threads i = .checked imsi) (htable : Step cfg u (.thread i env') v) :
    ∃ result after, createSession cfg env env' (fun _ => u.store) imsi ⟨s.store, []⟩ =
        (result, after) ∧
      v.threads i = .returning (.createSession imsi) (tableResult result) ∧
      v.store = after.store.settle := by
  rcases checked_of_step hcheck hchecked with ⟨_, hothers'⟩ | ⟨_, hvalid, hfree⟩
  · exact absurd rfl (hothers' env)
  · exact createSession_of_table hvalid hfree (checked_of_others hothers hchecked) htable env

end Pgw.SessionManager
