import Pgw.Dispatcher.UdpEvent
import Pgw.Session.Drain
import Pgw.Session.Emissions

/-!
# When the callback raises

`create_session` inserts the session first and emits `CREATED` afterwards, and
nothing takes the insertion back: an exception of the callback leaves the session
in the table, and the handler of `handleUdpEvent` answers `rejected` for it. The
other event of the call, `REJECTED`, comes before any change. So an exception has
left either nothing or exactly one new session, and this module says when.
-/
namespace Pgw.EventDispatcher
open SessionManager TransitionSystem Completion

/-! ## Replies to a call that may raise -/

section Respond
variable (event : UdpEvent) (response : StdString) (call : Handling)

@[simp] theorem store_respond : (respond event response call).2.store = call.store := by
  rw [respond]
  split
  · split <;> rfl
  · rfl

/-- The reply is tried whenever there is a callback. -/
theorem replies_respond : replies (respond event response call).2.trace =
    replies call.trace ++ if event.responseCallback.isSome then [(response, event.clientAddr)]
      else [] := by
  cases hcallback : event.responseCallback with
  | none => simp [respond, hcallback]
  | some callback =>
      cases hwhat : callback response event.clientAddr <;>
        simp [respond, hcallback, hwhat, replies]

end Respond

section Handler
variable {cfg : Config} {event : UdpEvent} {env env' : Ambient} {between : Store → Store}
  {st : Store} {imsi : IMSI} {after : CallState}

/-- A call that raises is answered `rejected`. -/
theorem handleUdpEvent_raised (hdecoded : IMSI.fromBcd event.data = .returned imsi) {what : String}
    (hcall : createSession cfg env env' between imsi.str ⟨st, []⟩ = (.raised what, after)) :
    handleUdpEvent cfg env env' between event ⟨st, []⟩ =
      respond event (text "rejected") ⟨after.store, after.emitted.map .emitted⟩ := by
  rw [handleUdpEvent, hdecoded, andThen_returned, callCreateSession, hcall]
  simp

/-- A call that returns is answered with its result, and once more if that raises. -/
theorem handleUdpEvent_returned (hdecoded : IMSI.fromBcd event.data = .returned imsi)
    {result : CreateResult}
    (hcall : createSession cfg env env' between imsi.str ⟨st, []⟩ = (.returned result, after)) :
    handleUdpEvent cfg env env' between event ⟨st, []⟩ =
      recover (respond event (responseTo result) ⟨after.store, after.emitted.map .emitted⟩)
        fun _ call => respond event (text "rejected") call := by
  rw [handleUdpEvent, hdecoded, andThen_returned, callCreateSession, hcall]
  simp

/-- The reply `created` raises. -/
def RepliesFail (event : UdpEvent) : Prop :=
  ∃ callback, event.responseCallback = some callback ∧
    ∃ what, callback (text "created") event.clientAddr = some what

/-- The replies change nothing. -/
theorem store_handleUdpEvent (hdecoded : IMSI.fromBcd event.data = .returned imsi) :
    (handleUdpEvent cfg env env' between event ⟨st, []⟩).2.store =
      (createSession cfg env env' between imsi.str ⟨st, []⟩).2.store := by
  cases hcall : createSession cfg env env' between imsi.str ⟨st, []⟩ with
  | mk outcome after =>
      cases outcome with
      | returned result =>
          rw [handleUdpEvent_returned hdecoded hcall]
          have hstore := store_respond event (responseTo result)
            ⟨after.store, after.emitted.map .emitted⟩
          generalize respond event (responseTo result) ⟨after.store, _⟩ = reply at hstore ⊢
          obtain ⟨_ | _ | _, call⟩ := reply <;> simpa using hstore
      | raised what =>
          rw [handleUdpEvent_raised hdecoded hcall]
          simp
      | terminated =>
          rw [handleUdpEvent, hdecoded, andThen_returned, callCreateSession, hcall]
          rfl

/-- A blacklisted subscriber is answered from the first section. -/
theorem store_of_blacklisted (hdecoded : IMSI.fromBcd event.data = .returned imsi)
    (hbanned : imsi.str ∈ st.blacklist) :
    let handled := (handleUdpEvent cfg env env' between event ⟨st, []⟩).2
    handled.store.sessions = st.sessions ∧ handled.store.blacklist = st.blacklist := by
  have hsection := emitEvent_store cfg env imsi.str .rejected st
  simp only [store_handleUdpEvent hdecoded, createSession, IMSI.ofString_str, inSection,
    createSessionBlacklist, if_pos hbanned]
  generalize emitEvent cfg env imsi.str .rejected st = emission at hsection ⊢
  obtain ⟨_ | _ | _, st₁⟩ := emission <;> simp [show st₁ = _ from hsection]

/-- A `created` whose reply raises is followed by a `rejected`. -/
theorem rejected_after_created (event : UdpEvent) (st : Store) (events : List SessionEvent) :
    let handled := (recover (respond event (text "created") ⟨st, events.map .emitted⟩)
      fun _ call => respond event (text "rejected") call).2
    handled.store = st ∧
      ((text "rejected", event.clientAddr) ∈ replies handled.trace ↔ RepliesFail event) := by
  have hevents : replies (events.map .emitted) = [] := by
    simp [replies, List.filterMap_map]
  cases hcallback : event.responseCallback with
  | none => simp [respond, hcallback, RepliesFail, hevents]
  | some callback =>
      have hreply : respond event (text "created") ⟨st, events.map .emitted⟩ =
          ((callback (text "created") event.clientAddr).elim (.returned ()) .raised,
            ⟨st, events.map .emitted ++ [.responded (text "created") event.clientAddr]⟩) := by
        rw [respond, hcallback]
        cases hwhat : callback (text "created") event.clientAddr <;> simp [hwhat]
      cases hwhat : callback (text "created") event.clientAddr with
      | none =>
          have hdiffer : text "rejected" ≠ text "created" := by decide
          simp [hreply, RepliesFail, hcallback, hwhat, hdiffer]
      | some what =>
          simp [hreply, RepliesFail, hcallback, hwhat, replies_respond]

variable (env env' between) in
/-- A call that is not refused is answered `created` at first, with the subscriber in
the table. -/
theorem createSession_kept (hfree : imsi.str ∉ st.blacklist)
    (htakes : imsi.str ∉ (between st).sessions →
      ∀ what, ¬ cfg.Refuses ⟨imsi.str, .created, env'.wallClock imsi.str⟩ what) :
    ∃ result after, createSession cfg env env' between imsi.str ⟨st, []⟩ =
        (.returned result, after) ∧ responseTo result = text "created" ∧
      after.store.sessions.keys = insert imsi.str (between st).sessions.keys := by
  cases hlookup : (between st).sessions.lookup imsi.str with
  | some session =>
      exact ⟨_, _, createSession_alreadyExists env env' between imsi hfree hlookup, rfl,
        keys_insert _ _ _⟩
  | none =>
      have habsent := Finmap.lookup_eq_none.mp hlookup
      exact ⟨_, _, createSession_taken env imsi hfree habsent (htakes habsent), rfl,
        keys_insert _ _ _⟩

variable (env env' between) in
/-- When a subscriber off the blacklist is answered `rejected`. It is in the table
then, and the datagram has put it there if it was not. -/
theorem rejected_iff (hdecoded : IMSI.fromBcd event.data = .returned imsi)
    (hfree : imsi.str ∉ st.blacklist) :
    let handled := (handleUdpEvent cfg env env' between event ⟨st, []⟩).2
    handled.store.sessions.keys = insert imsi.str (between st).sessions.keys ∧
      ((text "rejected", event.clientAddr) ∈ replies handled.trace ↔
        event.responseCallback.isSome ∧ imsi.str ∉ (between st).sessions ∧
            (∃ what, cfg.Refuses ⟨imsi.str, .created, env'.wallClock imsi.str⟩ what) ∨
          RepliesFail event) := by
  by_cases hrefused : imsi.str ∉ (between st).sessions ∧
      ∃ what, cfg.Refuses ⟨imsi.str, .created, env'.wallClock imsi.str⟩ what
  · obtain ⟨habsent, what, hwhat⟩ := hrefused
    have hcall : createSession cfg env env' between imsi.str ⟨st, []⟩ = (.raised what, _) :=
      createSession_raised.mpr ⟨imsi.valid, Or.inr ⟨hfree, habsent, hwhat, rfl⟩⟩
    have hsome : RepliesFail event → event.responseCallback.isSome := by
      rintro ⟨callback, hcallback, _⟩
      rw [hcallback]
      rfl
    rw [handleUdpEvent_raised hdecoded hcall]
    constructor
    · rw [store_respond]
      exact keys_insert _ _ _
    · rw [replies_respond]
      by_cases hcallback : event.responseCallback.isSome
      · exact iff_of_true (by simp [hcallback]) (Or.inl ⟨hcallback, habsent, what, hwhat⟩)
      · refine iff_of_false (by simp [hcallback, replies]) ?_
        rintro (⟨hreply, _⟩ | hfail)
        · exact hcallback hreply
        · exact hcallback (hsome hfail)
  · have htakes : imsi.str ∉ (between st).sessions →
        ∀ what, ¬ cfg.Refuses ⟨imsi.str, .created, env'.wallClock imsi.str⟩ what :=
      fun habsent what hwhat => hrefused ⟨habsent, what, hwhat⟩
    obtain ⟨result, after, hcall, hresult, hkeys⟩ :=
      createSession_kept env env' between hfree htakes
    obtain ⟨hstore, hreplies⟩ := rejected_after_created event after.store after.emitted
    rw [handleUdpEvent_returned hdecoded hcall, hresult]
    constructor
    · rw [hstore, hkeys]
    · rw [hreplies]
      refine ⟨Or.inr, ?_⟩
      rintro (⟨_, habsent, hwhat⟩ | hfail)
      · exact absurd ⟨habsent, hwhat⟩ hrefused
      · exact hfail

end Handler

/-! ## Sessions and their first event -/

section Runs
variable {ι : Type} [Fintype ι] [DecidableEq ι] {cfg : Config} {s t : Manager ι} {l : Label ι}

/-- Who adds a key emits `CREATED` for it in the same section. -/
theorem created_of_createdKey (h : Step cfg s l t) {imsi : StdString}
    (hcreated : createdKey s l = some imsi) :
    ∃ i env, l = .thread i env ∧ s.threads i = .checked imsi ∧ imsi ∉ s.store.sessions ∧
      t.store.events = s.store.events ++ delivered cfg ⟨imsi, .created, env.wallClock imsi⟩ := by
  have hevents := events_of_step h
  cases l with
  | thread i env =>
      cases hpc : s.threads i <;> simp only [createdKey, hpc] at hcreated
      case checked x =>
        by_cases hmem : x ∈ s.store.sessions
        · rw [if_pos hmem] at hcreated
          cases hcreated
        · rw [if_neg hmem, Option.some.injEq] at hcreated
          subst hcreated
          refine ⟨i, env, rfl, hpc, hmem, ?_⟩
          simpa only [emitted, hpc, if_neg hmem, List.flatMap_singleton] using hevents
      all_goals cases hcreated
  | _ => cases hcreated

/-- **Where a session comes from**: the last step that added its key. -/
theorem creation_of_mem_sessions {tr : List (Label ι)} (h : Run (Step cfg) s tr t)
    {imsi : StdString} (hbefore : imsi ∉ s.store.sessions) (hafter : imsi ∈ t.store.sessions) :
    ∃ tr₁ i env tr₂ u v, tr = tr₁ ++ .thread i env :: tr₂ ∧ Run (Step cfg) s tr₁ u ∧
      u.threads i = .checked imsi ∧ imsi ∉ u.store.sessions ∧ Step cfg u (.thread i env) v ∧
      v.store.events = u.store.events ++ delivered cfg ⟨imsi, .created, env.wallClock imsi⟩ ∧
      Run (only (Step cfg) fun w _ => imsi ∈ w.store.sessions) v tr₂ t := by
  induction h with
  | nil => exact absurd hafter hbefore
  | snoc hrun hlast ih =>
      rcases mem_sessions_of_step hlast hafter with hold | hcreated
      · obtain ⟨tr₁, i, env, tr₂, u, v, rfl, hu, hpc, habsent, hstep, hevents, hv⟩ := ih hold
        exact ⟨tr₁, i, env, tr₂ ++ [_], u, v, by simp, hu, hpc, habsent, hstep, hevents,
          hv.snoc ⟨hlast, hold⟩⟩
      · obtain ⟨i, env, rfl, hpc, habsent, hevents⟩ := created_of_createdKey hlast hcreated
        exact ⟨_, i, env, [], _, _, rfl, hrun, hpc, habsent, hlast, hevents, Run.nil _⟩

end Runs

/-! ## What an exception leaves behind -/

/-- **What an exception of the callback leaves behind.** A `create_session` that
raises has changed nothing if the callback refused its `REJECTED` event, and has
added its session and changed nothing else if it refused the `CREATED` event. The
blacklist is never changed, whether the call raises or returns. So a
subscriber off the blacklist is in the table also when it is answered `rejected`,
which happens when the callback refuses its creation or the reply `created` fails.
A session in the table has called for its `CREATED` event in the section that added
it, and the event was delivered unless there was no callback or it raised. -/
theorem create_session_failure (ι : Type) [Fintype ι] [DecidableEq ι] (cfg : Config) :
    (∀ env env' between imsi st outcome what,
      createSession cfg env env' between imsi ⟨st, []⟩ = (.raised what, outcome) ↔
        IMSI.Valid imsi ∧
          (imsi ∈ st.blacklist ∧ cfg.Refuses ⟨imsi, .rejected, env.wallClock imsi⟩ what ∧
              outcome = ⟨st, []⟩ ∨
            imsi ∉ st.blacklist ∧ imsi ∉ (between st).sessions ∧
              cfg.Refuses ⟨imsi, .created, env'.wallClock imsi⟩ what ∧
              outcome = ⟨(between st).addSession env' imsi, []⟩)) ∧
    (∀ env env' between imsi st,
      (createSession cfg env env' between imsi ⟨st, []⟩).2.store.blacklist =
        if IMSI.Valid imsi ∧ imsi ∉ st.blacklist then (between st).blacklist
        else st.blacklist) ∧
    (∀ env env' between event st imsi, IMSI.fromBcd event.data = .returned imsi →
      let handled := (handleUdpEvent cfg env env' between event ⟨st, []⟩).2
      (imsi.str ∈ st.blacklist →
        handled.store.sessions = st.sessions ∧ handled.store.blacklist = st.blacklist) ∧
      (imsi.str ∉ st.blacklist →
        handled.store.sessions.keys = insert imsi.str (between st).sessions.keys ∧
        ((text "rejected", event.clientAddr) ∈ replies handled.trace ↔
          event.responseCallback.isSome ∧ imsi.str ∉ (between st).sessions ∧
              (∃ what, cfg.Refuses ⟨imsi.str, .created, env'.wallClock imsi.str⟩ what) ∨
            RepliesFail event))) ∧
    ∀ clock tr (s : Manager ι) imsi, Run (Step cfg) (.initial cfg clock) tr s →
      imsi ∈ s.store.sessions →
        ∃ tr₁ i env tr₂ u v, tr = tr₁ ++ .thread i env :: tr₂ ∧
          Run (Step cfg) (.initial cfg clock) tr₁ u ∧
          u.threads i = .checked imsi ∧ imsi ∉ u.store.sessions ∧ Step cfg u (.thread i env) v ∧
          v.store.events = u.store.events ++ delivered cfg ⟨imsi, .created, env.wallClock imsi⟩ ∧
          Run (only (Step cfg) fun w _ => imsi ∈ w.store.sessions) v tr₂ s := by
  refine ⟨fun _ _ _ _ _ _ _ => createSession_raised, blacklist_createSession, ?_, ?_⟩
  · intro env env' between event st imsi hdecoded
    exact ⟨store_of_blacklisted hdecoded, rejected_iff env env' between hdecoded⟩
  · intro clock tr s imsi hrun hmem
    exact creation_of_mem_sessions hrun Finmap.notMem_empty hmem

/-! A callback that refuses every creation. -/

private def refuseCreations : SessionEventCallback := fun event =>
  if event.action = .created then some "no space left" else none

private def refusing : Config := { sample with eventCallback := some refuseCreations }

private def refused : Handling :=
  (handleUdpEvent refusing (after 0 []) (after 0 []) id (datagram [0x21, 0xF3])
    ⟨refusing.initial 0, []⟩).2

theorem create_session_failure_refused :
    refused.store.sessions.keys = insert (text "123") (refusing.initial 0).sessions.keys ∧
      (text "rejected", (datagram []).clientAddr) ∈ replies refused.trace := by
  have hdecoded : IMSI.fromBcd (datagram [0x21, 0xF3]).data =
      .returned ⟨text "123", by decide +kernel⟩ := by decide +kernel
  have hfacts := ((create_session_failure Caller refusing).2.2.1 (after 0 []) (after 0 []) id
    (datagram [0x21, 0xF3]) (refusing.initial 0) _ hdecoded).2 (by decide +kernel)
  have hrefuses : refusing.Refuses ⟨text "123", .created, 0⟩ "no space left" :=
    ⟨refuseCreations, rfl, by decide +kernel⟩
  have haddr : (datagram []).clientAddr = (datagram [0x21, 0xF3]).clientAddr := rfl
  rw [haddr]
  -- The handler runs on a concrete datagram; without the name it would be evaluated.
  unfold refused
  generalize (handleUdpEvent refusing (after 0 []) (after 0 []) id (datagram [0x21, 0xF3])
    ⟨refusing.initial 0, []⟩).2 = handled at hfacts ⊢
  obtain ⟨hkeys, hreplies⟩ := hfacts
  constructor
  · exact hkeys
  · exact hreplies.mpr (Or.inl ⟨rfl, by decide +kernel, "no space left", hrefuses⟩)

/-- The call raises and its session stays; the datagram is answered `rejected`, the
next one `created`, and no event of the subscriber is ever delivered. -/
theorem created_though_rejected :
    (createSession refusing (after 0 []) (after 0 []) id (text "123")
        ⟨refusing.initial 0, []⟩).1 = .raised "no space left" ∧
      text "123" ∉ (refusing.initial 0).sessions ∧ text "123" ∈ refused.store.sessions ∧
      replies refused.trace = [(text "rejected", (datagram []).clientAddr)] ∧
      replies (handleUdpEvent refusing (after 0 []) (after 0 []) id (datagram [0x21, 0xF3])
        ⟨refused.store, []⟩).2.trace = [(text "created", (datagram []).clientAddr)] ∧
      refused.store.events = [] := by
  decide +kernel

end Pgw.EventDispatcher
