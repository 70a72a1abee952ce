import Pgw.Imsi.Codec
import Pgw.Session.CreateSession

/-!
# Answering a datagram

`handleUdpEvent` decodes the payload, creates the session and sends the reply, in
a `try` block whose handler sends `rejected`. The decoder is `noexcept`: what its
constructor raises ends the process at that boundary and never reaches the
handler. For the payloads that do decode, reply, table and events agree.

The trace of a call lists its own events and replies in order; what the other
threads do between the two sections of `create_session` is a function on the
store.
-/
namespace Pgw.EventDispatcher
open SessionManager Completion

/-! ## Data -/

/-- The members of `sockaddr_in` that tell one client from another. -/
structure SockaddrIn where
  sinFamily : UInt16
  sinPort : UInt16
  sinAddr : UInt32
  deriving DecidableEq, Repr

/-- The callback returns, or raises with a text. -/
abbrev ResponseCallback := StdString → SockaddrIn → Option String

structure UdpEvent where
  data : List UInt8
  clientAddr : SockaddrIn
  responseCallback : Option ResponseCallback

/-- There is a response callback and it never raises. -/
def UdpEvent.Answers (event : UdpEvent) : Prop :=
  ∃ callback, event.responseCallback = some callback ∧
    ∀ response addr, callback response addr = none

/-- What a call is seen to do. -/
inductive Action where
  | emitted (event : SessionEvent)
  | responded (response : StdString) (addr : SockaddrIn)
  deriving DecidableEq, Repr

/-- The store as the handler meets it, and what the handler has done. -/
structure Handling where
  store : Store
  trace : List Action

/-! ## The handler -/

/-- The `switch` on the result. -/
def responseTo : CreateResult → StdString
  | .created => text "created"
  | .alreadyExists => text "created"
  | .blacklisted => text "rejected"

/-- `event.response_callback(response, event.client_addr)`, if there is one. -/
def respond (event : UdpEvent) (response : StdString) (call : Handling) :
    Completion Unit × Handling :=
  match event.responseCallback with
  | some callback =>
      let call := { call with trace := call.trace ++ [.responded response event.clientAddr] }
      match callback response event.clientAddr with
      | none => (.returned (), call)
      | some what => (.raised what, call)
  | none => (.returned (), call)

/-- `session_manager_->create_session(imsi)`, with its events on the trace. -/
def callCreateSession (cfg : Config) (env env' : Ambient) (between : Store → Store)
    (imsi : StdString) (call : Handling) : Completion CreateResult × Handling :=
  let (result, after) := createSession cfg env env' between imsi ⟨call.store, []⟩
  (result, ⟨after.store, call.trace ++ after.emitted.map .emitted⟩)

def handleUdpEvent (cfg : Config) (env env' : Ambient) (between : Store → Store)
    (event : UdpEvent) (call : Handling) : Completion Unit × Handling :=
  recover
    (andThen (IMSI.fromBcd event.data, call) fun imsi call =>
      andThen (callCreateSession cfg env env' between imsi.str call) fun result call =>
        respond event (responseTo result) call)
    fun _ call => respond event (text "rejected") call

/-! ## Replies -/

/-- The replies on a trace, in order. -/
def replies (trace : List Action) : List (StdString × SockaddrIn) :=
  trace.filterMap fun
    | .responded response addr => some (response, addr)
    | .emitted _ => none

@[simp] theorem replies_emitted_append (events : List SessionEvent) (response : StdString)
    (addr : SockaddrIn) :
    replies (events.map .emitted ++ [.responded response addr]) = [(response, addr)] := by
  simp [replies, List.filterMap_append, List.filterMap_map]

theorem responseTo_mem (result : CreateResult) :
    responseTo result ∈ [text "created", text "rejected"] := by
  cases result <;> simp [responseTo]

theorem UdpEvent.Answers.respond {event : UdpEvent} (h : event.Answers) (response : StdString)
    (call : Handling) :
    respond event response call =
      (.returned (), { call with
        trace := call.trace ++ [.responded response event.clientAddr] }) := by
  obtain ⟨callback, hcallback, hquiet⟩ := h
  simp [EventDispatcher.respond, hcallback, hquiet]

section Handler
variable {cfg : Config} {event : UdpEvent} (env env' : Ambient) (between : Store → Store)

/-- A payload that does not decode ends the process before anything is touched. -/
theorem handleUdpEvent_terminated (call : Handling) (h : ¬ IMSI.Decodable event.data) :
    handleUdpEvent cfg env env' between event call = (.terminated, call) := by
  rw [handleUdpEvent, IMSI.fromBcd_terminated h, andThen_terminated, recover_terminated]

/-- A payload that decodes is answered with the result of the call. -/
theorem handleUdpEvent_decoded (hanswers : event.Answers) {st : Store} {imsi : IMSI}
    (hdecoded : IMSI.fromBcd event.data = .returned imsi) {result : CreateResult}
    {after : CallState}
    (hresult : createSession cfg env env' between imsi.str ⟨st, []⟩ = (.returned result, after)) :
    handleUdpEvent cfg env env' between event ⟨st, []⟩ =
      (.returned (), ⟨after.store, after.emitted.map .emitted ++
        [.responded (responseTo result) event.clientAddr]⟩) := by
  rw [handleUdpEvent, hdecoded, andThen_returned, callCreateSession, hresult]
  simp [hanswers.respond]

/-! ## Every payload -/

/-- What every datagram may expect: the handler returns, it replies once, and a
payload that does not decode is rejected and changes nothing. -/
def AnswersOnce (cfg : Config) (env env' : Ambient) (between : Store → Store) (event : UdpEvent)
    (st : Store) : Prop :=
  let handled := handleUdpEvent cfg env env' between event ⟨st, []⟩
  handled.1 = .returned () ∧
    (∃ response ∈ [text "created", text "rejected"],
      replies handled.2.trace = [(response, event.clientAddr)]) ∧
    ((∀ imsi, IMSI.fromBcd event.data ≠ .returned imsi) →
      replies handled.2.trace = [(text "rejected", event.clientAddr)] ∧
        handled.2.store.sessions = st.sessions ∧ handled.2.store.blacklist = st.blacklist)

/-- **The handler answers exactly the payloads that decode**, in every state and
whatever the other threads do in between. -/
theorem answersOnce_iff (hquiet : cfg.Quiet) (hanswers : event.Answers) (st : Store) :
    AnswersOnce cfg env env' between event st ↔ IMSI.Decodable event.data := by
  constructor
  · rintro ⟨hreturned, _⟩
    by_contra hbad
    rw [handleUdpEvent_terminated env env' between _ hbad] at hreturned
    cases hreturned
  · intro hdecodable
    obtain ⟨imsi, hdecoded⟩ := IMSI.fromBcd_of_decodable hdecodable
    obtain ⟨result, after, hresult⟩ := createSession_returned env env' between imsi st hquiet
    have hhandled := handleUdpEvent_decoded env env' between hanswers hdecoded hresult
    rw [AnswersOnce, hhandled]
    refine ⟨rfl, ⟨responseTo result, responseTo_mem result, by simp⟩, ?_⟩
    intro hbad
    exact absurd hdecoded (hbad imsi)

end Handler

/-- A datagram whose replies go through. -/
def datagram (data : List UInt8) : UdpEvent where
  data := data
  clientAddr := ⟨2, 9000, 2130706433⟩
  responseCallback := some fun _ _ => none

theorem datagram_answers (data : List UInt8) : (datagram data).Answers := ⟨_, rfl, fun _ _ => rfl⟩

theorem answersOnce_iff_decodable : AnswersOnce sample (after 0 []) (after 0 []) id
    (datagram [0x21, 0xF3]) (sample.initial 0) :=
  (answersOnce_iff _ _ _ sample_delivers.quiet (datagram_answers _) _).mpr (by decide +kernel)

/-- The empty payload reaches the constructor as the empty string. -/
theorem answersOnce_empty :
    (handleUdpEvent sample (after 0 []) (after 0 []) id (datagram [])
        ⟨sample.initial 0, []⟩).1 = .terminated ∧
      ¬ AnswersOnce sample (after 0 []) (after 0 []) id (datagram []) (sample.initial 0) := by
  have hbad : ¬ IMSI.Decodable (datagram []).data := by decide +kernel
  have hterminated : handleUdpEvent sample (after 0 []) (after 0 []) id (datagram [])
      ⟨sample.initial 0, []⟩ = (.terminated, ⟨sample.initial 0, []⟩) :=
    handleUdpEvent_terminated _ _ _ _ hbad
  constructor
  · rw [hterminated]
  · rintro ⟨hreturned, _⟩
    rw [hterminated] at hreturned
    cases hreturned

section Decodable
variable {cfg : Config} {event : UdpEvent} (env env' : Ambient) (between : Store → Store)

/-! ## Payloads that decode -/

/-- **Reply, table and events agree.** A subscriber on the blacklist is rejected,
with one event and the table as it was. Any other is answered `created`; the
table section leaves its session active at a reading of that section and the
rest alone, and an event precedes the reply exactly when the session is new. -/
theorem handleUdpEvent_agrees (hcfg : cfg.Delivers) (hanswers : event.Answers) (st : Store)
    {imsi : IMSI} (hdecoded : IMSI.fromBcd event.data = .returned imsi) :
    ∃ after trace, handleUdpEvent cfg env env' between event ⟨st, []⟩ =
        (.returned (), ⟨after, trace⟩) ∧
      (replies trace = [(text "rejected", event.clientAddr)] ↔ imsi.str ∈ st.blacklist) ∧
      (imsi.str ∈ st.blacklist → after.sessions = st.sessions ∧
        trace = [.emitted ⟨imsi.str, .rejected, env.wallClock imsi.str⟩,
          .responded (text "rejected") event.clientAddr]) ∧
      (imsi.str ∉ st.blacklist →
        (∃ session, after.sessions.lookup imsi.str = some session ∧
          session.lastActivity = after.clock ∧ (between st).clock ≤ after.clock) ∧
        (∀ other, other ≠ imsi.str →
          after.sessions.lookup other = (between st).sessions.lookup other) ∧
        trace = (if imsi.str ∈ (between st).sessions then []
          else [.emitted ⟨imsi.str, .created, env'.wallClock imsi.str⟩]) ++
            [.responded (text "created") event.clientAddr]) := by
  by_cases hbanned : imsi.str ∈ st.blacklist
  · have hcall := createSession_blacklisted env env' between imsi hcfg hbanned
    refine ⟨_, _, handleUdpEvent_decoded env env' between hanswers hdecoded hcall, ?_, ?_, ?_⟩
    · rw [replies_emitted_append]
      exact iff_of_true rfl hbanned
    · intro _
      exact ⟨rfl, rfl⟩
    · intro hfree
      exact absurd hbanned hfree
  · have hdiffer :
        [(text "created", event.clientAddr)] ≠ [(text "rejected", event.clientAddr)] := by
      intro heq
      rw [List.cons.injEq, Prod.mk.injEq] at heq
      exact absurd heq.1.1 (by decide)
    cases hlookup : (between st).sessions.lookup imsi.str with
    | some session =>
        refine ⟨_, _, handleUdpEvent_decoded env env' between hanswers hdecoded
          (createSession_alreadyExists env env' between imsi hbanned hlookup), ?_, ?_, ?_⟩
        · rw [replies_emitted_append]
          exact iff_of_false hdiffer hbanned
        · intro hmem
          exact absurd hmem hbanned
        · intro _
          refine ⟨⟨_, Finmap.lookup_insert _, rfl, by simp⟩, ?_, ?_⟩
          · intro other hother
            exact Finmap.lookup_insert_of_ne _ hother
          · rw [if_pos (Finmap.mem_of_lookup_eq_some hlookup)]
            rfl
    | none =>
        have hcall := createSession_created env env' between imsi hcfg hbanned hlookup
        refine ⟨_, _, handleUdpEvent_decoded env env' between hanswers hdecoded hcall, ?_, ?_, ?_⟩
        · rw [replies_emitted_append]
          exact iff_of_false hdiffer hbanned
        · intro hmem
          exact absurd hmem hbanned
        · intro _
          refine ⟨⟨_, Finmap.lookup_insert _, rfl, ?_⟩, ?_, ?_⟩
          · change (between st).clock ≤ (between st).clock + env'.elapsed + env'.lag
            omega
          · intro other hother
            exact Finmap.lookup_insert_of_ne _ hother
          · rw [if_neg (Finmap.lookup_eq_none.mp hlookup)]
            rfl

end Decodable

/-- The first datagram of a subscriber creates its session, the event before the
reply. -/
theorem handleUdpEvent_agrees_first :
    ∃ after' trace, handleUdpEvent sample (after 0 []) (after 0 []) id (datagram [0x21, 0xF3])
        ⟨sample.initial 0, []⟩ = (.returned (), ⟨after', trace⟩) ∧
      trace = [.emitted ⟨text "123", .created, 0⟩,
        .responded (text "created") (datagram []).clientAddr] := by
  have hdecoded : IMSI.fromBcd (datagram [0x21, 0xF3]).data =
      .returned ⟨text "123", by decide +kernel⟩ := by decide +kernel
  obtain ⟨after', trace, hhandled, _, _, hcreated⟩ := handleUdpEvent_agrees (after 0 [])
    (after 0 []) id sample_delivers (datagram_answers [0x21, 0xF3]) (sample.initial 0) hdecoded
  exact ⟨after', trace, hhandled, (hcreated (by decide +kernel)).2.2⟩

end Pgw.EventDispatcher
