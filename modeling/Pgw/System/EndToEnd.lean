import Mathlib.Data.List.Forall2
import Pgw.Client.Matching
import Pgw.Dispatcher.Answers
import Pgw.Dispatcher.Survival
import Pgw.System.Deployment

/-!
# From the client's call to the subscriber's session and back

What a client reports as a success is what the server did. The text is the reply to a
request of this very client, and the reply is the text for what `create_session` came to
when a worker called it, in this run, for the subscriber whom the client had asked for
under that number, or for a full queue.

Neither end knows as much. The client cannot tell which of its requests a text answers,
and the server knows no clients; the two invariants meet at the addresses.

## Main results

* `success_is_served` — a reported success is an answer of the server to this client.
* `never_terminated` — no request of a client ends the server's process.
-/
namespace Pgw.System
open TransitionSystem Datagrams
open SessionManager (Config Ambient StartsAlone tableResult)
open EventDispatcher (SockaddrIn)
open UdpClient (World WorldLabel Request Packet ClientPc Outcome worldNext clientNext Accounted
  Attributed SameAddress WorldStep)
open UdpServer (Server ServerLabel ServerStep Datagram Answer Genuine Honest serverNext ioNext
  workerNext serverStep_cases Traced Computed Replies)

variable {γ ω κ : Type}

/-! ## The server's part -/

section Server
variable {s t : Server ω κ}

/-- The I/O thread answers at most once in a step. -/
theorem sent_of_ioNext {found : UdpServer.Finding} (h : ioNext found s = some t) :
    t.sent = s.sent ∨ ∃ a, t.sent = s.sent ++ [a] := by
  cases UdpServer.ioMoves_of_ioNext h with
  | refuse ticket _ => exact Or.inr ⟨_, rfl⟩
  | _ => exact Or.inl rfl

variable [Fintype ω] [DecidableEq ω] [Fintype κ] [DecidableEq κ] {cfg : Config}

/-- Neither does a worker more often, and nothing arrives there. -/
theorem sent_of_workerNext {i : ω} {k : ℕ} {env : Ambient}
    (h : workerNext cfg i k env s = some t) :
    (t.sent = s.sent ∨ ∃ a, t.sent = s.sent ++ [a]) ∧ t.arrived = s.arrived := by
  cases UdpServer.workerMoves_of_workerNext h with
  | respond response c v _ =>
      by_cases hcallback : (s.workers i).item.event.responseCallback.isSome
      · rw [if_pos hcallback]
        exact ⟨Or.inr ⟨_, rfl⟩, rfl⟩
      · rw [if_neg hcallback]
        exact ⟨Or.inl rfl, rfl⟩
  | _ => exact ⟨Or.inl rfl, rfl⟩

theorem sent_of_step {l : ServerLabel ω κ} (h : ServerStep cfg s l t) :
    t.sent = s.sent ∨ ∃ a, t.sent = s.sent ++ [a] := by
  rcases serverStep_cases h with ⟨found, hio⟩ | ⟨i, k, env, hworker⟩ | ⟨l, m, _, _, rfl⟩
  · exact sent_of_ioNext hio
  · exact (sent_of_workerNext hworker).1
  · exact Or.inl rfl

theorem arrived_of_step {l : ServerLabel ω κ} (hl : ∀ d, l ≠ .io (.datagram d))
    (h : ServerStep cfg s l t) : t.arrived = s.arrived := by
  cases l with
  | io found =>
      rcases UdpServer.arrived_of_ioNext (UdpServer.serverStep_io.mp h).2 with
        hsame | ⟨d, rfl, _⟩
      · exact hsame
      · exact absurd rfl (hl d)
  | worker i k env => exact (sent_of_workerNext (UdpServer.serverStep_worker.mp h).2).2
  | manager l =>
      obtain ⟨_, m, _, rfl⟩ := UdpServer.serverStep_manager.mp h
      rfl

/-- A datagram that is read arrives. -/
theorem step_of_receive {d : Datagram} (h : receive cfg d s = some t) :
    ServerStep cfg s (.io (.datagram d)) t ∧ t.arrived = s.arrived ++ [d] ∧ t.sent = s.sent := by
  rw [receive] at h
  split at h
  · rename_i hpc
    have hio := (UdpServer.serverStep_io.mp h).2
    simp only [ioNext, hpc, Option.some.injEq] at hio
    rw [← hio] at h ⊢
    exact ⟨h, rfl, rfl⟩
  · cases h

/-- No datagram is answered twice. -/
theorem nodup_sent (h : UdpServer.Reaches cfg s) : (s.sent.map Answer.ticket).Nodup :=
  Multiset.coe_nodup.mp
    (Custody.nodup_held ((UdpServer.refines_custody cfg).reachable h) .answered)

end Server

/-! ## The client's part -/

section Client
variable {s t : World}

/-- A payload that a client has sent or is about to send is a subscriber's. -/
def Encodes (payload : List UInt8) : Prop := ∃ imsi : IMSI, imsi.toBcd = some payload

theorem mem_sentPayload {pc : ClientPc} {outcome : Outcome} {bcd : List UInt8}
    (h : bcd ∈ sentPayload pc outcome) : pc = .send bcd ∧ outcome = .done := by
  unfold sentPayload at h
  split at h
  · rw [List.mem_singleton.mp h]
    exact ⟨rfl, rfl⟩
  · cases h

/-- What the client's own steps do to its requests. -/
theorem requests_of_clientNext {outcome : Outcome} {elapsed : ℕ}
    (h : clientNext outcome elapsed s = some t) :
    t.requests = s.requests ++
        (sentPayload s.client outcome).map (fun bcd => ⟨s.sent, bcd⟩) ∧
      t.sent = s.sent + (sentPayload s.client outcome).length ∧ t.replied = s.replied ∧
      ∀ bcd, t.client = .send bcd → Encodes bcd := by
  cases hpc : s.client with
  | idle => simp [clientNext, hpc] at h
  | construct imsi =>
      simp only [clientNext, hpc] at h
      split at h
      · rename_i imsi' _
        obtain ⟨bcd, hbcd, rfl⟩ := Option.map_eq_some_iff.mp h
        refine ⟨by simp [sentPayload], by simp [sentPayload], rfl, fun bcd' heq => ?_⟩
        cases heq
        exact ⟨imsi', hbcd⟩
      · cases h
        exact ⟨by simp [sentPayload, World.leave], by simp [sentPayload, World.leave], rfl,
          fun bcd heq => by cases heq⟩
      · cases h
  | send bcd =>
      cases outcome <;> simp only [clientNext, hpc, Option.some.injEq, reduceCtorEq] at h
      all_goals
        rw [← h]
        exact ⟨by simp [sentPayload, World.leave], by simp [sentPayload, World.leave], rfl,
          fun bcd heq => by cases heq⟩
  | select sending =>
      cases outcome <;> simp only [clientNext, hpc, Option.some.injEq, reduceCtorEq] at h
      all_goals (try split at h) <;> cases h
      all_goals
        exact ⟨by simp [sentPayload, World.leave], by simp [sentPayload, World.leave], rfl,
          fun bcd heq => by cases heq⟩
  | recvfrom sending =>
      cases outcome <;> simp only [clientNext, hpc, Option.some.injEq, reduceCtorEq] at h
      all_goals (try split at h) <;> cases h
      all_goals
        exact ⟨by simp [sentPayload, World.leave], by simp [sentPayload, World.leave], rfl,
          fun bcd heq => by cases heq⟩

/-- What else happens on a client's side leaves no new request and no new reply. -/
theorem requests_of_worldNext {serverAddr : SockaddrIn} {l : WorldLabel}
    (hclient : ∀ outcome elapsed, l ≠ .client outcome elapsed)
    (hserver : ∀ k response, l ≠ .server k response) (h : worldNext serverAddr l s = some t) :
    t.requests ⊆ s.requests ∧ t.sent = s.sent ∧ t.replied = s.replied ∧
      ∀ bcd, t.client = .send bcd → s.client = .send bcd := by
  cases l with
  | client outcome elapsed => exact absurd rfl (hclient outcome elapsed)
  | server k response => exact absurd rfl (hserver k response)
  | call imsi =>
      rw [worldNext] at h
      split at h <;> cases h
      exact ⟨List.Subset.refl _, rfl, rfl, fun bcd heq => by cases heq⟩
  | loseRequest fault =>
      cases h
      exact ⟨fault.apply_subset _, rfl, rfl, fun _ heq => heq⟩
  | loseReply fault =>
      cases h
      exact ⟨List.Subset.refl _, rfl, rfl, fun _ heq => heq⟩
  | deliver k =>
      obtain ⟨⟨packet, replies⟩, _, rfl⟩ := Option.map_eq_some_iff.mp h
      exact ⟨List.Subset.refl _, rfl, rfl, fun _ heq => heq⟩
  | foreign payload source =>
      rw [worldNext] at h
      split at h <;> cases h
      exact ⟨List.Subset.refl _, rfl, rfl, fun _ heq => heq⟩

/-- Requests that are elsewhere do not matter to that. -/
theorem accounted_of_worldNext {serverAddr : SockaddrIn} {l : WorldLabel} {front : List Request}
    (hclient : ∀ outcome elapsed, l ≠ .client outcome elapsed)
    (hserver : ∀ k response, l ≠ .server k response) (h : worldNext serverAddr l s = some t)
    (hs : Accounted serverAddr { s with requests := front ++ s.requests }) :
    Accounted serverAddr { t with requests := front ++ t.requests } := by
  cases l with
  | client outcome elapsed => exact absurd rfl (hclient outcome elapsed)
  | server k response => exact absurd rfl (hserver k response)
  | call imsi =>
      refine hs.step (l := .call imsi) ?_
      rw [worldNext] at h
      split at h <;> cases h
      rename_i hidle
      exact if_pos hidle
  | loseRequest fault =>
      cases h
      refine hs.requests fun request hmem => ?_
      rcases List.mem_append.mp hmem with hfront | hrest
      · exact List.mem_append_left _ hfront
      · exact List.mem_append_right _ (fault.apply_subset _ hrest)
  | loseReply fault =>
      cases h
      exact hs.step (l := .loseReply fault) rfl
  | deliver k =>
      refine hs.step (l := .deliver k) ?_
      obtain ⟨delivered, hdeliver, rfl⟩ := Option.map_eq_some_iff.mp h
      exact Option.map_eq_some_iff.mpr ⟨delivered, hdeliver, rfl⟩
  | foreign payload source =>
      refine hs.step (l := .foreign payload source) ?_
      rw [worldNext] at h
      split at h <;> cases h
      rename_i hother
      exact if_neg hother

/-- The log has the payload of every request that is under way, and nothing else than
subscribers. -/
structure Logged (asked : List (List UInt8)) (w : World) : Prop where
  counted : asked.length = w.sent
  numbered : ∀ request ∈ w.requests, asked[request.number]? = some request.payload
  encoded : ∀ payload ∈ asked, Encodes payload
  sending : ∀ bcd, w.client = .send bcd → Encodes bcd

/-- What a client sends is logged under its number. -/
theorem Logged.client {asked : List (List UInt8)} (hs : Logged asked s) {outcome : Outcome}
    {elapsed : ℕ} (h : clientNext outcome elapsed s = some t) :
    Logged (asked ++ sentPayload s.client outcome) t := by
  obtain ⟨hrequests, hsent, _, hsending⟩ := requests_of_clientNext h
  have hpayload : ∀ bcd ∈ sentPayload s.client outcome,
      sentPayload s.client outcome = [bcd] ∧ Encodes bcd := by
    intro bcd hmem
    obtain ⟨hclient, houtcome⟩ := mem_sentPayload hmem
    rw [hclient, houtcome]
    exact ⟨rfl, hs.sending bcd hclient⟩
  constructor
  · rw [List.length_append, hs.counted, hsent]
  · intro request hmem
    rw [hrequests] at hmem
    rcases List.mem_append.mp hmem with hold | hnew
    · have hlog := hs.numbered request hold
      rw [List.getElem?_append_left (List.getElem?_eq_some_iff.mp hlog).1, hlog]
    · obtain ⟨bcd, hbcd, rfl⟩ := List.mem_map.mp hnew
      rw [(hpayload bcd hbcd).1, ← hs.counted, List.getElem?_concat_length]
  · intro payload hmem
    rcases List.mem_append.mp hmem with hold | hnew
    · exact hs.encoded payload hold
    · exact (hpayload payload hnew).2
  · exact hsending

theorem Logged.shrink {asked : List (List UInt8)} (hs : Logged asked s) (hsent : t.sent = s.sent)
    (hrequests : t.requests ⊆ s.requests)
    (hclient : ∀ bcd, t.client = .send bcd → s.client = .send bcd) : Logged asked t where
  counted := hs.counted.trans hsent.symm
  numbered request hmem := hs.numbered request (hrequests hmem)
  encoded := hs.encoded
  sending bcd h := hs.sending bcd (hclient bcd h)

end Client

/-! ## Requests at the server -/

section Received
variable [DecidableEq γ] {d d' : Deployment γ ω κ} {c : γ} {request : Request}

/-- A request is at the server when its datagram has no answer yet. -/
theorem mem_received : request ∈ d.received c ↔
    ∃ ticket, d.origins[ticket]? = some (some (c, request)) ∧
      ticket ∉ d.server.sent.map Answer.ticket := by
  rw [Deployment.received, List.mem_filterMap]
  constructor
  · rintro ⟨⟨origin, ticket⟩, hmem, horigin⟩
    rw [List.mk_mem_zipIdx_iff_getElem?] at hmem
    unfold requestOf at horigin
    split at horigin
    · rename_i heq
      split at horigin
      · rename_i hother
        cases heq
        cases horigin
        rw [hother.1] at hmem
        exact ⟨ticket, hmem, hother.2⟩
      · cases horigin
    · cases horigin
  · rintro ⟨ticket, horigin, hunanswered⟩
    refine ⟨(some (c, request), ticket), List.mk_mem_zipIdx_iff_getElem?.mpr horigin, ?_⟩
    exact if_pos ⟨rfl, hunanswered⟩

/-- More answers, fewer requests at the server. -/
theorem received_subset (horigins : d'.origins = d.origins)
    (hsent : d.server.sent ⊆ d'.server.sent) : d'.received c ⊆ d.received c := by
  intro request hmem
  rw [mem_received] at hmem ⊢
  obtain ⟨ticket, horigin, hunanswered⟩ := hmem
  rw [horigins] at horigin
  exact ⟨ticket, horigin, fun hanswered => hunanswered (List.map_subset _ hsent hanswered)⟩

/-- An arrival is one request more, if it is a request of this client. -/
theorem received_of_arrival {origin : Option (γ × Request)}
    (horigins : d'.origins = d.origins ++ [origin]) (hsent : d'.server.sent = d.server.sent)
    (hmem : request ∈ d'.received c) : request ∈ d.received c ∨ origin = some (c, request) := by
  rw [mem_received] at hmem ⊢
  obtain ⟨ticket, horigin, hunanswered⟩ := hmem
  rw [horigins] at horigin
  rw [hsent] at hunanswered
  rcases Nat.lt_trichotomy ticket d.origins.length with hlt | heq | hgt
  · rw [List.getElem?_append_left hlt] at horigin
    exact Or.inl ⟨ticket, horigin, hunanswered⟩
  · subst heq
    rw [List.getElem?_concat_length, Option.some.injEq] at horigin
    exact Or.inr horigin
  · rw [List.getElem?_eq_none (by simp; omega)] at horigin
    cases horigin

theorem numberOf_of_origin {ticket : ℕ} (h : d.origins[ticket]? = some (some (c, request))) :
    d.numberOf c ticket = some request.number := by
  simp [Deployment.numberOf, h]

end Received

/-! ## What the deployment keeps -/

theorem forall₂_getElem? {α β : Type} {R : α → β → Prop} {l : List α} {l' : List β}
    (h : List.Forall₂ R l l') {n : ℕ} {b : β} (hb : l'[n]? = some b) :
    ∃ a, l[n]? = some a ∧ R a b := by
  induction h generalizing n with
  | nil => cases hb
  | @cons a b' l l' hab _ ih =>
      cases n with
      | zero =>
          cases hb
          exact ⟨a, rfl, hab⟩
      | succ n => exact ih hb

/-- The datagram behind an origin: the request with its sender's address, or a datagram
from elsewhere. -/
def ComesFrom (addrs : Addresses γ) : Option (γ × Request) → Datagram → Prop
  | some (c, request), datagram => datagram = ⟨request.payload, addrs.client c⟩
  | none, datagram => ∀ c, datagram.source ≠ addrs.client c

/-- A reply that a client's log has is an answer of the server to that request. -/
def Answers (d : Deployment γ ω κ) (c : γ) (entry : ℕ × StdString) : Prop :=
  ∃ a ∈ d.server.sent, a.response = entry.2 ∧
    ∃ payload, d.origins[a.ticket]? = some (some (c, ⟨entry.1, payload⟩))

structure Faithful [DecidableEq γ] [Fintype ω] [DecidableEq ω] [Fintype κ] [DecidableEq κ]
    (cfg : Config) (addrs : Addresses γ) (d : Deployment γ ω κ) : Prop where
  server : UdpServer.Reaches cfg d.server
  origins : List.Forall₂ (ComesFrom addrs) d.origins d.server.arrived
  kept : ∀ c request, some (c, request) ∈ d.origins →
    (d.asked c)[request.number]? = some request.payload
  logged : ∀ c, Logged (d.asked c) (d.links c)
  replied : ∀ c, ∀ entry ∈ (d.links c).replied, Answers d c entry
  accounted : ∀ c, Accounted addrs.server (d.world c)

namespace Faithful
variable [DecidableEq γ] [Fintype ω] [DecidableEq ω] [Fintype κ] [DecidableEq κ] {cfg : Config}
  {addrs : Addresses γ} {d d' : Deployment γ ω κ}

theorem initial (clock : ℤ) :
    Faithful cfg addrs (Deployment.initial cfg clock : Deployment γ ω κ) where
  server := ⟨_, [], ⟨clock, rfl⟩, .nil _⟩
  origins := .nil
  kept c request hmem := absurd hmem List.not_mem_nil
  logged c := by
    refine ⟨rfl, fun request hmem => absurd hmem List.not_mem_nil,
      fun payload hmem => absurd hmem List.not_mem_nil, fun bcd heq => ?_⟩
    cases heq
  replied c entry hmem := absurd hmem List.not_mem_nil
  accounted c := UdpClient.accounted_of_reaches ⟨_, [], rfl, .nil _⟩

/-- Only one client's side moves. -/
theorem setLink (hs : Faithful cfg addrs d) {c : γ} {w : World} {more : List (List UInt8)}
    (hlogged : Logged (d.asked c ++ more) w) (hreplied : w.replied = (d.links c).replied)
    (haccounted : Accounted addrs.server { w with requests := d.received c ++ w.requests }) :
    Faithful cfg addrs (d.setLink c w (d.asked c ++ more)) := by
  constructor
  · exact hs.server
  · exact hs.origins
  · intro c' request hmem
    have hlog := hs.kept c' request hmem
    by_cases hc : c' = c
    · subst hc
      simp only [Deployment.setLink, Function.update_self]
      rw [List.getElem?_append_left (List.getElem?_eq_some_iff.mp hlog).1, hlog]
    · simpa [Deployment.setLink, hc] using hlog
  · intro c'
    by_cases hc : c' = c
    · subst hc
      simpa [Deployment.setLink] using hlogged
    · simpa [Deployment.setLink, hc] using hs.logged c'
  · intro c' entry hmem
    have hbefore : entry ∈ (d.links c').replied := by
      by_cases hc : c' = c
      · subst hc
        simpa [Deployment.setLink, hreplied] using hmem
      · simpa [Deployment.setLink, hc] using hmem
    exact hs.replied c' entry hbefore
  · intro c'
    by_cases hc : c' = c
    · subst hc
      simpa [Deployment.world, Deployment.setLink, Deployment.received] using haccounted
    · simpa [Deployment.world, Deployment.setLink, Deployment.received, hc] using hs.accounted c'

/-- The client sees the requests at the server as its own. -/
theorem logged_world (hs : Faithful cfg addrs d) (c : γ) :
    Logged (d.asked c) (d.world c) where
  counted := (hs.logged c).counted
  numbered request hmem := by
    rcases List.mem_append.mp hmem with hreceived | hunderWay
    · obtain ⟨ticket, horigin, _⟩ := mem_received.mp hreceived
      exact hs.kept c request (List.mem_of_getElem? horigin)
    · exact (hs.logged c).numbered request hunderWay
  encoded := (hs.logged c).encoded
  sending := (hs.logged c).sending

theorem link_client (hs : Faithful cfg addrs d) {c : γ} {outcome : Outcome} {elapsed : ℕ}
    {w : World} (h : clientNext outcome elapsed (d.world c) = some w) :
    Faithful cfg addrs (d.setLink c { w with requests := w.requests.drop (d.received c).length }
      (d.asked c ++ sentPayload (d.links c).client outcome)) := by
  obtain ⟨hrequests, _, hreplied, _⟩ := requests_of_clientNext h
  have hwhole : d.received c ++ w.requests.drop (d.received c).length = w.requests := by
    rw [hrequests, Deployment.world, List.append_assoc, List.drop_left]
  have hlogged := (hs.logged_world c).client h
  refine hs.setLink ?_ hreplied ?_
  · exact hlogged.shrink rfl (List.drop_subset _ _) fun _ heq => heq
  · rw [hwhole]
    exact (hs.accounted c).client h

theorem link (hs : Faithful cfg addrs d) {c : γ} {l : WorldLabel}
    (h : linkNext addrs c l d = some d') : Faithful cfg addrs d' := by
  by_cases hclient : ∃ outcome elapsed, l = .client outcome elapsed
  · obtain ⟨outcome, elapsed, rfl⟩ := hclient
    obtain ⟨w, hnext, rfl⟩ := Option.map_eq_some_iff.mp h
    exact hs.link_client hnext
  · have hclient' : ∀ outcome elapsed, l ≠ .client outcome elapsed :=
      fun outcome elapsed heq => hclient ⟨outcome, elapsed, heq⟩
    have hserver : ∀ k response, l ≠ .server k response := by
      rintro k response rfl
      cases h
    obtain ⟨w, hnext, rfl⟩ : ∃ w, worldNext addrs.server l (d.links c) = some w ∧
        d.setLink c w (d.asked c) = d' := by
      cases l <;>
        first | exact Option.map_eq_some_iff.mp h | exact absurd rfl (hclient' _ _) | cases h
    obtain ⟨hrequests, hsent, hreplied, hsending⟩ := requests_of_worldNext hclient' hserver hnext
    have hasked : d.asked c ++ [] = d.asked c := List.append_nil _
    rw [← hasked]
    refine hs.setLink ?_ hreplied (accounted_of_worldNext hclient' hserver hnext (hs.accounted c))
    rw [hasked]
    exact (hs.logged c).shrink hsent hrequests hsending

/-- A datagram is read. The request behind it, if it is a client's, was under way. -/
theorem arrival (hs : Faithful cfg addrs d) {datagram : Datagram} {server : Server ω κ}
    (origin : Option (γ × Request)) (requests : γ → List Request)
    (hreceive : receive cfg datagram d.server = some server)
    (hfrom : ComesFrom addrs origin datagram)
    (horigin : ∀ c request, origin = some (c, request) → request ∈ (d.links c).requests)
    (hrequests : ∀ c, requests c ⊆ (d.links c).requests) :
    Faithful cfg addrs { d with
      links := fun c => { d.links c with requests := requests c }
      server := server
      origins := d.origins ++ [origin] } := by
  obtain ⟨hstep, harrived, hsent⟩ := step_of_receive hreceive
  constructor
  · exact hs.server.tail hstep
  · rw [harrived]
    exact List.rel_append hs.origins (.cons hfrom .nil)
  · intro c request hmem
    rcases List.mem_append.mp hmem with hold | hnew
    · exact hs.kept c request hold
    · exact (hs.logged c).numbered request
        (horigin c request (List.mem_singleton.mp hnew).symm)
  · exact fun c => (hs.logged c).shrink rfl (hrequests c) fun _ heq => heq
  · intro c entry hmem
    obtain ⟨a, ha, hresponse, payload, hticket⟩ := hs.replied c entry hmem
    refine ⟨a, by rwa [hsent], hresponse, payload, ?_⟩
    rw [List.getElem?_append_left (List.getElem?_eq_some_iff.mp hticket).1, hticket]
  · intro c
    refine (hs.accounted c).requests fun request hmem => ?_
    rcases List.mem_append.mp hmem with hreceived | hunderWay
    · rcases received_of_arrival (d := d) rfl hsent hreceived with hold | hnew
      · exact List.mem_append_left _ hold
      · exact List.mem_append_right _ (horigin c request hnew)
    · exact List.mem_append_right _ (hrequests c hunderWay)

/-- The server moves and answers nothing. -/
theorem quiet (hs : Faithful cfg addrs d) {server : Server ω κ} {l : ServerLabel ω κ}
    (hstep : ServerStep cfg d.server l server) (harrived : server.arrived = d.server.arrived)
    (hsent : server.sent = d.server.sent) : Faithful cfg addrs { d with server := server } := by
  constructor
  · exact hs.server.tail hstep
  · rw [harrived]
    exact hs.origins
  · exact hs.kept
  · exact hs.logged
  · intro c entry hmem
    obtain ⟨a, ha, hrest⟩ := hs.replied c entry hmem
    exact ⟨a, by rwa [hsent], hrest⟩
  · intro c
    refine (hs.accounted c).requests fun request hmem => ?_
    rcases List.mem_append.mp hmem with hreceived | hunderWay
    · have hsubset : d.server.sent ⊆ server.sent := by rw [hsent]; exact List.Subset.refl _
      have hhere : Deployment.received { d with server := server } c ⊆ d.received c :=
        received_subset rfl hsubset
      exact List.mem_append_left _ (hhere hreceived)
    · exact List.mem_append_right _ hunderWay

/-- The datagram behind an answer for a client's address is a request of the client. -/
theorem origin_of_answer (hs : Faithful cfg addrs d) {a : Answer}
    (hhonest : Honest d.server.arrived a) {c : γ} (haddr : a.addr = addrs.client c) :
    ∃ request, d.origins[a.ticket]? = some (some (c, request)) := by
  obtain ⟨datagram, hdatagram, hsource, _⟩ := hhonest
  obtain ⟨origin, horigin, hfrom⟩ := forall₂_getElem? hs.origins hdatagram
  rw [haddr] at hsource
  cases origin with
  | none => exact absurd hsource.symm (hfrom c)
  | some sender =>
      obtain ⟨c', request⟩ := sender
      rw [show datagram = _ from hfrom] at hsource
      have hc : c' = c := addrs.distinct hsource.symm
      exact ⟨request, hc ▸ horigin⟩

omit [DecidableEq γ] in
/-- An answer not given before is the first to its ticket. -/
theorem fresh_of_answer {server : Server ω κ} (hreach : UdpServer.Reaches cfg server) {a : Answer}
    (hsent : server.sent = d.server.sent ++ [a]) : a.ticket ∉ d.server.sent.map Answer.ticket := by
  have hnodup := nodup_sent hreach
  rw [hsent, List.map_append, List.nodup_append] at hnodup
  exact fun hold => hnodup.2.2 a.ticket hold a.ticket (by simp) rfl

/-- The answer is noted for the client under the number of its request. -/
theorem replied_of_answer (hs : Faithful cfg addrs d) {server : Server ω κ} {a : Answer}
    (hhonest : Honest d.server.arrived a) (hsent : server.sent = d.server.sent ++ [a]) {c : γ}
    {entry : ℕ × StdString}
    (hentry : entry ∈ ((Deployment.post addrs { d with server := server } a).links c).replied) :
    Answers (Deployment.post addrs { d with server := server } a) c entry := by
  have hmem : a ∈ server.sent := by simp [hsent]
  have hsubset : d.server.sent ⊆ server.sent := by simp [hsent]
  have hold : entry ∈ (d.links c).replied →
      Answers (Deployment.post addrs { d with server := server } a) c entry := by
    intro hbefore
    obtain ⟨a', ha', hrest⟩ := hs.replied c entry hbefore
    exact ⟨a', hsubset ha', hrest⟩
  change entry ∈ (if a.addr = addrs.client c then _ else _ : World).replied at hentry
  split at hentry
  · rename_i haddr
    obtain ⟨request, horigin⟩ := hs.origin_of_answer hhonest haddr
    have hnumber := numberOf_of_origin horigin
    rcases List.mem_append.mp hentry with hbefore | hnew
    · exact hold hbefore
    · rw [show Deployment.numberOf { d with server := server } c a.ticket = _ from hnumber] at hnew
      rw [List.mem_singleton.mp hnew]
      exact ⟨a, hmem, rfl, request.payload, horigin⟩
  · exact hold hentry

/-- The answer takes the request's place among what the client may still hear. -/
theorem accounted_of_answer (hs : Faithful cfg addrs d) {server : Server ω κ} {a : Answer}
    (hhonest : Honest d.server.arrived a) (hsent : server.sent = d.server.sent ++ [a])
    (hfresh : a.ticket ∉ d.server.sent.map Answer.ticket) (c : γ) :
    Accounted addrs.server ((Deployment.post addrs { d with server := server } a).world c) := by
  have hreceived : Deployment.received (Deployment.post addrs { d with server := server } a) c
      ⊆ d.received c := received_subset rfl (hsent ▸ List.subset_append_left _ _)
  have hrequests : Deployment.received (Deployment.post addrs { d with server := server } a) c ++
      (d.links c).requests ⊆ (d.world c).requests := by
    intro request hrequest
    rcases List.mem_append.mp hrequest with hleft | hunderWay
    · exact List.mem_append_left _ (hreceived hleft)
    · exact List.mem_append_right _ hunderWay
  by_cases haddr : a.addr = addrs.client c
  · obtain ⟨request, horigin⟩ := hs.origin_of_answer hhonest haddr
    have hnumber := numberOf_of_origin horigin
    have hrequest : request ∈ (d.world c).requests :=
      List.mem_append_left _ (mem_received.mpr ⟨a.ticket, horigin, hfresh⟩)
    have hlogged := (hs.accounted c).log (request.number, a.response)
    have hattributed : Attributed addrs.server
        ((d.world c).replied ++ [(request.number, a.response)])
        ⟨a.response, addrs.server, some request.number⟩ :=
      List.mem_append_right _ (List.mem_singleton_self _)
    have hreply := hlogged.setOut hattributed fun j hj => by
      rw [← Option.some.inj hj]
      exact UdpClient.mem_pending.mpr (Or.inl ⟨request, hrequest, rfl⟩)
    have haccounted := hreply.requests hrequests
    rw [Deployment.world]
    simp only [Deployment.post, if_pos haddr]
    rw [show Deployment.numberOf { d with server := server } c a.ticket = _ from hnumber]
    exact haccounted
  · have haccounted := (hs.accounted c).requests hrequests
    rw [Deployment.world]
    simp only [Deployment.post, if_neg haddr]
    exact haccounted

/-- **The server answers.** The answer sets out for the client whose request it was, and
that client could not have had an answer to it before. -/
theorem answer (hs : Faithful cfg addrs d) {server : Server ω κ} {l : ServerLabel ω κ}
    (hstep : ServerStep cfg d.server l server) (harrived : server.arrived = d.server.arrived)
    {a : Answer} (hsent : server.sent = d.server.sent ++ [a]) :
    Faithful cfg addrs (Deployment.post addrs { d with server := server } a) := by
  have hreach : UdpServer.Reaches cfg server := hs.server.tail hstep
  have hhonest : Honest d.server.arrived a := by
    rw [← harrived]
    exact (UdpServer.genuine_of_reaches hreach).sent a (by simp [hsent])
  constructor
  · exact hreach
  · change List.Forall₂ _ d.origins server.arrived
    rw [harrived]
    exact hs.origins
  · exact hs.kept
  · intro c
    change Logged (d.asked c) (if a.addr = addrs.client c then _ else _)
    split
    · exact (hs.logged c).shrink rfl (List.Subset.refl _) fun _ heq => heq
    · exact hs.logged c
  · exact fun c entry hentry => hs.replied_of_answer hhonest hsent hentry
  · exact hs.accounted_of_answer hhonest hsent (fresh_of_answer hreach hsent)

theorem server_step (hs : Faithful cfg addrs d) {server : Server ω κ} {l : ServerLabel ω κ}
    (hl : ∀ datagram, l ≠ .io (.datagram datagram)) (hstep : ServerStep cfg d.server l server) :
    Faithful cfg addrs ((server.sent.drop d.server.sent.length).foldl (Deployment.post addrs)
      { d with server := server }) := by
  have harrived := arrived_of_step hl hstep
  rcases sent_of_step hstep with hsent | ⟨a, hsent⟩
  · rw [hsent, List.drop_length]
    exact hs.quiet hstep harrived hsent
  · rw [hsent, List.drop_left]
    exact hs.answer hstep harrived hsent

variable [Fintype γ]

theorem step (hs : Faithful cfg addrs d) {l : DeploymentLabel γ ω κ}
    (h : DeploymentStep cfg addrs d l d') : Faithful cfg addrs d' := by
  rw [DeploymentStep] at h
  cases l with
  | link c l => exact hs.link h
  | arrive c k =>
      obtain ⟨⟨request, rest⟩, hdeliver, hrest⟩ := Option.bind_eq_some_iff.mp h
      obtain ⟨server, hreceive, rfl⟩ := Option.map_eq_some_iff.mp hrest
      obtain ⟨hmem, hsubset⟩ := subset_of_deliver hdeliver
      have harrived := hs.arrival (some (c, request))
        (Function.update (fun c => (d.links c).requests) c rest) hreceive rfl ?_ ?_
      · have hlinks : Function.update d.links c { d.links c with requests := rest } = fun c' =>
            { d.links c' with
              requests := Function.update (fun c => (d.links c).requests) c rest c' } := by
          funext c'
          by_cases hc : c' = c
          · subst hc
            simp
          · simp [hc]
        rw [← hlinks] at harrived
        rw [Deployment.setLink, Function.update_eq_self]
        exact harrived
      · rintro c' request' ⟨⟩
        exact hmem
      · intro c'
        by_cases hc : c' = c
        · subst hc
          simpa using hsubset
        · simp [hc]
  | stranger datagram =>
      rw [deploymentNext] at h
      split at h
      · cases h
      · rename_i hstranger
        obtain ⟨server, hreceive, rfl⟩ := Option.map_eq_some_iff.mp h
        refine hs.arrival none (fun c => (d.links c).requests) hreceive
          (fun c heq => hstranger ⟨c, heq.symm⟩) ?_ fun c => List.Subset.refl _
        rintro c request ⟨⟩
  | server l =>
      by_cases hl : ∃ datagram, l = .io (.datagram datagram)
      · obtain ⟨datagram, rfl⟩ := hl
        cases h
      · have hl' : ∀ datagram, l ≠ .io (.datagram datagram) := fun datagram heq =>
          hl ⟨datagram, heq⟩
        obtain ⟨server, hstep, rfl⟩ : ∃ server, serverNext cfg l d.server = some server ∧
            (server.sent.drop d.server.sent.length).foldl (Deployment.post addrs)
              { d with server := server } = d' := by
          cases l with
          | io found =>
              cases found <;>
                first | exact Option.map_eq_some_iff.mp h | exact absurd rfl (hl' _)
          | worker i k env => exact Option.map_eq_some_iff.mp h
          | manager l => exact Option.map_eq_some_iff.mp h
        exact hs.server_step hl' hstep

theorem of_reaches (h : Reaches cfg addrs d) : Faithful cfg addrs d := by
  refine h.invariant (P := Faithful cfg addrs) ?_ fun _ _ _ hs hstep => hs.step hstep
  rintro d₀ ⟨clock, rfl⟩
  exact initial clock

end Faithful

/-! ## What a client reports -/

/-- A client's request fits the server's buffer and decodes to its subscriber. -/
theorem fromBcd_of_toBcd {imsi : IMSI} {payload : List UInt8} (h : imsi.toBcd = some payload) :
    payload.take UdpServer.bufferSize = payload ∧ IMSI.fromBcd payload = .returned imsi := by
  rw [IMSI.toBcd_eq, Option.some.injEq] at h
  subst h
  constructor
  · have hdigits : imsi.str.length ≤ IMSI.maxDigits := imsi.valid.2.1
    refine List.take_of_length_le ?_
    rw [PackedDigits.length_pack, IMSI.length_values]
    simp only [IMSI.maxDigits] at hdigits
    simp only [UdpServer.bufferSize]
    omega
  · rw [IMSI.fromBcd_returned_iff, PackedDigits.unpack_pack _ imsi.values_lt_filler]

section Reports
variable [DecidableEq γ] [Fintype γ] [Fintype ω] [DecidableEq ω] [Fintype κ] [DecidableEq κ]
  {cfg : Config} {addrs : Addresses γ} {d d' : Deployment γ ω κ}

/-! ## What the server does in a step -/

/-- What a step of the deployment is for the server. -/
def Sees (addrs : Addresses γ) (d : Deployment γ ω κ) (l' : ServerLabel ω κ) :
    DeploymentLabel γ ω κ → Prop
  | .link _ _ => False
  | .arrive c _ => ∃ request ∈ (d.links c).requests,
      l' = .io (.datagram ⟨request.payload, addrs.client c⟩)
  | .stranger datagram => l' = .io (.datagram datagram)
  | .server l => l' = l

omit [Fintype γ] [Fintype ω] [DecidableEq ω] [Fintype κ] [DecidableEq κ] in
theorem server_foldl_post (answers : List Answer) (d : Deployment γ ω κ) :
    (answers.foldl (Deployment.post addrs) d).server = d.server := by
  induction answers generalizing d with
  | nil => rfl
  | cons a answers ih => exact ih (d.post addrs a)

theorem server_of_step {l : DeploymentLabel γ ω κ} (h : DeploymentStep cfg addrs d l d') :
    d'.server = d.server ∨ ∃ l', Sees addrs d l' l ∧ ServerStep cfg d.server l' d'.server := by
  rw [DeploymentStep] at h
  cases l with
  | link c l =>
      rw [deploymentNext] at h
      unfold linkNext at h
      split at h
      · obtain ⟨w, _, rfl⟩ := Option.map_eq_some_iff.mp h
        exact Or.inl rfl
      · cases h
      · obtain ⟨w, _, rfl⟩ := Option.map_eq_some_iff.mp h
        exact Or.inl rfl
  | arrive c k =>
      obtain ⟨⟨request, rest⟩, hdeliver, hrest⟩ := Option.bind_eq_some_iff.mp h
      obtain ⟨server, hreceive, rfl⟩ := Option.map_eq_some_iff.mp hrest
      exact Or.inr ⟨_, ⟨request, (subset_of_deliver hdeliver).1, rfl⟩,
        (step_of_receive hreceive).1⟩
  | stranger datagram =>
      rw [deploymentNext] at h
      split at h
      · cases h
      · obtain ⟨server, hreceive, rfl⟩ := Option.map_eq_some_iff.mp h
        exact Or.inr ⟨_, rfl, (step_of_receive hreceive).1⟩
  | server l =>
      obtain ⟨server, hstep, rfl⟩ : ∃ server, serverNext cfg l d.server = some server ∧
          (server.sent.drop d.server.sent.length).foldl (Deployment.post addrs)
            { d with server := server } = d' := by
        cases l with
        | io found => cases found <;> first | cases h | exact Option.map_eq_some_iff.mp h
        | worker i k env => exact Option.map_eq_some_iff.mp h
        | manager l => exact Option.map_eq_some_iff.mp h
      rw [server_foldl_post]
      exact Or.inr ⟨l, rfl, hstep⟩

/-! ## What a call reports -/

/-- The states of the server that a run goes through, in their order. -/
def serverPast (cfg : Config) (addrs : Addresses γ) (d₀ : Deployment γ ω κ)
    (tr : List (DeploymentLabel γ ω κ)) (d : Deployment γ ω κ) (u v : Server ω κ) : Prop :=
  ∃ e e', Through (DeploymentStep cfg addrs) d₀ tr d e e' ∧ e.server = u ∧ e'.server = v

/-- In a run of the deployment it is known where the server's answers come from. -/
theorem traced_of_run {clock : ℤ} {tr : List (DeploymentLabel γ ω κ)}
    (h : Run (DeploymentStep cfg addrs) (.initial cfg clock) tr d) :
    Traced (serverPast cfg addrs (.initial cfg clock) tr d) cfg d.server := by
  induction h with
  | nil => exact .initial _ cfg clock
  | @snoc e d tr l hbefore hlast ih =>
      have hnow : Traced (serverPast cfg addrs (.initial cfg clock) tr e) cfg d.server := by
        rcases server_of_step hlast with hsame | ⟨l', _, hserver⟩
        · rw [hsame]
          exact ih
        · have hs := Faithful.of_reaches ⟨_, _, ⟨clock, rfl⟩, hbefore⟩
          refine ih.step (UdpServer.genuine_of_reaches hs.server)
            ⟨e, e, .last hbefore, rfl, rfl⟩ ?_ hserver
          rintro u ⟨e₁, e₂, hthrough, rfl, _⟩
          exact ⟨e₁, e, hthrough.upTo, rfl, rfl⟩
      refine hnow.mono ?_
      rintro u v ⟨e₁, e₂, hthrough, hu, hv⟩
      exact ⟨e₁, e₂, hthrough.snoc hlast, hu, hv⟩

/-- The answer has the text for what the call for this subscriber came to, or it was
refused because the queue was full. -/
def Settles (past : Server ω κ → Server ω κ → Prop) (cfg : Config) (imsi : IMSI) (a : Answer) :
    Prop :=
  a.origin = .queueFull ∧ a.response = text "rejected" ∨
    ∃ result, a.origin = .returned (.createSession imsi.str) (tableResult result) ∧
      Computed past cfg a.ticket imsi result ∧ Replies result a.response

omit [Fintype γ] in
/-- Every answer for a client's address settles the subscriber it had asked for. -/
theorem Faithful.settles (hs : Faithful cfg addrs d) {past : Server ω κ → Server ω κ → Prop}
    (htraced : Traced past cfg d.server) {c : γ} {a : Answer}
    (ha : a ∈ d.server.sent) {request : Request}
    (horigin : d.origins[a.ticket]? = some (some (c, request))) :
    a.addr = addrs.client c ∧
      ∃ imsi : IMSI, imsi.toBcd = some request.payload ∧ Settles past cfg imsi a := by
  have hlog := hs.kept c request (List.mem_of_getElem? horigin)
  obtain ⟨imsi, hbcd⟩ := (hs.logged c).encoded request.payload (List.mem_of_getElem? hlog)
  obtain ⟨hfits, hdecoded⟩ := fromBcd_of_toBcd hbcd
  obtain ⟨datagram, hdatagram, hsource, hanswer⟩ :=
    htraced.answers (UdpServer.genuine_of_reaches hs.server) ha
  obtain ⟨origin, horigin', hfrom⟩ := forall₂_getElem? hs.origins hdatagram
  rw [horigin, Option.some.injEq] at horigin'
  rw [← horigin'] at hfrom
  rw [show datagram = _ from hfrom] at hsource hanswer
  refine ⟨hsource, imsi, hbcd, ?_⟩
  rcases hanswer with hfull | ⟨imsi', result, hdecoded', hreturned, hcomputed, hreplies⟩
  · exact Or.inl hfull
  · rw [hfits, hdecoded, Completion.returned.injEq] at hdecoded'
    subst hdecoded'
    exact Or.inr ⟨result, hreturned, hcomputed, hreplies⟩

/-- **A reported success is what the server did for this client.** Whatever the network,
strangers and the other clients do, a success that a call reports after reading a datagram
with the server's address is an answer of the server to a request of this client: its own,
or an earlier one that was not over when it sent its own. The answer went to this
client's address. It is the refusal by a full queue, or the text for what `create_session`
came to when a worker called it in this run for that request's datagram, with the
subscriber who was asked for in it. -/
theorem success_is_served {clock : ℤ} {tr : List (DeploymentLabel γ ω κ)}
    (h : Run (DeploymentStep cfg addrs) (.initial cfg clock) tr d) {c : γ}
    {r : UdpClient.Returned} (hr : r ∈ (d.links c).returned)
    (hsuccess : r.response.result = .success) :
    ∃ sending source, r.sending = some sending ∧ r.source = some source ∧
      (∀ j ∈ sending.pending, j < sending.number) ∧
      (SameAddress addrs.server source → ∃ j, (j = sending.number ∨ j ∈ sending.pending) ∧
        ∃ a ∈ d.server.sent, a.addr = addrs.client c ∧ a.response = r.response.responseText ∧
          ∃ (imsi : IMSI) (payload : List UInt8), (d.asked c)[j]? = some payload ∧
            d.origins[a.ticket]? = some (some (c, ⟨j, payload⟩)) ∧ imsi.toBcd = some payload ∧
              Settles (serverPast cfg addrs (.initial cfg clock) tr d) cfg imsi a) := by
  have hs := Faithful.of_reaches ⟨_, tr, ⟨clock, rfl⟩, h⟩
  obtain ⟨sending, source, hsending, hsource, hearlier, hreply⟩ :=
    (hs.accounted c).returned r hr hsuccess
  refine ⟨sending, source, hsending, hsource, hearlier, fun haddr => ?_⟩
  obtain ⟨j, hreplied, hj⟩ := hreply haddr
  obtain ⟨a, ha, hresponse, payload, horigin⟩ := hs.replied c _ hreplied
  obtain ⟨hto, imsi, hbcd, hsettles⟩ := hs.settles (traced_of_run h) ha horigin
  have hlog := hs.kept c _ (List.mem_of_getElem? horigin)
  exact ⟨j, hj, a, ha, hto, hresponse, imsi, payload, hlog, horigin, hbcd, hsettles⟩

/-! ## What the clients cannot do to the server -/

/-- Strangers send what spells a subscriber, `recvfrom` fails with no other errors than
`EAGAIN` and `EINTR`, and starts of a graceful shutdown come alone. The clients may do as
they like. -/
def Tame (d : Deployment γ ω κ) : DeploymentLabel γ ω κ → Prop
  | .stranger datagram => UdpServer.Spells datagram
  | .server (.io .failed) => d.server.io.pc ≠ .recvfrom
  | .server (.manager l) => StartsAlone d.server.manager l
  | _ => True

omit [DecidableEq γ] [Fintype γ] [Fintype ω] [DecidableEq ω] [Fintype κ] [DecidableEq κ] in
theorem spells_of_encodes {payload : List UInt8} (h : Encodes payload) (source : SockaddrIn) :
    UdpServer.Spells ⟨payload, source⟩ := by
  obtain ⟨imsi, hbcd⟩ := h
  obtain ⟨hfits, hdecoded⟩ := fromBcd_of_toBcd hbcd
  rw [UdpServer.Spells, hfits]
  exact IMSI.decodable_of_fromBcd hdecoded

omit [Fintype γ] in
/-- A tame deployment does its server no harm. -/
theorem Faithful.harmless (hs : Faithful cfg addrs d) {l : DeploymentLabel γ ω κ}
    {l' : ServerLabel ω κ} (hsees : Sees addrs d l' l) (hl : Tame d l)
    (hio : ∀ datagram, l ≠ .server (.io (.datagram datagram))) :
    UdpServer.Harmless d.server l' := by
  cases l with
  | link c l => cases hsees
  | arrive c k =>
      obtain ⟨request, hmem, rfl⟩ := hsees
      have hlogged := hs.logged c
      have hencodes := hlogged.encoded request.payload
        (List.mem_of_getElem? (hlogged.numbered request hmem))
      exact spells_of_encodes hencodes _
  | stranger datagram =>
      cases hsees
      exact hl
  | server l =>
      cases hsees
      cases l' with
      | io found =>
          cases found with
          | datagram datagram => exact absurd rfl (hio datagram)
          | failed => exact hl
          | _ => trivial
      | worker i k env => trivial
      | manager l => exact hl

/-- **No client ends the server.** With a callback that does not raise and a rate that is
not zero, whatever the clients ask for and whatever the network does to their requests, the
server's process goes on and no worker is left without a reply, if strangers send only what
spells a subscriber, `recvfrom` fails only in the ways it is expected to and starts of a
graceful shutdown come alone. -/
theorem never_terminated (hquiet : cfg.Quiet) (hrate : 1 ≤ cfg.shutdownRate)
    (h : Reachable (Initial cfg) (only (DeploymentStep cfg addrs) Tame) d) :
    d.server.manager.terminated = false ∧ UdpServer.HasReplies d.server := by
  have hboth : Faithful cfg addrs d ∧
      Reachable (UdpServer.Initial cfg) (only (ServerStep cfg) UdpServer.Harmless) d.server := by
    refine h.invariant (P := fun d => Faithful cfg addrs d ∧
      Reachable (UdpServer.Initial cfg) (only (ServerStep cfg) UdpServer.Harmless) d.server) ?_ ?_
    · rintro d₀ ⟨clock, rfl⟩
      exact ⟨.initial clock, .of_init ⟨clock, rfl⟩⟩
    · intro u l v hu hstep
      refine ⟨hu.1.step hstep.1, ?_⟩
      rcases server_of_step hstep.1 with hsame | ⟨l', hsees, hserver⟩
      · rw [hsame]
        exact hu.2
      · refine hu.2.tail ⟨hserver, hu.1.harmless hsees hstep.2 ?_⟩
        rintro datagram rfl
        cases hstep.1
  exact UdpServer.survives hquiet hrate hboth.2

end Reports

/-! One client asks for one subscriber, and its call reports what the worker sent. -/

open SessionManager (Caller sample after)

private def loopback : Addresses Unit := ⟨⟨2, 9000, 2130706433⟩, fun _ => ⟨2, 40000, 2130706433⟩,
  fun _ _ _ => rfl⟩

private def oneCall : List (DeploymentLabel Unit Caller Unit) :=
  [.link () (.call (text "123")), .link () (.client .done 0), .link () (.client .done 0),
    .server (.io .readable), .server (.io .again), .arrive () 0, .server (.io .again),
    .server (.io .enqueued), .server (.io .again)] ++
  List.replicate 7 (.server (.worker .first 0 (after 0 []))) ++
  [.link () (.deliver 0), .link () (.client .done 0), .link () (.client .done 5)]

private def afterOneCall : Deployment Unit Caller Unit :=
  replayed (deploymentNext sample loopback) oneCall (.initial sample 0) (by decide +kernel)

private theorem run_oneCall :
    Run (DeploymentStep sample loopback) (.initial sample 0) oneCall afterOneCall :=
  run_replayed (deploymentNext sample loopback) oneCall _ _

theorem success_is_served_one : ∃ a ∈ afterOneCall.server.sent,
    a.addr = loopback.client () ∧ a.response = text "created" ∧
      ∃ (imsi : IMSI) (payload : List UInt8), (afterOneCall.asked ())[0]? = some payload ∧
        afterOneCall.origins[a.ticket]? = some (some ((), ⟨0, payload⟩)) ∧
          imsi.toBcd = some payload ∧
            Settles (serverPast sample loopback (.initial sample 0) oneCall afterOneCall) sample
              imsi a := by
  have hmem : (⟨some ⟨0, []⟩, some loopback.server, ⟨.success, text "created", 5⟩⟩ :
      UdpClient.Returned) ∈ (afterOneCall.links ()).returned := by decide +kernel
  obtain ⟨sending, source, hsending, hsource, _, hserved⟩ :=
    success_is_served run_oneCall hmem rfl
  cases hsending
  cases hsource
  obtain ⟨j, hj, hanswer⟩ := hserved ⟨rfl, rfl⟩
  have hzero : j = 0 := by simpa using hj
  exact hzero ▸ hanswer

theorem never_terminated_one :
    afterOneCall.server.manager.terminated = false ∧ UdpServer.HasReplies afterOneCall.server := by
  have htame : ∀ l ∈ oneCall, ∀ d, Tame d l := by
    simp [oneCall, Tame]
  exact never_terminated SessionManager.sample_delivers.quiet (by decide)
    ⟨_, oneCall, ⟨0, rfl⟩, run_oneCall.only_of_forall htame⟩

end Pgw.System
