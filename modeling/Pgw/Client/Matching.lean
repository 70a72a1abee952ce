import Pgw.Client.Model
import Pgw.Imsi.Codec

/-!
# Which request a reported reply belongs to

Nothing in a reply tells which request it answers, and the client does not empty its
socket before it sends. A call may therefore report the reply to an earlier request.
What holds is that the reported text answers this call's request or one that was not
over when this call sent its own; with nothing left over, the two are the same.
-/
namespace Pgw.UdpClient
open TransitionSystem Datagrams
open EventDispatcher (SockaddrIn)

variable {serverAddr : SockaddrIn} {s t : World}

/-! ## The invariant -/

/-- The server's replies are in its log under their request, and nobody else has its
address. -/
def Attributed (serverAddr : SockaddrIn) (replied : List (ℕ × StdString)) (packet : Packet) :
    Prop :=
  match packet.answers with
  | some j => (j, packet.payload) ∈ replied
  | none => ¬ SameAddress serverAddr packet.source

/-- The request that the current call waits for. -/
def ClientPc.sending : ClientPc → Option Sending
  | .select sending => some sending
  | .recvfrom sending => some sending
  | _ => none

/-- A successful call has read a reply of the server to its own request, or to one that
was not over when it sent its own, unless what it has read is not from the server. -/
def Matches (serverAddr : SockaddrIn) (replied : List (ℕ × StdString)) (r : Returned) : Prop :=
  r.response.result = .success → ∃ sending source, r.sending = some sending ∧
    r.source = some source ∧ (∀ j ∈ sending.pending, j < sending.number) ∧
    (SameAddress serverAddr source → ∃ j, (j, r.response.responseText) ∈ replied ∧
      (j = sending.number ∨ j ∈ sending.pending))

structure Accounted (serverAddr : SockaddrIn) (s : World) : Prop where
  numbered : ∀ j ∈ s.pending, j < s.sent
  attributed : ∀ packet ∈ s.replies ++ s.socket, Attributed serverAddr s.replied packet
  /-- What is not over now is the current request, or was not over when it was sent. -/
  current : ∀ sending, s.client.sending = some sending →
    (∀ j ∈ s.pending, j = sending.number ∨ j ∈ sending.pending) ∧
      (∀ j ∈ sending.pending, j < sending.number)
  returned : ∀ r ∈ s.returned, Matches serverAddr s.replied r

theorem Attributed.log {replied : List (ℕ × StdString)} {packet : Packet}
    (h : Attributed serverAddr replied packet) (entry : ℕ × StdString) :
    Attributed serverAddr (replied ++ [entry]) packet := by
  rw [Attributed] at h ⊢
  split
  · rename_i j hj
    rw [hj] at h
    exact List.mem_append_left _ h
  · rename_i hnone
    rw [hnone] at h
    exact h

theorem Matches.log {replied : List (ℕ × StdString)} {r : Returned}
    (h : Matches serverAddr replied r) (entry : ℕ × StdString) :
    Matches serverAddr (replied ++ [entry]) r := by
  intro hsuccess
  obtain ⟨sending, source, hsending, hsource, hearlier, hreply⟩ := h hsuccess
  refine ⟨sending, source, hsending, hsource, hearlier, fun haddr => ?_⟩
  obtain ⟨j, hj, hmatch⟩ := hreply haddr
  exact ⟨j, List.mem_append_left _ hj, hmatch⟩

/-- A step after which no more is pending or waiting, and the client is where it was. -/
theorem Accounted.shrink (hs : Accounted serverAddr s) (hclient : t.client = s.client)
    (hsent : t.sent = s.sent) (hreplied : t.replied = s.replied)
    (hreturned : t.returned = s.returned) (hpending : t.pending ⊆ s.pending)
    (hpackets : t.replies ++ t.socket ⊆ s.replies ++ s.socket) : Accounted serverAddr t := by
  constructor
  · intro j hj
    rw [hsent]
    exact hs.numbered j (hpending hj)
  · intro packet hpacket
    rw [hreplied]
    exact hs.attributed packet (hpackets hpacket)
  · intro sending hsending
    rw [hclient] at hsending
    obtain ⟨hmatch, hearlier⟩ := hs.current sending hsending
    exact ⟨fun j hj => hmatch j (hpending hj), hearlier⟩
  · intro r hr
    rw [hreplied]
    rw [hreturned] at hr
    exact hs.returned r hr

theorem mem_pending {j : ℕ} : j ∈ s.pending ↔
    (∃ request ∈ s.requests, request.number = j) ∨
      ∃ packet ∈ s.replies ++ s.socket, packet.answers = some j := by
  simp only [World.pending, List.mem_append, List.mem_map, List.mem_filterMap]

/-- Fewer requests and fewer packets leave less pending. -/
theorem pending_subset (hrequests : t.requests ⊆ s.requests)
    (hpackets : t.replies ++ t.socket ⊆ s.replies ++ s.socket) : t.pending ⊆ s.pending := by
  intro j hj
  rw [mem_pending] at hj ⊢
  rcases hj with ⟨request, hmem, hnumber⟩ | ⟨packet, hmem, hanswers⟩
  · exact Or.inl ⟨request, hrequests hmem, hnumber⟩
  · exact Or.inr ⟨packet, hpackets hmem, hanswers⟩

/-! ## Steps of the network and of the server -/

/-- The network only loses, copies and delivers. -/
theorem Accounted.requests (hs : Accounted serverAddr s) {requests : List Request}
    (hrequests : requests ⊆ s.requests) :
    Accounted serverAddr { s with requests := requests } :=
  hs.shrink rfl rfl rfl rfl (pending_subset hrequests (List.Subset.refl _)) (List.Subset.refl _)

theorem Accounted.packets (hs : Accounted serverAddr s) {replies socket : List Packet}
    (hpackets : replies ++ socket ⊆ s.replies ++ s.socket) :
    Accounted serverAddr { s with replies := replies, socket := socket } :=
  hs.shrink rfl rfl rfl rfl (pending_subset (List.Subset.refl _) hpackets) hpackets

/-- A longer log accounts for as much. -/
theorem Accounted.log (hs : Accounted serverAddr s) (entry : ℕ × StdString) :
    Accounted serverAddr { s with replied := s.replied ++ [entry] } :=
  ⟨hs.numbered, fun packet hpacket => (hs.attributed packet hpacket).log entry, hs.current,
    fun r hr => (hs.returned r hr).log entry⟩

/-- A packet sets out for the client that answers nothing, or what is not over. -/
theorem Accounted.setOut (hs : Accounted serverAddr s) {packet : Packet}
    (hattributed : Attributed serverAddr s.replied packet)
    (hanswers : ∀ j, packet.answers = some j → j ∈ s.pending) :
    Accounted serverAddr { s with replies := s.replies ++ [packet] } := by
  have hpackets : ∀ packet' ∈ (s.replies ++ [packet]) ++ s.socket,
      packet' ∈ s.replies ++ s.socket ∨ packet' = packet := by
    intro packet' hmem
    simp only [List.mem_append, List.mem_singleton] at hmem ⊢
    rcases hmem with (hold | hnew) | hunread
    · exact Or.inl (Or.inl hold)
    · exact Or.inr hnew
    · exact Or.inl (Or.inr hunread)
  have hpending : ∀ j, j ∈ World.pending { s with replies := s.replies ++ [packet] } →
      j ∈ s.pending := by
    intro j hj
    rcases mem_pending.mp hj with hrequest | ⟨packet', hmem, hpacket⟩
    · exact mem_pending.mpr (Or.inl hrequest)
    · rcases hpackets packet' hmem with hold | rfl
      · exact mem_pending.mpr (Or.inr ⟨packet', hold, hpacket⟩)
      · exact hanswers j hpacket
  constructor
  · exact fun j hj => hs.numbered j (hpending j hj)
  · intro packet' hmem
    rcases hpackets packet' hmem with hold | rfl
    · exact hs.attributed packet' hold
    · exact hattributed
  · intro sending hsending
    obtain ⟨hmatch, hearlier⟩ := hs.current sending hsending
    exact ⟨fun j hj => hmatch j (hpending j hj), hearlier⟩
  · exact hs.returned

/-- A reply is under the number of a request that is not over. -/
theorem Accounted.server (hs : Accounted serverAddr s) {k : ℕ} {response : StdString}
    (h : WorldStep serverAddr s (.server k response) t) : Accounted serverAddr t := by
  obtain ⟨⟨request, requests⟩, hdeliver, rfl⟩ := Option.map_eq_some_iff.mp h
  obtain ⟨hmem, hrest⟩ := subset_of_deliver hdeliver
  have hlogged := hs.log (request.number, response)
  have hattributed : Attributed serverAddr (s.replied ++ [(request.number, response)])
      ⟨response, serverAddr, some request.number⟩ :=
    List.mem_append_right _ (List.mem_singleton_self _)
  have hreply := hlogged.setOut hattributed fun j hj => by
    rw [← Option.some.inj hj]
    exact mem_pending.mpr (Or.inl ⟨request, hmem, rfl⟩)
  exact hreply.requests hrest

/-- A packet of somebody else answers nothing. -/
theorem Accounted.foreign (hs : Accounted serverAddr s) {payload : StdString}
    {source : SockaddrIn} (h : WorldStep serverAddr s (.foreign payload source) t) :
    Accounted serverAddr t := by
  rw [WorldStep, worldNext] at h
  split at h
  · cases h
  · rename_i hother
    cases h
    refine hs.setOut hother fun j hj => ?_
    cases hj

/-! ## Steps of the client -/

/-- The call returns with what it can account for. -/
theorem Accounted.leave (hs : Accounted serverAddr s) {sending : Option Sending}
    {source : Option SockaddrIn} {result : SendResult} {responseText : StdString} {elapsed : ℕ}
    (hr : Matches serverAddr s.replied ⟨sending, source, ⟨result, responseText, elapsed⟩⟩) :
    Accounted serverAddr (s.leave sending source result responseText elapsed) := by
  constructor
  · exact hs.numbered
  · exact hs.attributed
  · intro sending' hsending
    cases hsending
  · intro r hr'
    rcases List.mem_append.mp hr' with hold | hnew
    · exact hs.returned r hold
    · rw [List.mem_singleton.mp hnew]
      exact hr

/-- The client goes on, with the request it waits for or with none. -/
theorem Accounted.goto (hs : Accounted serverAddr s) {pc : ClientPc}
    (hpc : ∀ sending, pc.sending = some sending → s.client.sending = some sending) :
    Accounted serverAddr { s with client := pc } :=
  ⟨hs.numbered, hs.attributed, fun sending hsending => hs.current sending (hpc sending hsending),
    hs.returned⟩

/-- Only a whole reply is reported as a success. -/
theorem receiveResponse_success {packet : Packet} {responseText : StdString}
    (h : receiveResponse packet = (.success, responseText)) : packet.payload = responseText := by
  rw [receiveResponse] at h
  split at h
  · cases h
  · split at h
    · rename_i hformat
      have hread : packet.payload.take 1023 = responseText := (Prod.mk.inj h).2
      have hshort : responseText.length < 1023 := by
        rw [← hread]
        rcases hformat with heq | heq <;> rw [heq] <;> decide
      rw [← hread, List.length_take] at hshort
      have hall : packet.payload.length ≤ 1023 := by omega
      rw [← hread, List.take_of_length_le hall]
    · cases h

/-- The request goes out under the next number. -/
theorem Accounted.sendRequest (hs : Accounted serverAddr s) (bcd : List UInt8) :
    Accounted serverAddr { s with
      client := .select ⟨s.sent, s.pending⟩
      sent := s.sent + 1
      requests := s.requests ++ [⟨s.sent, bcd⟩] } := by
  have hpending : ∀ j, j ∈ World.pending { s with
      client := .select ⟨s.sent, s.pending⟩
      sent := s.sent + 1
      requests := s.requests ++ [⟨s.sent, bcd⟩] } → j = s.sent ∨ j ∈ s.pending := by
    intro j hj
    rw [mem_pending] at hj
    rw [mem_pending]
    rcases hj with ⟨request, hmem, hnumber⟩ | hpacket
    · rcases List.mem_append.mp hmem with hold | hnew
      · exact Or.inr (Or.inl ⟨request, hold, hnumber⟩)
      · rw [List.mem_singleton.mp hnew] at hnumber
        exact Or.inl hnumber.symm
    · exact Or.inr (Or.inr hpacket)
  constructor
  · intro j hj
    rcases hpending j hj with rfl | hold
    · exact Nat.lt_succ_self _
    · exact Nat.lt_succ_of_lt (hs.numbered j hold)
  · exact hs.attributed
  · intro sending hsending
    cases hsending
    exact ⟨hpending, hs.numbered⟩
  · exact hs.returned

/-- The call reads one packet and returns. What it may report is the server's reply to a
request that was not over, if the packet is the server's. -/
theorem Accounted.receive (hs : Accounted serverAddr s) {sending : Sending}
    (hpc : s.client = .recvfrom sending) {packet : Packet} {socket : List Packet}
    (hsocket : s.socket = packet :: socket) (elapsed : ℕ) :
    Accounted serverAddr ({ s with socket := socket }.leave sending packet.source
      (receiveResponse packet).1 (receiveResponse packet).2 elapsed) := by
  have hmem : packet ∈ s.replies ++ s.socket := by simp [hsocket]
  have hread : Accounted serverAddr { s with socket := socket } := by
    apply hs.packets
    intro packet' hpacket'
    rcases List.mem_append.mp hpacket' with hreply | hunread
    · exact List.mem_append_left _ hreply
    · simp [hsocket, hunread]
  obtain ⟨hmatch, hearlier⟩ := hs.current sending (by rw [hpc]; rfl)
  apply hread.leave
  intro hsuccess
  have hwhole := receiveResponse_success (Prod.ext hsuccess rfl)
  refine ⟨sending, packet.source, rfl, rfl, hearlier, fun haddr => ?_⟩
  have hattributed := hs.attributed packet hmem
  rw [Attributed] at hattributed
  split at hattributed
  · rename_i j hj
    rw [hwhole] at hattributed
    exact ⟨j, hattributed, hmatch j (mem_pending.mpr (Or.inr ⟨packet, hmem, hj⟩))⟩
  · exact absurd haddr hattributed

/-- **The client reports what it can account for.** -/
theorem Accounted.client (hs : Accounted serverAddr s) {outcome : Outcome} {elapsed : ℕ}
    (h : clientNext outcome elapsed s = some t) : Accounted serverAddr t := by
  have hfailure : ∀ sending source result responseText elapsed, result ≠ .success →
      Accounted serverAddr (s.leave sending source result responseText elapsed) :=
    fun _ _ _ _ _ hresult => hs.leave fun hsuccess => absurd hsuccess hresult
  cases hpc : s.client with
  | idle => simp [clientNext, hpc] at h
  | construct imsi =>
      simp only [clientNext, hpc] at h
      split at h
      · obtain ⟨bcd, _, rfl⟩ := Option.map_eq_some_iff.mp h
        apply hs.goto
        intro sending hsending
        cases hsending
      · cases h
        exact hfailure _ _ _ _ _ (by decide)
      · cases h
  | send bcd =>
      cases outcome <;> simp only [clientNext, hpc, Option.some.injEq, reduceCtorEq] at h
      case done =>
        rw [← h]
        exact hs.sendRequest bcd
      all_goals
        rw [← h]
        exact hfailure _ _ _ _ _ (by decide)
  | select sending =>
      cases outcome <;> simp only [clientNext, hpc, Option.some.injEq, reduceCtorEq] at h
      case done =>
        split at h
        · cases h
        · cases h
          apply hs.goto
          intro sending' hsending
          rw [hpc]
          exact hsending
      case timeout =>
        split at h
        · cases h
          exact hfailure _ _ _ _ _ (by decide)
        · cases h
      all_goals
        rw [← h]
        exact hfailure _ _ _ _ _ (by decide)
  | recvfrom sending =>
      cases outcome <;> simp only [clientNext, hpc, Option.some.injEq, reduceCtorEq] at h
      case done =>
        split at h
        · rename_i packet socket hsocket
          cases h
          exact hs.receive hpc hsocket elapsed
        · cases h
      all_goals
        rw [← h]
        exact hfailure _ _ _ _ _ (by decide)

/-! ## Runs -/

theorem Accounted.step (hs : Accounted serverAddr s) {l : WorldLabel}
    (h : WorldStep serverAddr s l t) : Accounted serverAddr t := by
  cases l with
  | call imsi =>
      rw [WorldStep, worldNext] at h
      split at h <;> cases h
      apply hs.goto
      intro sending hsending
      cases hsending
  | client outcome elapsed => exact hs.client h
  | server k response => exact hs.server h
  | loseRequest fault =>
      cases h
      exact hs.requests (fault.apply_subset _)
  | loseReply fault =>
      cases h
      apply hs.packets
      intro packet hpacket
      rcases List.mem_append.mp hpacket with hreply | hunread
      · exact List.mem_append_left _ (fault.apply_subset _ hreply)
      · exact List.mem_append_right _ hunread
  | deliver k =>
      obtain ⟨⟨packet, replies⟩, hdeliver, rfl⟩ := Option.map_eq_some_iff.mp h
      obtain ⟨hmem, hrest⟩ := subset_of_deliver hdeliver
      apply hs.packets
      intro packet' hpacket'
      simp only [List.mem_append, List.mem_singleton] at hpacket' ⊢
      rcases hpacket' with hreply | hunread | rfl
      · exact Or.inl (hrest hreply)
      · exact Or.inr hunread
      · exact Or.inl hmem
  | foreign payload source => exact hs.foreign h

theorem accounted_of_reaches (h : Reaches serverAddr s) : Accounted serverAddr s := by
  refine h.invariant (P := Accounted serverAddr) ?_ fun _ _ _ hs hstep => hs.step hstep
  rintro s₀ rfl
  constructor
  · exact fun j hj => absurd hj List.not_mem_nil
  · exact fun packet hpacket => absurd hpacket List.not_mem_nil
  · intro sending hsending
    cases hsending
  · exact fun r hr => absurd hr List.not_mem_nil

/-- **Which request a success answers.** When a call returns a success after reading a
datagram with the server's address, the text it returns is a reply of the server: to the
request of this call, or to an earlier one that was not over when this call sent its
own, a copy of it or of a reply to it being under way in the network or unread in the
socket. -/
theorem success_answers_pending (h : Reaches serverAddr s) {r : Returned} (hr : r ∈ s.returned)
    (hsuccess : r.response.result = .success) :
    ∃ sending source, r.sending = some sending ∧ r.source = some source ∧
      (∀ j ∈ sending.pending, j < sending.number) ∧
      (SameAddress serverAddr source → ∃ j, (j, r.response.responseText) ∈ s.replied ∧
        (j = sending.number ∨ j ∈ sending.pending)) :=
  (accounted_of_reaches h).returned r hr hsuccess

/-! Two calls, the first of which is answered after its timeout. -/

private def configured : SockaddrIn := ⟨2, 9000, 2130706433⟩

private def lateReply : List WorldLabel :=
  [.call (text "123"), .client .done 0, .client .done 0, .client .timeout 1000,
    .server 0 (text "created"), .deliver 0, .call (text "456"), .client .done 0, .client .done 0,
    .client .done 0, .client .done 0]

private def afterLateReply : World :=
  replayed (worldNext configured) lateReply .initial (by decide +kernel)

private theorem reaches_afterLateReply : Reaches configured afterLateReply :=
  ⟨_, lateReply, rfl, run_replayed (worldNext configured) lateReply .initial _⟩

theorem success_answers_pending_late :
    ∃ j, (j, text "created") ∈ afterLateReply.replied ∧ (j = 1 ∨ j ∈ [0]) := by
  have hmem : (⟨some ⟨1, [0]⟩, some configured, ⟨.success, text "created", 0⟩⟩ : Returned) ∈
      afterLateReply.returned := by decide +kernel
  obtain ⟨sending, source, hsending, hsource, _, hreply⟩ :=
    success_answers_pending reaches_afterLateReply hmem rfl
  cases hsending
  cases hsource
  exact hreply ⟨rfl, rfl⟩

/-- The second call reports the reply to the first, and its own request has none. -/
theorem stale_reply_reported :
    ¬ ∀ s, Reaches configured s → ∀ r ∈ s.returned, r.response.result = .success →
      ∃ sending, r.sending = some sending ∧
        (sending.number, r.response.responseText) ∈ s.replied := by
  intro hall
  have hmem : (⟨some ⟨1, [0]⟩, some configured, ⟨.success, text "created", 0⟩⟩ : Returned) ∈
      afterLateReply.returned := by decide +kernel
  have hreplied : afterLateReply.replied = [(0, text "created")] := by decide +kernel
  obtain ⟨sending, hsending, hreply⟩ := hall afterLateReply reaches_afterLateReply _ hmem rfl
  cases hsending
  rw [hreplied] at hreply
  exact absurd hreply (by decide +kernel)

end Pgw.UdpClient
