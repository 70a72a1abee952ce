import Mathlib.Data.Finset.Union
import Pgw.Lib.Accounts
import Pgw.Session.Records
import Pgw.System.Gateway

/-!
# The records reconcile with the answers

For each `created` or `rejected` that the session manager reports there is one datagram, and
its answer says so, as soon as it is given; and an answer that stands for a record is given
only when the record is there. The two sides never look at each other: the record is made in
a section under the manager's mutex, the answer is sent by the worker some time later.

The records are booked to the places that have the datagrams, as those are held in custody.

## Main definitions

* `owedAt` — the records that a place of datagrams answers for.
* `books` — the server as accounts of its records.

## Main results

* `refines_accounts` — every step of the program books a record or passes one on.
* `records_answer_datagrams` — the records are those of the answers, and each has a
  datagram of its own.
-/
namespace Pgw.System
open TransitionSystem
open SessionManager (Config Manager Call Value Label Ambient ThreadPc records debt about)
open UdpServer (Server ServerLabel ServerStep WorkerPc Answer Place Inside)
open HttpServer (Parsed)

/-! ## Accounts -/

/-- The records that an answer stands for; a full queue leaves none. -/
def answerDebt (a : Answer) : Multiset (StdString × SessionAction) :=
  match a.origin with
  | .queueFull => 0
  | .returned c v => debt c v

def answered (sent : List Answer) : Multiset (StdString × SessionAction) :=
  (sent.map answerDebt).sum

/-- The records that a worker has not answered for yet. -/
def workerOwed (pc : ThreadPc) : WorkerPc → Multiset (StdString × SessionAction)
  | .call => pc.owed
  | .respond _ c v => debt c v
  | _ => 0

variable {ω κ : Type}

def owedAt (s : Server ω κ) : Place ω → Multiset (StdString × SessionAction)
  | .worker i => workerOwed (s.manager.threads (.inl i)) (s.workers i).pc
  | .answered => answered s.sent
  | _ => 0

def books (s : Server ω κ) : Accounts.Books (Place ω) (Multiset (StdString × SessionAction)) :=
  ⟨owedAt s, records s.manager.store.events⟩

@[simp] theorem answered_append (sent : List Answer) (a : Answer) :
    answered (sent ++ [a]) = answered sent + answerDebt a := by
  simp [answered]

section Books
variable {s t : Server ω κ}

/-- What the accounts do not show. -/
theorem books_congr (howed : ∀ i, owedAt t (.worker i) = owedAt s (.worker i))
    (hsent : answered t.sent = answered s.sent)
    (hrecords : records t.manager.store.events = records s.manager.store.events) :
    books t = books s := by
  rw [books, books, hrecords, Accounts.Books.mk.injEq]
  refine ⟨funext fun p => ?_, rfl⟩
  cases p with
  | worker i => exact howed i
  | answered => exact hsent
  | _ => rfl

/-- A worker with no datagram in its hands answers for nothing. -/
theorem workerOwed_of_tickets {w : UdpServer.Worker} (h : w.tickets = 0) (pc : ThreadPc) :
    workerOwed pc w.pc = 0 := by
  rw [UdpServer.Worker.tickets] at h
  cases hpc : w.pc <;> rw [hpc] at h
  case call => exact absurd h (Multiset.singleton_ne_zero _)
  case respond => exact absurd h (Multiset.singleton_ne_zero _)
  all_goals rfl

/-- Neither do the I/O thread and the queue, and a refusal by a full queue adds nothing. -/
theorem books_of_io (h : UdpServer.IoMoves s t) : books t = books s := by
  cases h with
  | refuse ticket _ =>
      refine books_congr (fun i => rfl) ?_ rfl
      simp [Server.gotoIo, Server.sendResponse, answerDebt]
  | _ => rfl

end Books

/-! ## The handlers -/

section Elsewhere
variable {s t : Server ω κ} {cfg : Config}

/-- No caller but the workers is inside a `create_session`. -/
def Elsewhere (s : Server ω κ) : Prop :=
  ∀ k imsi, ¬ Inside (.createSession imsi) (s.manager.threads (.inr k))

/-- Who is inside no `create_session` owes nothing. -/
theorem owed_of_elsewhere {pc : ThreadPc} (h : ∀ imsi, ¬ Inside (.createSession imsi) pc) :
    pc.owed = 0 := by
  cases pc with
  | returning c v =>
      cases c with
      | createSession imsi => exact absurd rfl (h imsi)
      | _ => rfl
  | _ => rfl

/-- A call does not turn into a `create_session`. -/
theorem elsewhere_of_moves {pc pc' : ThreadPc} (h : ∀ imsi, ¬ Inside (.createSession imsi) pc)
    (hmoves : SessionManager.Moves pc pc') (imsi : StdString) :
    ¬ Inside (.createSession imsi) pc' := by
  cases hmoves with
  | finish c v => exact h imsi
  | check x => exact absurd rfl (h x)
  | table x v => exact absurd rfl (h x)
  | assign k v => simp [Inside]
  | write x reading v => simp [Inside]
  | _ => exact id

variable [Fintype ω] [DecidableEq ω] [Fintype κ] [DecidableEq κ]

theorem Elsewhere.step (hs : Elsewhere s) {l : ServerLabel ω κ} (h : ServerStep cfg s l t)
    (hl : ∀ k imsi, l ≠ .manager (.call (.inr k) (.createSession imsi))) : Elsewhere t := by
  intro k imsi
  by_cases hcall : ∃ c, l = .manager (.call (.inr k) c)
  · obtain ⟨c, rfl⟩ := hcall
    obtain ⟨_, m, hstep, rfl⟩ := UdpServer.serverStep_manager.mp h
    obtain ⟨_, _, rfl⟩ := SessionManager.step_call.mp hstep
    simp only [SessionManager.threads_goto, Function.update_self, Inside]
    rintro rfl
    exact hl k imsi rfl
  · by_cases hthread : ∃ env, l = .manager (.thread (.inr k) env)
    · obtain ⟨env, rfl⟩ := hthread
      obtain ⟨_, m, hstep, rfl⟩ := UdpServer.serverStep_manager.mp h
      have hnext := (SessionManager.step_thread.mp hstep).2
      rcases SessionManager.threads_of_threadNext hnext with hsame | ⟨pc, hmoves, hthreads⟩
      · simp only [hsame]
        exact hs k imsi
      · simp only [hthreads, Function.update_self]
        exact elsewhere_of_moves (hs k) hmoves imsi
    · have hsame := threads_of_serverStep (k := k) h (fun c heq => hcall ⟨c, heq⟩)
        fun env heq => hthread ⟨env, heq⟩
      rw [hsame]
      exact hs k imsi

end Elsewhere

/-! ## Steps -/

section Steps
variable [Fintype ω] [DecidableEq ω] [Fintype κ] [DecidableEq κ] {cfg : Config}
  {s t : Server ω κ}

/-- A step of another thread of the manager records nothing. -/
theorem books_of_others (hcfg : cfg.Delivers) {l : Label (ω ⊕ κ)}
    {m : Manager (ω ⊕ κ)} (hother : UdpServer.isOther l = true)
    (h : SessionManager.Step cfg s.manager l m) (ht : Elsewhere { s with manager := m }) :
    books { s with manager := m } = books s := by
  refine books_congr (fun i => ?_) rfl ?_
  · have hthread : m.threads (.inl i) = s.manager.threads (.inl i) := by
      apply SessionManager.threads_of_others h
      · rintro c rfl
        cases hother
      · rintro env rfl
        cases hother
    simp only [owedAt, hthread]
  · by_cases hthread : ∃ i env, l = .thread i env
    · obtain ⟨i, env, rfl⟩ := hthread
      cases i with
      | inl i => cases hother
      | inr k =>
          by_cases hreturning : ∃ c v, s.manager.threads (.inr k) = .returning c v
          · obtain ⟨c, v, hpc⟩ := hreturning
            exact SessionManager.records_of_return hcfg h hpc
          · have hrecords := SessionManager.records_of_section hcfg h fun c v hpc =>
              hreturning ⟨c, v, hpc⟩
            rw [hrecords, owed_of_elsewhere (ht k), add_zero]
    · exact SessionManager.records_of_background hcfg h fun i env heq => hthread ⟨i, env, heq⟩

omit [Fintype ω] [DecidableEq ω] [Fintype κ] [DecidableEq κ] in
/-- What another worker answers for. -/
theorem owedAt_of_ne {i j : ω} (hji : j ≠ i)
    (hthread : t.manager.threads (.inl j) = s.manager.threads (.inl j))
    (hworker : ∀ j, j ≠ i → t.workers j = s.workers j) :
    owedAt t (.worker j) = owedAt s (.worker j) := by
  simp only [owedAt, hthread, hworker j hji]

/-- **A worker** books the record of its call, and passes it on with its answer. -/
theorem entries_of_worker (hcfg : cfg.Delivers) (hgenuine : UdpServer.Genuine s) {i : ω}
    (h : UdpServer.WorkerMoves cfg i s t) :
    ∃ entries, Run Accounts.Step (books s) entries (books t) := by
  have hworkers : ∀ {s : Server ω κ} {pc : WorkerPc} {j : ω}, j ≠ i →
      (s.gotoWorker i pc).workers j = s.workers j := by
    intro s pc j hji
    simp [Server.gotoWorker, hji]
  cases h with
  | jump pc hfrom hto =>
      refine Accounts.run_of_eq (books_congr (fun j => ?_) rfl rfl)
      by_cases hji : j = i
      · subst hji
        have hbefore : owedAt s (.worker j) = 0 := workerOwed_of_tickets hfrom _
        have hafter := workerOwed_of_tickets hto (s.manager.threads (.inl j))
        rw [hbefore]
        simpa [owedAt, Server.gotoWorker] using hafter
      · exact owedAt_of_ne hji rfl fun _ => hworkers
  | take k item _ hfrom =>
      refine Accounts.run_of_eq (books_congr (fun j => ?_) rfl rfl)
      by_cases hji : j = i
      · subst hji
        have hbefore : owedAt s (.worker j) = 0 := workerOwed_of_tickets hfrom _
        rw [hbefore]
        simp [owedAt, workerOwed]
      · exact owedAt_of_ne hji rfl fun j hj => Function.update_of_ne hj _ _
  | enter imsi m hpc _ hstep =>
      refine Accounts.run_of_eq (books_congr (fun j => ?_) rfl ?_)
      · by_cases hji : j = i
        · subst hji
          obtain ⟨_, _, rfl⟩ := SessionManager.step_call.mp hstep
          simp [owedAt, Server.gotoWorker, workerOwed, hpc, ThreadPc.owed]
        · exact owedAt_of_ne hji (UdpServer.threads_of_call hstep hji) fun _ => hworkers
      · exact SessionManager.records_of_background hcfg hstep (by simp)
  | inside env m hpc hnot hstep =>
      have hbefore : owedAt s (.worker i) = 0 := by
        simp only [owedAt, hpc, workerOwed]
        cases hthread : s.manager.threads (.inl i) with
        | returning c v => exact absurd hthread (hnot c v)
        | _ => rfl
      refine Accounts.run_of_entry (.book (.worker i) (m.threads (.inl i)).owed ?_ ?_ ?_)
      · change owedAt { s with manager := m } (.worker i) = owedAt s (.worker i) + _
        rw [hbefore, zero_add]
        simp only [owedAt, hpc, workerOwed]
      · intro p hp
        cases p with
        | worker j =>
            have hji : j ≠ i := fun heq => hp (by rw [heq])
            exact owedAt_of_ne hji (UdpServer.threads_of_thread hstep hji) fun _ _ => rfl
        | _ => rfl
      · exact SessionManager.records_of_section hcfg hstep hnot
  | leave c v response env m hpc hreturning _ hstep =>
      refine Accounts.run_of_eq (books_congr (fun j => ?_) rfl ?_)
      · by_cases hji : j = i
        · subst hji
          simp [owedAt, Server.gotoWorker, workerOwed, hpc, hreturning, ThreadPc.owed]
        · exact owedAt_of_ne hji (UdpServer.threads_of_thread hstep hji) fun _ => hworkers
      · exact SessionManager.records_of_return hcfg hstep hreturning
  | respond response c v hpc =>
      have hcallback : (s.workers i).item.event.responseCallback.isSome := by
        have hworker := hgenuine.worker i
        rw [UdpServer.WorkerHonest, hpc] at hworker
        obtain ⟨⟨d, _, hevent⟩, _⟩ := hworker
        simp [hevent]
      rw [if_pos hcallback]
      refine Accounts.run_of_entry (.pass (.worker i) .answered (debt c v) (by simp) ?_ ?_ ?_ rfl)
      · simp [books, owedAt, Server.gotoWorker, Server.sendResponse, workerOwed, hpc]
      · exact answered_append _ _
      · intro p hp hanswered
        cases p with
        | worker j =>
            have hji : j ≠ i := fun heq => hp (by rw [heq])
            exact owedAt_of_ne hji rfl fun _ => hworkers
        | answered => exact absurd rfl hanswered
        | _ => rfl
  | terminate => exact Accounts.run_of_eq rfl

theorem entries_of_serverStep (hcfg : cfg.Delivers) (hgenuine : UdpServer.Genuine s)
    {l : ServerLabel ω κ} (h : ServerStep cfg s l t) (ht : Elsewhere t) :
    ∃ entries, Run Accounts.Step (books s) entries (books t) := by
  cases l with
  | io found =>
      have hmoves := UdpServer.ioMoves_of_ioNext (UdpServer.serverStep_io.mp h).2
      exact Accounts.run_of_eq (books_of_io hmoves)
  | worker i k env =>
      have hnext := (UdpServer.serverStep_worker.mp h).2
      exact entries_of_worker hcfg hgenuine (UdpServer.workerMoves_of_workerNext hnext)
  | manager l =>
      obtain ⟨hother, m, hstep, rfl⟩ := UdpServer.serverStep_manager.mp h
      exact Accounts.run_of_eq (books_of_others hcfg hother hstep ht)

end Steps

/-! ## The program -/

section Program
variable [Fintype ω] [DecidableEq ω] [Fintype κ] [DecidableEq κ] {cfg : Config}
  {parse : StdString → Parsed} {g : Gateway ω κ}

/-- A handler checks a subscriber or starts the shutdown. -/
theorem elsewhere_of_reachable (h : Reachable (Gateway.Initial cfg) (GatewayStep parse cfg) g) :
    Elsewhere g.server := by
  refine h.invariant (P := fun g => Elsewhere g.server) ?_ ?_
  · rintro g₀ ⟨clock, rfl⟩ k imsi
    exact id
  · intro g l g' hg hstep
    rcases server_of_moves (gatewayMoves_of_step hstep) with hsame | ⟨l', hserver, hhandles⟩
    · rw [hsame]
      exact hg
    · refine hg.step hserver fun k imsi heq => ?_
      obtain ⟨_, request, _, hcall⟩ := hhandles _ _ heq
      rcases handled_of_callOf hcall with ⟨_, _, hstop⟩ | ⟨_, hcheck⟩
      · cases hstop
      · cases hcheck

/-- **The program keeps accounts of its records.** -/
theorem refines_accounts (hcfg : cfg.Delivers) :
    WeakSimulation (Gateway.Initial cfg) (GatewayStep parse cfg) Accounts.Initial Accounts.Step
      (fun g : Gateway ω κ => books g.server) := by
  constructor
  · rintro g ⟨clock, rfl⟩
    refine ⟨fun p => ?_, rfl⟩
    cases p <;> rfl
  · intro g l g' hreach hstep
    have helsewhere := elsewhere_of_reachable (hreach.tail hstep)
    have hgenuine := UdpServer.genuine_of_reaches (reaches_server hreach)
    rcases server_of_moves (gatewayMoves_of_step hstep) with hsame | ⟨l', hserver, _⟩
    · rw [hsame]
      exact Accounts.run_of_eq rfl
    · exact entries_of_serverStep hcfg hgenuine hserver helsewhere

end Program

/-! ## A datagram for each record -/

section Tickets
variable {s : Server ω κ} {imsi : StdString}

/-- The datagrams at a place whose records are about a subscriber. -/
def ticketsFor (s : Server ω κ) (imsi : StdString) : Place ω → Finset ℕ
  | .worker i =>
      if 0 < about imsi (owedAt s (.worker i)) then {(s.workers i).item.ticket} else ∅
  | .answered =>
      ((s.sent.filter fun a => 0 < about imsi (answerDebt a)).map Answer.ticket).toFinset
  | _ => ∅

theorem about_answerDebt_le (a : Answer) (imsi : StdString) : about imsi (answerDebt a) ≤ 1 := by
  unfold answerDebt
  split
  · simp
  · exact SessionManager.about_debt_le _ _ _

/-- An answer stands for one record or none. -/
theorem about_answered (sent : List Answer) (imsi : StdString) :
    about imsi (answered sent) =
      (sent.filter fun a => 0 < about imsi (answerDebt a)).length := by
  induction sent with
  | nil => simp [answered]
  | cons a sent ih =>
      have hle := about_answerDebt_le a imsi
      have hcons : about imsi (answered (a :: sent)) =
          about imsi (answerDebt a) + about imsi (answered sent) := by
        simp [answered]
      rw [hcons, ih, List.filter_cons]
      split
      · rename_i hpos
        have hone : 0 < about imsi (answerDebt a) := of_decide_eq_true hpos
        rw [List.length_cons]
        omega
      · rename_i hnone
        have hzero : ¬ 0 < about imsi (answerDebt a) := fun hpos => hnone (decide_eq_true hpos)
        omega

theorem about_workerOwed_le (pc : ThreadPc) (w : WorkerPc) (imsi : StdString) :
    about imsi (workerOwed pc w) ≤ 1 := by
  cases w with
  | call =>
      cases pc with
      | returning c v => exact SessionManager.about_debt_le c v imsi
      | _ => exact Nat.zero_le 1
  | respond response c v => exact SessionManager.about_debt_le c v imsi
  | _ => exact Nat.zero_le 1

/-- As many datagrams as records, at each place. -/
theorem card_ticketsFor (hnodup : (s.sent.map Answer.ticket).Nodup) (p : Place ω) :
    (ticketsFor s imsi p).card = about imsi (owedAt s p) := by
  cases p with
  | worker i =>
      have hle := about_workerOwed_le (s.manager.threads (.inl i)) (s.workers i).pc imsi
      change about imsi (owedAt s (.worker i)) ≤ 1 at hle
      rw [ticketsFor]
      split
      · rw [Finset.card_singleton]
        omega
      · rw [Finset.card_empty]
        omega
  | answered =>
      have hsub := (List.filter_sublist (l := s.sent)
        (p := fun a => decide (0 < about imsi (answerDebt a)))).map Answer.ticket
      rw [ticketsFor, List.toFinset_card_of_nodup (hnodup.sublist hsub), List.length_map]
      exact (about_answered s.sent imsi).symm
  | _ => rfl

/-- The datagram is at the place, and spells the subscriber. -/
theorem spelled_of_ticketsFor (hgenuine : UdpServer.Genuine s) {p : Place ω} {ticket : ℕ}
    (h : ticket ∈ ticketsFor s imsi p) : ticket ∈ UdpServer.held s p ∧
      ∃ d, s.arrived[ticket]? = some d ∧
        UdpServer.CallFor (d.payload.take UdpServer.bufferSize) (.createSession imsi) := by
  cases p with
  | io => exact absurd h (Finset.notMem_empty _)
  | queue => exact absurd h (Finset.notMem_empty _)
  | worker i =>
      rw [ticketsFor] at h
      split at h
      · rename_i howed
        rw [Finset.mem_singleton] at h
        subst h
        have hworker := hgenuine.worker i
        rw [UdpServer.WorkerHonest] at hworker
        cases hpc : (s.workers i).pc <;> simp only [owedAt, workerOwed, hpc] at howed hworker
        case call =>
          obtain ⟨⟨d, hd, hevent⟩, c, hfor, hinside⟩ := hworker
          refine ⟨by simp [UdpServer.held, UdpServer.Worker.tickets, hpc], d, hd, ?_⟩
          cases hthread : s.manager.threads (.inl i) with
          | returning c' v =>
              rw [hthread] at howed hinside
              rw [hevent, ← show c' = c from hinside,
                SessionManager.call_of_about_debt howed] at hfor
              exact hfor
          | _ => simp [hthread, ThreadPc.owed] at howed
        case respond response c v =>
          obtain ⟨⟨d, hd, hevent⟩, hfor, _⟩ := hworker
          refine ⟨by simp [UdpServer.held, UdpServer.Worker.tickets, hpc], d, hd, ?_⟩
          rw [hevent, SessionManager.call_of_about_debt howed] at hfor
          exact hfor
        all_goals simp at howed
      · exact absurd h (Finset.notMem_empty _)
  | answered =>
      rw [ticketsFor, List.mem_toFinset] at h
      obtain ⟨a, ha, rfl⟩ := List.mem_map.mp h
      obtain ⟨hmem, hpos⟩ := List.mem_filter.mp ha
      refine ⟨Multiset.mem_coe.mpr (List.mem_map_of_mem hmem), ?_⟩
      obtain ⟨d, hd, _, horigin⟩ := hgenuine.sent a hmem
      refine ⟨d, hd, ?_⟩
      have hdebt : 0 < about imsi (answerDebt a) := of_decide_eq_true hpos
      rw [answerDebt] at hdebt
      cases hfrom : a.origin with
      | queueFull => simp [hfrom] at hdebt
      | returned c v =>
          rw [hfrom] at hdebt horigin
          rw [← SessionManager.call_of_about_debt hdebt]
          exact horigin.1

end Tickets

/-! ## Reconciliation -/

section Reconciliation
variable [Fintype ω] [DecidableEq ω] [Fintype κ] [DecidableEq κ] {cfg : Config}
  {parse : StdString → Parsed} {g : Gateway ω κ}

/-- The datagrams of a subscriber's records, wherever they are. -/
theorem card_biUnion_ticketsFor (hreach : UdpServer.Reaches cfg g.server)
    (hbalanced : Accounts.Balanced (books g.server)) (imsi : StdString) :
    (Finset.univ.biUnion (ticketsFor g.server imsi)).card =
      about imsi (records g.server.manager.store.events) := by
  have hcustody := (UdpServer.refines_custody cfg).reachable hreach
  have hgenuine := UdpServer.genuine_of_reaches hreach
  have hapart := (Custody.exclusive_of_reachable hcustody).apart
  have hdisjoint : ∀ p ∈ Finset.univ, ∀ q ∈ Finset.univ, p ≠ q →
      Disjoint (ticketsFor g.server imsi p) (ticketsFor g.server imsi q) := by
    intro p _ q _ hne
    rw [Finset.disjoint_left]
    intro ticket hp hq
    exact hne (hapart p q ticket (spelled_of_ticketsFor hgenuine hp).1
      (spelled_of_ticketsFor hgenuine hq).1)
  have hnodup : (g.server.sent.map Answer.ticket).Nodup :=
    Multiset.coe_nodup.mp (Custody.nodup_held hcustody .answered)
  have hsum : about imsi (∑ p, owedAt g.server p) =
      about imsi (records g.server.manager.store.events) := congrArg (about imsi) hbalanced
  rw [Finset.card_biUnion hdisjoint, ← hsum, SessionManager.about_sum]
  exact Finset.sum_congr rfl fun p _ => card_ticketsFor hnodup p

/-- **The records reconcile with the answers.** Take any state that the program gets to. The
answers given so far stand for records that are all there; whenever no worker has a datagram
in its hands, there are no others. And the `created` and `rejected` records about a
subscriber are never more than the datagrams that spelled it: each has one of its own. -/
theorem records_answer_datagrams (hcfg : cfg.Delivers)
    (h : Reachable (Gateway.Initial cfg) (GatewayStep parse cfg) g) :
    answered g.server.sent ≤ records g.server.manager.store.events ∧
      ((∀ i, (g.server.workers i).tickets = 0) →
        records g.server.manager.store.events = answered g.server.sent) ∧
      ∀ imsi, ∃ tickets : Finset ℕ,
        tickets.card = about imsi (records g.server.manager.store.events) ∧
        ∀ ticket ∈ tickets, ∃ d, g.server.arrived[ticket]? = some d ∧
          UdpServer.CallFor (d.payload.take UdpServer.bufferSize) (.createSession imsi) := by
  have hbalanced := Accounts.balanced_of_reachable ((refines_accounts hcfg).reachable h)
  refine ⟨hbalanced.held_le .answered, fun hfree => ?_, fun imsi => ?_⟩
  · refine (hbalanced.eq_of_settled (p := .answered) fun p hp => ?_).symm
    cases p with
    | worker i => exact workerOwed_of_tickets (hfree i) _
    | answered => exact absurd rfl hp
    | _ => rfl
  · have hreach := reaches_server h
    refine ⟨_, card_biUnion_ticketsFor hreach hbalanced imsi, fun ticket hmem => ?_⟩
    obtain ⟨p, _, hp⟩ := Finset.mem_biUnion.mp hmem
    exact (spelled_of_ticketsFor (UdpServer.genuine_of_reaches hreach) hp).2

end Reconciliation

/-! One subscriber asks twice and is told `created` twice, on one record. -/

open SessionManager (Caller sample sample_delivers after)

private def asking (port : UInt16) : List (GatewayLabel Caller Unit) :=
  [.server (.io .readable), .server (.io .again),
    .server (.io (.datagram ⟨[0x21, 0xF3], ⟨2, port, 2130706433⟩⟩)), .server (.io .again),
    .server (.io .enqueued), .server (.io .again), .server (.io .again),
    .server (.io .again)] ++ List.replicate 7 (.server (.worker .first 0 (after 0 [])))

private def askedTwice : Gateway Caller Unit :=
  replayed (gatewayNext (fun _ => .parseError) sample) (asking 40000 ++ asking 40001)
    (.initial sample 0) (by decide +kernel)

theorem records_answer_datagrams_twice :
    askedTwice.server.sent.map Answer.response = [text "created", text "created"] ∧
      records askedTwice.server.manager.store.events = answered askedTwice.server.sent ∧
      ∃ tickets : Finset ℕ, tickets.card = 1 ∧ ∀ ticket ∈ tickets, ∃ d,
        askedTwice.server.arrived[ticket]? = some d ∧
        UdpServer.CallFor (d.payload.take UdpServer.bufferSize) (.createSession (text "123")) := by
  have hrun : Run (GatewayStep (fun _ => .parseError) sample) (.initial sample 0)
      (asking 40000 ++ asking 40001) askedTwice :=
    run_replayed (gatewayNext (fun _ => .parseError) sample) _ _ _
  obtain ⟨_, hall, htickets⟩ :=
    records_answer_datagrams sample_delivers ⟨_, _, ⟨0, rfl⟩, hrun⟩
  have hone : about (text "123") (records askedTwice.server.manager.store.events) = 1 := by
    decide +kernel
  refine ⟨by decide +kernel, hall (by decide +kernel), ?_⟩
  rw [← hone]
  exact htickets (text "123")

end Pgw.System
