import Pgw.Dispatcher.Requests
import Pgw.Session.CreateSession

/-!
# What an answer is made of

The calls of the workers are followed through a run. From the check on it is known at which
state a worker entered `create_session` for which datagram; when the call comes to its end,
what it found at its two sections gives the result; and the text that the worker sends is
the one for this result. So an answer cannot be the result of another datagram's call.

## Main results

* `Traced.of_run` — where the calls, the replies and the answers of a run come from.
* `requests_conserved` — no request is lost, duplicated or answered across.
-/
namespace Pgw.UdpServer
open SessionManager TransitionSystem

variable {ω κ : Type}

/-! ## Results and texts -/

/-- The texts that the results of `create_session` are answered with. -/
inductive Replies : Completion CreateResult → StdString → Prop where
  | created : Replies (.returned .created) (text "created")
  | alreadyExists : Replies (.returned .alreadyExists) (text "created")
  | blacklisted : Replies (.returned .blacklisted) (text "rejected")
  | raised (what : String) : Replies (.raised what) (text "rejected")

section Results
variable [Fintype ω] [DecidableEq ω] [Fintype κ] [DecidableEq κ] {cfg : Config}
  {past past' : Server ω κ → Server ω κ → Prop} {s t : Server ω κ}

/-- A worker is inside its call for a datagram. -/
def AtCall (s : Server ω κ) (i : ω) (ticket : ℕ) : Prop :=
  (s.workers i).pc = .call ∧ (s.workers i).item.ticket = ticket

/-- **The call for a datagram ended so.** `past` relates the states that have been passed, in
their order. At the first of two a worker entered `create_session` for the datagram; at
the second it was inside still, before the table section unless the subscriber was found
blacklisted; and what it found at the two gives the result. -/
def Computed (past : Server ω κ → Server ω κ → Prop) (cfg : Config) (ticket : ℕ) (imsi : IMSI)
    (result : Completion CreateResult) : Prop :=
  ∃ i u v env env' after, past u v ∧ AtCall u i ticket ∧ AtCall v i ticket ∧
    u.manager.threads (.inl i) = .entered (.createSession imsi.str) ∧
    (v.manager.threads (.inl i) = .checked imsi.str ∨ imsi.str ∈ u.manager.store.blacklist) ∧
    createSession cfg env env' (fun _ => v.manager.store) imsi.str ⟨u.manager.store, []⟩ =
      (result, after)

/-- The end of a worker's call, with where it comes from. -/
def Ended (past : Server ω κ → Server ω κ → Prop) (cfg : Config) (ticket : ℕ) (c : Call)
    (v : Completion Value) : Prop :=
  ∃ imsi result, c = .createSession imsi.str ∧ v = tableResult result ∧
    Computed past cfg ticket imsi result

/-- What is known of the calls of the workers, from the check to the answer. -/
structure Traced (past : Server ω κ → Server ω κ → Prop) (cfg : Config) (s : Server ω κ) :
    Prop where
  checked : ∀ i imsi, (s.workers i).pc = .call → s.manager.threads (.inl i) = .checked imsi →
    ∃ u, past u u ∧ AtCall u i (s.workers i).item.ticket ∧
      u.manager.threads (.inl i) = .entered (.createSession imsi) ∧
      imsi ∉ u.manager.store.blacklist
  returning : ∀ i c v, (s.workers i).pc = .call → s.manager.threads (.inl i) = .returning c v →
    Ended past cfg (s.workers i).item.ticket c v
  respond : ∀ i response c v, (s.workers i).pc = .respond response c v →
    Ended past cfg (s.workers i).item.ticket c v
  sent : ∀ a ∈ s.sent, ∀ c v, a.origin = .returned c v → Ended past cfg a.ticket c v

omit [Fintype ω] [DecidableEq ω] [Fintype κ] [DecidableEq κ] in
theorem Ended.mono (hsub : ∀ u v, past u v → past' u v) {ticket : ℕ} {c : Call}
    {v : Completion Value} (h : Ended past cfg ticket c v) : Ended past' cfg ticket c v := by
  obtain ⟨imsi, result, hc, hv, i, u, w, env, env', after, hpast, hrest⟩ := h
  exact ⟨imsi, result, hc, hv, i, u, w, env, env', after, hsub u w hpast, hrest⟩

namespace Traced

omit [Fintype ω] [DecidableEq ω] [Fintype κ] [DecidableEq κ] in
theorem mono (hs : Traced past cfg s) (hsub : ∀ u v, past u v → past' u v) :
    Traced past' cfg s where
  checked i imsi hcall hpc := by
    obtain ⟨u, hu, hrest⟩ := hs.checked i imsi hcall hpc
    exact ⟨u, hsub u u hu, hrest⟩
  returning i c v hcall hpc := (hs.returning i c v hcall hpc).mono hsub
  respond i response c v hpc := (hs.respond i response c v hpc).mono hsub
  sent a ha c v horigin := (hs.sent a ha c v horigin).mono hsub

omit [Fintype ω] [DecidableEq ω] [Fintype κ] [DecidableEq κ] in
/-- A step that moves no worker and answers only from the I/O thread. -/
theorem frame (hs : Traced past cfg s) (hworkers : t.workers = s.workers)
    (hthreads : ∀ i, t.manager.threads (.inl i) = s.manager.threads (.inl i))
    (hsent : ∀ a ∈ t.sent, a ∈ s.sent ∨ a.origin = .queueFull) : Traced past cfg t where
  checked i imsi := by
    rw [hworkers, hthreads]
    exact hs.checked i imsi
  returning i c v := by
    rw [hworkers, hthreads]
    exact hs.returning i c v
  respond i response c v := by
    rw [hworkers]
    exact hs.respond i response c v
  sent a ha c v horigin := by
    rcases hsent a ha with hold | hfull
    · exact hs.sent a hold c v horigin
    · rw [hfull] at horigin
      cases horigin

omit [Fintype ω] [Fintype κ] [DecidableEq κ] in
/-- One worker moves, and its call at most. -/
theorem update (hs : Traced past cfg s) {i : ω} {w : Worker}
    (hworkers : t.workers = Function.update s.workers i w)
    (hthreads : ∀ j, j ≠ i → t.manager.threads (.inl j) = s.manager.threads (.inl j))
    (hchecked : ∀ imsi, w.pc = .call → t.manager.threads (.inl i) = .checked imsi →
      ∃ u, past u u ∧ AtCall u i w.item.ticket ∧
        u.manager.threads (.inl i) = .entered (.createSession imsi) ∧
        imsi ∉ u.manager.store.blacklist)
    (hreturning : ∀ c v, w.pc = .call → t.manager.threads (.inl i) = .returning c v →
      Ended past cfg w.item.ticket c v)
    (hrespond : ∀ response c v, w.pc = .respond response c v → Ended past cfg w.item.ticket c v)
    (hsent : ∀ a ∈ t.sent, a ∈ s.sent ∨ ∀ c v, a.origin = .returned c v →
      Ended past cfg a.ticket c v) : Traced past cfg t := by
  refine ⟨fun j imsi => ?_, fun j c v => ?_, fun j response c v => ?_, fun a ha c v horigin => ?_⟩
  · by_cases hji : j = i
    · subst hji
      rw [hworkers, Function.update_self]
      exact hchecked imsi
    · rw [hworkers, Function.update_of_ne hji, hthreads j hji]
      exact hs.checked j imsi
  · by_cases hji : j = i
    · subst hji
      rw [hworkers, Function.update_self]
      exact hreturning c v
    · rw [hworkers, Function.update_of_ne hji, hthreads j hji]
      exact hs.returning j c v
  · by_cases hji : j = i
    · subst hji
      rw [hworkers, Function.update_self]
      exact hrespond response c v
    · rw [hworkers, Function.update_of_ne hji]
      exact hs.respond j response c v
  · rcases hsent a ha with hold | hnew
    · exact hs.sent a hold c v horigin
    · exact hnew c v horigin

omit [Fintype ω] [DecidableEq ω] [Fintype κ] [DecidableEq κ] in
theorem io (hs : Traced past cfg s) (h : IoMoves s t) : Traced past cfg t := by
  cases h with
  | refuse ticket _ =>
      refine hs.frame rfl (fun _ => rfl) fun a ha => ?_
      rcases List.mem_append.mp ha with hold | hnew
      · exact Or.inl hold
      · rw [List.mem_singleton.mp hnew]
        exact Or.inr rfl
  | _ => exact hs.frame rfl (fun _ => rfl) fun a ha => Or.inl ha

/-- **A worker's call goes on.** From the check on it is known where it was made, and at its
end what it came to. -/
theorem inside (hs : Traced past cfg s) (hgenuine : Genuine s) (hhere : past s s)
    (hlast : ∀ u, past u u → past u s) {i : ω} {env : Ambient} {m : Manager (ω ⊕ κ)}
    (hpc : (s.workers i).pc = .call)
    (hnot : ∀ c v, s.manager.threads (.inl i) ≠ .returning c v)
    (hstep : Step cfg s.manager (.thread (.inl i) env) m) :
    Traced past cfg { s with manager := m } := by
  have hworker := hgenuine.worker i
  rw [WorkerHonest, hpc] at hworker
  obtain ⟨_, c, ⟨imsi, _, rfl⟩, hinside⟩ := hworker
  have hat : AtCall s i (s.workers i).item.ticket := ⟨hpc, rfl⟩
  have hsame : s.workers = Function.update s.workers i (s.workers i) := by simp
  refine hs.update hsame (fun j hji => threads_of_thread hstep hji) ?_ ?_ ?_ fun a ha => Or.inl ha
  · intro x _ hchecked
    rcases checked_of_step hstep hchecked with ⟨_, hothers⟩ | ⟨hentered, _, hfree⟩
    · exact absurd rfl (hothers env)
    · exact ⟨s, hhere, hat, hentered, hfree⟩
  · intro c v _ hreturning
    replace hreturning : m.threads (.inl i) = .returning c v := hreturning
    cases hbefore : s.manager.threads (.inl i) with
    | returning c' v' => exact absurd hbefore (hnot c' v')
    | entered c' =>
        -- the check has ended the call
        rw [hbefore, Inside] at hinside
        subst hinside
        obtain ⟨result, after, hcreate, hend⟩ :=
          createSession_of_early hbefore hstep (by simp [hreturning]) env
            fun _ => s.manager.store
        rw [hreturning, ThreadPc.returning.injEq] at hend
        have hbanned : imsi.str ∈ s.manager.store.blacklist := by
          by_contra hfree
          have hnext := (step_thread.mp hstep).2
          simp only [threadNext, hbefore, Option.some.injEq] at hnext
          rw [← hnext] at hreturning
          simp [firstSection, createSessionBlacklist, hfree] at hreturning
        exact ⟨imsi, result, hend.1, hend.2, i, s, s, env, env, after, hhere, hat, hat, hbefore,
          Or.inr hbanned, hcreate⟩
    | checked x =>
        rw [hbefore, Inside, Call.createSession.injEq] at hinside
        subst hinside
        obtain ⟨u, hu, hatU, hentered, hfree⟩ := hs.checked i imsi.str hpc hbefore
        obtain ⟨result, after, hcreate, hend, _⟩ :=
          createSession_of_table imsi.valid hfree hbefore hstep env
        rw [hreturning, ThreadPc.returning.injEq] at hend
        exact ⟨imsi, result, hend.1, hend.2, i, u, s, env, env, after, hlast u hu, hatU, hat,
          hentered, Or.inl hbefore, hcreate⟩
    | _ =>
        rw [hbefore] at hinside
        cases hinside
  · intro response c v hrespond
    rw [hpc] at hrespond
    cases hrespond

theorem worker (hs : Traced past cfg s) (hgenuine : Genuine s) (hhere : past s s)
    (hlast : ∀ u, past u u → past u s) {i : ω} (h : WorkerMoves cfg i s t) :
    Traced past cfg t := by
  cases h with
  | jump pc _ hto =>
      refine hs.update rfl (fun _ _ => rfl) ?_ ?_ ?_ fun a ha => Or.inl ha
      all_goals
        intros
        simp_all [Worker.tickets]
  | take k item _ _ =>
      refine hs.update rfl (fun _ _ => rfl) ?_ ?_ ?_ fun a ha => Or.inl ha
      · exact fun imsi hcall => by cases hcall
      · exact fun c v hcall => by cases hcall
      · exact fun response c v hrespond => by cases hrespond
  | enter imsi m hpc _ hstep =>
      obtain ⟨_, _, hgoto⟩ := step_call.mp hstep
      have hentered : m.threads (.inl i) = .entered (.createSession imsi.str) := by
        rw [← hgoto, threads_goto, Function.update_self]
      refine hs.update rfl (fun j hji => threads_of_call hstep hji) ?_ ?_ ?_ fun a ha => Or.inl ha
      · intro x _ hchecked
        cases hentered.symm.trans hchecked
      · intro c v _ hreturning
        cases hentered.symm.trans hreturning
      · exact fun response c v hrespond => by cases hrespond
  | inside env m hpc hnot hstep => exact hs.inside hgenuine hhere hlast hpc hnot hstep
  | leave c v response env m hpc hreturning _ hstep =>
      refine hs.update rfl (fun j hji => threads_of_thread hstep hji) ?_ ?_ ?_ fun a ha =>
        Or.inl ha
      · exact fun imsi hcall => by cases hcall
      · exact fun c v hcall => by cases hcall
      · rintro response' c' v' ⟨⟩
        exact hs.returning i c v hpc hreturning
  | respond response c v hpc =>
      have hended := hs.respond i response c v hpc
      have hsent : ∀ a ∈ (if (s.workers i).item.event.responseCallback.isSome then
          s.sendResponse ⟨(s.workers i).item.ticket, response,
            (s.workers i).item.event.clientAddr, .returned c v⟩ else s).sent,
          a ∈ s.sent ∨ ∀ c' v', a.origin = .returned c' v' → Ended past cfg a.ticket c' v' := by
        intro a ha
        split at ha
        · rcases List.mem_append.mp ha with hold | hnew
          · exact Or.inl hold
          · right
            rintro c' v' horigin
            rw [List.mem_singleton.mp hnew] at horigin ⊢
            cases horigin
            exact hended
        · exact Or.inl ha
      refine hs.update (i := i) (w := { s.workers i with pc := .testStop }) ?_ ?_ ?_ ?_ ?_ hsent
      · split <;> rfl
      · intro j _
        split <;> rfl
      · exact fun imsi hcall => by cases hcall
      · exact fun c v hcall => by cases hcall
      · exact fun response c v hrespond => by cases hrespond
  | terminate => exact hs.frame rfl (fun _ => rfl) fun a ha => Or.inl ha

/-- **One step more.** -/
theorem step (hs : Traced past cfg s) (hgenuine : Genuine s) (hhere : past s s)
    (hlast : ∀ u, past u u → past u s) {l : ServerLabel ω κ} (h : ServerStep cfg s l t) :
    Traced past cfg t := by
  rcases serverStep_cases h with ⟨found, hio⟩ | ⟨i, k, env, hworker⟩ | ⟨l, m, hl, hm, rfl⟩
  · exact hs.io (ioMoves_of_ioNext hio)
  · exact hs.worker hgenuine hhere hlast (workerMoves_of_workerNext hworker)
  · refine hs.frame rfl (fun i => threads_of_others hm ?_ ?_) fun a ha => Or.inl ha
    · rintro c rfl
      cases hl
    · rintro env rfl
      cases hl

omit [Fintype ω] [DecidableEq ω] [Fintype κ] [DecidableEq κ] in
theorem initial (past : Server ω κ → Server ω κ → Prop) (cfg : Config) (clock : ℤ) :
    Traced past cfg (Server.initial cfg clock) where
  checked i imsi hcall := by cases hcall
  returning i c v hcall := by cases hcall
  respond i response c v hrespond := by cases hrespond
  sent a ha := by cases ha

theorem of_run {clock : ℤ} {tr : List (ServerLabel ω κ)}
    (h : Run (ServerStep cfg) (.initial cfg clock) tr s) :
    Traced (Through (ServerStep cfg) (.initial cfg clock) tr s) cfg s := by
  induction h with
  | nil => exact initial _ cfg clock
  | snoc hbefore hlast ih =>
      have hgenuine := genuine_of_reaches ⟨_, _, ⟨clock, rfl⟩, hbefore⟩
      exact (ih.step hgenuine (.last hbefore) (fun _ hu => hu.upTo) hlast).mono fun _ _ hpast =>
        hpast.snoc hlast

end Traced

omit [Fintype ω] [DecidableEq ω] [Fintype κ] [DecidableEq κ] in
/-- What a worker replies to a result is its text. -/
theorem replies_of_replyTo {result : Completion CreateResult} {response : StdString}
    (h : replyTo (tableResult result) = some response) : Replies result response := by
  cases result with
  | returned r =>
      cases r <;> cases h
      · exact .created
      · exact .alreadyExists
      · exact .blacklisted
  | raised what =>
      cases h
      exact .raised what
  | terminated => cases h

/-- **Where an answer comes from.** It goes to the sender of its datagram, and is the
refusal by a full queue or the text for the end of the call that a worker made for this
datagram, with the subscriber in its bytes. -/
def Answers (past : Server ω κ → Server ω κ → Prop) (cfg : Config) (arrived : List Datagram)
    (a : Answer) : Prop :=
  ∃ d, arrived[a.ticket]? = some d ∧ a.addr = d.source ∧
    (a.origin = .queueFull ∧ a.response = text "rejected" ∨
      ∃ imsi result, IMSI.fromBcd (d.payload.take bufferSize) = .returned imsi ∧
        a.origin = .returned (.createSession imsi.str) (tableResult result) ∧
        Computed past cfg a.ticket imsi result ∧ Replies result a.response)

omit [Fintype ω] [DecidableEq ω] [Fintype κ] [DecidableEq κ] in
theorem Traced.answers (hs : Traced past cfg s) (hgenuine : Genuine s) {a : Answer}
    (ha : a ∈ s.sent) : Answers past cfg s.arrived a := by
  obtain ⟨d, hd, haddr, horigin⟩ := hgenuine.sent a ha
  refine ⟨d, hd, haddr, ?_⟩
  cases hcase : a.origin with
  | queueFull =>
      rw [hcase] at horigin
      exact Or.inl ⟨rfl, horigin⟩
  | returned c v =>
      rw [hcase] at horigin
      obtain ⟨⟨imsi, hdecoded, rfl⟩, hreply⟩ := horigin
      obtain ⟨imsi', result, hcall, rfl, hcomputed⟩ := hs.sent a ha _ v hcase
      have hsame : imsi = imsi' := by
        rw [Call.createSession.injEq] at hcall
        exact IMSI.ext hcall
      subst hsame
      exact Or.inr ⟨imsi, result, hdecoded, rfl, hcomputed, replies_of_replyTo hreply⟩

/-- **No request is lost, duplicated or answered across.** Wherever a run leads, each
datagram that has been received is in exactly one place, no place has it twice, and no other
datagram is anywhere; so it has been answered at most once. The events in the queue and in
the workers' hands have the bytes and the address of their own datagrams. Every answer
went to the sender of its own datagram, and it is the refusal by a full queue or the text
for what `create_session` came to when a worker called it in this run for the subscriber
in the bytes of that datagram. -/
theorem requests_conserved {clock : ℤ} {tr : List (ServerLabel ω κ)}
    (h : Run (ServerStep cfg) (.initial cfg clock) tr s) :
    (∀ ticket, ticket < s.arrived.length ↔ ∃! p, ticket ∈ held s p) ∧
      (∀ p, (held s p).Nodup) ∧ (s.sent.map Answer.ticket).Nodup ∧
      (∀ item ∈ s.queue, Carries s.arrived item) ∧
      (∀ i, (s.workers i).tickets ≠ 0 → Carries s.arrived (s.workers i).item) ∧
      ∀ a ∈ s.sent,
        Answers (Through (ServerStep cfg) (.initial cfg clock) tr s) cfg s.arrived a := by
  have hreach : Reaches cfg s := ⟨_, tr, ⟨clock, rfl⟩, h⟩
  have hs := genuine_of_reaches hreach
  have hcustody := (refines_custody cfg).reachable hreach
  refine ⟨fun ticket => Custody.existsUnique_place hcustody, Custody.nodup_held hcustody, ?_,
    hs.queue, fun i hi => ?_, fun a ha => (Traced.of_run h).answers hs ha⟩
  · exact Multiset.coe_nodup.mp (Custody.nodup_held hcustody .answered)
  · have hworker := hs.worker i
    rw [WorkerHonest] at hworker
    rw [Worker.tickets] at hi
    cases hpc : (s.workers i).pc <;> rw [hpc] at hworker hi
    case decode => exact hworker
    case call => exact hworker.1
    case respond => exact hworker.1
    all_goals exact absurd rfl hi

end Results

/-! Two datagrams: one is refused by a full queue, the other served by a worker. -/

private def firstDatagram : Datagram := ⟨[0x21, 0xF3], ⟨2, 9000, 2130706433⟩⟩

private def secondDatagram : Datagram := ⟨[0x54, 0xF6], ⟨2, 9001, 2130706433⟩⟩

private def servedLabels : List (ServerLabel Caller Unit) :=
  [.readable, .again, .datagram firstDatagram, .again, .enqueued, .again, .again,
    .datagram secondDatagram, .again, .full, .again].map .io ++
  List.replicate 7 (.worker .first 0 (after 0 []))

private def served : Server Caller Unit :=
  replayed (serverNext sample) servedLabels (.initial sample 0) (by decide +kernel)

theorem requests_conserved_two :
    (∃! p, 0 ∈ held served p) ∧ (∃! p, 1 ∈ held served p) ∧
      served.sent.map (fun a => (a.ticket, a.response, a.addr.sinPort)) =
        [(1, text "rejected", 9001), (0, text "created", 9000)] ∧
      ∀ a ∈ served.sent,
        Answers (Through (ServerStep sample) (.initial sample 0) servedLabels served) sample
          served.arrived a := by
  have hrun : Run (ServerStep sample) (.initial sample 0) servedLabels served :=
    run_replayed (serverNext sample) _ _ _
  obtain ⟨hplaces, _, _, _, _, hsent⟩ := requests_conserved hrun
  refine ⟨(hplaces 0).mp (by decide +kernel), (hplaces 1).mp (by decide +kernel), ?_, hsent⟩
  decide +kernel

end Pgw.UdpServer
