import Pgw.Http.Model
import Pgw.Lib.Turns

/-!
# Who joins the server thread

`running_` says that somebody has started the server, and it is also cleared by the
thread itself. As long as only `stop` finds it true, every start is answered by one
`stop`, and starts, threads and stops come in turns: the starts that have claimed
`running_` hold the turns after the last thread that was made, the stops that have
cleared it hold those after the last thread that was joined.

A thread is lost when a turn is skipped or overtaken: the thread clears `running_`
before any `stop` does, a `stop` tests the thread before its start has made it, or a
start makes the next thread before the last one has been joined.

## Main results

* `chain_of_step` — orderly steps keep the turns.
* `lifecycle_of_run` — no orderly run ends in `std::terminate`.
* `lifecycle_port_in_use` — a start on a port in use, then the destructor.
-/
namespace Pgw.HttpServer
open TransitionSystem Turns

variable {κ : Type}

/-! ## Order -/

/-- A start assigns only when the stops that answer earlier starts have returned, a
`stop` tests `joinable()` only when the start that it answers has assigned, and the
destructor does not find `running_` cleared by a `stop` that has not returned. -/
def Ready (s : HttpServer κ) (a : Option κ) : HttpPc → Prop
  | .startAssign turn => ∀ b, ∀ other ∈ (s.pcs b).stopping, turn ≤ other
  | .stopTest turn => ∀ b, (s.pcs b).assigning ≠ some turn
  | .stopExchange => a = none → s.running = false → ∀ b, (s.pcs b).stopping = none
  | _ => True

/-- The calls are in order, and the thread clears `running_` only after a `stop` has. -/
def Orderly (s : HttpServer κ) : HttpLabel κ → Prop
  | .thread a => Ready s a (s.pcs a)
  | .clear => s.running = false
  | _ => True

instance [Fintype κ] [DecidableEq κ] (s : HttpServer κ) (a : Option κ) :
    DecidablePred (Ready s a)
  | .startAssign turn =>
      inferInstanceAs (Decidable (∀ b, ∀ other ∈ (s.pcs b).stopping, turn ≤ other))
  | .stopTest turn => inferInstanceAs (Decidable (∀ b, (s.pcs b).assigning ≠ some turn))
  | .stopExchange =>
      inferInstanceAs (Decidable (a = none → s.running = false → ∀ b, (s.pcs b).stopping = none))
  | .idle | .startExchange | .startReport | .delay | .stopServer _ | .stopJoin _
  | .destroyThread | .destroyed => isTrue trivial

instance [Fintype κ] [DecidableEq κ] (s : HttpServer κ) : DecidablePred (Orderly s)
  | .thread a => inferInstanceAs (Decidable (Ready s a (s.pcs a)))
  | .clear => inferInstanceAs (Decidable (s.running = false))
  | .callStart _ | .callStop _ | .handleStop _ | .destroy | .listenFails | .listenReturns =>
      isTrue trivial

/-! ## Turns -/

/-- The threads made, if `joined` have been joined. -/
def assigned (s : HttpServer κ) (joined : ℕ) : ℕ :=
  joined + if s.serverThread.isSome then 1 else 0

/-- The starts for which `running_` has been cleared. -/
def answered (s : HttpServer κ) : ℕ := if s.running then s.starts - 1 else s.starts

/-- Starts and stops are in turn. -/
structure Chain (s : HttpServer κ) (joined : ℕ) : Prop where
  alive : s.terminated = false
  assigning : Held (fun a => (s.pcs a).assigning) (s.assigned joined) s.starts
  stopping : Held (fun a => (s.pcs a).stopping) joined s.answered
  joining : ∀ a turn, s.pcs a = .stopJoin turn → turn ≤ s.assigned joined
  started : s.running = true → 0 < s.starts

/-- What holds once the destructor's `stop` has cleared `running_`, and once it has
returned. -/
def Closing (pc : HttpPc) (running : Bool) (starts joined : ℕ) : Prop :=
  match pc with
  | .idle => True
  | .stopExchange => True
  | .stopServer turn => running = false ∧ turn = starts
  | .stopTest turn => running = false ∧ turn = starts
  | .stopJoin turn => running = false ∧ turn = starts
  | .destroyThread => running = false ∧ joined = starts
  | .destroyed => running = false ∧ joined = starts
  | _ => False

/-- The destructor is not called before the calls of `start` have returned. -/
structure Ending (s : HttpServer κ) (joined : ℕ) : Prop where
  closed : s.pcs none = .idle ∨ ∀ a, (s.pcs a).starting = false
  closing : Closing (s.pcs none) s.running s.starts joined
  callers : ∀ k, s.pcs (some k) ≠ .destroyThread

section
variable {s t : HttpServer κ} {joined : ℕ} {a : Option κ} {k : κ} {pc : HttpPc}

theorem answered_le (s : HttpServer κ) : s.answered ≤ s.starts := by
  unfold answered
  split <;> omega

theorem assigned_eq_of_none (h : s.serverThread = none) : s.assigned joined = joined := by
  simp [assigned, h]

theorem assigned_eq_of_some {pc : ServerPc} (h : s.serverThread = some pc) :
    s.assigned joined = joined + 1 := by
  simp [assigned, h]

/-- The thread is joinable when one more has been made than joined. -/
theorem serverThread_of_lt (h : joined < s.assigned joined) : ∃ pc, s.serverThread = some pc := by
  cases hthread : s.serverThread with
  | none =>
      rw [assigned_eq_of_none hthread] at h
      omega
  | some pc => exact ⟨pc, rfl⟩

/-- No call of `start` is left once the destructor has begun. -/
theorem Ending.idle_of_starting (h : Ending s joined) (ha : (s.pcs a).starting = true) :
    s.pcs none = .idle := by
  obtain hidle | hnone := h.closed
  · exact hidle
  · rw [hnone a] at ha
    cases ha

variable [DecidableEq κ]

@[simp] theorem goto_pcs_self (s : HttpServer κ) (a : Option κ) (pc : HttpPc) :
    (s.goto a pc).pcs a = pc := by
  simp [goto]

theorem goto_pcs_of_ne (s : HttpServer κ) {a b : Option κ} (pc : HttpPc) (h : b ≠ a) :
    (s.goto a pc).pcs b = s.pcs b := by
  simp [goto, h]

/-- A property of all calls is kept when one of them moves on with it. -/
theorem forall_goto (P : Option κ → HttpPc → Prop) (hpc : P a pc)
    (hothers : ∀ b, b ≠ a → P b (s.pcs b)) (b : Option κ) : P b ((s.goto a pc).pcs b) :=
  (Function.forall_update_iff s.pcs P).mpr ⟨hpc, hothers⟩ b

/-- A join is of a thread that has been made, if the one who moves goes to no other. -/
theorem joining_goto {n : ℕ} (hjoining : ∀ b turn, s.pcs b = .stopJoin turn → turn ≤ n)
    (hjoin : ∀ turn, pc = .stopJoin turn → turn ≤ n) :
    ∀ b turn, (s.goto a pc).pcs b = .stopJoin turn → turn ≤ n :=
  forall_goto (fun _ pc => ∀ turn, pc = .stopJoin turn → turn ≤ n) hjoin
    fun b _ => hjoining b

/-- Of the turns, a move changes its own at most. -/
theorem goto_turns (s : HttpServer κ) (a : Option κ) (pc : HttpPc) (f : HttpPc → Option ℕ) :
    (fun b => f ((s.goto a pc).pcs b)) = Function.update (fun b => f (s.pcs b)) a (f pc) :=
  Function.comp_update f s.pcs a pc

/-- **A move that keeps its turn**, with a join only of a thread that has been made. -/
theorem Chain.goto (h : Chain s joined) (hassigning : (s.pcs a).assigning = pc.assigning)
    (hstopping : (s.pcs a).stopping = pc.stopping)
    (hjoin : ∀ turn, pc = .stopJoin turn → turn ≤ s.assigned joined) :
    Chain (s.goto a pc) joined := by
  refine ⟨h.alive, ?_, ?_, joining_goto h.joining hjoin, h.started⟩
  · rw [goto_turns s a pc HttpPc.assigning]
    exact h.assigning.move hassigning
  · rw [goto_turns s a pc HttpPc.stopping]
    exact h.stopping.move hstopping

/-- Calls do not destroy the thread. -/
theorem forall_callers_goto (hcallers : ∀ j, s.pcs (some j) ≠ .destroyThread)
    (hpc : pc ≠ .destroyThread) (j : κ) : (s.goto a pc).pcs (some j) ≠ .destroyThread := by
  by_cases hj : some j = a
  · rw [hj, goto_pcs_self]
    exact hpc
  · rw [goto_pcs_of_ne s pc hj]
    exact hcallers j

/-- A call moves, and does not begin a start. -/
theorem Ending.goto_some (h : Ending s joined) (hpc : pc.starting = false)
    (hdestroy : pc ≠ .destroyThread) : Ending (s.goto (some k) pc) joined := by
  have hnone : (s.goto (some k) pc).pcs none = s.pcs none := goto_pcs_of_ne s pc (by simp)
  refine ⟨?_, by rw [hnone]; exact h.closing, forall_callers_goto h.callers hdestroy⟩
  · rw [hnone]
    exact h.closed.imp_right fun hstarting =>
      forall_goto (fun _ pc => pc.starting = false) hpc fun b _ => hstarting b

/-- Before the destructor a call moves as it likes, -/
theorem Ending.goto_of_idle (h : Ending s joined) (hidle : s.pcs none = .idle) (hne : none ≠ a)
    {s' : HttpServer κ} (hpcs : s'.pcs = s.pcs) (hdestroy : pc ≠ .destroyThread) :
    Ending (s'.goto a pc) joined := by
  have hnone : (s'.goto a pc).pcs none = .idle := by
    rw [goto_pcs_of_ne s' pc hne, hpcs, hidle]
  refine ⟨Or.inl hnone, by rw [hnone]; trivial, forall_callers_goto ?_ hdestroy⟩
  rw [hpcs]
  exact h.callers

/-- and a call of `start` moves only then. -/
theorem Ending.goto_start (h : Ending s joined) (ha : (s.pcs a).starting = true)
    {s' : HttpServer κ} (hpcs : s'.pcs = s.pcs) (hdestroy : pc ≠ .destroyThread) :
    Ending (s'.goto a pc) joined := by
  have hidle := h.idle_of_starting ha
  refine h.goto_of_idle hidle ?_ hpcs hdestroy
  rintro rfl
  rw [hidle] at ha
  cases ha

/-- The destructor moves, after it has begun. -/
theorem Ending.goto_none (h : Ending s joined) (hbegun : s.pcs none ≠ .idle)
    (hpc : pc.starting = false) {joined' : ℕ} (hclosing : Closing pc s.running s.starts joined') :
    Ending (s.goto none pc) joined' := by
  refine ⟨Or.inr ?_, by rw [goto_pcs_self]; exact hclosing, fun j => ?_⟩
  · exact forall_goto (fun _ pc => pc.starting = false) hpc
      fun b _ => h.closed.resolve_left hbegun b
  · rw [goto_pcs_of_ne s pc (by simp)]
    exact h.callers j

/-- A `stop` goes on, the destructor's with what holds at that statement. -/
theorem Ending.goto_stop (h : Ending s joined) {pc₀ : HttpPc} (hpc₀ : s.pcs a = pc₀)
    (hbegun : pc₀ ≠ .idle) (hpc : pc.starting = false) (hdestroy : pc ≠ .destroyThread)
    (hclosing : Closing pc₀ s.running s.starts joined → Closing pc s.running s.starts joined) :
    Ending (s.goto a pc) joined := by
  subst hpc₀
  cases a with
  | some k => exact h.goto_some hpc hdestroy
  | none => exact h.goto_none hbegun hpc (hclosing h.closing)

omit [DecidableEq κ] in
/-- Clearing `running_` is always in order for the destructor. -/
theorem Ending.clear (h : Ending s joined) (thread : Option ServerPc) :
    Ending { s with running := false, serverThread := thread } joined := by
  refine ⟨h.closed, ?_, h.callers⟩
  have hclosing := h.closing
  revert hclosing
  simp only
  cases s.pcs none <;> simp [Closing]

omit [DecidableEq κ] in
/-- While a turn is left to join, the destructor's `stop` has not returned. -/
theorem Ending.join (h : Ending s joined) (hlt : joined < s.starts) (thread : Option ServerPc) :
    Ending { s with serverThread := thread } (joined + 1) := by
  refine ⟨h.closed, ?_, h.callers⟩
  have hclosing := h.closing
  revert hclosing
  simp only
  cases s.pcs none <;> simp [Closing] <;> omega

omit [DecidableEq κ] in
/-- The thread goes on by itself. -/
theorem Chain.setThread (h : Chain s joined) {thread : Option ServerPc}
    (hthread : thread.isSome = s.serverThread.isSome) :
    Chain { s with serverThread := thread } joined := by
  have hassigned : assigned { s with serverThread := thread } joined = s.assigned joined := by
    simp [assigned, hthread]
  refine ⟨h.alive, ?_, h.stopping, fun a turn ha => ?_, h.started⟩
  · rw [hassigned]
    exact h.assigning
  · rw [hassigned]
    exact h.joining a turn ha

omit [DecidableEq κ] in
/-- When the destructor's `stop` has returned, all threads made have been joined. -/
theorem Ending.serverThread_eq_none (he : Ending s joined) (hc : Chain s joined)
    (hpc : s.pcs none = .destroyThread) : s.serverThread = none := by
  have hclosing := he.closing
  rw [hpc] at hclosing
  cases hthread : s.serverThread with
  | none => rfl
  | some thread =>
      have hle := hc.assigning.le
      rw [assigned_eq_of_some hthread, ← hclosing.2] at hle
      omega

/-! ## The three parties -/

/-- A start that finds `running_` false takes the next turn. -/
theorem Chain.startExchange (h : Chain s joined) (hpc : s.pcs a = .startExchange)
    (hrunning : s.running = false) :
    Chain ({ s with running := true, starts := s.starts + 1 }.goto a
      (.startAssign (s.starts + 1))) joined := by
  have hanswered : s.answered = s.starts := by simp [answered, hrunning]
  refine ⟨h.alive, ?_, ?_, joining_goto h.joining (by simp), fun _ => Nat.succ_pos _⟩
  · rw [goto_turns _ a _ HttpPc.assigning]
    exact h.assigning.take (by rw [hpc]; rfl)
  · rw [goto_turns _ a _ HttpPc.stopping]
    have hmove := h.stopping.move (a := a) (n := none) (by rw [hpc]; rfl)
    rw [hanswered] at hmove
    exact hmove

omit [DecidableEq κ] in
/-- The first start makes its thread: all threads made before have been joined, since a
`stop` that had one of them still to join would answer an earlier start. -/
theorem Chain.serverThread_of_ready (h : Chain s joined) {turn : ℕ}
    (hpc : s.pcs a = .startAssign turn) (hready : Ready s a (.startAssign turn)) :
    turn = joined + 1 ∧ s.serverThread = none := by
  have hbound := h.assigning.bound a turn (by rw [hpc]; rfl)
  have hanswered : turn ≤ s.answered + 1 := by
    have hstarted := h.started
    unfold answered
    split <;> omega
  have hdone : turn ≤ joined + 1 := h.stopping.le_done hanswered fun b m hb => hready b m hb
  cases hthread : s.serverThread with
  | none =>
      rw [assigned_eq_of_none hthread] at hbound
      exact ⟨by omega, rfl⟩
  | some pc =>
      rw [assigned_eq_of_some hthread] at hbound
      omega

theorem Chain.startAssign (h : Chain s joined) {turn : ℕ} (hpc : s.pcs a = .startAssign turn)
    (hready : Ready s a (.startAssign turn)) :
    Chain ({ s with serverThread := some .listen }.goto a .startReport) joined := by
  obtain ⟨rfl, hthread⟩ := h.serverThread_of_ready hpc hready
  have hassigned : s.assigned joined = joined := assigned_eq_of_none hthread
  have hjoining : ∀ b turn, s.pcs b = .stopJoin turn → turn ≤ joined + 1 := by
    intro b turn hb
    have hle := h.joining b turn hb
    rw [hassigned] at hle
    exact Nat.le_succ_of_le hle
  refine ⟨h.alive, ?_, ?_, joining_goto hjoining (by simp), h.started⟩
  · rw [goto_turns _ a _ HttpPc.assigning]
    have hassigning := h.assigning
    rw [hassigned] at hassigning
    exact hassigning.finish (by rw [hpc]; rfl)
  · rw [goto_turns _ a _ HttpPc.stopping]
    exact h.stopping.move (by rw [hpc]; rfl)

/-- The `stop` that finds `running_` true answers the last start. -/
theorem Chain.stopExchange (h : Chain s joined) (hpc : s.pcs a = .stopExchange)
    (hrunning : s.running = true) :
    Chain ({ s with running := false }.goto a (.stopServer s.starts)) joined := by
  have hstarted := h.started hrunning
  have hanswered : s.starts = s.answered + 1 := by
    simp only [answered, hrunning, if_true]
    omega
  refine ⟨h.alive, ?_, ?_, joining_goto h.joining (by simp), nofun⟩
  · rw [goto_turns _ a _ HttpPc.assigning]
    exact h.assigning.move (by rw [hpc]; rfl)
  · rw [goto_turns _ a _ HttpPc.stopping]
    have htake := h.stopping.take (a := a) (by rw [hpc]; rfl)
    rw [← hanswered] at htake
    exact htake

omit [DecidableEq κ] in
/-- A `stop` whose start has assigned finds the thread joinable. -/
theorem Chain.joinable_of_ready (h : Chain s joined) {turn : ℕ} (hpc : s.pcs a = .stopTest turn)
    (hready : Ready s a (.stopTest turn)) :
    turn ≤ s.assigned joined ∧ s.serverThread.isSome = true := by
  have hbound := h.stopping.bound a turn (by rw [hpc]; rfl)
  have hle : turn ≤ s.assigned joined := by
    by_contra hlt
    have hstarts := hbound.2.trans (answered_le s)
    obtain ⟨b, hb⟩ := h.assigning.covers turn (by omega) hstarts
    exact hready b hb
  have hlt : joined < s.assigned joined := by omega
  obtain ⟨pc, hthread⟩ := serverThread_of_lt hlt
  exact ⟨hle, by rw [hthread]; rfl⟩

omit [DecidableEq κ] in
/-- The `stop` at its join has the first turn, and a thread to join. -/
theorem Chain.turn_of_stopJoin (h : Chain s joined) {turn : ℕ} (hpc : s.pcs a = .stopJoin turn) :
    turn = joined + 1 ∧ ∃ pc, s.serverThread = some pc := by
  have hbound := h.stopping.bound a turn (by rw [hpc]; rfl)
  have hle := h.joining a turn hpc
  have hlt : joined < s.assigned joined := by omega
  obtain ⟨pc, hthread⟩ := serverThread_of_lt hlt
  rw [assigned_eq_of_some hthread] at hle
  exact ⟨by omega, pc, hthread⟩

theorem Chain.stopJoin (h : Chain s joined) {turn : ℕ} (hpc : s.pcs a = .stopJoin turn)
    (hreturned : pc.assigning = none ∧ pc.stopping = none) :
    Chain ({ s with serverThread := none }.goto a pc) (joined + 1) := by
  obtain ⟨rfl, thread, hthread⟩ := h.turn_of_stopJoin hpc
  have hassigned : s.assigned joined = joined + 1 := assigned_eq_of_some hthread
  have hjoining : ∀ b turn, s.pcs b = .stopJoin turn → turn ≤ joined + 1 := by
    intro b turn hb
    exact hassigned ▸ h.joining b turn hb
  refine ⟨h.alive, ?_, ?_, joining_goto hjoining fun turn hturn => ?_, h.started⟩
  · rw [goto_turns _ a _ HttpPc.assigning, hreturned.1]
    have hassigning := h.assigning.move (a := a) (n := none) (by rw [hpc]; rfl)
    rw [hassigned] at hassigning
    exact hassigning
  · rw [goto_turns _ a _ HttpPc.stopping, hreturned.2]
    exact h.stopping.finish (by rw [hpc]; rfl)
  · rw [hturn] at hreturned
    cases hreturned.2

/-! ## Every step -/

omit [DecidableEq κ] in
@[simp] theorem assigning_returned (a : Option κ) : (returned a).assigning = none := by
  cases a <;> rfl

omit [DecidableEq κ] in
@[simp] theorem stopping_returned (a : Option κ) : (returned a).stopping = none := by
  cases a <;> rfl

omit [DecidableEq κ] in
theorem returned_ne_stopJoin (a : Option κ) (turn : ℕ) : returned a ≠ .stopJoin turn := by
  cases a <;> simp [returned]

/-- A `stop` returns; the destructor's must have joined the last thread. -/
theorem Ending.goto_returned (h : Ending s joined) (hstarting : (s.pcs a).starting = false)
    (hbegun : s.pcs a ≠ .idle)
    (hlast : a = none → s.running = false ∧ joined = s.starts) :
    Ending (s.goto a (returned a)) joined := by
  cases a with
  | some k => exact h.goto_some rfl (by simp [returned])
  | none => exact h.goto_none hbegun rfl (hlast rfl)

/-- The destructor's `stop` finds `running_` false: all threads made have been joined,
since no other `stop` is under way. -/
theorem Ending.stopExchange_false (he : Ending s joined) (hc : Chain s joined)
    (hpc : s.pcs a = .stopExchange) (hrunning : s.running = false)
    (hready : Ready s a .stopExchange) : Ending (s.goto a (returned a)) joined := by
  refine he.goto_returned (by rw [hpc]; rfl) (by simp [hpc]) fun ha => ?_
  have hjoined := hc.stopping.eq_of_none (hready ha hrunning)
  exact ⟨hrunning, by simpa [answered, hrunning] using hjoined⟩

/-- The destructor's `stop` joins: its turn is the last one. -/
theorem Ending.stopJoin (he : Ending s joined) (hc : Chain s joined) {turn : ℕ}
    (hpc : s.pcs a = .stopJoin turn) :
    Ending ({ s with serverThread := none }.goto a (returned a)) (joined + 1) := by
  have hturn := (hc.turn_of_stopJoin hpc).1
  have hbound := hc.stopping.bound a turn (by rw [hpc]; rfl)
  have hstarts := hbound.2.trans (answered_le s)
  refine (he.join (by omega) none).goto_returned (by simp [hpc, HttpPc.starting])
    (by simp [hpc]) fun ha => ?_
  have hclosing := he.closing
  rw [← ha, hpc] at hclosing
  exact ⟨hclosing.1, by rw [← hturn, hclosing.2]⟩

/-- **A call, or the destructor, in its turn.** -/
theorem chain_of_thread (hc : Chain s joined) (he : Ending s joined) (hready : Ready s a (s.pcs a))
    (h : threadNext a s = some t) : ∃ joined', Chain t joined' ∧ Ending t joined' := by
  unfold threadNext at h
  cases hpc : s.pcs a with
  | idle => simp [hpc] at h
  | startExchange =>
      have hstarting : (s.pcs a).starting = true := by rw [hpc]; rfl
      simp only [hpc] at h
      split at h
      · cases h
        refine ⟨joined, hc.goto (by rw [hpc]; rfl) (by rw [hpc]; rfl) (by simp), ?_⟩
        exact he.goto_start hstarting rfl (by simp)
      · rename_i hrunning
        cases h
        refine ⟨joined, hc.startExchange hpc (by simpa using hrunning), ?_⟩
        exact he.goto_start hstarting rfl (by simp)
  | startAssign turn =>
      have hstarting : (s.pcs a).starting = true := by rw [hpc]; rfl
      rw [hpc] at hready
      have hthread := (hc.serverThread_of_ready hpc hready).2
      simp only [hpc, hthread, Option.isSome_none, Bool.false_eq_true, if_false] at h
      cases h
      exact ⟨joined, hc.startAssign hpc hready, he.goto_start hstarting rfl (by simp)⟩
  | startReport =>
      have hstarting : (s.pcs a).starting = true := by rw [hpc]; rfl
      simp only [hpc] at h
      cases h
      refine ⟨joined, hc.goto (by rw [hpc]; rfl) (by rw [hpc]; rfl) (by simp), ?_⟩
      exact he.goto_start hstarting rfl (by simp)
  | delay =>
      simp only [hpc] at h
      cases h
      refine ⟨joined, hc.goto (by rw [hpc]; rfl) (by rw [hpc]; rfl) (by simp), ?_⟩
      exact he.goto_stop hpc (by simp) rfl (by simp) fun _ => trivial
  | stopExchange =>
      simp only [hpc] at h
      split at h
      · rename_i hrunning
        cases h
        refine ⟨joined, hc.stopExchange hpc hrunning, ?_⟩
        have hclear := he.clear s.serverThread
        exact hclear.goto_stop hpc (by simp) rfl (by simp) fun _ => ⟨rfl, rfl⟩
      · rename_i hrunning
        cases h
        refine ⟨joined, hc.goto (by rw [hpc, assigning_returned]; rfl)
          (by rw [hpc, stopping_returned]; rfl)
          fun turn hturn => absurd hturn (returned_ne_stopJoin a turn), ?_⟩
        rw [hpc] at hready
        exact he.stopExchange_false hc hpc (by simpa using hrunning) hready
  | stopServer turn =>
      simp only [hpc] at h
      cases h
      have hc' : Chain { s with stopped := true } joined :=
        ⟨hc.alive, hc.assigning, hc.stopping, hc.joining, hc.started⟩
      have he' : Ending { s with stopped := true } joined := ⟨he.closed, he.closing, he.callers⟩
      refine ⟨joined, hc'.goto (by simp [hpc, HttpPc.assigning]) (by simp [hpc, HttpPc.stopping])
        (by simp), ?_⟩
      exact he'.goto_stop hpc (by simp) rfl (by simp) id
  | stopTest turn =>
      rw [hpc] at hready
      obtain ⟨hle, hjoinable⟩ := hc.joinable_of_ready hpc hready
      simp only [hpc, hjoinable, if_true] at h
      cases h
      refine ⟨joined, hc.goto (by rw [hpc]; rfl) (by rw [hpc]; rfl) fun other hother => ?_, ?_⟩
      · cases hother
        exact hle
      · exact he.goto_stop hpc (by simp) rfl (by simp) id
  | stopJoin turn =>
      obtain ⟨-, thread, hthread⟩ := hc.turn_of_stopJoin hpc
      simp only [hpc, hthread] at h
      cases thread with
      | listen => cases h
      | clear => cases h
      | finished =>
          cases h
          exact ⟨joined + 1, hc.stopJoin hpc (by simp), he.stopJoin hc hpc⟩
  | destroyThread =>
      cases a with
      | some k => exact absurd hpc (he.callers k)
      | none =>
          have hclosing := he.closing
          rw [hpc] at hclosing
          have hthread := he.serverThread_eq_none hc hpc
          simp only [hpc, hthread, Option.isSome_none, Bool.false_eq_true, if_false] at h
          cases h
          refine ⟨joined, hc.goto (by rw [hpc]; rfl) (by rw [hpc]; rfl) (by simp), ?_⟩
          exact he.goto_none (by simp [hpc]) rfl hclosing
  | destroyed => simp [hpc] at h

/-- **An orderly step keeps the turns.** -/
theorem chain_of_step {l : HttpLabel κ} (hc : Chain s joined) (he : Ending s joined)
    (ho : Orderly s l) (h : Step s l t) : ∃ joined', Chain t joined' ∧ Ending t joined' := by
  obtain ⟨hnext, hdestroy⟩ := h
  unfold next at hnext
  split at hnext
  · cases hnext
  cases l with
  | callStart k =>
      simp only at hnext
      split at hnext
      case isFalse => cases hnext
      rename_i hidle
      cases hnext
      refine ⟨joined, hc.goto (by rw [hidle.2]; rfl) (by rw [hidle.2]; rfl) (by simp), ?_⟩
      exact he.goto_of_idle hidle.1 (by simp) rfl (by simp)
  | callStop k =>
      simp only at hnext
      split at hnext
      case isFalse => cases hnext
      rename_i hidle
      cases hnext
      refine ⟨joined, hc.goto (by rw [hidle.2]; rfl) (by rw [hidle.2]; rfl) (by simp), ?_⟩
      exact he.goto_some rfl (by simp)
  | handleStop k =>
      simp only at hnext
      split at hnext
      case isFalse => cases hnext
      rename_i hlisten
      cases hnext
      have hc' : Chain { s with shutdownRequested := true } joined :=
        ⟨hc.alive, hc.assigning, hc.stopping, hc.joining, hc.started⟩
      have he' : Ending { s with shutdownRequested := true } joined :=
        ⟨he.closed, he.closing, he.callers⟩
      refine ⟨joined, hc'.goto ?_ ?_ (by simp), he'.goto_some rfl (by simp)⟩
      · simp [hlisten.2, HttpPc.assigning]
      · simp [hlisten.2, HttpPc.stopping]
  | destroy =>
      simp only at hnext
      split at hnext
      case isFalse => cases hnext
      rename_i hidle
      cases hnext
      refine ⟨joined, hc.goto (by rw [hidle]; rfl) (by rw [hidle]; rfl) (by simp), ?_⟩
      refine ⟨Or.inr fun b => ?_, by rw [goto_pcs_self]; trivial, fun j => ?_⟩
      · cases b with
        | none => rw [goto_pcs_self]; rfl
        | some k =>
            rw [goto_pcs_of_ne s _ (by simp)]
            exact hdestroy rfl k
      · rw [goto_pcs_of_ne s _ (by simp)]
        exact he.callers j
  | thread a => exact chain_of_thread hc he ho hnext
  | listenFails =>
      simp only at hnext
      split at hnext
      case isFalse => cases hnext
      rename_i hlisten
      cases hnext
      exact ⟨joined, hc.setThread (by simp [hlisten]), he.closed, he.closing, he.callers⟩
  | listenReturns =>
      simp only at hnext
      split at hnext
      case isFalse => cases hnext
      rename_i hlisten
      cases hnext
      exact ⟨joined, hc.setThread (by simp [hlisten]), he.closed, he.closing, he.callers⟩
  | clear =>
      have hrunning : s.running = false := ho
      simp only at hnext
      split at hnext
      case isFalse => cases hnext
      rename_i hclear
      cases hnext
      have hc' : Chain { s with serverThread := some .finished } joined :=
        hc.setThread (by simp [hclear])
      rw [← hrunning]
      exact ⟨joined, hc', he.closed, he.closing, he.callers⟩

/-! ## Runs -/

omit [DecidableEq κ] in
theorem chain_initial : Chain (.initial : HttpServer κ) 0 :=
  ⟨rfl, .initial fun _ => rfl, .initial fun _ => rfl, by simp [initial], by simp [initial]⟩

omit [DecidableEq κ] in
theorem ending_initial : Ending (.initial : HttpServer κ) 0 :=
  ⟨Or.inl rfl, trivial, by simp [initial]⟩

/-- **No orderly run ends in `std::terminate`.** Whatever the calls, the requests and the
thread: `server_thread_` is not joinable when it is assigned, and not when the
destructor's `stop` has returned. -/
theorem lifecycle_of_run (tr : List (HttpLabel κ)) (s : HttpServer κ)
    (h : Run (only Step Orderly) .initial tr s) :
    s.terminated = false ∧
    (∀ a turn, s.pcs a = .startAssign turn → Orderly s (.thread a) → s.serverThread = none) ∧
    (s.pcs none = .destroyThread → s.serverThread = none) := by
  obtain ⟨joined, hc, he⟩ : ∃ joined, Chain s joined ∧ Ending s joined := by
    refine h.invariant (P := fun s => ∃ joined, Chain s joined ∧ Ending s joined) ?_
      ⟨0, chain_initial, ending_initial⟩
    rintro s l t ⟨joined, hc, he⟩ ⟨hstep, ho⟩
    exact chain_of_step hc he ho hstep
  refine ⟨hc.alive, fun a turn hpc ho => ?_, fun hpc => ?_⟩
  · rw [Orderly, hpc] at ho
    exact (hc.serverThread_of_ready hpc ho).2
  · exact he.serverThread_eq_none hc hpc

end

/-! ## Two runs -/

instance [Fintype κ] [DecidableEq κ] (s : HttpServer κ) (l : HttpLabel κ) :
    Decidable (Permitted s l) :=
  inferInstanceAs (Decidable (l = .destroy → ∀ k, (s.pcs (some k)).starting = false))

/-- A start, a request, and the destructor after the `stop` that the request has led to. -/
def stopByRequest : List (HttpLabel Bool) :=
  [.callStart false, .thread (some false), .thread (some false), .thread (some false),
    .handleStop true, .thread (some true), .thread (some true), .thread (some true),
    .thread (some true), .listenReturns, .clear, .thread (some true), .destroy, .thread none]

theorem lifecycle_of_run_stop :
    ∃ s, replay next stopByRequest .initial = some s ∧ s.starts = 1 ∧
      s.shutdownRequested = true ∧ s.pcs none = .destroyThread ∧ s.terminated = false ∧
      s.serverThread = none := by
  have hrun := run_only_replayed next (fun s l => Orderly s l ∧ Permitted s l) stopByRequest
    .initial (by decide +kernel)
  have horderly : Run (only Step Orderly) .initial stopByRequest _ :=
    hrun.mono fun s l t h => ⟨⟨h.1, h.2.2⟩, h.2.1⟩
  have hreplay := replay_of_run hrun.of_only
  have hend : (replay next stopByRequest .initial).map (fun s =>
      (s.starts, s.shutdownRequested, s.pcs none)) = some (1, true, .destroyThread) := by
    decide +kernel
  have hsafe := lifecycle_of_run stopByRequest _ horderly
  generalize replayed (fun l s => if Orderly s l ∧ Permitted s l then next l s else none)
    stopByRequest .initial _ = s at hsafe hreplay
  rw [hreplay] at hend
  simp only [Option.map_some, Option.some.injEq, Prod.mk.injEq] at hend
  exact ⟨s, hreplay, hend.1, hend.2.1, hend.2.2, hsafe.1, hsafe.2.2 hend.2.2⟩

/-- The port is in use: `listen` fails, and the thread clears `running_`. -/
def portInUse : List (HttpLabel Unit) :=
  [.callStart (), .thread (some ()), .thread (some ()), .listenFails, .clear, .thread (some ()),
    .destroy, .thread none]

/-- The destructor's `stop` finds `running_` false and returns with the thread still to
join; the end of the process is the next step. -/
theorem lifecycle_port_in_use :
    ∃ s t, Run Step .initial portInUse s ∧ s.pcs none = .destroyThread ∧
      s.serverThread = some .finished ∧ Step s (.thread none) t ∧ t.terminated = true := by
  have hrun := run_only_replayed next Permitted portInUse .initial (by decide +kernel)
  have hreplay := replay_of_run hrun.of_only
  have hend : (replay next portInUse .initial).map (fun s =>
      (s.pcs none, s.serverThread, s.terminated)) =
        some (.destroyThread, some .finished, false) := by decide +kernel
  generalize replayed (fun l s => if Permitted s l then next l s else none) portInUse .initial _ = s
    at hrun hreplay
  rw [hreplay] at hend
  simp only [Option.map_some, Option.some.injEq, Prod.mk.injEq] at hend
  refine ⟨s, s.terminate, hrun, hend.1, hend.2.1, ⟨?_, by simp [Permitted]⟩, rfl⟩
  simp [next, threadNext, hend]

end Pgw.HttpServer
