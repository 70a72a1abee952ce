import Pgw.Cdr.Rows
import Pgw.Lib.Journal
import Pgw.Session.Emissions
import Pgw.Session.WellFormed

/-!
# The session manager and its CDR file

The event callback of the server is a call of `write_record`, made inside the section that
changes the table: a creation, a timeout and a drained session are written while
`sessions_mutex_` is held, a rejection under the shared lock of the blacklist. Here the two
models run side by side. A section changes the store when it gets its lock; the events are
then handed to the writer one by one, and the lock is given back after the last of them.
Sections of other threads and the statements of other calls of `write_record` come in
between wherever the locks let them.

The file is what one run hands to the logger: the header and the lines since. On the disk the
rotating sink appends them to a file that is there already, and it deletes the oldest part
when there are too many. Rejections are in the file, but neither in the ledger of a subscriber
nor in the rows that are read back here. What the timestamps say is left out: concurrent calls
may mix them up.

## Main results

* `refines_journal` — the file is a journal of the events, exclusive but for rejections.
* `file_tells_table` — the table can be read back from the file at any time at which no
  section is at work on it.
-/
namespace Pgw.System
open TransitionSystem
open SessionManager
open CDRWriter (Platform Writers WriterPc WriterLabel writersNext WritersStep)

variable {ι : Type}

/-! ## The two together -/

/-- A thread that calls `emit_event`. -/
inductive Emitter (ι : Type) where
  | caller (i : ι)
  | cleanup
  | loop (k : ℕ)
  deriving DecidableEq

def emitterOf : Label ι → Option (Emitter ι)
  | .call i _ => some (.caller i)
  | .thread i _ => some (.caller i)
  | .cleanup _ => some .cleanup
  | .loop k _ => some (.loop k)
  | .destroy => none

/-- The step is a section under `sessions_mutex_`, exclusive or shared. -/
def takesSessions (s : Manager ι) : Label ι → Bool
  | .thread i _ =>
      match s.threads i with
      | .entered (.sessionExists _) => true
      | .entered (.removeSession _) => true
      | .entered (.updateSessionActivity _) => true
      | .touching _ _ => true
      | .checked _ => true
      | _ => false
  | .cleanup _ =>
      match s.cleanup with
      | .snapshot _ => true
      | .erase _ expired => !expired.isEmpty
      | _ => false
  | .loop k _ =>
      match s.loops k with
      | .pick => true
      | .erase _ => true
      | _ => false
  | _ => false

/-- The step is a section that has `blacklist_mutex_` for itself. -/
def writesBlacklist (s : Manager ι) : Label ι → Bool
  | .thread i _ =>
      match s.threads i with
      | .entered (.addToBlacklist _) => true
      | .entered (.removeFromBlacklist _) => true
      | _ => false
  | _ => false

structure Billing (ι : Type) where
  manager : Manager ι
  writers : Writers (Emitter ι)
  /-- The events of a section that its thread has still to hand to the callback. -/
  owed : Emitter ι → List SessionEvent
  /-- Who writes under the exclusive lock of the sessions. -/
  sessionsLock : Option (Emitter ι)

inductive BillingLabel (ι : Type) where
  | manager (l : Label ι)
  /-- The callback is called with the next event. -/
  | emit (e : Emitter ι)
  /-- A statement of `write_record`. -/
  | writer (e : Emitter ι)

def Billing.initial (cfg : Config) (clock : ℤ) : Billing ι where
  manager := .initial cfg clock
  writers := .initial
  owed := fun _ => []
  sessionsLock := none

def isIdle : WriterPc → Bool
  | .idle => true
  | _ => false

/-- The thread is still inside the section that it has begun. -/
def Billing.busy (b : Billing ι) (e : Emitter ι) : Bool :=
  !(b.owed e).isEmpty || !isIdle (b.writers.writers e)

section
variable [DecidableEq ι]

/-- The locks that a step of the manager needs can be had. -/
def Billing.Admits (b : Billing ι) (l : Label ι) : Prop :=
  (∀ e ∈ emitterOf l, b.busy e = false) ∧
    (takesSessions b.manager l = true → b.sessionsLock = none) ∧
    (writesBlacklist b.manager l = true →
      ∀ i, b.busy (.caller i) = true → b.sessionsLock = some (.caller i))

instance [Fintype ι] (b : Billing ι) (l : Label ι) : Decidable (b.Admits l) :=
  inferInstanceAs (Decidable (_ ∧ _ ∧ _))

/-- The events of a section, and its lock if there are any. -/
def Billing.commit (b : Billing ι) (cfg : Config) (l : Label ι) (manager : Manager ι) :
    Billing ι :=
  match emitterOf l with
  | none => { b with manager := manager }
  | some e =>
      let events := emitted cfg b.manager l
      { b with
        manager := manager
        owed := Function.update b.owed e events
        sessionsLock :=
          if takesSessions b.manager l = true ∧ events ≠ [] then some e else b.sessionsLock }

/-- The lock is given back when the last event of the section has been written. -/
def Billing.release (b : Billing ι) (e : Emitter ι) : Billing ι :=
  if b.sessionsLock = some e ∧ b.busy e = false then { b with sessionsLock := none } else b

def billingNext [Fintype ι] (p : Platform) (cfg : Config) (l : BillingLabel ι) (b : Billing ι) :
    Option (Billing ι) :=
  if b.manager.terminated then none
  else
    match l with
    | .manager l => if b.Admits l then (next cfg l b.manager).map (b.commit cfg l) else none
    | .emit e =>
        match b.owed e with
        | event :: rest =>
            (writersNext p (.call e event) b.writers).map fun writers =>
              { b with writers := writers, owed := Function.update b.owed e rest }
        | [] => none
    | .writer e =>
        (writersNext p (.writer e) b.writers).map fun writers =>
          Billing.release { b with writers := writers } e

def BillingStep [Fintype ι] (p : Platform) (cfg : Config) (b : Billing ι) (l : BillingLabel ι)
    (b' : Billing ι) : Prop :=
  billingNext p cfg l b = some b'

def Billing.Initial (cfg : Config) (b : Billing ι) : Prop := ∃ clock, b = Billing.initial cfg clock

/-- What the run has handed to the logger: the header and the lines of the records. -/
def Billing.file (b : Billing ι) : List StdString :=
  CDRWriter.header :: b.writers.lines.map Prod.snd

/-- No call to `remove_session` begins. -/
def NoManualRemoval (b : Billing ι) : BillingLabel ι → Prop
  | .manager l => NoRemoval b.manager l
  | _ => True

/-! ## The sections and their events -/

variable {p : Platform} {cfg : Config} {s t : Manager ι} {l : Label ι}

omit [DecidableEq ι] in
/-- Events are emitted by a thread. -/
theorem emitted_of_none (h : emitterOf l = none) : emitted cfg s l = [] := by
  cases l <;> first | rfl | cases h

omit [DecidableEq ι] in
/-- All but rejections are emitted under the lock of the sessions. -/
theorem takesSessions_of_emitted {event : SessionEvent} (hmem : event ∈ emitted cfg s l)
    (haction : event.action ≠ .rejected) : takesSessions s l = true := by
  cases l with
  | call i c => cases hmem
  | destroy => cases hmem
  | thread i env =>
      cases hpc : s.threads i with
      | entered c =>
          simp only [emitted, hpc] at hmem
          cases c with
          | createSession imsi =>
              simp only [firstSectionEmitted] at hmem
              split at hmem
              · rw [List.mem_singleton.mp hmem] at haction
                exact absurd rfl haction
              · cases hmem
          | _ => cases hmem
      | checked imsi => simp [takesSessions, hpc]
      | _ => simp [emitted, hpc] at hmem
  | cleanup env =>
      cases hpc : s.cleanup with
      | erase now expired =>
          cases expired with
          | nil => simp [emitted, hpc, cleanupEmitted] at hmem
          | cons imsi expired => simp [takesSessions, hpc]
      | _ => simp [emitted, hpc] at hmem
  | loop k env =>
      cases hpc : s.loops k with
      | erase imsi => simp [takesSessions, hpc]
      | _ => simp [emitted, hpc] at hmem

/-- With a callback that takes everything the events of a step are those it emits. -/
theorem events_of_delivered [Fintype ι] (hcfg : cfg.Delivers) (h : Step cfg s l t) :
    t.store.events = s.store.events ++ emitted cfg s l := by
  have hnext : next cfg l s = some t := h
  rw [hcfg.events_of_run (Run.single h)]
  simp [observed, hnext]

/-! ## The file as a journal -/

/-- The event of a call that has not yet written it. -/
def unwritten : WriterPc → List SessionEvent
  | .gmtime event => [event]
  | .strftime event => [event]
  | .info event _ => [event]
  | .count _ => []
  | .idle => []

/-- The events that a thread has still to write. -/
def Billing.waiting (b : Billing ι) (e : Emitter ι) : List SessionEvent :=
  unwritten (b.writers.writers e) ++ b.owed e

def Billing.journal (b : Billing ι) : Journal.State (Emitter ι) SessionEvent where
  committed := b.manager.store.events
  waiting := b.waiting
  written := b.writers.lines.map Prod.fst

/-- Entries that exclude each other. -/
def exclusive (event : SessionEvent) : Bool := decide (event.action ≠ .rejected)

variable {b b' : Billing ι} {e : Emitter ι}

omit [DecidableEq ι] in
theorem not_busy : b.busy e = false ↔ b.owed e = [] ∧ b.writers.writers e = .idle := by
  cases hpc : b.writers.writers e <;> simp [Billing.busy, isIdle, hpc]

omit [DecidableEq ι] in
theorem waiting_of_not_busy (h : b.busy e = false) : b.waiting e = [] := by
  obtain ⟨howed, hidle⟩ := not_busy.mp h
  rw [Billing.waiting, howed, hidle]
  rfl

/-- A step of the two is a step of the manager, a call of the callback or a statement. -/
inductive BillingMoves [Fintype ι] (p : Platform) (cfg : Config) (b : Billing ι) :
    BillingLabel ι → Billing ι → Prop where
  | manager (l : Label ι) (manager : Manager ι) (hadmits : b.Admits l)
      (hstep : Step cfg b.manager l manager) :
      BillingMoves p cfg b (.manager l) (b.commit cfg l manager)
  | emit (e : Emitter ι) (event : SessionEvent) (rest : List SessionEvent)
      (howed : b.owed e = event :: rest) (hidle : b.writers.writers e = .idle) :
      BillingMoves p cfg b (.emit e) { b with
        writers := b.writers.goto e (.gmtime event), owed := Function.update b.owed e rest }
  | writer (e : Emitter ι) (writers : Writers (Emitter ι))
      (hstep : WritersStep p b.writers (.writer e) writers) :
      BillingMoves p cfg b (.writer e) (Billing.release { b with writers := writers } e)

theorem billingMoves_of_step [Fintype ι] {l : BillingLabel ι} (h : BillingStep p cfg b l b') :
    BillingMoves p cfg b l b' := by
  unfold BillingStep billingNext at h
  split at h
  · cases h
  · cases l with
    | manager l =>
        dsimp only at h
        split at h
        · rename_i hadmits
          obtain ⟨manager, hstep, rfl⟩ := Option.map_eq_some_iff.mp h
          exact .manager l manager hadmits hstep
        · cases h
    | emit e =>
        dsimp only at h
        split at h
        · rename_i event rest howed
          obtain ⟨writers, hcall, rfl⟩ := Option.map_eq_some_iff.mp h
          rw [writersNext] at hcall
          split at hcall
          · rename_i hidle
            cases hcall
            exact .emit e event rest howed hidle
          · cases hcall
        · cases h
    | writer e =>
        obtain ⟨writers, hstep, rfl⟩ := Option.map_eq_some_iff.mp h
        exact .writer e writers hstep

/-- What a section adds to what its thread has to write. -/
theorem waiting_commit (hadmits : b.Admits l) (manager : Manager ι) (e : Emitter ι) :
    (b.commit cfg l manager).waiting e =
      if emitterOf l = some e then emitted cfg b.manager l else b.waiting e := by
  cases hemitter : emitterOf l with
  | none => simp [Billing.commit, Billing.waiting, hemitter]
  | some e' =>
      by_cases he : e = e'
      · subst he
        obtain ⟨_, hidle⟩ := not_busy.mp (hadmits.1 e hemitter)
        simp [Billing.commit, Billing.waiting, hemitter, hidle, unwritten]
      · have hne : e' ≠ e := fun heq => he heq.symm
        simp [Billing.commit, Billing.waiting, hemitter, he, hne]

/-- Handing an event over leaves it to be written. -/
theorem waiting_emit {event : SessionEvent} {rest : List SessionEvent}
    (howed : b.owed e = event :: rest) (hidle : b.writers.writers e = .idle) :
    Billing.waiting { b with
      writers := b.writers.goto e (.gmtime event), owed := Function.update b.owed e rest } =
      b.waiting := by
  funext k
  by_cases hk : k = e
  · subst hk
    simp [Billing.waiting, howed, hidle, unwritten]
  · simp [Billing.waiting, CDRWriter.goto_writers_of_ne _ _ hk, hk]

@[simp] theorem waiting_release (b : Billing ι) (e : Emitter ι) :
    (b.release e).waiting = b.waiting := by
  rw [Billing.release]
  split <;> rfl

/-- A statement writes the first event that waits, or none. -/
theorem waiting_writer {writers : Writers (Emitter ι)}
    (hstep : WritersStep p b.writers (.writer e) writers) :
    (Billing.waiting { b with writers := writers } = b.waiting ∧
      writers.lines = b.writers.lines) ∨
    ∃ event record rest, b.waiting e = event :: rest ∧
      Billing.waiting { b with writers := writers } = Function.update b.waiting e rest ∧
      writers.lines = b.writers.lines ++ [(event, record)] := by
  have hsame : ∀ {w : Writers (Emitter ι)} {pc : WriterPc}, w.writers = b.writers.writers →
      unwritten pc = unwritten (b.writers.writers e) →
      Billing.waiting { b with writers := w.goto e pc } = b.waiting := by
    intro w pc hwriters hpc
    funext k
    by_cases hk : k = e
    · subst hk
      simp [Billing.waiting, hpc]
    · simp [Billing.waiting, CDRWriter.goto_writers_of_ne _ _ hk, hwriters]
  obtain ⟨i, event, hl, _⟩ | ⟨i, event, hl, hpc, rfl⟩ | ⟨i, event, hl, hpc, rfl⟩ |
    ⟨i, event, record, hl, hpc, rfl⟩ | ⟨i, event, hl, hpc, rfl⟩ :=
      CDRWriter.step_cases hstep <;> cases hl
  · exact Or.inl ⟨hsame rfl (by simp [hpc, unwritten]), rfl⟩
  · exact Or.inl ⟨hsame rfl (by simp [hpc, unwritten]), rfl⟩
  · refine Or.inr ⟨event, record, b.owed e, by simp [Billing.waiting, hpc, unwritten], ?_, rfl⟩
    funext k
    by_cases hk : k = e
    · subst hk
      simp [Billing.waiting, unwritten]
    · simp [Billing.waiting, CDRWriter.goto_writers_of_ne _ _ hk, hk]
  · exact Or.inl ⟨hsame rfl (by simp [hpc, unwritten]), rfl⟩

/-- Who has something to write that others must not overtake has the lock. -/
def Billing.Locked (b : Billing ι) : Prop :=
  ∀ e, ∀ event ∈ b.waiting e, exclusive event = true → b.sessionsLock = some e

omit [DecidableEq ι] in
/-- With the lock free nothing exclusive waits. -/
theorem Billing.Locked.free (hb : b.Locked) (hfree : b.sessionsLock = none) (e : Emitter ι) :
    ∀ event ∈ b.waiting e, exclusive event = false := by
  intro event hmem
  by_contra hne
  have hheld := hb e event hmem (Bool.not_eq_false _ ▸ hne)
  rw [hfree] at hheld
  cases hheld

theorem Billing.Locked.commit (hb : b.Locked) (hadmits : b.Admits l) (manager : Manager ι) :
    (b.commit cfg l manager).Locked := by
  intro e event hmem hexclusive
  rw [waiting_commit hadmits] at hmem
  by_cases he : emitterOf l = some e
  · rw [if_pos he] at hmem
    have htakes := takesSessions_of_emitted hmem (of_decide_eq_true hexclusive)
    have hsome : emitted cfg b.manager l ≠ [] := List.ne_nil_of_mem hmem
    simp [Billing.commit, he, htakes, hsome]
  · rw [if_neg he] at hmem
    have hheld := hb e event hmem hexclusive
    have hothers : takesSessions b.manager l ≠ true := by
      intro htakes
      rw [hadmits.2.1 htakes] at hheld
      cases hheld
    cases hemitter : emitterOf l <;> simp [Billing.commit, hemitter, hothers, hheld]

theorem Billing.Locked.writer (hb : b.Locked) {writers : Writers (Emitter ι)}
    (hstep : WritersStep p b.writers (.writer e) writers) :
    (Billing.release { b with writers := writers } e).Locked := by
  intro k event hmem hexclusive
  rw [waiting_release] at hmem
  have hold : event ∈ b.waiting k := by
    rcases waiting_writer hstep with ⟨hsame, _⟩ | ⟨first, _, rest, hfirst, hrest, _⟩
    · rwa [hsame] at hmem
    · rw [hrest] at hmem
      by_cases hk : k = e
      · subst hk
        rw [Function.update_self] at hmem
        rw [hfirst]
        exact List.mem_cons_of_mem _ hmem
      · rwa [Function.update_of_ne hk] at hmem
  have hheld := hb k event hold hexclusive
  rw [Billing.release]
  split
  · rename_i hover
    have hke : k = e := Option.some.inj (hheld.symm.trans hover.1)
    rw [hke, waiting_of_not_busy hover.2] at hmem
    cases hmem
  · exact hheld

variable [Fintype ι]

theorem Billing.Locked.step (hb : b.Locked) {l : BillingLabel ι} (h : BillingMoves p cfg b l b') :
    b'.Locked := by
  cases h with
  | manager l manager hadmits _ => exact hb.commit hadmits manager
  | emit e event rest howed hidle =>
      rw [Billing.Locked, waiting_emit howed hidle]
      exact hb
  | writer e writers hstep => exact hb.writer hstep

theorem locked_of_reachable (h : Reachable (Billing.Initial cfg) (BillingStep p cfg) b) :
    b.Locked := by
  refine h.invariant (P := Billing.Locked) ?_ fun _ _ _ hb hstep =>
    hb.step (billingMoves_of_step hstep)
  rintro b₀ ⟨clock, rfl⟩ e event hmem
  cases hmem

omit [Fintype ι] in
theorem journal_release (b : Billing ι) (e : Emitter ι) : (b.release e).journal = b.journal := by
  rw [Billing.release]
  split <;> rfl

/-- A section commits the events that it emits. -/
theorem journal_of_section (hcfg : cfg.Delivers) (hb : b.Locked) (hadmits : b.Admits l)
    {manager : Manager ι} (hstep : Step cfg b.manager l manager) :
    ∃ acts, Run (Journal.Step exclusive) b.journal acts (b.commit cfg l manager).journal := by
  have hevents := events_of_delivered hcfg hstep
  cases hemitter : emitterOf l with
  | none =>
      rw [emitted_of_none hemitter, List.append_nil] at hevents
      refine ⟨[], ?_⟩
      have hsame : (b.commit cfg l manager).journal = b.journal := by
        simp only [Billing.commit, hemitter, Billing.journal, hevents]
        rfl
      rw [hsame]
      exact Run.nil _
  | some e =>
      have hnew : (b.commit cfg l manager).journal =
          ⟨b.manager.store.events ++ emitted cfg b.manager l,
            Function.update b.waiting e (emitted cfg b.manager l),
            b.writers.lines.map Prod.fst⟩ := by
        have hwaiting : (b.commit cfg l manager).waiting =
            Function.update b.waiting e (emitted cfg b.manager l) := by
          funext k
          rw [waiting_commit hadmits]
          by_cases hk : k = e
          · simp [hk, hemitter]
          · have hne : e ≠ k := fun heq => hk heq.symm
            simp [hk, hemitter, hne]
        rw [Billing.journal, hwaiting]
        simp only [Billing.commit, hemitter, hevents]
      rw [hnew]
      refine ⟨_, Run.single (.commit (waiting_of_not_busy (hadmits.1 e hemitter)) ?_)⟩
      rintro ⟨event, hmem, hexclusive⟩ k
      have htakes := takesSessions_of_emitted hmem (of_decide_eq_true hexclusive)
      exact hb.free (hadmits.2.1 htakes) k

omit [Fintype ι] in
/-- A statement of the writer writes what waits first, or nothing. -/
theorem journal_of_writer {writers : Writers (Emitter ι)}
    (hstep : WritersStep p b.writers (.writer e) writers) :
    ∃ acts, Run (Journal.Step exclusive) b.journal acts
      (Billing.release { b with writers := writers } e).journal := by
  rw [journal_release]
  rcases waiting_writer hstep with ⟨hwaiting, hlines⟩ |
    ⟨event, record, rest, hfirst, hwaiting, hlines⟩
  · refine ⟨[], ?_⟩
    have hsame : Billing.journal { b with writers := writers } = b.journal := by
      simp only [Billing.journal, hwaiting, hlines]
    rw [hsame]
    exact Run.nil _
  · have hnew : Billing.journal { b with writers := writers } =
        ⟨b.manager.store.events, Function.update b.waiting e rest,
          b.writers.lines.map Prod.fst ++ [event]⟩ := by
      simp [Billing.journal, hwaiting, hlines]
    rw [hnew]
    exact ⟨_, Run.single (.write hfirst)⟩

/-- **The file is a journal of the events**, exclusive but for the rejections. -/
theorem refines_journal (p : Platform) (hcfg : cfg.Delivers) :
    WeakSimulation (Billing.Initial cfg) (BillingStep p cfg) Journal.Initial
      (Journal.Step exclusive) (Billing.journal : Billing ι → _) := by
  constructor
  · rintro b ⟨clock, rfl⟩
    exact ⟨rfl, fun _ => rfl, rfl⟩
  · intro b l b' hreach hstep
    cases billingMoves_of_step hstep with
    | manager l manager hadmits hmanager =>
        exact journal_of_section hcfg (locked_of_reachable hreach) hadmits hmanager
    | emit e event rest howed hidle =>
        refine ⟨[], ?_⟩
        have hsame : Billing.journal { b with
            writers := b.writers.goto e (.gmtime event)
            owed := Function.update b.owed e rest } = b.journal := by
          rw [Billing.journal, waiting_emit howed hidle]
          rfl
        rw [hsame]
        exact Run.nil _
    | writer e writers hwriter => exact journal_of_writer hwriter

/-! ## What the file tells -/

omit [Fintype ι] in
@[simp] theorem manager_commit (b : Billing ι) (l : Label ι) (manager : Manager ι) :
    (b.commit cfg l manager).manager = manager := by
  rw [Billing.commit]
  split <;> rfl

omit [Fintype ι] in
@[simp] theorem writers_commit (b : Billing ι) (l : Label ι) (manager : Manager ι) :
    (b.commit cfg l manager).writers = b.writers := by
  rw [Billing.commit]
  split <;> rfl

omit [Fintype ι] in
@[simp] theorem manager_release (b : Billing ι) (e : Emitter ι) :
    (b.release e).manager = b.manager := by
  rw [Billing.release]
  split <;> rfl

omit [Fintype ι] in
@[simp] theorem writers_release (b : Billing ι) (e : Emitter ι) :
    (b.release e).writers = b.writers := by
  rw [Billing.release]
  split <;> rfl

/-- The manager beside the writer runs as it does alone. -/
theorem manager_of_reachable
    (h : Reachable (Billing.Initial cfg) (only (BillingStep p cfg) NoManualRemoval) b) :
    Reachable (Initial cfg) (only (Step cfg) NoRemoval) b.manager := by
  refine h.invariant
    (P := fun b => Reachable (Initial cfg) (only (Step cfg) NoRemoval) b.manager) ?_ ?_
  · rintro b ⟨clock, rfl⟩
    exact .of_init ⟨clock, rfl⟩
  · intro u l v hu hstep
    have hallowed := hstep.2
    cases billingMoves_of_step hstep.1 with
    | manager l manager _ hmanager =>
        rw [manager_commit]
        exact hu.tail ⟨hmanager, hallowed⟩
    | emit e event rest _ _ => exact hu
    | writer e writers _ =>
        rw [manager_release]
        exact hu

theorem titled_of_reachable (hp : p.NoComma)
    (h : Reachable (Billing.Initial cfg) (BillingStep p cfg) b) : CDRWriter.Titled b.writers := by
  refine h.invariant (P := fun b => CDRWriter.Titled b.writers) ?_ ?_
  · rintro b ⟨clock, rfl⟩
    exact CDRWriter.titled_initial
  · intro u l v hu hstep
    cases billingMoves_of_step hstep with
    | manager l manager _ _ =>
        rw [writers_commit]
        exact hu
    | emit e event rest _ hidle =>
        refine hu.step (l := .call e event) hp ?_
        simp [WritersStep, writersNext, hidle]
    | writer e writers hwriter =>
        rw [writers_release]
        exact hu.step hp hwriter

omit [Fintype ι] [DecidableEq ι] in
/-- The ledger of a subscriber is a matter of the exclusive entries. -/
theorem ledger_filter (imsi : StdString) (events : List SessionEvent) :
    ledger imsi events = ledger imsi (events.filter exclusive) := by
  simp only [ledger, exclusive, List.filter_filter]
  congr 1
  refine List.filter_congr fun event _ => ?_
  simp

/-- The table is what the ledgers say. -/
theorem mem_sessions_iff_ledger (hcfg : cfg.Delivers)
    (h : Reachable (Initial cfg) (only (Step cfg) NoRemoval) s) (imsi : StdString) :
    imsi ∈ s.store.sessions ↔ (ledger imsi s.store.events).getLast? = some .created := by
  obtain ⟨_, hmem⟩ := Ledger.reachable_balanced ((refines_ledger hcfg).reachable h) imsi
  rw [history_book] at hmem
  have hkey : imsi ∈ (book s.store).accounts ↔ imsi ∈ s.store.sessions := Finmap.mem_keys
  rw [← hkey, hmem, Ledger.EndsOpen]
  simp [List.getLast?_map]

/-- Every line is one of a proper subscriber. -/
theorem lines_of_reachable (hp : p.NoComma) (hcfg : cfg.Delivers)
    (h : Reachable (Billing.Initial cfg) (only (BillingStep p cfg) NoManualRemoval) b) :
    ∀ entry ∈ b.writers.lines,
      CDRWriter.IsLineOf entry.2 entry.1 ∧ IMSI.Valid entry.1.imsi := by
  have hjournal := (refines_journal p hcfg).reachable h.of_only
  have hformed := wellFormed_of_reaches (manager_of_reachable h).of_only
  intro entry hentry
  have hwritten : entry.1 ∈ b.journal.written := List.mem_map_of_mem hentry
  have hevent : entry.1 ∈ b.manager.store.events :=
    Journal.mem_committed_of_reachable hjournal hwritten
  exact ⟨(titled_of_reachable hp h.of_only).written entry hentry,
    hformed.store.events entry.1 hevent⟩

section File
variable (hlines : ∀ entry ∈ b.writers.lines,
  CDRWriter.IsLineOf entry.2 entry.1 ∧ IMSI.Valid entry.1.imsi)
include hlines

omit [Fintype ι] [DecidableEq ι] in
/-- The header adds nothing to the rows of a subscriber. -/
theorem actionsOf_file {imsi : StdString} (hvalid : IMSI.Valid imsi) :
    CDRWriter.actionsOf imsi b.file =
      (ledger imsi b.journal.written).map CDRWriter.actionToString := by
  rw [Billing.file, ← List.singleton_append, CDRWriter.actionsOf_append,
    CDRWriter.actionsOf_header hvalid, List.nil_append, CDRWriter.actionsOf_lines imsi hlines]
  rfl

omit [Fintype ι] [DecidableEq ι] in
/-- What is no IMSI is not active. -/
theorem valid_of_saysActive {imsi : StdString} (h : CDRWriter.saysActive imsi b.file = true) :
    IMSI.Valid imsi := by
  have hlast := List.mem_of_getLast? (of_decide_eq_true h)
  obtain ⟨row, hrow, haction⟩ := List.mem_map.mp hlast
  obtain ⟨hmem, hkept⟩ := List.mem_filter.mp hrow
  obtain ⟨himsi, _⟩ := of_decide_eq_true hkept
  obtain ⟨record, hrecord, hreads⟩ := List.mem_filterMap.mp hmem
  rcases List.mem_cons.mp hrecord with rfl | hline
  · have hheader : CDRWriter.rowOf CDRWriter.header = some (text "IMSI", text "action") := by
      decide +kernel
    rw [hheader, Option.some.injEq] at hreads
    rw [← hreads] at haction
    exact absurd haction (by decide +kernel)
  · obtain ⟨entry, hentry, rfl⟩ := List.mem_map.mp hline
    obtain ⟨hof, hvalid⟩ := hlines entry hentry
    rw [CDRWriter.rowOf_of_isLineOf hof hvalid, Option.some.injEq] at hreads
    rw [← himsi, ← hreads]
    exact hvalid

end File

/-- **The table can be read back from the file.** Whatever the threads write at the same
time, the rows of a subscriber, rejections left out, are always an initial part of its ledger,
which has no rejections; while no section is at work on the table, a subscriber is active
exactly if its last row, rejections left out, is a creation; and when nobody writes, the
lines are those of the manager's events, rejections included, each exactly once. Timestamps
apart, concurrent writers do the file no harm. -/
theorem file_tells_table (hp : p.NoComma) (hcfg : cfg.Delivers)
    (h : Reachable (Billing.Initial cfg) (only (BillingStep p cfg) NoManualRemoval) b) :
    (∀ imsi, IMSI.Valid imsi → CDRWriter.actionsOf imsi b.file <+:
      (ledger imsi b.manager.store.events).map CDRWriter.actionToString) ∧
    (b.sessionsLock = none →
      ∀ imsi, imsi ∈ b.manager.store.sessions ↔ CDRWriter.saysActive imsi b.file = true) ∧
    ((∀ e, b.busy e = false) →
      (b.writers.lines.map Prod.fst).Perm b.manager.store.events) := by
  have hmanager := manager_of_reachable h
  have hjournal := (refines_journal p hcfg).reachable h.of_only
  have hlines := lines_of_reachable hp hcfg h
  have horderly := Journal.orderly_of_reachable hjournal
  refine ⟨fun imsi hvalid => ?_, fun hfree imsi => ?_, fun hquiet => ?_⟩
  · rw [actionsOf_file hlines hvalid, ledger_filter imsi b.journal.written,
      ledger_filter imsi b.manager.store.events]
    exact ((horderly.begins.filter _).map _).map _
  · by_cases hvalid : IMSI.Valid imsi
    · have hcomplete := horderly.complete fun e => (locked_of_reachable h.of_only).free hfree e
      have hledger : ledger imsi b.journal.written = ledger imsi b.manager.store.events := by
        rw [ledger_filter, hcomplete, ← ledger_filter]
        rfl
      rw [mem_sessions_iff_ledger hcfg hmanager, CDRWriter.saysActive,
        actionsOf_file hlines hvalid, hledger, List.getLast?_map, decide_eq_true_iff]
      cases (ledger imsi b.manager.store.events).getLast? with
      | none => simp
      | some action => simp [CDRWriter.actionToString_injective.eq_iff]
    · refine iff_of_false (fun hmem => hvalid ?_) fun hactive => ?_
      · exact (wellFormed_of_reaches hmanager.of_only).store.valid_of_mem hmem
      · exact hvalid (valid_of_saysActive hlines hactive)
  · exact Journal.perm_of_reachable hjournal fun e => waiting_of_not_busy (hquiet e)

end

/-! One subscriber is created while another is refused, and the refusal reads the time
first. -/

private def banning : Config where
  sessionTimeout := 30
  shutdownRate := 1
  blacklist := {text "2"}
  eventCallback := some fun _ => none

private def crossing : List (BillingLabel Caller) :=
  [.manager (.call .first (.createSession (text "1"))),
    .manager (.call .second (.createSession (text "2"))),
    .manager (.thread .first (after 0 [])), .manager (.thread .first (after 0 [])),
    .manager (.thread .second (after 0 [])), .emit (.caller .second), .emit (.caller .first),
    .writer (.caller .second), .writer (.caller .first), .writer (.caller .first),
    .writer (.caller .first), .writer (.caller .first), .writer (.caller .second)]

private def crossed : Billing Caller :=
  replayed (billingNext CDRWriter.utc banning) crossing (.initial banning 0) (by decide +kernel)

/-- The refusal is not yet written. -/
theorem file_tells_table_crossed :
    CDRWriter.saysActive (text "1") crossed.file = true ∧
      text "2" ∉ crossed.manager.store.sessions := by
  have hrun : Run (BillingStep CDRWriter.utc banning) (.initial banning 0) crossing crossed :=
    run_replayed (billingNext CDRWriter.utc banning) crossing _ _
  have hallowed : ∀ l ∈ crossing, ∀ b, NoManualRemoval b l := by
    simp [crossing, NoManualRemoval, NoRemoval]
  have hdelivers : banning.Delivers := ⟨_, rfl, fun _ => rfl⟩
  obtain ⟨_, htable, _⟩ := file_tells_table CDRWriter.noComma_utc hdelivers
    ⟨_, crossing, ⟨0, rfl⟩, hrun.only_of_forall hallowed⟩
  have hfree : crossed.sessionsLock = none := by decide +kernel
  rw [← htable hfree, htable hfree]
  exact ⟨by decide +kernel, by decide +kernel⟩

end Pgw.System
