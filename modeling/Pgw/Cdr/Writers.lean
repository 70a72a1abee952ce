import Pgw.Cdr.Lines
import Pgw.Lib.TransitionSystem

/-!
# Many writers and one `std::tm`

Calls of `write_record` on any number of threads, statement by statement. `gmtime`
fills the one static result that the C library has, and `strftime` reads it later; the
rest of a line is local to its call. The logger takes its lock for a finished line, and
this is too late to keep two calls apart.

A line has its own event's time exactly if its `strftime` finds the result of a `gmtime`
for its own second. The second for which the result was filled is bookkeeping that no
step looks at.

## Main results

* `good_of_step`, `fresh_of_step` — a step keeps the lines right exactly if it is fresh.
* `written_own_iff` — the lines of a run are right exactly if its steps are fresh.
* `written_mixed` — two events under their locks, one of them with the other's second.
-/
namespace Pgw.CDRWriter
open TransitionSystem

/-! ## Calls -/

/-- The statement that a call of `write_record` is at. -/
inductive WriterPc where
  | idle
  | gmtime (event : SessionEvent)
  /-- `gmtime` has returned the address of its result. -/
  | strftime (event : SessionEvent)
  /-- The line is made; `cdr_logger_->info(record)` is next. -/
  | info (event : SessionEvent) (record : StdString)
  | count (event : SessionEvent)

structure Writers (ι : Type) where
  /-- The static result of `gmtime`. -/
  tm : Tm
  /-- The argument of the last call of `gmtime`. -/
  filledFor : Option ℤ
  writers : ι → WriterPc
  /-- What the logger has written for which event. -/
  lines : List (SessionEvent × StdString)
  totalRecords : ℕ

inductive WriterLabel (ι : Type) where
  | call (i : ι) (event : SessionEvent)
  | writer (i : ι)

variable {ι : Type}

def Writers.initial : Writers ι := ⟨⟨0, 0, 0, 0, 0, 0⟩, none, fun _ => .idle, [], 0⟩

section
variable [DecidableEq ι]

def Writers.goto (s : Writers ι) (i : ι) (pc : WriterPc) : Writers ι :=
  { s with writers := Function.update s.writers i pc }

/-- `write_record`, with `format_record` and `format_timestamp` in it. -/
def writerNext (p : Platform) (i : ι) (s : Writers ι) : Option (Writers ι) :=
  match s.writers i with
  | .idle => none
  | .gmtime event =>
      let time := p.toTimeT event.timestamp
      some ({ s with tm := p.gmtime time, filledFor := some time }.goto i (.strftime event))
  | .strftime event =>
      let ms := (p.toMilliseconds event.timestamp).tmod 1000
      let buffer := p.strftime dateFormat s.tm
      some (s.goto i (.info event (line (stamp buffer ms) event.imsi event.action)))
  | .info event record =>
      some ({ s with lines := s.lines ++ [(event, record)] }.goto i (.count event))
  | .count _ => some ({ s with totalRecords := s.totalRecords + 1 }.goto i .idle)

def writersNext (p : Platform) (l : WriterLabel ι) (s : Writers ι) : Option (Writers ι) :=
  match l with
  | .call i event =>
      match s.writers i with
      | .idle => some (s.goto i (.gmtime event))
      | _ => none
  | .writer i => writerNext p i s

def WritersStep (p : Platform) (s : Writers ι) (l : WriterLabel ι) (t : Writers ι) : Prop :=
  writersNext p l s = some t

end

/-! ## Own time -/

/-- `format_record` of the event alone. -/
def own (p : Platform) (event : SessionEvent) : StdString :=
  formatRecord p event.imsi event.action event.timestamp

/-- Every line is that of its event. -/
def WrittenOwn (p : Platform) (s : Writers ι) : Prop := ∀ entry ∈ s.lines, entry.2 = own p entry.1

/-- The lines are, and those that are finished will be. -/
structure Good (p : Platform) (s : Writers ι) : Prop where
  written : WrittenOwn p s
  finished : ∀ i event record, s.writers i = .info event record → record = own p event

/-- When a call gets to `strftime`, the last `gmtime` of all calls was for its second. -/
def Fresh (p : Platform) (s : Writers ι) : WriterLabel ι → Prop
  | .writer i =>
      match s.writers i with
      | .strftime event => s.filledFor = some (p.toTimeT event.timestamp)
      | _ => True
  | .call _ _ => True

/-- The result is the one of the last `gmtime`, and there is one when it is read. -/
structure Filled (p : Platform) (s : Writers ι) : Prop where
  tm : ∀ time, s.filledFor = some time → s.tm = p.gmtime time
  read : ∀ i event, s.writers i = .strftime event → ∃ time, s.filledFor = some time

def WriterPc.event : WriterPc → Option SessionEvent
  | .gmtime event => some event
  | .strftime event => some event
  | .info event _ => some event
  | .count event => some event
  | .idle => none

/-- Nothing but seconds from 1970 through the year 9999. -/
structure InTime (p : Platform) (s : Writers ι) : Prop where
  calls : ∀ i event, (s.writers i).event = some event → InRange p event.timestamp
  filled : ∀ time, s.filledFor = some time → IsSecond time

/-- Calls are made for time points in range. -/
def CallsInRange (p : Platform) : WriterLabel ι → Prop
  | .call _ event => InRange p event.timestamp
  | .writer _ => True

/-! ## One step -/

section
variable [DecidableEq ι] {p : Platform} {s t : Writers ι} {l : WriterLabel ι}

/-- What a step can do. -/
theorem step_cases (h : WritersStep p s l t) :
    (∃ i event, l = .call i event ∧ s.writers i = .idle ∧ t = s.goto i (.gmtime event)) ∨
    (∃ i event, l = .writer i ∧ s.writers i = .gmtime event ∧
      t = { s with
        tm := p.gmtime (p.toTimeT event.timestamp)
        filledFor := some (p.toTimeT event.timestamp) }.goto i (.strftime event)) ∨
    (∃ i event, l = .writer i ∧ s.writers i = .strftime event ∧
      t = s.goto i (.info event (line (stamp (p.strftime dateFormat s.tm)
        ((p.toMilliseconds event.timestamp).tmod 1000)) event.imsi event.action))) ∨
    (∃ i event record, l = .writer i ∧ s.writers i = .info event record ∧
      t = { s with lines := s.lines ++ [(event, record)] }.goto i (.count event)) ∨
    (∃ i event, l = .writer i ∧ s.writers i = .count event ∧
      t = { s with totalRecords := s.totalRecords + 1 }.goto i .idle) := by
  cases l with
  | call i event =>
      rw [WritersStep, writersNext] at h
      split at h
      case h_1 hpc => exact Or.inl ⟨i, event, rfl, hpc, (Option.some.inj h).symm⟩
      case h_2 => cases h
  | writer i =>
      rw [WritersStep, writersNext, writerNext] at h
      split at h
      case h_1 => cases h
      case h_2 event hpc =>
        exact Or.inr (Or.inl ⟨i, event, rfl, hpc, (Option.some.inj h).symm⟩)
      case h_3 event hpc =>
        exact Or.inr (Or.inr (Or.inl ⟨i, event, rfl, hpc, (Option.some.inj h).symm⟩))
      case h_4 event record hpc =>
        exact Or.inr (Or.inr (Or.inr (Or.inl ⟨i, event, record, rfl, hpc,
          (Option.some.inj h).symm⟩)))
      case h_5 event hpc =>
        exact Or.inr (Or.inr (Or.inr (Or.inr ⟨i, event, rfl, hpc, (Option.some.inj h).symm⟩)))

@[simp] theorem goto_writers_self (s : Writers ι) (i : ι) (pc : WriterPc) :
    (s.goto i pc).writers i = pc := by
  simp [Writers.goto]

theorem goto_writers_of_ne (s : Writers ι) {i j : ι} (pc : WriterPc) (h : j ≠ i) :
    (s.goto i pc).writers j = s.writers j := by
  simp [Writers.goto, h]

/-- A property of all calls is kept when one of them moves on with it. -/
theorem forall_goto {P : WriterPc → Prop} (hs : ∀ j, P (s.writers j)) {i : ι} {pc : WriterPc}
    (hpc : P pc) (j : ι) : P ((s.goto i pc).writers j) :=
  (Function.forall_update_iff s.writers fun _ pc => P pc).mpr ⟨hpc, fun k _ => hs k⟩ j

/-- The result is looked at only once it has been filled. -/
theorem Filled.step (hs : Filled p s) (h : WritersStep p s l t) : Filled p t := by
  have hread : ∀ i pc, (∀ event, pc ≠ .strftime event) → ∀ j event,
      (s.goto i pc).writers j = .strftime event → ∃ time, s.filledFor = some time := by
    intro i pc hpc
    exact fun j event => forall_goto
      (P := fun pc => pc = .strftime event → ∃ time, s.filledFor = some time)
      (fun k => hs.read k event) (fun heq => absurd heq (hpc event)) j
  obtain ⟨i, event, -, -, rfl⟩ | ⟨i, event, -, -, rfl⟩ | ⟨i, event, -, -, rfl⟩ |
    ⟨i, event, record, -, -, rfl⟩ | ⟨i, event, -, -, rfl⟩ := step_cases h
  · exact ⟨hs.tm, hread i _ (by simp)⟩
  · refine ⟨fun time htime => ?_, fun j e _ => ⟨_, rfl⟩⟩
    rw [← Option.some.inj htime]
    rfl
  · exact ⟨hs.tm, hread i _ (by simp)⟩
  · exact ⟨hs.tm, hread i _ (by simp)⟩
  · exact ⟨hs.tm, hread i _ (by simp)⟩

/-- The time points of the calls are those they were made with. -/
theorem InTime.step (hs : InTime p s) (hl : CallsInRange p l) (h : WritersStep p s l t) :
    InTime p t := by
  have hcalls : ∀ i pc, (∀ event, pc.event = some event → InRange p event.timestamp) →
      ∀ j event, ((s.goto i pc).writers j).event = some event → InRange p event.timestamp := by
    intro i pc hpc
    exact forall_goto
      (P := fun pc => ∀ event, pc.event = some event → InRange p event.timestamp) hs.calls hpc
  have hsame : ∀ {i} {pc pc' : WriterPc}, s.writers i = pc → pc'.event = pc.event →
      ∀ event, pc'.event = some event → InRange p event.timestamp := by
    intro i pc pc' hpc hevent event he
    rw [hevent, ← hpc] at he
    exact hs.calls i event he
  obtain ⟨i, event, rfl, -, rfl⟩ | ⟨i, event, -, hpc, rfl⟩ | ⟨i, event, -, hpc, rfl⟩ |
    ⟨i, event, record, -, hpc, rfl⟩ | ⟨i, event, -, hpc, rfl⟩ := step_cases h
  · refine ⟨hcalls i _ fun e he => ?_, hs.filled⟩
    rw [← Option.some.inj he]
    exact hl
  · refine ⟨hcalls i _ (hsame hpc rfl), fun time htime => ?_⟩
    rw [← Option.some.inj htime]
    exact (hs.calls i event (by rw [hpc]; rfl)).isSecond
  · exact ⟨hcalls i _ (hsame hpc rfl), hs.filled⟩
  · exact ⟨hcalls i _ (hsame hpc rfl), hs.filled⟩
  · exact ⟨hcalls i _ (by simp [WriterPc.event]), hs.filled⟩

/-- **A fresh step keeps the lines right**: the string that it reads is the one of the
event's own second. -/
theorem good_of_step (hs : Good p s) (hfilled : Filled p s) (hfresh : Fresh p s l)
    (h : WritersStep p s l t) : Good p t := by
  have hfinished : ∀ i pc, (∀ event record, pc = .info event record → record = own p event) →
      ∀ j event record, (s.goto i pc).writers j = .info event record → record = own p event := by
    intro i pc hpc
    exact forall_goto
      (P := fun pc => ∀ event record, pc = .info event record → record = own p event)
      hs.finished hpc
  obtain ⟨i, event, -, -, rfl⟩ | ⟨i, event, -, -, rfl⟩ | ⟨i, event, rfl, hpc, rfl⟩ |
    ⟨i, event, record, -, hpc, rfl⟩ | ⟨i, event, -, -, rfl⟩ := step_cases h
  · exact ⟨hs.written, hfinished i _ (by simp)⟩
  · exact ⟨hs.written, hfinished i _ (by simp)⟩
  · refine ⟨hs.written, hfinished i _ fun e record heq => ?_⟩
    have htime : s.filledFor = some (p.toTimeT event.timestamp) := by
      simpa [Fresh, hpc] using hfresh
    obtain ⟨rfl, rfl⟩ := WriterPc.info.inj heq
    rw [hfilled.tm _ htime]
    rfl
  · refine ⟨fun entry hentry => ?_, hfinished i _ (by simp)⟩
    obtain hold | hnew := List.mem_append.mp hentry
    · exact hs.written entry hold
    · rw [List.mem_singleton.mp hnew]
      exact hs.finished i event record hpc
  · exact ⟨hs.written, hfinished i _ (by simp)⟩

/-- The string of the second can be told from the line. -/
theorem buffer_of_line {buffer buffer' imsi : StdString} {ms : ℤ} {action : SessionAction}
    (h : line (stamp buffer ms) imsi action = line (stamp buffer' ms) imsi action) :
    buffer = buffer' := by
  simpa [line, stamp] using h

/-- **Nothing else does.** A line with another second's string stays wrong, since the
strings of seconds differ. -/
theorem fresh_of_step (hp : Renders p) (hfilled : Filled p s) (htime : InTime p s)
    (h : WritersStep p s l t) (ht : Good p t) : Good p s ∧ Fresh p s l := by
  have hothers : ∀ {i pc}, (∀ j event record, (s.goto i pc).writers j = .info event record →
        record = own p event) →
      ∀ j, j ≠ i → ∀ event record, s.writers j = .info event record → record = own p event := by
    intro i pc hgoto j hj event record hpc
    exact hgoto j event record ((goto_writers_of_ne s pc hj).trans hpc)
  have hfinished : ∀ {i pc}, (∀ j event record, (s.goto i pc).writers j = .info event record →
        record = own p event) → (∀ event record, s.writers i ≠ .info event record) →
      ∀ j event record, s.writers j = .info event record → record = own p event := by
    intro i pc hgoto hpc j event record hj
    by_cases hji : j = i
    · exact absurd (hji ▸ hj) (hpc event record)
    · exact hothers hgoto j hji event record hj
  obtain ⟨i, event, rfl, hpc, rfl⟩ | ⟨i, event, rfl, hpc, rfl⟩ | ⟨i, event, rfl, hpc, rfl⟩ |
    ⟨i, event, record, rfl, hpc, rfl⟩ | ⟨i, event, rfl, hpc, rfl⟩ := step_cases h
  · exact ⟨⟨ht.written, hfinished (i := i) ht.finished (by simp [hpc])⟩, trivial⟩
  · exact ⟨⟨ht.written, hfinished (i := i) ht.finished (by simp [hpc])⟩, by simp [Fresh, hpc]⟩
  · refine ⟨⟨ht.written, hfinished (i := i) ht.finished (by simp [hpc])⟩, ?_⟩
    have hline := ht.finished i event _ (goto_writers_self s i _)
    have hbuffer := buffer_of_line hline
    obtain ⟨time, hfor⟩ := hfilled.read i event hpc
    have hown : IsSecond (p.toTimeT event.timestamp) :=
      (htime.calls i event (by rw [hpc]; rfl)).isSecond
    rw [hfilled.tm time hfor] at hbuffer
    have heq := hp.injective time _ (htime.filled time hfor) hown hbuffer
    simpa [Fresh, hpc, hfor] using heq
  · have hwritten : ∀ entry ∈ s.lines ++ [(event, record)], entry.2 = own p entry.1 := ht.written
    simp only [List.forall_mem_append, List.forall_mem_singleton] at hwritten
    refine ⟨⟨hwritten.1, fun j e r hj => ?_⟩, by simp [Fresh, hpc]⟩
    by_cases hji : j = i
    · rw [hji, hpc] at hj
      obtain ⟨rfl, rfl⟩ := WriterPc.info.inj hj
      exact hwritten.2
    · exact hothers (i := i) ht.finished j hji e r hj
  · exact ⟨⟨ht.written, hfinished (i := i) ht.finished (by simp [hpc])⟩, by simp [Fresh, hpc]⟩

/-! ## Runs -/

omit [DecidableEq ι] in
theorem good_initial : Good p (.initial : Writers ι) := by
  refine ⟨fun entry hentry => ?_, fun i event record hpc => ?_⟩
  · cases hentry
  · cases hpc

omit [DecidableEq ι] in
theorem filled_initial : Filled p (.initial : Writers ι) := by
  refine ⟨fun time htime => ?_, fun i event hpc => ?_⟩
  · cases htime
  · cases hpc

omit [DecidableEq ι] in
theorem inTime_initial : InTime p (.initial : Writers ι) := by
  refine ⟨fun i event hpc => ?_, fun time htime => ?_⟩
  · cases hpc
  · cases htime

/-- Nothing finished and not yet written. -/
def Settled (s : Writers ι) : Prop := ∀ i event record, s.writers i ≠ .info event record

/-- A run up to some step keeps what the end of it shows. -/
theorem fresh_of_run (hp : Renders p) {tr : List (WriterLabel ι)}
    (h : Run (WritersStep p) .initial tr s) (htr : ∀ l ∈ tr, CallsInRange p l) (hs : Good p s) :
    Run (only (WritersStep p) (Fresh p)) .initial tr s := by
  induction h with
  | nil => exact Run.nil _
  | snoc hrun hlast ih =>
      simp only [List.forall_mem_append, List.forall_mem_singleton] at htr
      have hfilled := hrun.invariant (fun _ _ _ hs h => Filled.step hs h) filled_initial
      have htime := hrun.invariant_of_labels (fun _ _ _ hs hl h => InTime.step hs hl h) htr.1
        inTime_initial
      obtain ⟨hgood, hfresh⟩ := fresh_of_step hp hfilled htime hlast hs
      exact Run.snoc (ih htr.1 hgood) ⟨hlast, hfresh⟩

/-- **Lines have their own time exactly in the fresh runs.** Every line of a run in which
each `strftime` finds what a `gmtime` for its own second has left; and once all calls
have written, no other run has its lines right. -/
theorem written_own_iff (p : Platform) (tr : List (WriterLabel ι)) (s : Writers ι) :
    (Run (only (WritersStep p) (Fresh p)) .initial tr s → WrittenOwn p s) ∧
    (Renders p → (∀ l ∈ tr, CallsInRange p l) → Run (WritersStep p) .initial tr s → Settled s →
      WrittenOwn p s → Run (only (WritersStep p) (Fresh p)) .initial tr s) := by
  refine ⟨fun h => ?_, fun hp htr h hsettled hwritten => ?_⟩
  · have hboth : Good p s ∧ Filled p s := by
      refine h.invariant (P := fun s => Good p s ∧ Filled p s) ?_ ⟨good_initial, filled_initial⟩
      rintro s l t ⟨hgood, hfilled⟩ ⟨hstep, hfresh⟩
      exact ⟨good_of_step hgood hfilled hfresh hstep, hfilled.step hstep⟩
    exact hboth.1.written
  · refine fresh_of_run hp h htr ⟨hwritten, fun i event record hpc => ?_⟩
    exact absurd hpc (hsettled i event record)

end

/-- Created and refused in the same second. -/
def together : List (WriterLabel Bool) :=
  [.call false ⟨text "123456789012345", .created, 1705329025000000000⟩,
    .call true ⟨text "987654321098765", .rejected, 1705329025999000000⟩, .writer false,
    .writer true, .writer false, .writer true, .writer true, .writer false, .writer true,
    .writer false]

/-- Both calls fill the result before one of them reads it, with the same second. -/
theorem written_own_together :
    ∃ s, Run (only (WritersStep utc) (Fresh utc)) .initial together s ∧ s.lines.length = 2 ∧
      WrittenOwn utc s := by
  have hrun := run_replayed (writersNext utc) together .initial (by decide +kernel)
  generalize hs : replayed (writersNext utc) together .initial _ = s at hrun
  have hlines : s.lines.length = 2 := by
    rw [← hs]
    decide +kernel
  have hwritten : WrittenOwn utc s := by
    rw [← hs]
    intro entry hentry
    revert entry hentry
    decide +kernel
  have hsettled : Settled s := by
    have hdone : ∀ i, (s.writers i).event.isNone = true := by
      rw [← hs]
      decide +kernel
    intro i event record hpc
    have hi := hdone i
    rw [hpc] at hi
    cases hi
  have hrange : ∀ l ∈ together, CallsInRange utc l := by
    simp [together, CallsInRange, InRange, utc, Calendar.horizon]
  have hfresh := (written_own_iff utc together s).2 renders_utc hrange hrun hsettled hwritten
  exact ⟨s, hfresh, hlines, (written_own_iff utc together s).1 hfresh⟩

/-! ## Under the locks of the session manager -/

/-- REJECTED is written under the shared lock of the blacklist, all other actions under
the lock of the sessions. -/
def Locked (s : Writers ι) : WriterLabel ι → Prop
  | .call _ event =>
      event.action ≠ .rejected → ∀ i, ∀ other ∈ (s.writers i).event, other.action = .rejected
  | .writer _ => True

instance [Fintype ι] (s : Writers ι) (l : WriterLabel ι) : Decidable (Locked s l) :=
  match l with
  | .call _ event => inferInstanceAs (Decidable (event.action ≠ .rejected →
      ∀ i, ∀ other ∈ (s.writers i).event, other.action = .rejected))
  | .writer _ => inferInstanceAs (Decidable True)

/-- Refused in the last millisecond of one second. -/
def refused : SessionEvent := ⟨text "987654321098765", .rejected, 1705329024999000000⟩

/-- Created in the first one of the next. -/
def created : SessionEvent := ⟨text "123456789012345", .created, 1705329025000000000⟩

/-- Both calls fill the result before one of them reads it. -/
def mixed : List (WriterLabel Bool) :=
  [.call false refused, .call true created, .writer false, .writer true, .writer false,
    .writer true, .writer false, .writer true, .writer false, .writer true]

/-- The refusal gets the second of the creation and keeps its own fraction: a time at
which nothing has happened yet. -/
theorem written_mixed :
    ∃ s, Run (only (WritersStep utc) Locked) .initial mixed s ∧
      s.lines = [(refused, text "2024-01-15 14:30:25.999,987654321098765,REJECTED"),
        (created, text "2024-01-15 14:30:25.000,123456789012345,CREATED")] ∧
      own utc refused = text "2024-01-15 14:30:24.999,987654321098765,REJECTED" ∧
      ¬ WrittenOwn utc s := by
  have hlines : (replayed (fun l s => if Locked s l then writersNext utc l s else none) mixed
        .initial (by decide +kernel)).lines =
      [(refused, text "2024-01-15 14:30:25.999,987654321098765,REJECTED"),
        (created, text "2024-01-15 14:30:25.000,123456789012345,CREATED")] := by decide +kernel
  refine ⟨_, run_only_replayed (writersNext utc) Locked mixed .initial (by decide +kernel), hlines,
    by decide +kernel, fun hown => ?_⟩
  have hfirst := hown _ (hlines ▸ List.mem_cons_self)
  exact absurd hfirst (by decide +kernel)

end Pgw.CDRWriter
