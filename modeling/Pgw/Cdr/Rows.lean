import Pgw.Cdr.Writers
import Pgw.Session.CdrLedger

/-!
# What the CDR file says about a subscriber

A reader splits every line at its commas and keeps the identity and the action; the
timestamp may be another call's, but it has no comma, so the other two columns are right
whatever the writers do to each other. The lines of a subscriber, rejections left out,
are then its ledger. The first line of the file is a header, which splits like a record
of a subscriber that no IMSI names.

## Main results

* `Titled.step` — a line has the identity and the action of its event.
* `actionsOf_lines` — the rows of a subscriber are its ledger.
-/
namespace Pgw.CDRWriter
open TransitionSystem SessionManager

/-! ## Reading the file -/

/-- The line that the constructor writes. -/
def header : StdString := text "# CDR Log - Format: timestamp,IMSI,action"

/-- The second and the third column. -/
def rowOf (record : StdString) : Option (StdString × StdString) :=
  match record.splitOn comma with
  | [_, imsi, action] => some (imsi, action)
  | _ => none

/-- The actions of a subscriber, rejections left out. -/
def actionsOf (imsi : StdString) (file : List StdString) : List StdString :=
  ((file.filterMap rowOf).filter fun row =>
    row.1 = imsi ∧ row.2 ≠ actionToString .rejected).map Prod.snd

/-- The last of them is a creation. -/
def saysActive (imsi : StdString) (file : List StdString) : Bool :=
  (actionsOf imsi file).getLast? = some (actionToString .created)

/-! ## Lines of events -/

/-- The line is right but for its timestamp. -/
def IsLineOf (record : StdString) (event : SessionEvent) : Prop :=
  ∃ timestamp, comma ∉ timestamp ∧ record = line timestamp event.imsi event.action

/-- The strings of the C library have no comma, whatever the `std::tm`. -/
def Platform.NoComma (p : Platform) : Prop := ∀ tm, comma ∉ p.strftime dateFormat tm

theorem comma_notMem_stdToString_natCast (n : ℕ) : comma ∉ stdToString n := by
  have hdigit : ∀ d : Fin 10, comma ≠ FixedWidth.digit d := by decide
  induction n using Nat.strongRecOn with
  | ind n ih =>
      by_cases hsmall : n < 10
      · rw [stdToString_digit hsmall, List.mem_singleton]
        exact hdigit ⟨n, hsmall⟩
      · rw [stdToString_snoc (by omega), List.mem_append, List.mem_singleton, not_or]
        exact ⟨ih (n / 10) (by omega), hdigit ⟨n % 10, by omega⟩⟩

theorem comma_notMem_stdToString (n : ℤ) : comma ∉ stdToString n := by
  have habs := comma_notMem_stdToString_natCast n.natAbs
  rw [stdToString_natCast] at habs
  rw [stdToString, List.mem_append, not_or]
  refine ⟨?_, habs⟩
  split <;> decide +kernel

theorem comma_notMem_stamp {buffer : StdString} (h : comma ∉ buffer) (ms : ℤ) :
    comma ∉ stamp buffer ms := by
  have hzero : comma ∉ text "0" := by decide +kernel
  have hpoint : comma ∉ text "." := by decide +kernel
  have hms := comma_notMem_stdToString ms
  simp only [stamp, List.mem_append, not_or]
  refine ⟨⟨⟨⟨h, hpoint⟩, ?_⟩, ?_⟩, hms⟩
  · split <;> simp [hzero]
  · split <;> simp [hzero]

theorem rowOf_of_isLineOf {record : StdString} {event : SessionEvent}
    (h : IsLineOf record event) (hvalid : IMSI.Valid event.imsi) :
    rowOf record = some (event.imsi, actionToString event.action) := by
  obtain ⟨timestamp, hcomma, rfl⟩ := h
  rw [rowOf, splitOn_line hcomma ⟨event.imsi, hvalid⟩ event.action]

theorem actionsOf_append (imsi : StdString) (file file' : List StdString) :
    actionsOf imsi (file ++ file') = actionsOf imsi file ++ actionsOf imsi file' := by
  simp [actionsOf, List.filterMap_append]

theorem actionsOf_of_row {imsi : StdString} {record : StdString} {event : SessionEvent}
    (h : rowOf record = some (event.imsi, actionToString event.action)) :
    actionsOf imsi [record] = (ledger imsi [event]).map actionToString := by
  have hrejected : actionToString event.action = actionToString .rejected ↔
      event.action = .rejected := actionToString_injective.eq_iff
  by_cases hkept : event.imsi = imsi ∧ event.action ≠ .rejected
  · simp [actionsOf, ledger, h, hrejected, hkept]
  · simp [actionsOf, ledger, h, hrejected, hkept]

/-- **The rows of a subscriber are its ledger.** -/
theorem actionsOf_lines (imsi : StdString) {lines : List (SessionEvent × StdString)}
    (h : ∀ entry ∈ lines, IsLineOf entry.2 entry.1 ∧ IMSI.Valid entry.1.imsi) :
    actionsOf imsi (lines.map Prod.snd) =
      (ledger imsi (lines.map Prod.fst)).map actionToString := by
  induction lines with
  | nil => rfl
  | cons entry lines ih =>
      obtain ⟨⟨hline, hvalid⟩, hrest⟩ := List.forall_mem_cons.mp h
      have hledger : ledger imsi (entry.1 :: lines.map Prod.fst) =
          ledger imsi [entry.1] ++ ledger imsi (lines.map Prod.fst) := by
        simp [ledger, ← List.map_append, ← List.filter_append]
      rw [List.map_cons, List.map_cons, ← List.singleton_append, actionsOf_append, ih hrest,
        actionsOf_of_row (rowOf_of_isLineOf hline hvalid), hledger, List.map_append]

/-- The header is no record of a subscriber. -/
theorem actionsOf_header {imsi : StdString} (hvalid : IMSI.Valid imsi) :
    actionsOf imsi [header] = [] := by
  have hrow : rowOf header = some (text "IMSI", text "action") := by decide +kernel
  have hne : text "IMSI" ≠ imsi := by
    rintro rfl
    exact absurd hvalid (by decide +kernel)
  simp [actionsOf, hrow, hne]

/-! ## The writers' lines -/

section Writers
variable {ι : Type} [DecidableEq ι] {p : Platform} {s t : Writers ι} {l : WriterLabel ι}

/-- The lines are those of their events, and those that are finished will be. -/
structure Titled (s : Writers ι) : Prop where
  written : ∀ entry ∈ s.lines, IsLineOf entry.2 entry.1
  finished : ∀ i event record, s.writers i = .info event record → IsLineOf record event

/-- Whatever `strftime` finds, the line is the event's but for the timestamp. -/
theorem Titled.step (hp : p.NoComma) (hs : Titled s) (h : WritersStep p s l t) : Titled t := by
  have hfinished : ∀ i pc, (∀ event record, pc = .info event record → IsLineOf record event) →
      ∀ j event record, (s.goto i pc).writers j = .info event record →
        IsLineOf record event := by
    intro i pc hpc
    exact forall_goto
      (P := fun pc => ∀ event record, pc = .info event record → IsLineOf record event)
      hs.finished hpc
  obtain ⟨i, event, -, -, rfl⟩ | ⟨i, event, -, -, rfl⟩ | ⟨i, event, -, -, rfl⟩ |
    ⟨i, event, record, -, hpc, rfl⟩ | ⟨i, event, -, -, rfl⟩ := step_cases h
  · exact ⟨hs.written, hfinished i _ (by simp)⟩
  · exact ⟨hs.written, hfinished i _ (by simp)⟩
  · refine ⟨hs.written, hfinished i _ fun e record heq => ?_⟩
    obtain ⟨rfl, rfl⟩ := WriterPc.info.inj heq
    exact ⟨_, comma_notMem_stamp (hp _) _, rfl⟩
  · refine ⟨fun entry hentry => ?_, hfinished i _ (by simp)⟩
    rcases List.mem_append.mp hentry with hold | hnew
    · exact hs.written entry hold
    · rw [List.mem_singleton.mp hnew]
      exact hs.finished i event record hpc
  · exact ⟨hs.written, hfinished i _ (by simp)⟩

omit [DecidableEq ι] in
theorem titled_initial : Titled (.initial : Writers ι) := by
  refine ⟨fun entry hentry => ?_, fun i event record hpc => ?_⟩
  · cases hentry
  · cases hpc

end Writers

/-- Digits, and what the format puts between them. -/
theorem noComma_utc : utc.NoComma := by
  intro tm hcomma
  change comma ∈ expand tm dateFormat at hcomma
  rw [expand_dateFormat] at hcomma
  obtain ⟨d, hd, hdigit⟩ | ⟨col, hcol, hafter⟩ := FixedWidth.mem_row hcomma
  · have hno : ∀ d : Fin 10, comma ≠ FixedWidth.digit d := by decide
    exact hno ⟨d, hd⟩ hdigit
  · have hno : ∀ col ∈ columns, comma ∉ col.after := by decide +kernel
    exact hno col hcol hafter

end Pgw.CDRWriter
