import Pgw.Session.Creations

/-!
# Each call of `create_session` and its record

The events `created` and `rejected` come from `create_session` alone. A call leaves at most
one, and which one can be told from the result: a section of the call puts on record exactly
what the result, when it is decided, owes.

## Main results

* `records_of_section` — a section records what its call then owes.
* `records_of_background` — no other step of the manager records anything.
-/
namespace Pgw.SessionManager
open TransitionSystem

/-- The part of an event that a call of `create_session` answers for. -/
def recordOf (event : SessionEvent) : Option (StdString × SessionAction) :=
  match event.action with
  | .created | .rejected => some (tag event)
  | _ => none

/-- The records of `create_session` among the events. -/
def records (events : List SessionEvent) : Multiset (StdString × SessionAction) :=
  ↑(events.filterMap recordOf)

/-- The records that the end of a call stands for. -/
def debt : Call → Completion Value → Multiset (StdString × SessionAction)
  | .createSession imsi, .returned (.result r) => announcement imsi r
  | _, _ => 0

/-- The records of a call that its caller has not been told of. -/
def ThreadPc.owed : ThreadPc → Multiset (StdString × SessionAction)
  | .returning c v => debt c v
  | _ => 0

theorem records_append (events events' : List SessionEvent) :
    records (events ++ events') = records events + records events' := by
  simp [records]

/-- How many of the records are about a subscriber. -/
def about (imsi : StdString) (m : Multiset (StdString × SessionAction)) : ℕ :=
  m.countP fun record => record.1 = imsi

@[simp] theorem about_zero (imsi : StdString) : about imsi 0 = 0 := Multiset.countP_zero _

@[simp] theorem about_add (imsi : StdString) (m m' : Multiset (StdString × SessionAction)) :
    about imsi (m + m') = about imsi m + about imsi m' := Multiset.countP_add _ _ _

theorem about_sum {α : Type} [Fintype α] (imsi : StdString)
    (f : α → Multiset (StdString × SessionAction)) :
    about imsi (∑ a, f a) = ∑ a, about imsi (f a) := by
  let count := Multiset.countPAddMonoidHom fun record : StdString × SessionAction =>
    record.1 = imsi
  exact map_sum count f Finset.univ

/-- A call leaves at most one record. -/
theorem about_debt_le (c : Call) (v : Completion Value) (imsi : StdString) :
    about imsi (debt c v) ≤ 1 := by
  unfold debt
  split
  · rename_i x r
    have hcard : (announcement x r).card ≤ 1 := by
      cases r <;> simp only [announcement] <;> (try split) <;> simp
    exact (Multiset.countP_le_card _ _).trans hcard
  · simp

/-- The record of a call is about the subscriber of the call. -/
theorem call_of_about_debt {c : Call} {v : Completion Value} {imsi : StdString}
    (h : 0 < about imsi (debt c v)) : c = .createSession imsi := by
  obtain ⟨record, hmem, himsi⟩ := Multiset.countP_pos.mp h
  unfold debt at hmem
  split at hmem
  · rename_i x r
    have hrecord : record.1 = x := by
      cases r <;> simp only [announcement] at hmem
      case created => rw [Multiset.mem_singleton.mp hmem]
      case alreadyExists => exact absurd hmem (Multiset.notMem_zero _)
      case blacklisted =>
        split at hmem
        · rw [Multiset.mem_singleton.mp hmem]
        · exact absurd hmem (Multiset.notMem_zero _)
    rw [← himsi, hrecord]
  · exact absurd hmem (Multiset.notMem_zero _)

section Steps
variable {ι : Type} [Fintype ι] [DecidableEq ι] {cfg : Config} {s t : Manager ι} {l : Label ι}

/-- A callback that never raises takes every call of a step. -/
theorem Config.Delivers.events_of_step (hcfg : cfg.Delivers) (h : Step cfg s l t) :
    t.store.events = s.store.events ++ emitted cfg s l := by
  rw [hcfg.events_of_run (Run.single h)]
  cases hnext : next cfg l s <;> simp [observed, hnext]

omit [Fintype ι] [DecidableEq ι] in
/-- The background threads end sessions. -/
theorem action_of_background (hthread : ∀ i env, l ≠ .thread i env) {event : SessionEvent}
    (h : event ∈ emitted cfg s l) :
    event.action = .timeout ∨ event.action = .gracefulShutdown := by
  cases l with
  | thread i env => exact absurd rfl (hthread i env)
  | cleanup env =>
      cases hpc : s.cleanup <;> simp only [emitted, hpc] at h
      case erase now expired => exact Or.inl (mem_cleanupEmitted h)
      all_goals cases h
  | loop k env =>
      cases hpc : s.loops k <;> simp only [emitted, hpc] at h
      case erase imsi =>
        split at h
        · rw [List.mem_singleton.mp h]
          exact Or.inr rfl
        · cases h
      all_goals cases h
  | call i c => cases h
  | destroy => cases h

/-- **Only the callers' own steps record anything.** -/
theorem records_of_background (hcfg : cfg.Delivers) (h : Step cfg s l t)
    (hthread : ∀ i env, l ≠ .thread i env) :
    records t.store.events = records s.store.events := by
  have hnothing : (emitted cfg s l).filterMap recordOf = [] := by
    rw [List.filterMap_eq_nil_iff]
    intro event hmem
    rcases action_of_background hthread hmem with haction | haction <;> simp [recordOf, haction]
  rw [hcfg.events_of_step h, records_append]
  simp [records, hnothing]

/-- Nor is anything recorded when a call has returned. -/
theorem records_of_return (hcfg : cfg.Delivers) {i : ι} {env : Ambient}
    (h : Step cfg s (.thread i env) t) {c : Call} {v : Completion Value}
    (hreturning : s.threads i = .returning c v) :
    records t.store.events = records s.store.events := by
  rw [hcfg.events_of_step h]
  simp [emitted, hreturning]

/-- The first section of `create_session` refuses with a record, or owes nothing yet. -/
theorem records_firstSection (hquiet : cfg.Quiet) (env : Ambient) (c : Call) (st : Store) :
    records (firstSectionEmitted env c st) = (firstSection cfg env c st).1.owed := by
  cases c with
  | createSession imsi =>
      rw [firstSection_createSession hquiet]
      by_cases hvalid : IMSI.Valid imsi <;> by_cases hbanned : imsi ∈ st.blacklist <;>
        simp [records, recordOf, firstSectionEmitted, ThreadPc.owed, debt, announcement, tag,
          hvalid, hbanned]
  | _ => rfl

/-- **A section of a call records what the call then owes.** -/
theorem records_of_section (hcfg : cfg.Delivers) {i : ι} {env : Ambient}
    (h : Step cfg s (.thread i env) t) (hnot : ∀ c v, s.threads i ≠ .returning c v) :
    records t.store.events = records s.store.events + (t.threads i).owed := by
  have hnext := (step_thread.mp h).2
  rw [hcfg.events_of_step h, records_append]
  congr 1
  cases hpc : s.threads i <;> simp only [threadNext, hpc] at hnext
  case idle => cases hnext
  case returning c v => exact absurd hpc (hnot c v)
  case entered c =>
    cases hnext
    rw [threads_goto, Function.update_self]
    simp only [emitted, hpc]
    exact records_firstSection hcfg.quiet env c s.store
  case checked imsi =>
    cases hnext
    rw [threads_goto, Function.update_self, createSessionTable_returned hcfg.quiet]
    by_cases hmem : imsi ∈ s.store.sessions <;>
      simp [emitted, hpc, hmem, records, recordOf, ThreadPc.owed, tableResult, debt, announcement,
        tag]
  case spawned k =>
    split at hnext <;> cases hnext <;> simp [emitted, hpc, records, ThreadPc.owed, debt]
  all_goals
    cases hnext
    simp [emitted, hpc, records, ThreadPc.owed, debt]

end Steps

end Pgw.SessionManager
