import Mathlib.Data.Multiset.MapFold
import Mathlib.Algebra.BigOperators.Group.Finset.Basic
import Mathlib.Tactic.Abel
import Pgw.Session.Endings
import Pgw.Session.GracefulShutdown

/-!
# Concurrent creations do not depend on their order

A call of `create_session` looks at the blacklist and at the table in two sections,
and other calls come in between. While keys only come and the blacklist stays, the
call acts as if it did everything in the section that decides its result: `attempt`
is that single step. Two attempts commute, so what a number of them leaves is a
function of their multiset, and every interleaving computes that function.
-/
namespace Pgw.SessionManager
open TransitionSystem Completion

/-! ## One call as one step -/

/-- What calls have come to: the keys, the results by string, the events by string
and action. -/
structure Outcome where
  keys : Finset StdString
  results : Multiset (StdString × CreateResult)
  events : Multiset (StdString × SessionAction)
  deriving DecidableEq

/-- The result for a string, given the keys. -/
def verdict (blacklist keys : Finset StdString) (imsi : StdString) : CreateResult :=
  if ¬ IMSI.Valid imsi ∨ imsi ∈ blacklist then .blacklisted
  else if imsi ∈ keys then .alreadyExists
  else .created

/-- The events that go with a result; an improper string is refused without one. -/
def announcement (imsi : StdString) : CreateResult → Multiset (StdString × SessionAction)
  | .created => {(imsi, .created)}
  | .alreadyExists => 0
  | .blacklisted => if IMSI.Valid imsi then {(imsi, .rejected)} else 0

def keysAfter (keys : Finset StdString) (imsi : StdString) : CreateResult → Finset StdString
  | .created => insert imsi keys
  | _ => keys

/-- A call of `create_session`, all at once. -/
def attempt (blacklist : Finset StdString) (o : Outcome) (imsi : StdString) : Outcome where
  keys := keysAfter o.keys imsi (verdict blacklist o.keys imsi)
  results := o.results + {(imsi, verdict blacklist o.keys imsi)}
  events := o.events + announcement imsi (verdict blacklist o.keys imsi)

section Attempt
variable {blacklist keys : Finset StdString} {x y : StdString}

theorem mem_keysAfter_of_ne (h : y ≠ x) (r : CreateResult) : y ∈ keysAfter keys x r ↔ y ∈ keys := by
  cases r <;> simp [keysAfter, h]

/-- A call for one string does not change the result for another. -/
theorem verdict_keysAfter (h : y ≠ x) (r : CreateResult) :
    verdict blacklist (keysAfter keys x r) y = verdict blacklist keys y := by
  simp only [verdict, mem_keysAfter_of_ne h]

theorem keysAfter_comm (r r' : CreateResult) :
    keysAfter (keysAfter keys x r) y r' = keysAfter (keysAfter keys y r') x r := by
  cases r <;> cases r' <;> simp [keysAfter, Finset.insert_comm]

/-- **Two calls commute.** -/
instance attempt_rightCommutative (blacklist : Finset StdString) :
    RightCommutative (attempt blacklist) where
  right_comm o x y := by
    by_cases heq : y = x
    · rw [heq]
    · simp only [attempt, verdict_keysAfter heq, verdict_keysAfter (Ne.symm heq), Outcome.mk.injEq]
      refine ⟨keysAfter_comm _ _, ?_, ?_⟩
      · rw [add_assoc, add_assoc, add_comm {(x, _)}]
      · rw [add_assoc, add_assoc, add_comm (announcement x _)]

end Attempt

/-- What a multiset of calls comes to, from given keys. -/
def attempts (blacklist keys : Finset StdString) (calls : Multiset StdString) : Outcome :=
  calls.foldl (attempt blacklist) ⟨keys, 0, 0⟩

/-- What is true of a string after a number of calls. -/
structure Attempted (blacklist keys : Finset StdString) (calls : Multiset StdString)
    (imsi : StdString) (o : Outcome) : Prop where
  mem_keys : imsi ∈ o.keys ↔ imsi ∈ keys ∨ imsi ∈ calls ∧ IMSI.Valid imsi ∧ imsi ∉ blacklist
  refused : imsi ∈ blacklist → o.results.count (imsi, .blacklisted) = calls.count imsi ∧
    (IMSI.Valid imsi → o.events.count (imsi, .rejected) = calls.count imsi)
  created : IMSI.Valid imsi → imsi ∉ blacklist → imsi ∉ keys →
    o.results.count (imsi, .created) = (if imsi ∈ calls then 1 else 0) ∧
      o.events.count (imsi, .created) = (if imsi ∈ calls then 1 else 0)

namespace Attempted
variable {blacklist keys : Finset StdString} {calls : Multiset StdString} {imsi : StdString}
  {o : Outcome}

/-- A call for another string. -/
theorem attempt_of_ne (h : Attempted blacklist keys calls imsi o) {x : StdString} (hne : imsi ≠ x) :
    Attempted blacklist keys (x ::ₘ calls) imsi (attempt blacklist o x) := by
  have hevents : ∀ r action, (announcement x r).count (imsi, action) = 0 := by
    intro r action
    cases r <;> simp only [announcement] <;> (try split) <;> simp [hne]
  have hresults : ∀ r r' : CreateResult, Multiset.count (imsi, r) {(x, r')} = 0 := by
    intro r r'
    simp [hne]
  constructor
  · simp only [attempt, mem_keysAfter_of_ne hne, Multiset.mem_cons, hne, false_or]
    exact h.mem_keys
  · simp only [attempt, Multiset.count_add, hevents, hresults, add_zero,
      Multiset.count_cons_of_ne hne]
    exact h.refused
  · simp only [attempt, Multiset.count_add, hevents, hresults, add_zero, Multiset.mem_cons, hne,
      false_or]
    exact h.created

/-- A call for the string itself. -/
theorem attempt_self (h : Attempted blacklist keys calls imsi o) :
    Attempted blacklist keys (imsi ::ₘ calls) imsi (attempt blacklist o imsi) := by
  by_cases hrefused : ¬ IMSI.Valid imsi ∨ imsi ∈ blacklist
  · have hverdict : verdict blacklist o.keys imsi = .blacklisted := if_pos hrefused
    constructor
    · simp only [attempt, hverdict, keysAfter, h.mem_keys, Multiset.mem_cons, true_or, true_and]
      tauto
    · intro hbanned
      obtain ⟨hresults, hevents⟩ := h.refused hbanned
      simp only [attempt, hverdict, announcement, Multiset.count_add, hresults,
        Multiset.count_singleton_self, Multiset.count_cons_self, true_and]
      intro hvalid
      simp [hvalid, hevents hvalid]
    · intro hvalid hfree
      exact absurd hrefused (by tauto)
  · have hvalid : IMSI.Valid imsi := by tauto
    have hfree : imsi ∉ blacklist := by tauto
    by_cases hmem : imsi ∈ o.keys
    · have hverdict : verdict blacklist o.keys imsi = .alreadyExists := by
        rw [verdict, if_neg hrefused, if_pos hmem]
      constructor
      · simp only [attempt, hverdict, keysAfter, hmem, true_iff]
        have hbefore := h.mem_keys.mp hmem
        simp only [Multiset.mem_cons, true_or, true_and]
        tauto
      · intro hbanned
        exact absurd hbanned hfree
      · intro _ _ habsent
        obtain ⟨hresults, hevents⟩ := h.created hvalid hfree habsent
        have hcalled : imsi ∈ calls := ((h.mem_keys.mp hmem).resolve_left habsent).1
        simp [attempt, hverdict, announcement, hresults, hevents, hcalled]
    · have hverdict : verdict blacklist o.keys imsi = .created := by
        rw [verdict, if_neg hrefused, if_neg hmem]
      constructor
      · simp [attempt, hverdict, keysAfter, hvalid, hfree]
      · intro hbanned
        exact absurd hbanned hfree
      · intro _ _ habsent
        obtain ⟨hresults, hevents⟩ := h.created hvalid hfree habsent
        have hcalled : imsi ∉ calls := fun hcall =>
          hmem (h.mem_keys.mpr (Or.inr ⟨hcall, hvalid, hfree⟩))
        simp [attempt, hverdict, announcement, hresults, hevents, hcalled]

end Attempted

theorem attempts_cons (blacklist keys : Finset StdString) (x : StdString)
    (calls : Multiset StdString) : attempts blacklist keys (x ::ₘ calls) =
      attempt blacklist (attempts blacklist keys calls) x := by
  rw [attempts, ← Multiset.singleton_add, add_comm, Multiset.foldl_add]
  rfl

theorem attempts_spec (blacklist keys : Finset StdString) (calls : Multiset StdString)
    (imsi : StdString) : Attempted blacklist keys calls imsi (attempts blacklist keys calls) := by
  induction calls using Multiset.induction_on with
  | empty => constructor <;> simp [attempts]
  | cons x calls ih =>
      rw [attempts_cons]
      by_cases hne : imsi = x
      · subst hne
        exact ih.attempt_self
      · exact ih.attempt_of_ne hne

/-! ## Calls in the manager -/

/-- A call in progress whose result is not decided. -/
def ThreadPc.undecided : ThreadPc → Multiset StdString
  | .entered (.createSession imsi) => {imsi}
  | .checked imsi => {imsi}
  | _ => 0

/-- A call in progress whose result is decided. -/
def ThreadPc.result : ThreadPc → List (StdString × CreateResult)
  | .returning (.createSession imsi) (.returned (.result r)) => [(imsi, r)]
  | _ => []

section Labels
variable {ι : Type}

def calledWith : Label ι → Option StdString
  | .call _ (.createSession imsi) => some imsi
  | _ => none

/-- The strings with which `create_session` is called in a run. -/
def createCalls (tr : List (Label ι)) : Multiset StdString := ↑(tr.filterMap calledWith)

/-- The result that a step hands to the caller. -/
def returnedResult (s : Manager ι) : Label ι → List (StdString × CreateResult)
  | .thread i _ => (s.threads i).result
  | _ => []

/-- What an event tells besides its time. -/
def tag (event : SessionEvent) : StdString × SessionAction := (event.imsi, event.action)

/-- No key leaves the table in the step, and the blacklist stays. -/
def Undisturbed [Fintype ι] [DecidableEq ι] (cfg : Config) (s : Manager ι) (l : Label ι) : Prop :=
  ∀ t ∈ next cfg l s,
    s.store.sessions.keys ⊆ t.store.sessions.keys ∧ t.store.blacklist = s.store.blacklist

instance [Fintype ι] [DecidableEq ι] (cfg : Config) (s : Manager ι) (l : Label ι) :
    Decidable (Undisturbed cfg s l) :=
  inferInstanceAs (Decidable (∀ t ∈ next cfg l s,
    s.store.sessions.keys ⊆ t.store.sessions.keys ∧ t.store.blacklist = s.store.blacklist))

theorem createCalls_snoc (tr : List (Label ι)) (l : Label ι) :
    createCalls (tr ++ [l]) = createCalls tr + ↑(calledWith l).toList := by
  rw [createCalls, createCalls, List.filterMap_append, ← Multiset.coe_add]
  cases hcall : calledWith l <;> simp [hcall]

/-- Moving one thread exchanges its share of a sum. -/
theorem sum_threads_update [Fintype ι] [DecidableEq ι] {M : Type} [AddCommMonoid M]
    (f : ThreadPc → M) (threads : ι → ThreadPc) (i : ι) (pc : ThreadPc) :
    ∑ j, f (Function.update threads i pc j) + f (threads i) = ∑ j, f (threads j) + f pc := by
  have hrest : ∑ j ∈ Finset.univ.erase i, f (Function.update threads i pc j) =
      ∑ j ∈ Finset.univ.erase i, f (threads j) :=
    Finset.sum_congr rfl fun j hj => by rw [Function.update_of_ne (Finset.ne_of_mem_erase hj)]
  rw [← Finset.add_sum_erase _ _ (Finset.mem_univ i),
    ← Finset.add_sum_erase _ _ (Finset.mem_univ i), hrest, Function.update_self]
  abel

end Labels

/-! ## One step -/

section Steps
variable {ι : Type} [Fintype ι] [DecidableEq ι] {cfg : Config} {s t : Manager ι} {l : Label ι}

theorem keys_of_undisturbed (h : Step cfg s l t) (hl : Undisturbed cfg s l)
    (hcreated : createdKey s l = none) : t.store.sessions.keys = s.store.sessions.keys := by
  refine Finset.Subset.antisymm (fun imsi hmem => ?_) (hl t h).1
  rw [Finmap.mem_keys] at hmem ⊢
  rcases mem_sessions_of_step h hmem with hold | hnew
  · exact hold
  · rw [hcreated] at hnew
    cases hnew

theorem mem_cleanupEmitted {env : Ambient} {now : ℤ} {expired : List StdString} {st : Store}
    {event : SessionEvent} (h : event ∈ cleanupEmitted cfg env now expired st) :
    event.action = .timeout := by
  induction expired generalizing st with
  | nil => cases h
  | cons imsi expired ih =>
      rw [cleanupEmitted] at h
      cases hlookup : st.sessions.lookup imsi with
      | none =>
          rw [hlookup] at h
          exact ih h
      | some session =>
          simp only [hlookup] at h
          split at h
          · rcases List.mem_cons.mp h with rfl | hrest
            · rfl
            · split at hrest
              · exact ih hrest
              · cases hrest
          · exact ih h

/-- A background step that takes no key emits nothing. -/
theorem emitted_of_undisturbed (h : Step cfg s l t) (hl : Undisturbed cfg s l)
    (hthread : ∀ i env, l ≠ .thread i env) : emitted cfg s l = [] := by
  have hcreated : createdKey s l = none := by
    cases l with
    | thread i env => exact absurd rfl (hthread i env)
    | _ => rfl
  have hkeys := keys_of_undisturbed h hl hcreated
  have haction : ∀ event ∈ emitted cfg s l,
      event.action = .timeout ∨ event.action = .gracefulShutdown := by
    intro event hmem
    cases l with
    | thread i env => exact absurd rfl (hthread i env)
    | cleanup env =>
        cases hpc : s.cleanup <;> simp only [emitted, hpc] at hmem
        case erase now expired => exact Or.inl (mem_cleanupEmitted hmem)
        all_goals cases hmem
    | loop k env =>
        cases hpc : s.loops k <;> simp only [emitted, hpc] at hmem
        case erase imsi =>
          split at hmem
          · rw [List.mem_singleton.mp hmem]
            exact Or.inr rfl
          · cases hmem
        all_goals cases hmem
    | call i c => cases hmem
    | destroy => cases hmem
  rw [List.eq_nil_iff_forall_not_mem]
  intro event hmem
  have hbalance := balance_of_step h event.imsi
  have hended : 0 < endedCount event.imsi (emitted cfg s l) :=
    List.countP_pos_iff.mpr ⟨event, hmem, by simpa using haction event hmem⟩
  have hnone : createdCount event.imsi (emitted cfg s l) = 0 := by
    refine List.countP_eq_zero.mpr fun other hother => ?_
    rcases haction other hother with heq | heq <;> simp [heq]
  rw [present_congr hkeys] at hbalance
  omega

/-- What a step does to the calls: it decides the result of one of them, as `attempt`
would, or it leaves keys, events and decided results alone. -/
inductive Effect (cfg : Config) (s : Manager ι) (l : Label ι) (t : Manager ι) : Prop where
  | pass (hkeys : t.store.sessions.keys = s.store.sessions.keys) (hevents : emitted cfg s l = [])
      (hundecided : ∑ i, (t.threads i).undecided =
        ∑ i, (s.threads i).undecided + ↑(calledWith l).toList)
      (hresults : (↑(returnedResult s l) : Multiset (StdString × CreateResult)) +
        ∑ i, ↑(t.threads i).result = ∑ i, ↑(s.threads i).result)
  | decide (imsi : StdString) (r : CreateResult)
      (hr : r = verdict s.store.blacklist s.store.sessions.keys imsi)
      (hcall : calledWith l = none) (hreturned : returnedResult s l = [])
      (hundecided : ∑ i, (t.threads i).undecided + {imsi} = ∑ i, (s.threads i).undecided)
      (hresults : ∑ i, (↑(t.threads i).result : Multiset (StdString × CreateResult)) =
        ∑ i, ↑(s.threads i).result + {(imsi, r)})
      (hkeys : t.store.sessions.keys = keysAfter s.store.sessions.keys imsi r)
      (hevents : (↑((emitted cfg s l).map tag) : Multiset (StdString × SessionAction)) =
        announcement imsi r)

/-- Without exceptions the check lets through or refuses. -/
theorem firstSection_createSession (hquiet : cfg.Quiet) (env : Ambient) (imsi : StdString)
    (st : Store) : (firstSection cfg env (.createSession imsi) st).1 =
      if IMSI.Valid imsi ∧ imsi ∉ st.blacklist then .checked imsi
      else .returning (.createSession imsi) (.returned (.result .blacklisted)) := by
  by_cases hvalid : IMSI.Valid imsi
  · have himsi : IMSI.ofString imsi = .returned ⟨imsi, hvalid⟩ := IMSI.ofString_returned.mpr rfl
    by_cases hbanned : imsi ∈ st.blacklist <;>
      simp [firstSection, himsi, createSessionBlacklist, hquiet.emitEvent_eq, hbanned, hvalid]
  · simp [firstSection, IMSI.ofString_raised hvalid, hvalid]

/-- Without exceptions the table section has one of two results. -/
theorem createSessionTable_returned (hquiet : cfg.Quiet) (env : Ambient) (imsi : StdString)
    (st : Store) : (createSessionTable cfg env imsi st).1 =
      .returned (if imsi ∈ st.sessions then .alreadyExists else .created) := by
  cases hlookup : st.sessions.lookup imsi with
  | some session =>
      simp [createSessionTable, hlookup, Finmap.mem_of_lookup_eq_some hlookup]
  | none =>
      simp [createSessionTable, hlookup, Finmap.lookup_eq_none.mp hlookup, hquiet.emitEvent_eq]

/-- The two sums when one thread moves. -/
theorem sums_of_update {i : ι} {pc : ThreadPc} (h : t.threads = Function.update s.threads i pc) :
    ∑ j, (t.threads j).undecided + (s.threads i).undecided =
        ∑ j, (s.threads j).undecided + pc.undecided ∧
      ∑ j, (↑(t.threads j).result : Multiset (StdString × CreateResult)) + ↑(s.threads i).result =
        ∑ j, ↑(s.threads j).result + ↑pc.result := by
  rw [h]
  exact ⟨sum_threads_update ThreadPc.undecided s.threads i pc,
    sum_threads_update (fun pc => (↑pc.result : Multiset (StdString × CreateResult))) s.threads i
      pc⟩

/-- A caller at neither section of `create_session` has no result to decide. -/
theorem undecided_of_moves {pc pc' : ThreadPc} (h : Moves pc pc')
    (hpc : ∀ imsi, pc ≠ .entered (.createSession imsi) ∧ pc ≠ .checked imsi) :
    pc.undecided = 0 ∧ pc'.undecided = 0 ∧ pc'.result = [] := by
  cases h with
  | finish c v =>
      cases c with
      | createSession imsi => exact absurd rfl (hpc imsi).1
      | _ => exact ⟨rfl, rfl, rfl⟩
  | check imsi => exact absurd rfl (hpc imsi).1
  | table imsi => exact absurd rfl (hpc imsi).2
  | _ => exact ⟨rfl, rfl, rfl⟩

/-- Any other step of a caller. -/
theorem effect_of_other {i : ι} {env : Ambient} (h : Step cfg s (.thread i env) t)
    (hl : Undisturbed cfg s (.thread i env))
    (hpc : ∀ imsi, s.threads i ≠ .entered (.createSession imsi) ∧ s.threads i ≠ .checked imsi) :
    Effect cfg s (.thread i env) t := by
  have hcreated : createdKey s (.thread i env) = none := by
    cases hbefore : s.threads i with
    | checked imsi => exact absurd hbefore (hpc imsi).2
    | _ => simp [createdKey, hbefore]
  have hevents : emitted cfg s (.thread i env) = [] := by
    cases hbefore : s.threads i with
    | entered c =>
        cases c with
        | createSession imsi => exact absurd hbefore (hpc imsi).1
        | _ => simp [emitted, hbefore, firstSectionEmitted]
    | checked imsi => exact absurd hbefore (hpc imsi).2
    | _ => simp [emitted, hbefore]
  refine .pass (keys_of_undisturbed h hl hcreated) hevents ?_ ?_
  all_goals rcases threads_of_threadNext (step_thread.mp h).2 with hsame | ⟨pc, hmoves, hthreads⟩
  · simp [hsame, calledWith]
  · obtain ⟨hbefore, hafter, _⟩ := undecided_of_moves hmoves hpc
    have hundecided := (sums_of_update hthreads).1
    rw [hbefore, hafter] at hundecided
    simpa [calledWith] using hundecided
  · have hnone : (s.threads i).result = [] := by
      cases hbefore : s.threads i with
      | returning c v =>
          have hnext := (step_thread.mp h).2
          simp only [threadNext, hbefore, Option.some.injEq] at hnext
          rw [← hnext, threads_goto] at hsame
          have hidle := congrFun hsame i
          rw [Function.update_self, hbefore] at hidle
          cases hidle
      | _ => rfl
    simp [hsame, returnedResult, hnone]
  · have hresults := (sums_of_update hthreads).2
    rw [(undecided_of_moves hmoves hpc).2.2, add_comm] at hresults
    simpa [returnedResult] using hresults

/-- The first section of `create_session`. -/
theorem effect_of_firstSection (hquiet : cfg.Quiet) {i : ι} {env : Ambient} {imsi : StdString}
    (hpc : s.threads i = .entered (.createSession imsi)) (h : Step cfg s (.thread i env) t)
    (hl : Undisturbed cfg s (.thread i env)) : Effect cfg s (.thread i env) t := by
  have hkeys := keys_of_undisturbed h hl (by simp [createdKey, hpc])
  have hnext := (step_thread.mp h).2
  simp only [threadNext, hpc, Option.some.injEq] at hnext
  have hthreads : t.threads = Function.update s.threads i
      (firstSection cfg env (.createSession imsi) s.store).1 := by
    rw [← hnext]
    rfl
  rw [firstSection_createSession hquiet] at hthreads
  obtain ⟨hundecided, hresults⟩ := sums_of_update hthreads
  by_cases hlet : IMSI.Valid imsi ∧ imsi ∉ s.store.blacklist
  · rw [if_pos hlet, hpc] at hundecided hresults
    refine .pass hkeys ?_ ?_ ?_
    · simp [emitted, hpc, firstSectionEmitted, hlet.2]
    · simpa [ThreadPc.undecided, calledWith] using hundecided
    · simpa [ThreadPc.result, returnedResult, hpc] using hresults
  · have hr : verdict s.store.blacklist s.store.sessions.keys imsi = .blacklisted :=
      if_pos (by tauto)
    rw [if_neg hlet, hpc] at hundecided hresults
    refine .decide imsi .blacklisted hr.symm rfl ?_ ?_ ?_ hkeys ?_
    · simp [returnedResult, hpc, ThreadPc.result]
    · simpa [ThreadPc.undecided] using hundecided
    · simpa [ThreadPc.result] using hresults
    · by_cases hvalid : IMSI.Valid imsi
      · have hbanned : imsi ∈ s.store.blacklist := by tauto
        simp [emitted, hpc, firstSectionEmitted, hvalid, hbanned, announcement, tag]
      · simp [emitted, hpc, firstSectionEmitted, hvalid, announcement]

/-- The table section of `create_session`. -/
theorem effect_of_table (hquiet : cfg.Quiet) {i : ι} {env : Ambient} {imsi : StdString}
    (hpc : s.threads i = .checked imsi) (h : Step cfg s (.thread i env) t)
    (hlet : IMSI.Valid imsi ∧ imsi ∉ s.store.blacklist) : Effect cfg s (.thread i env) t := by
  have hnext := (step_thread.mp h).2
  simp only [threadNext, hpc, Option.some.injEq, createSessionTable_returned hquiet,
    tableResult] at hnext
  have hkeys : t.store.sessions.keys = insert imsi s.store.sessions.keys := by
    rw [← hnext]
    exact keys_createSessionTable cfg env imsi s.store
  have hthreads : t.threads = Function.update s.threads i (.returning (.createSession imsi)
      (.returned (.result (if imsi ∈ s.store.sessions then .alreadyExists else .created)))) := by
    rw [← hnext]
    rfl
  have hr : verdict s.store.blacklist s.store.sessions.keys imsi =
      if imsi ∈ s.store.sessions then .alreadyExists else .created := by
    simp [verdict, hlet, Finmap.mem_keys]
  obtain ⟨hundecided, hresults⟩ := sums_of_update hthreads
  rw [hpc] at hundecided hresults
  refine .decide imsi _ hr.symm rfl ?_ ?_ ?_ ?_ ?_
  · simp [returnedResult, hpc, ThreadPc.result]
  · simpa [ThreadPc.undecided] using hundecided
  · simpa [ThreadPc.result] using hresults
  · rw [hkeys]
    by_cases hmem : imsi ∈ s.store.sessions
    · rw [if_pos hmem]
      exact Finset.insert_eq_self.mpr (Finmap.mem_keys.mpr hmem)
    · rw [if_neg hmem]
      rfl
  · by_cases hmem : imsi ∈ s.store.sessions <;>
      simp [emitted, hpc, hmem, announcement, tag]

/-- A step of no caller. -/
theorem effect_of_background (h : Step cfg s l t) (hl : Undisturbed cfg s l)
    (hthread : ∀ i env, l ≠ .thread i env) (hcall : ∀ i c, l ≠ .call i c)
    (hthreads : t.threads = s.threads) : Effect cfg s l t := by
  have hcreated : createdKey s l = none := by
    cases l with
    | thread i env => exact absurd rfl (hthread i env)
    | _ => rfl
  refine .pass (keys_of_undisturbed h hl hcreated) (emitted_of_undisturbed h hl hthread) ?_ ?_
  · cases l with
    | call i c => exact absurd rfl (hcall i c)
    | _ => simp [calledWith, hthreads]
  · cases l with
    | thread i env => exact absurd rfl (hthread i env)
    | _ => simp [returnedResult, hthreads]

theorem effect_of_step (hquiet : cfg.Quiet) (h : Step cfg s l t) (hl : Undisturbed cfg s l)
    (hchecked : ∀ i imsi, s.threads i = .checked imsi →
      IMSI.Valid imsi ∧ imsi ∉ s.store.blacklist) : Effect cfg s l t := by
  cases l with
  | call i c =>
      obtain ⟨_, ⟨hidle, _⟩, rfl⟩ := step_call.mp h
      obtain ⟨hundecided, hresults⟩ := sums_of_update (threads_goto s i (.entered c))
      rw [hidle] at hundecided hresults
      refine .pass rfl rfl ?_ ?_
      · cases c <;> simpa [ThreadPc.undecided, calledWith] using hundecided
      · simpa [ThreadPc.result, returnedResult] using hresults
  | thread i env =>
      by_cases hfirst : ∃ imsi, s.threads i = .entered (.createSession imsi)
      · obtain ⟨imsi, hpc⟩ := hfirst
        exact effect_of_firstSection hquiet hpc h hl
      · by_cases htable : ∃ imsi, s.threads i = .checked imsi
        · obtain ⟨imsi, hpc⟩ := htable
          exact effect_of_table hquiet hpc h (hchecked i imsi hpc)
        · exact effect_of_other h hl fun imsi =>
            ⟨fun hpc => hfirst ⟨imsi, hpc⟩, fun hpc => htable ⟨imsi, hpc⟩⟩
  | cleanup env =>
      have hthreads := (cleanupNext_frame (step_cleanup.mp h).2).1
      exact effect_of_background h hl (by simp) (by simp) hthreads
  | loop k env =>
      have hthreads := (loopNext_frame (step_loop.mp h).2).1
      exact effect_of_background h hl (by simp) (by simp) hthreads
  | destroy =>
      have hthreads := (destroyNext_frame (step_destroy.mp h).2).1
      exact effect_of_background h hl (by simp) (by simp) hthreads

end Steps

/-! ## Runs -/

section Runs
variable {ι : Type} [Fintype ι] [DecidableEq ι] {cfg : Config} {s t : Manager ι}
  {tr : List (Label ι)}

/-- What a run has come to in the manager is what its decided calls come to. -/
structure Computes (cfg : Config) (s : Manager ι) (tr : List (Label ι)) (t : Manager ι)
    (decided : Multiset StdString) : Prop where
  blacklist : t.store.blacklist = s.store.blacklist
  checked : ∀ i imsi, t.threads i = .checked imsi → IMSI.Valid imsi ∧ imsi ∉ t.store.blacklist
  calls : decided + ∑ i, (t.threads i).undecided = createCalls tr
  outcome : attempts s.store.blacklist s.store.sessions.keys decided =
    ⟨t.store.sessions.keys,
      ↑(observed (next cfg) returnedResult tr s) + ∑ i, ↑(t.threads i).result,
      ↑((observed (next cfg) (emitted cfg) tr s).map tag)⟩

theorem Computes.step (hquiet : cfg.Quiet) {decided : Multiset StdString}
    (hs : Computes cfg s tr t decided) (hrun : Run (Step cfg) s tr t) {l : Label ι} {u : Manager ι}
    (h : Step cfg t l u) (hl : Undisturbed cfg t l) :
    ∃ decided', Computes cfg s (tr ++ [l]) u decided' := by
  have hblacklist : u.store.blacklist = t.store.blacklist := (hl u h).2
  have hchecked : ∀ i imsi, u.threads i = .checked imsi →
      IMSI.Valid imsi ∧ imsi ∉ u.store.blacklist := by
    intro i imsi hpc
    rw [hblacklist]
    rcases checked_of_step h hpc with ⟨hbefore, _⟩ | ⟨_, hlet⟩
    · exact hs.checked i imsi hbefore
    · exact hlet
  cases effect_of_step hquiet h hl hs.checked with
  | pass hkeys hevents hundecided hresults =>
      refine ⟨decided, hblacklist.trans hs.blacklist, hchecked, ?_, ?_⟩
      · rw [createCalls_snoc, ← hs.calls, hundecided, add_assoc]
      · rw [hs.outcome, hkeys, Run.observed_snoc _ hrun, Run.observed_snoc _ hrun, hevents,
          List.append_nil, ← Multiset.coe_add, add_assoc, hresults]
  | decide imsi r hr hcall hreturned hundecided hresults hkeys hevents =>
      refine ⟨imsi ::ₘ decided, hblacklist.trans hs.blacklist, hchecked, ?_, ?_⟩
      · rw [createCalls_snoc, ← hs.calls, hcall, ← hundecided, ← Multiset.singleton_add]
        simp only [Option.toList_none, Multiset.coe_nil, add_zero]
        abel
      · rw [attempts_cons, hs.outcome, Run.observed_snoc _ hrun, Run.observed_snoc _ hrun,
          hreturned, List.append_nil, List.map_append, ← Multiset.coe_add, hevents, hkeys, hresults]
        rw [hs.blacklist] at hr
        simp only [attempt, hr, add_assoc]

theorem computes_of_run (hquiet : cfg.Quiet)
    (h : Run (only (Step cfg) (Undisturbed cfg)) s tr t) (hidle : ∀ i, s.threads i = .idle) :
    ∃ decided, Computes cfg s tr t decided := by
  induction h with
  | nil =>
      refine ⟨0, rfl, ?_, ?_, ?_⟩
      · intro i imsi hpc
        rw [hidle] at hpc
        cases hpc
      · simp [hidle, ThreadPc.undecided, createCalls]
      · simp [attempts, hidle, ThreadPc.result, observed]
  | snoc hrun hlast ih =>
      obtain ⟨decided, hdecided⟩ := ih
      exact hdecided.step hquiet hrun.of_only hlast.1 hlast.2

/-- **A run computes the outcome of its calls.** -/
theorem outcome_of_run (hquiet : cfg.Quiet)
    (h : Run (only (Step cfg) (Undisturbed cfg)) s tr t) (hidle : ∀ i, s.threads i = .idle)
    (hdone : ∀ i, t.threads i = .idle) :
    attempts s.store.blacklist s.store.sessions.keys (createCalls tr) =
      ⟨t.store.sessions.keys, ↑(observed (next cfg) returnedResult tr s),
        ↑((observed (next cfg) (emitted cfg) tr s).map tag)⟩ := by
  obtain ⟨decided, _, _, hcalls, houtcome⟩ := computes_of_run hquiet h hidle
  simp only [hdone, ThreadPc.undecided, Finset.sum_const_zero, add_zero] at hcalls
  simp only [hdone, ThreadPc.result, Multiset.coe_nil, Finset.sum_const_zero, add_zero] at houtcome
  rw [← hcalls, houtcome]

/-- The results that a run hands to its callers. -/
def results (cfg : Config) (tr : List (Label ι)) (s : Manager ι) :
    Multiset (StdString × CreateResult) := ↑(observed (next cfg) returnedResult tr s)

/-- The events delivered between two states, without their times. -/
def newEvents (s t : Manager ι) : Multiset (StdString × SessionAction) :=
  ↑((t.store.events.drop s.store.events.length).map tag)

theorem outcome_of_undisturbed (hcfg : cfg.Delivers)
    (h : Run (only (Step cfg) (Undisturbed cfg)) s tr t) (hidle : ∀ i, s.threads i = .idle)
    (hdone : ∀ i, t.threads i = .idle) :
    attempts s.store.blacklist s.store.sessions.keys (createCalls tr) =
      ⟨t.store.sessions.keys, results cfg tr s, newEvents s t⟩ := by
  rw [outcome_of_run hcfg.quiet h hidle hdone, newEvents, hcfg.events_of_run h.of_only,
    List.drop_left]
  rfl

end Runs

/-- **Concurrent creations do not depend on their order.** Take two runs in which no
key leaves the table and the blacklist stays, on any threads and from any states
with the same keys and the same blacklist, with no call in progress at either end.
If the same strings are passed to `create_session`, equally often, the runs end with
the same keys, have returned the same results for each string, and have delivered
the same events. A proper, free subscriber that was absent is created by exactly one
of its calls, and a proper, blacklisted one is rejected by each. -/
theorem creations_order_independent {ι κ : Type} [Fintype ι] [DecidableEq ι] [Fintype κ]
    [DecidableEq κ] {cfg cfg' : Config} (hcfg : cfg.Delivers) (hcfg' : cfg'.Delivers)
    {s t : Manager ι} {s' t' : Manager κ} {tr : List (Label ι)} {tr' : List (Label κ)}
    (hrun : Run (only (Step cfg) (Undisturbed cfg)) s tr t)
    (hrun' : Run (only (Step cfg') (Undisturbed cfg')) s' tr' t')
    (hidle : ∀ i, s.threads i = .idle) (hdone : ∀ i, t.threads i = .idle)
    (hidle' : ∀ i, s'.threads i = .idle) (hdone' : ∀ i, t'.threads i = .idle)
    (hkeys : s.store.sessions.keys = s'.store.sessions.keys)
    (hblacklist : s.store.blacklist = s'.store.blacklist)
    (hcalls : createCalls tr = createCalls tr') :
    (t.store.sessions.keys = t'.store.sessions.keys ∧ results cfg tr s = results cfg' tr' s' ∧
      newEvents s t = newEvents s' t') ∧
    (∀ imsi ∈ createCalls tr, IMSI.Valid imsi → imsi ∉ s.store.blacklist →
      imsi ∉ s.store.sessions →
        (results cfg tr s).count (imsi, .created) = 1 ∧
        (newEvents s t).count (imsi, .created) = 1) ∧
    ∀ imsi ∈ s.store.blacklist, IMSI.Valid imsi →
      (results cfg tr s).count (imsi, .blacklisted) = (createCalls tr).count imsi ∧
      (newEvents s t).count (imsi, .rejected) = (createCalls tr).count imsi := by
  have houtcome := outcome_of_undisturbed hcfg hrun hidle hdone
  have hspec : ∀ imsi, Attempted s.store.blacklist s.store.sessions.keys (createCalls tr) imsi
      ⟨t.store.sessions.keys, results cfg tr s, newEvents s t⟩ :=
    fun imsi => houtcome ▸ attempts_spec _ _ _ imsi
  refine ⟨?_, ?_, ?_⟩
  · have houtcome' := outcome_of_undisturbed hcfg' hrun' hidle' hdone'
    rw [← hkeys, ← hblacklist, ← hcalls, houtcome, Outcome.mk.injEq] at houtcome'
    exact houtcome'
  · intro imsi hcalled hvalid hfree habsent
    have hcreated := (hspec imsi).created hvalid hfree fun hmem => habsent (Finmap.mem_keys.mp hmem)
    rw [if_pos hcalled] at hcreated
    exact hcreated
  · intro imsi hbanned hvalid
    obtain ⟨hresults, hevents⟩ := (hspec imsi).refused hbanned
    exact ⟨hresults, hevents hvalid⟩

/-! Two calls for one subscriber, one after the other and in a race that the second
one wins. -/

private def inTurn : List (Label Caller) :=
  serve .first (.createSession (text "1")) 2 ++ serve .second (.createSession (text "1")) 2

private def inRace : List (Label Caller) :=
  [.call .first (.createSession (text "1")), .call .second (.createSession (text "1")),
    .thread .second (after 0 []), .thread .first (after 0 []), .thread .second (after 0 []),
    .thread .first (after 0 []), .thread .first (after 0 []), .thread .second (after 0 [])]

private def afterCreations (tr : List (Label Caller))
    (h : (replay (fun l s => if Undisturbed sample s l then next sample l s else none) tr
      (.initial sample 0)).isSome) : Manager Caller :=
  replayed _ tr (.initial sample 0) h

theorem creations_order_independent_race :
    results sample inTurn (.initial sample 0) = results sample inRace (.initial sample 0) := by
  have hrun : Run (only (Step sample) (Undisturbed sample)) (.initial sample 0) inTurn
      (afterCreations inTurn (by decide +kernel)) := run_only_replayed _ _ _ _ _
  have hrun' : Run (only (Step sample) (Undisturbed sample)) (.initial sample 0) inRace
      (afterCreations inRace (by decide +kernel)) := run_only_replayed _ _ _ _ _
  exact (creations_order_independent sample_delivers sample_delivers hrun hrun' (fun _ => rfl)
    (by decide +kernel) (fun _ => rfl) (by decide +kernel) rfl rfl (by decide +kernel)).1.2.1

end Pgw.SessionManager
