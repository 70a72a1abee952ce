import Pgw.Session.Changes
import Pgw.Session.Positions

/-!
# What blacklisting a subscriber stops

`create_session` looks into the blacklist under one lock and into the table under
another. A call that has passed the first section creates its session whatever
happens to the blacklist afterwards, so `add_to_blacklist` stops the calls whose
check comes later and no others.
-/
namespace Pgw.SessionManager
open TransitionSystem

/-! ## Deeds that create -/

section Deeds
variable {cfg : Config} {st st' : Store} {d : Deed} {ds : List Deed} {imsi : StdString}

theorem Change.mem_blacklist (h : Change cfg st d st') (hd : d ≠ .unban imsi)
    (hmem : imsi ∈ st.blacklist) : imsi ∈ st'.blacklist := by
  cases h with
  | ban banned => exact Finset.mem_insert_of_mem hmem
  | unban freed =>
      refine Finset.mem_erase.mpr ⟨?_, hmem⟩
      rintro rfl
      exact hd rfl
  | _ => exact hmem

theorem mem_blacklist_of_run (h : Run (Change cfg) st ds st') (hds : ∀ d ∈ ds, d ≠ .unban imsi)
    (hmem : imsi ∈ st.blacklist) : imsi ∈ st'.blacklist :=
  h.invariant_of_labels (P := fun st => imsi ∈ st.blacklist)
    (fun _ _ _ hbefore hd hchange => hchange.mem_blacklist hd hbefore) hds hmem

/-- A `CREATED` event is delivered by a creation only. -/
theorem Change.events_eq (h : Change cfg st d st') : ∃ new, st'.events = st.events ++ new ∧
    ∀ event ∈ new, event.action = .created → d = .create event.imsi := by
  have hsame : ∃ new, st.events = st.events ++ new ∧
      ∀ event ∈ new, event.action = .created → d = .create event.imsi :=
    ⟨[], (List.append_nil _).symm, fun _ h => absurd h List.not_mem_nil⟩
  have hone : ∀ event : SessionEvent, (event.action = .created → d = .create event.imsi) →
      ∃ new, st.events ++ delivered cfg event = st.events ++ new ∧
        ∀ event ∈ new, event.action = .created → d = .create event.imsi := by
    intro event hevent
    refine ⟨_, rfl, fun event' hmem => ?_⟩
    rw [eq_of_mem_delivered hmem]
    exact hevent
  cases h with
  | reject => exact hone _ fun haction => nomatch haction
  | create => exact hone _ fun _ => rfl
  | expire => exact hone _ fun haction => nomatch haction
  | drain => exact hone _ fun haction => nomatch haction
  | _ => exact hsame

theorem events_eq_of_run (h : Run (Change cfg) st ds st') : ∃ new, st'.events = st.events ++ new ∧
    ∀ event ∈ new, event.action = .created → .create event.imsi ∈ ds := by
  induction h with
  | nil => exact ⟨[], (List.append_nil _).symm, fun _ h => absurd h List.not_mem_nil⟩
  | snoc _ hlast ih =>
      obtain ⟨new, hnew, hcreated⟩ := ih
      obtain ⟨last, hlastEq, hlastCreated⟩ := hlast.events_eq
      refine ⟨new ++ last, by rw [hlastEq, hnew, List.append_assoc], fun event hevent haction => ?_⟩
      rcases List.mem_append.mp hevent with hmem | hmem
      · exact List.mem_append_left _ (hcreated event hmem haction)
      · rw [hlastCreated event hmem haction]
        exact List.mem_append_right _ (List.mem_singleton_self _)

/-- A new session for the subscriber, or a new `CREATED` event. -/
def Creates (imsi : StdString) (st st' : Store) : Prop :=
  (imsi ∉ st.sessions ∧ imsi ∈ st'.sessions) ∨
    ∃ event ∈ st'.events.drop st.events.length, event.imsi = imsi ∧ event.action = .created

instance (imsi : StdString) (st st' : Store) : Decidable (Creates imsi st st') :=
  inferInstanceAs (Decidable (_ ∨ _))

theorem create_of_creates (h : Run (Change cfg) st ds st') (hcreates : Creates imsi st st') :
    .create imsi ∈ ds := by
  rcases hcreates with ⟨hbefore, hafter⟩ | ⟨event, hevent, rfl, haction⟩
  · exact create_of_mem_sessions h hbefore hafter
  · obtain ⟨new, hnew, hcreated⟩ := events_eq_of_run h
    rw [hnew, List.drop_left] at hevent
    exact hcreated event hevent haction

end Deeds

/-! ## Calls that are past the check -/

variable {ι : Type} [Fintype ι] [DecidableEq ι] {cfg : Config} {s t u v : Manager ι}
  {l : Label ι} {imsi : StdString}

/-- Only a call at its table section creates. -/
theorem checked_of_creates (h : Step cfg s l t) (hcreates : Creates imsi s.store t.store) :
    ∃ i env, l = .thread i env ∧ s.threads i = .checked imsi := by
  obtain ⟨ds, hrun, hpermits⟩ := step_changes h
  exact hpermits _ (create_of_creates hrun hcreates)

/-- No `remove_from_blacklist` of the subscriber runs its section. -/
def NoUnban (imsi : StdString) (s : Manager ι) (l : Label ι) : Prop :=
  ∀ i env, l = .thread i env → s.threads i ≠ .entered (.removeFromBlacklist imsi)

theorem mem_blacklist_of_step (h : Step cfg s l t) (hunban : NoUnban imsi s l)
    (hmem : imsi ∈ s.store.blacklist) : imsi ∈ t.store.blacklist := by
  obtain ⟨ds, hrun, hpermits⟩ := step_changes h
  refine mem_blacklist_of_run hrun ?_ hmem
  rintro d hd rfl
  obtain ⟨i, env, hl, hpc⟩ := hpermits _ hd
  exact hunban i env hl hpc

/-! ## After the section of `add_to_blacklist` -/

/-- While the subscriber is blacklisted nobody gets past the check. -/
theorem checked_of_run {tr : List (Label ι)} (h : Run (only (Step cfg) (NoUnban imsi)) s tr t)
    (hs : imsi ∈ s.store.blacklist) :
    imsi ∈ t.store.blacklist ∧ ∀ i, t.threads i = .checked imsi →
      s.threads i = .checked imsi ∧ ∀ env, .thread i env ∉ tr := by
  induction h with
  | nil => exact ⟨hs, fun i hi => ⟨hi, fun _ hmem => absurd hmem List.not_mem_nil⟩⟩
  | snoc _ hlast ih =>
      obtain ⟨hmem, hchecked⟩ := ih
      refine ⟨mem_blacklist_of_step hlast.1 hlast.2 hmem, fun i hi => ?_⟩
      rcases checked_of_step hlast.1 hi with ⟨hbefore, hl⟩ | ⟨_, _, hfree⟩
      · obtain ⟨hfirst, hstill⟩ := hchecked i hbefore
        refine ⟨hfirst, fun env henv => ?_⟩
        rcases List.mem_append.mp henv with hold | hnew
        · exact hstill env hold
        · exact hl env (List.mem_singleton.mp hnew).symm
      · exact absurd hmem hfree

/-- **Blacklisting stops every later check.** From the section of an
`add_to_blacklist` call, hence also from its return, until the section of a
`remove_from_blacklist` call, the subscriber stays blacklisted, and a step that
creates a session for it or emits its `CREATED` event is the table section of a
call that was past its check already and has not moved since. -/
theorem creates_only_if_checked {s₀ : Manager ι} {i : ι} {env : Ambient} {tr : List (Label ι)}
    (hadd : s₀.threads i = .entered (.addToBlacklist imsi))
    (hsection : Step cfg s₀ (.thread i env) s)
    (hrun : Run (only (Step cfg) (NoUnban imsi)) s tr u) :
    imsi ∈ u.store.blacklist ∧
      ∀ l v, Step cfg u l v → Creates imsi u.store v.store →
        ∃ j env', l = .thread j env' ∧ s₀.threads j = .checked imsi ∧
          ∀ env'', .thread j env'' ∉ tr := by
  have hnext := (step_thread.mp hsection).2
  simp only [threadNext, hadd, firstSection, Option.some.injEq] at hnext
  have hs : imsi ∈ s.store.blacklist := by
    rw [← hnext]
    exact Finset.mem_insert_self imsi _
  obtain ⟨hu, hchecked⟩ := checked_of_run hrun hs
  refine ⟨hu, fun l v hstep hcreates => ?_⟩
  obtain ⟨j, env', hl, hpc⟩ := checked_of_creates hstep hcreates
  obtain ⟨hbefore, hstill⟩ := hchecked j hpc
  refine ⟨j, env', hl, ?_, hstill⟩
  by_cases hij : j = i
  · rw [← hnext, hij, threads_goto, Function.update_self] at hbefore
    cases hbefore
  · rwa [← hnext, threads_goto, Function.update_of_ne hij] at hbefore

/-! One call passes its check, another blacklists the subscriber and returns, and
then the first call creates the session. -/

private def passedCheck : Manager Caller :=
  play [.call Caller.first (.createSession (text "1")), .thread .first (after 0 []),
    .call .second (.addToBlacklist (text "1"))] (by decide +kernel)

private def blacklisted : Manager Caller :=
  (next sample (.thread .second (after 0 [])) passedCheck).get (by decide +kernel)

private def addReturned : Manager Caller :=
  (next sample (.thread .second (after 0 [])) blacklisted).get (by decide +kernel)

private def overtaken : Manager Caller :=
  (next sample (.thread .first (after 0 [])) addReturned).get (by decide +kernel)

theorem creates_only_if_checked_overtaken : ∃ j, passedCheck.threads j = .checked (text "1") := by
  have hsection : Step sample passedCheck (.thread .second (after 0 [])) blacklisted :=
    (Option.some_get _).symm
  have hcreate : Step sample addReturned (.thread .first (after 0 [])) overtaken :=
    (Option.some_get _).symm
  have hrun : Run (only (Step sample) (NoUnban (text "1"))) blacklisted
      [.thread .second (after 0 [])] addReturned := by
    have hreturn : Step sample blacklisted (.thread .second (after 0 [])) addReturned :=
      (Option.some_get _).symm
    refine Run.single ⟨hreturn, ?_⟩
    intro i env hl
    cases hl
    decide +kernel
  obtain ⟨j, _, _, hpc, _⟩ := (creates_only_if_checked (by decide +kernel) hsection hrun).2
    _ _ hcreate (by decide +kernel)
  exact ⟨j, hpc⟩

/-- After the return of `add_to_blacklist`, without any call to
`remove_from_blacklist`, a session is created for the subscriber. -/
theorem creates_after_add_to_blacklist :
    Run (Step sample) (.initial sample 0)
        [.call Caller.first (.createSession (text "1")), .thread .first (after 0 []),
          .call .second (.addToBlacklist (text "1")), .thread .second (after 0 []),
          .thread .second (after 0 [])]
        addReturned ∧
      text "1" ∈ addReturned.store.blacklist ∧
      Step sample addReturned (.thread .first (after 0 [])) overtaken ∧
      Creates (text "1") addReturned.store overtaken.store := by
  have hsection : Step sample passedCheck (.thread .second (after 0 [])) blacklisted :=
    (Option.some_get _).symm
  have hreturn : Step sample blacklisted (.thread .second (after 0 [])) addReturned :=
    (Option.some_get _).symm
  have hcreate : Step sample addReturned (.thread .first (after 0 [])) overtaken :=
    (Option.some_get _).symm
  have hchecked : Run (Step sample) (.initial sample 0) _ passedCheck := run_play _ _
  exact ⟨(hchecked.snoc hsection).snoc hreturn, by decide +kernel, hcreate, by decide +kernel⟩

end Pgw.SessionManager
