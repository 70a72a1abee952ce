import Pgw.Session.Cleanup
import Pgw.Session.Linearizable
import Pgw.Session.WellFormed

/-!
# How long a session lasts

Only the cleanup thread ends a session that nobody removes by hand, as long as no graceful
shutdown is started. It must not do so before the subscriber has been idle for the timeout,
and it must not take forever once it has.

The lower bound is kept by every step. An update writes the instant that it has read, and
another one that has read later may have written already; so the bound holds from an instant
that no update under way has missed. A section that has the table to itself is such an
instant, in particular the one in which `create_session` makes or refreshes the session.

For the upper bound the steps of the cleanup thread are counted. A pass that is under way
may have met the session before it was idle, or not at all; so that pass and the next one may
both be needed.

## Main results

* `session_outlives_timeout` — a session stays until its subscriber has been idle for the
  timeout.
* `idle_session_goes` — six steps of the cleanup thread after a subscriber has been idle for
  the timeout, its session is gone, unless it has been written again.
-/
namespace Pgw.SessionManager
open TransitionSystem Sweep

/-! ## The registry keeps a lease -/

/-- The subscriber has been active at `since` or later, unless the timeout has run out. -/
structure Registry.Leased (cfg : Config) (imsi : StdString) (since : ℤ) (g : Registry) : Prop where
  past : since ≤ g.clock
  active : (∃ time, g.lastActivity imsi = some time ∧ since ≤ time) ∨
    cfg.sessionTimeout * nanosPerSecond ≤ g.clock - since

namespace Registry.Leased
variable {cfg : Config} {imsi : StdString} {since : ℤ} {g g' : Registry}

/-- By itself the registry drops nobody early. -/
theorem moves (hg : g.Leased cfg imsi since) (hstarted : g.shutdownStarted = false)
    (h : Moves cfg g g') : g'.Leased cfg imsi since ∧ g'.shutdownStarted = false := by
  have hpast := hg.past
  cases h with
  | tick delay =>
      have hclock : (g.tick delay).clock = g.clock + delay := rfl
      refine ⟨⟨by omega, hg.active.imp_right fun hidle => ?_⟩, hstarted⟩
      omega
  | @expire x time hactive hidle =>
      have hclock : (g.drop x).clock = g.clock := rfl
      refine ⟨⟨hpast, ?_⟩, hstarted⟩
      rcases hg.active with ⟨time', hactive', hsince⟩ | hlong
      · by_cases hx : imsi = x
        · subst hx
          rw [hactive, Option.some.injEq] at hactive'
          right
          omega
        · refine Or.inl ⟨time', ?_, hsince⟩
          simpa [drop, Function.update_of_ne hx] using hactive'
      · exact Or.inr hlong
  | settle => exact ⟨⟨hpast, hg.active⟩, hstarted⟩
  | drain _ hdraining =>
      rw [hstarted] at hdraining
      cases hdraining

theorem run (hg : g.Leased cfg imsi since) (hstarted : g.shutdownStarted = false)
    (h : Relation.ReflTransGen (Moves cfg) g g') : g'.Leased cfg imsi since := by
  suffices hboth : g'.Leased cfg imsi since ∧ g'.shutdownStarted = false from hboth.1
  induction h with
  | refl => exact ⟨hg, hstarted⟩
  | tail _ hlast ih => exact moves ih.1 ih.2 hlast

/-- What is no end of its session leaves the lease. -/
theorem change {st st' : Store} {d : Deed} (hst : (st.registry false).Leased cfg imsi since)
    (h : Change cfg st d st') (hd : d ≠ .remove imsi ∧ d ≠ .expire imsi ∧ d ≠ .drain imsi)
    (htouch : ∀ reading, d = .touch imsi reading → since ≤ max st.settled reading) :
    (st'.registry false).Leased cfg imsi since := by
  obtain ⟨hpast, hactive⟩ := hst
  simp only [Store.registry] at hpast hactive
  have hclock := h.clock_le
  have hlate : cfg.sessionTimeout * nanosPerSecond ≤ st.clock - since →
      cfg.sessionTimeout * nanosPerSecond ≤ st'.clock - since := by
    intro hlong
    omega
  have herased : ∀ x, imsi ≠ x → st'.sessions = st.sessions.erase x →
      (∃ time, lastActivityOf st'.sessions imsi = some time ∧ since ≤ time) ∨
        cfg.sessionTimeout * nanosPerSecond ≤ st'.clock - since := by
    intro x hx hsessions
    refine hactive.imp (fun hold => ?_) hlate
    rw [hsessions, lastActivityOf_erase, Function.update_of_ne hx]
    exact hold
  have hinserted : ∀ x session, (imsi = x → since ≤ session.lastActivity) →
      st'.sessions = st.sessions.insert x session →
      (∃ time, lastActivityOf st'.sessions imsi = some time ∧ since ≤ time) ∨
        cfg.sessionTimeout * nanosPerSecond ≤ st'.clock - since := by
    intro x session hnew hsessions
    rw [hsessions, lastActivityOf_insert]
    by_cases hx : imsi = x
    · subst hx
      exact Or.inl ⟨_, Function.update_self .., hnew rfl⟩
    · rw [Function.update_of_ne hx]
      exact hactive.imp_right hlate
  refine ⟨?_, ?_⟩
  · simp only [Store.registry]
    omega
  · cases h with
    | create _ createdAt lastActivity _ hcreated hlast =>
        exact hinserted _ _ (fun _ => hpast.trans (hcreated.trans hlast)) rfl
    | refresh _ clock _ htime => exact hinserted _ _ (fun _ => hpast.trans htime) rfl
    | touch _ _ => exact hinserted _ _ (fun heq => htouch _ (by rw [heq])) rfl
    | remove => exact herased _ (fun heq => hd.1 (heq ▸ rfl)) rfl
    | expire => exact herased _ (fun heq => hd.2.1 (heq ▸ rfl)) rfl
    | drain => exact herased _ (fun heq => hd.2.2 (heq ▸ rfl)) rfl
    | pass => exact hactive.imp_right hlate
    | _ => exact hactive

end Registry.Leased

/-! ## So does the manager -/

section Lower
variable {ι : Type} [Fintype ι] [DecidableEq ι] {cfg : Config} {s t : Manager ι} {l : Label ι}
  {imsi : StdString} {since : ℤ}

/-- Nobody begins to remove the subscriber by hand, or to shut down. -/
def Spared (imsi : StdString) (_ : Manager ι) (l : Label ι) : Prop :=
  ∀ i, l ≠ .call i (.removeSession imsi) ∧ l ≠ .call i .startGracefulShutdown

/-- Nobody is about to remove the subscriber by hand, and no shutdown has been started. -/
structure LeftAlone (imsi : StdString) (s : Manager ι) : Prop where
  removing : ∀ i, s.threads i ≠ .entered (.removeSession imsi)
  starting : ∀ i, s.threads i ≠ .entered .startGracefulShutdown ∧ s.threads i ≠ .activated
  loops : ∀ k, s.loops k = .absent

theorem LeftAlone.step (hs : LeftAlone imsi s) (h : Step cfg s l t) (hl : Spared imsi s l) :
    LeftAlone imsi t := by
  refine ⟨fun i hpc => ?_, fun i => ⟨fun hpc => ?_, fun hpc => ?_⟩, fun k => ?_⟩
  · rcases entered_of_step h hpc with hbefore | hcall
    · exact hs.removing i hbefore
    · exact (hl i).1 hcall
  · rcases entered_of_step h hpc with hbefore | hcall
    · exact (hs.starting i).1 hbefore
    · exact (hl i).2 hcall
  · rcases threads_of_step h i with hsame | ⟨c, _, _, hentered⟩ | ⟨env, hthread, hmoves⟩
    · exact (hs.starting i).2 (hsame ▸ hpc)
    · rw [hpc] at hentered
      cases hentered
    · have hstarting := (hs.starting i).1
      rw [hpc] at hmoves
      generalize s.threads i = pc at hmoves hstarting
      cases hmoves
      exact hstarting rfl
  · by_cases hown : ∃ env, l = .loop k env
    · obtain ⟨env, rfl⟩ := hown
      have hnext := (step_loop.mp h).2
      simp [loopNext, hs.loops k] at hnext
    · rcases loops_of_step h k fun env heq => hown ⟨env, heq⟩ with hsame | ⟨_, hspawned, _⟩
      · rw [hsame, hs.loops k]
      · obtain ⟨i, hactivated⟩ := activated_of_spawned h hspawned
        exact absurd hactivated (hs.starting i).2

/-- No update that has read the clock before `since` can be written any more as such. -/
def Fenced (imsi : StdString) (since : ℤ) (s : Manager ι) : Prop :=
  since ≤ s.store.settled ∨ ∀ i reading, s.threads i = .touching imsi reading → since ≤ reading

/-- The mark of the sections that have had the table to themselves only goes on. -/
theorem settled_of_step (hs : s.store.settled ≤ s.store.clock) (h : Step cfg s l t) :
    s.store.settled ≤ t.store.settled ∧ t.store.settled ≤ t.store.clock := by
  obtain ⟨ds, hrun, _⟩ := step_changes h
  refine hrun.invariant (P := fun st => s.store.settled ≤ st.settled ∧ st.settled ≤ st.clock) ?_
    ⟨le_refl _, hs⟩
  rintro st d st' ⟨hsince, hst⟩ hchange
  obtain ⟨hle, hclock⟩ := hchange.settled_le hst
  exact ⟨hsince.trans hle, hclock⟩

theorem Fenced.step (hs : Fenced imsi since s) (hpast : since ≤ s.store.clock)
    (hsettled : s.store.settled ≤ s.store.clock) (h : Step cfg s l t) : Fenced imsi since t := by
  rcases hs with hbefore | hreadings
  · exact Or.inl (hbefore.trans (settled_of_step hsettled h).1)
  · refine Or.inr fun i reading hpc => ?_
    rcases touching_of_step h hpc with ⟨hbefore, _⟩ | ⟨_, hlater, _⟩
    · exact hreadings i reading hbefore
    · exact hpast.trans hlater

/-- A session that is left alone is leased. -/
structure Lease (cfg : Config) (imsi : StdString) (since : ℤ) (s : Manager ι) : Prop where
  alone : LeftAlone imsi s
  reads : PassReads s.cleanup s.store.clock
  settled : s.store.settled ≤ s.store.clock
  fenced : Fenced imsi since s
  leased : (s.store.registry false).Leased cfg imsi since

omit [Fintype ι] [DecidableEq ι] in
/-- The cleanup thread drops nobody early. -/
theorem Lease.cleanup (hpos : 0 ≤ cfg.sessionTimeout) (hmax : cfg.sessionTimeout ≤ maxTimeout)
    (hs : Lease cfg imsi since s) {env : Ambient} (h : cleanupNext cfg env s = some t) :
    (t.store.registry false).Leased cfg imsi since := by
  cases hpc : s.cleanup with
  | testRunning =>
      simp only [cleanupNext, hpc] at h
      split at h <;> cases h
      · have hticked := hs.leased.change (.tick cfg s.store env.elapsed) (by simp) (by simp)
        exact ⟨hticked.past, hticked.active⟩
      · exact hs.leased
  | snapshot now =>
      simp only [cleanupNext, hpc] at h
      split at h <;> cases h
      exact hs.leased
  | erase now expired =>
      have hreads := hs.reads
      rw [hpc] at hreads
      have hmoves := moves_cleanupErase hpos hmax env expired hreads false
      have hleased := hs.leased.run rfl hmoves
      have hsettled := hs.leased.run rfl (hmoves.tail (.settle _))
      simp only [cleanupNext, hpc] at h
      split at h
      all_goals
        rename_i heq
        rw [heq] at hleased hsettled
        cases h
      · dsimp only
        split
        · exact hleased
        · exact hsettled
      · exact hleased
  | sleep =>
      simp only [cleanupNext, hpc] at h
      cases h
      exact hs.leased
  | exited => simp [cleanupNext, hpc] at h

/-- **No step ends a session early.** -/
theorem Lease.step (hpos : 0 ≤ cfg.sessionTimeout) (hmax : cfg.sessionTimeout ≤ maxTimeout)
    (hs : Lease cfg imsi since s) (h : Step cfg s l t) (hl : Spared imsi s l) :
    Lease cfg imsi since t := by
  obtain ⟨ds, hrun, hpermits⟩ := step_changes h
  refine ⟨hs.alone.step h hl, passReads_of_step hs.reads h, (settled_of_step hs.settled h).2,
    hs.fenced.step hs.leased.past hs.settled h, ?_⟩
  by_cases hpass : ∃ env, l = .cleanup env
  · obtain ⟨env, rfl⟩ := hpass
    exact hs.cleanup hpos hmax (step_cleanup.mp h).2
  · -- a write that is permitted in this step is not older than the lease
    have hwrite : ∀ d ∈ ds, ∀ reading, d = .touch imsi reading →
        since ≤ max s.store.settled reading := by
      rintro d hd reading rfl
      obtain ⟨i, env, _, hpc⟩ := hpermits _ hd
      rcases hs.fenced with hbefore | hreadings
      · exact hbefore.trans (le_max_left _ _)
      · exact (hreadings i reading hpc).trans (le_max_right _ _)
    have hkept : (t.store.registry false).Leased cfg imsi since ∧
        s.store.settled ≤ t.store.settled ∧ t.store.settled ≤ t.store.clock := by
      refine hrun.invariant_of_labels
        (P := fun st => (st.registry false).Leased cfg imsi since ∧
          s.store.settled ≤ st.settled ∧ st.settled ≤ st.clock)
        (Q := fun d => (d ≠ .remove imsi ∧ d ≠ .expire imsi ∧ d ≠ .drain imsi) ∧
          ∀ reading, d = .touch imsi reading → since ≤ max s.store.settled reading)
        ?_ (fun d hd => ⟨⟨?_, ?_, ?_⟩, hwrite d hd⟩) ⟨hs.leased, le_refl _, hs.settled⟩
      · rintro st d st' ⟨hst, hle, hclock⟩ ⟨hd, htouch⟩ hchange
        obtain ⟨hmono, hclock'⟩ := hchange.settled_le hclock
        refine ⟨hst.change hchange hd fun reading heq => ?_, hle.trans hmono, hclock'⟩
        exact (htouch reading heq).trans (max_le_max_right _ hle)
      · rintro rfl
        obtain ⟨i, env, _, hpc⟩ := hpermits _ hd
        exact hs.alone.removing i hpc
      · rintro rfl
        exact hpass (hpermits _ hd)
      · rintro rfl
        obtain ⟨k, env, _, hpc⟩ := hpermits _ hd
        rw [hs.alone.loops k] at hpc
        cases hpc
    exact hkept.1

theorem leftAlone_of_reachable (h : Reachable (Initial cfg) (only (Step cfg) (Spared imsi)) s) :
    LeftAlone imsi s := by
  refine h.invariant (P := LeftAlone imsi) ?_ fun _ _ _ hs hstep => hs.step hstep.1 hstep.2
  rintro s₀ ⟨clock, rfl⟩
  exact ⟨by simp [Manager.initial], by simp [Manager.initial], by simp [Manager.initial]⟩

theorem passReads_of_reaches (h : Reaches cfg s) : PassReads s.cleanup s.store.clock := by
  refine h.invariant (P := fun s => PassReads s.cleanup s.store.clock) ?_
    fun _ _ _ hs hstep => passReads_of_step hs hstep
  rintro s₀ ⟨clock, rfl⟩
  trivial

/-- **A session outlives the timeout.** Take an instant since which a session has been
active, and let no update be under way that has read the clock earlier, or let a section that
has the table to itself have ended since. Unless the session is removed by hand or a shutdown
is started, it then stays in the table, active since that instant, until the timeout has
passed, whatever the callers and the cleanup thread do. -/
theorem session_outlives_timeout (hpos : 0 ≤ cfg.sessionTimeout)
    (hmax : cfg.sessionTimeout ≤ maxTimeout)
    (h : Reachable (Initial cfg) (only (Step cfg) (Spared imsi)) s) {session : Session}
    (hlookup : s.store.sessions.lookup imsi = some session) (hsince : since ≤ session.lastActivity)
    (hfenced : Fenced imsi since s) {tr : List (Label ι)}
    (hrun : Run (only (Step cfg) (Spared imsi)) s tr t) :
    (∃ session', t.store.sessions.lookup imsi = some session' ∧ since ≤ session'.lastActivity) ∨
      cfg.sessionTimeout * nanosPerSecond ≤ t.store.clock - since := by
  have hwell := (wellFormed_of_reaches h.of_only).store
  obtain ⟨_, _, _, hpast⟩ := hwell.entries imsi session hlookup
  have hlease : Lease cfg imsi since t := by
    refine hrun.invariant (P := Lease cfg imsi since)
      (fun _ _ _ hs hstep => hs.step hpos hmax hstep.1 hstep.2) ?_
    refine ⟨leftAlone_of_reachable h, passReads_of_reaches h.of_only, hwell.past, hfenced,
      hsince.trans hpast, Or.inl ?_⟩
    exact ⟨_, by simp [Store.registry, lastActivityOf, hlookup], hsince⟩
  rcases hlease.leased.active with ⟨time, hactive, hle⟩ | hlong
  · left
    simp only [Store.registry, lastActivityOf, Option.map_eq_some_iff] at hactive
    obtain ⟨session', hlookup', rfl⟩ := hactive
    exact ⟨session', hlookup', hle⟩
  · exact Or.inr hlong

end Lower

/-! A pass finds a session that has been idle for 29 of its 30 seconds. -/

private def createdAtZero : Manager Caller :=
  play (serve .first (.createSession (text "1")) 2) (by decide +kernel)

private def passAtTwentyNine : List (Label Caller) :=
  [.cleanup (after 29 []), .cleanup (after 0 [⟨text "1", ⟨text "1", 0, 0⟩⟩]),
    .cleanup (after 0 [])]

private def passedOver : Manager Caller :=
  replayed (next sample) passAtTwentyNine createdAtZero (by decide +kernel)

theorem session_outlives_timeout_idle :
    passedOver.store.clock = 29000000000 ∧
      ∃ session, passedOver.store.sessions.lookup (text "1") = some session := by
  have hcreate : ∀ l ∈ serve Caller.first (.createSession (text "1")) 2, ∀ s,
      Spared (text "1") s l := by
    simp [serve, Spared]
  have hpass : ∀ l ∈ passAtTwentyNine, ∀ s, Spared (text "1") s l := by
    simp [passAtTwentyNine, Spared]
  have hreach : Reachable (Initial sample) (only (Step sample) (Spared (text "1")))
      createdAtZero := ⟨_, _, ⟨0, rfl⟩, (run_play _ _).only_of_forall hcreate⟩
  have hlookup : createdAtZero.store.sessions.lookup (text "1") = some ⟨text "1", 0, 0⟩ := by
    decide +kernel
  have hrun : Run (Step sample) createdAtZero passAtTwentyNine passedOver :=
    run_replayed (next sample) passAtTwentyNine _ _
  have hclock : passedOver.store.clock = 29000000000 := by decide +kernel
  have hfenced : Fenced (text "1") 0 createdAtZero := Or.inl (by decide +kernel)
  rcases session_outlives_timeout (by decide) (by decide) hreach hlookup (le_refl _) hfenced
    (hrun.only_of_forall hpass) with hkept | hlong
  · obtain ⟨session, hafter, _⟩ := hkept
    exact ⟨hclock, session, hafter⟩
  · rw [hclock] at hlong
    exact absurd hlong (by decide)

/-! ## How many steps a pass takes -/

section Upper
variable {ι : Type} [Fintype ι] [DecidableEq ι] {cfg : Config} {s t : Manager ι} {l : Label ι}
  {imsi : StdString} {session : Session}

/-- A step of the cleanup thread. -/
def isCleanup : Label ι → Bool
  | .cleanup _ => true
  | _ => false

/-- No call writes the subscriber's session: neither the table section of a
`create_session` nor the write of an update for it is this step. -/
def Unwritten (imsi : StdString) (s : Manager ι) (l : Label ι) : Prop :=
  ∀ i env, l = .thread i env →
    s.threads i ≠ .checked imsi ∧ ∀ reading, s.threads i ≠ .touching imsi reading

theorem unwritten_of_step (h : Step cfg s l t) (hl : Unwritten imsi s l) :
    ∃ ds, Run (Change cfg) s.store ds t.store ∧ ∀ d ∈ ds,
      d ≠ .create imsi ∧ d ≠ .refresh imsi ∧ ∀ reading, d ≠ .touch imsi reading := by
  obtain ⟨ds, hrun, hpermits⟩ := step_changes h
  refine ⟨ds, hrun, fun d hd => ⟨?_, ?_, fun reading => ?_⟩⟩
  · rintro rfl
    obtain ⟨i, env, rfl, hpc⟩ := hpermits _ hd
    exact (hl i env rfl).1 hpc
  · rintro rfl
    obtain ⟨i, env, rfl, hpc⟩ := hpermits _ hd
    exact (hl i env rfl).1 hpc
  · rintro rfl
    obtain ⟨i, env, rfl, hpc⟩ := hpermits _ hd
    exact (hl i env rfl).2 reading hpc

/-- Who is not written stays as it was, or is gone. -/
theorem lookup_of_unwritten (h : Step cfg s l t) (hl : Unwritten imsi s l)
    (hlookup : s.store.sessions.lookup imsi = some session) :
    t.store.sessions.lookup imsi = some session ∨ imsi ∉ t.store.sessions := by
  obtain ⟨ds, hrun, hds⟩ := unwritten_of_step h hl
  refine hrun.invariant_of_labels
    (P := fun st => st.sessions.lookup imsi = some session ∨ imsi ∉ st.sessions) ?_ hds
    (Or.inl hlookup)
  intro st d st' hbefore hd hchange
  rcases hbefore with hold | habsent
  · exact (hchange.lookup_of_unwritten hd).imp_left fun hsame => hsame.trans hold
  · refine Or.inr fun hmem => ?_
    exact (hchange.mem_sessions hmem).elim habsent hd.1

/-- Nobody comes in unwritten. -/
theorem absent_of_unwritten (h : Step cfg s l t) (hl : Unwritten imsi s l)
    (habsent : imsi ∉ s.store.sessions) : imsi ∉ t.store.sessions := by
  obtain ⟨ds, hrun, hds⟩ := unwritten_of_step h hl
  refine hrun.invariant_of_labels (P := fun st => imsi ∉ st.sessions) ?_ hds habsent
  intro st d st' hst hd hchange hmem
  exact (hchange.mem_sessions hmem).elim hst hd.1

/-- The pass under way will end the session: it works with a reading by which the session
has expired, and it lists the session or cannot but do so. -/
def Due (cfg : Config) (imsi : StdString) (session : Session) (s : Manager ι) : Prop :=
  match s.cleanup with
  | .snapshot now => Expired cfg now session ∧ ∀ old, ⟨imsi, old⟩ ∉ s.store.replaced
  | .erase now expired => Expired cfg now session ∧ imsi ∈ expired
  | _ => False

/-- The steps of the cleanup thread up to the end of a pass that ends the session. -/
def toEnding (due : Bool) : CleanupPc → ℕ
  | .erase _ _ => if due then 1 else 5
  | .snapshot _ => if due then 2 else 6
  | .testRunning => 3
  | .sleep => 4
  | .exited => 1

theorem toEnding_pos (due : Bool) (pc : CleanupPc) : 1 ≤ toEnding due pc := by
  cases due <;> cases pc <;> simp [toEnding]

theorem toEnding_le (due : Bool) (pc : CleanupPc) : toEnding due pc ≤ 6 := by
  cases due <;> cases pc <;> simp [toEnding]

/-- The session is gone after so many more steps of the cleanup thread, or it is already. -/
def GoesWithin (cfg : Config) (imsi : StdString) (session : Session) (n : ℕ) (s : Manager ι) :
    Prop :=
  imsi ∉ s.store.sessions ∨ s.store.sessions.lookup imsi = some session ∧
    ∃ due, (due = true → Due cfg imsi session s) ∧ toEnding due s.cleanup ≤ n

/-- The steps of the other threads leave it to the pass. -/
theorem Due.of_others (hs : Due cfg imsi session s) (h : Step cfg s l t)
    (hl : Unwritten imsi s l) (hcleanup : t.cleanup = s.cleanup) : Due cfg imsi session t := by
  rw [Due] at hs ⊢
  rw [hcleanup]
  cases hpc : s.cleanup <;> rw [hpc] at hs
  case snapshot now =>
    refine ⟨hs.1, fun old hmem => ?_⟩
    obtain ⟨ds, hrun, hds⟩ := unwritten_of_step h hl
    refine hrun.invariant_of_labels (P := fun st => ⟨imsi, old⟩ ∉ st.replaced) ?_ hds
      (hs.2 old) hmem
    intro st d st' hst hd hchange hafter
    exact hst (hchange.replaced_of_unwritten hd.2.2 hafter)
  case erase now expired => exact hs
  all_goals exact hs

omit [Fintype ι] [DecidableEq ι] in
/-- The list of a pass that cannot but list the session. -/
theorem mem_expired_of_met {now : ℤ} {order : List SessionEntry}
    (hexpired : Expired cfg now session) (hmet : s.store.Met order)
    (hlookup : s.store.sessions.lookup imsi = some session)
    (hreplaced : ∀ old, ⟨imsi, old⟩ ∉ s.store.replaced) :
    imsi ∈ expiredSessions cfg now order := by
  obtain ⟨session', hmem⟩ := hmet.mem_iff.mp (Finmap.mem_of_lookup_eq_some hlookup)
  rcases hmet.2 _ hmem with hnow | hold
  · rw [hlookup, Option.some.injEq] at hnow
    subst hnow
    exact mem_expiredSessions.mpr ⟨session, hmem, hexpired⟩
  · exact absurd hold (hreplaced session')

/-- An erase section ends every session on its list that has expired. -/
theorem gone_of_erase (hquiet : cfg.Quiet) {now : ℤ} {expired : List StdString}
    (hpc : s.cleanup = .erase now expired) (hexpired : Expired cfg now session)
    (hmem : imsi ∈ expired) (hlookup : s.store.sessions.lookup imsi = some session)
    {env : Ambient} (h : Step cfg s (.cleanup env) t) : imsi ∉ t.store.sessions := by
  have hnext := (step_cleanup.mp h).2
  simp only [cleanupNext, hpc, cleanupErase_eq hquiet, Option.some.injEq] at hnext
  rw [← hnext]
  have hgone := not_mem_sweep (q := Expired cfg now) hmem hlookup hexpired
  dsimp only
  split
  · exact hgone
  · exact hgone

/-- **Every step of the cleanup thread brings the end nearer.** -/
theorem GoesWithin.cleanup (hquiet : cfg.Quiet) {n : ℕ}
    (hs : GoesWithin cfg imsi session n s) (hexpired : Expired cfg s.store.clock session)
    {env : Ambient} (h : Step cfg s (.cleanup env) t) :
    GoesWithin cfg imsi session (n - 1) t := by
  have hl : Unwritten imsi s (.cleanup env) := by simp [Unwritten]
  rcases hs with habsent | ⟨hlookup, due, hdue, hn⟩
  · exact Or.inl (absent_of_unwritten h hl habsent)
  have hnext := (step_cleanup.mp h).2
  rcases lookup_of_unwritten h hl hlookup with hkept | hgone
  swap
  · exact Or.inl hgone
  cases hpc : s.cleanup with
  | testRunning =>
      rw [hpc, toEnding] at hn
      simp only [cleanupNext, hpc] at hnext
      split at hnext <;> cases hnext
      · -- the pass reads the clock now, and it can meet no older session
        refine Or.inr ⟨hkept, true, fun _ => ⟨?_, fun old hmem => ?_⟩, ?_⟩
        · rw [Expired] at hexpired ⊢
          have hlater : (s.store.tick env.elapsed).clock = s.store.clock + env.elapsed := rfl
          omega
        · cases hmem
        · simp only [toEnding, if_true]
          omega
      · refine Or.inr ⟨hkept, false, by simp, ?_⟩
        simp only [toEnding]
        omega
  | snapshot now =>
      rw [hpc] at hn
      simp only [cleanupNext, hpc] at hnext
      split at hnext <;> cases hnext
      rename_i hmet
      refine Or.inr ⟨hkept, due, fun hd => ?_, ?_⟩
      · have hbefore := hdue hd
        rw [Due, hpc] at hbefore
        exact ⟨hbefore.1, mem_expired_of_met hbefore.1 hmet hlookup hbefore.2⟩
      · cases due <;> simp only [toEnding, if_true, Bool.false_eq_true, if_false] at hn ⊢ <;> omega
  | erase now expired =>
      cases due with
      | true =>
          have hbefore := hdue rfl
          rw [Due, hpc] at hbefore
          exact Or.inl (gone_of_erase hquiet hpc hbefore.1 hbefore.2 hlookup h)
      | false =>
          rw [hpc] at hn
          simp only [cleanupNext, hpc, cleanupErase_eq hquiet, Option.some.injEq] at hnext
          subst hnext
          refine Or.inr ⟨hkept, false, by simp, ?_⟩
          simp only [toEnding, Bool.false_eq_true, if_false] at hn ⊢
          omega
  | sleep =>
      rw [hpc, toEnding] at hn
      simp only [cleanupNext, hpc] at hnext
      cases hnext
      refine Or.inr ⟨hkept, false, by simp, ?_⟩
      simp only [toEnding]
      omega
  | exited => simp [cleanupNext, hpc] at hnext

/-- The other threads do not put it off. -/
theorem GoesWithin.of_others {n : ℕ} (hs : GoesWithin cfg imsi session n s)
    (h : Step cfg s l t) (hl : Unwritten imsi s l) (hcleanup : ∀ env, l ≠ .cleanup env) :
    GoesWithin cfg imsi session n t := by
  rcases hs with habsent | ⟨hlookup, due, hdue, hn⟩
  · exact Or.inl (absent_of_unwritten h hl habsent)
  · have hsame := cleanup_of_step h hcleanup
    rcases lookup_of_unwritten h hl hlookup with hkept | hgone
    · exact Or.inr ⟨hkept, due, fun hd => (hdue hd).of_others h hl hsame, hsame ▸ hn⟩
    · exact Or.inl hgone

theorem GoesWithin.run (hquiet : cfg.Quiet) {n : ℕ} (hs : GoesWithin cfg imsi session n s)
    (hexpired : Expired cfg s.store.clock session) {tr : List (Label ι)}
    (h : Run (only (Step cfg) (Unwritten imsi)) s tr t) :
    GoesWithin cfg imsi session (n - tr.countP isCleanup) t := by
  suffices hboth : s.store.clock ≤ t.store.clock ∧
      GoesWithin cfg imsi session (n - tr.countP isCleanup) t from hboth.2
  induction h with
  | nil => exact ⟨le_refl _, hs⟩
  | @snoc u v tr l hbefore hlast ih =>
      obtain ⟨hpast, hu⟩ := ih
      refine ⟨hpast.trans (clock_of_step hlast.1), ?_⟩
      rw [List.countP_append, List.countP_singleton]
      by_cases hl : ∃ env, l = .cleanup env
      · obtain ⟨env, rfl⟩ := hl
        have hlater : Expired cfg u.store.clock session := by
          rw [Expired] at hexpired ⊢
          omega
        simpa [isCleanup, Nat.sub_sub] using hu.cleanup hquiet hlater hlast.1
      · have hother : isCleanup l = false := by
          cases l with
          | cleanup env => exact absurd ⟨env, rfl⟩ hl
          | _ => rfl
        simpa [hother] using hu.of_others hlast.1 hlast.2 fun env heq => hl ⟨env, heq⟩

/-- **An idle session goes.** Take a subscriber who has been idle for the timeout, and let no
call write the session from here on. Once the cleanup thread has taken six more steps, the
session is gone, whatever the other threads do meanwhile. -/
theorem idle_session_goes (hquiet : cfg.Quiet) (hpos : 0 ≤ cfg.sessionTimeout)
    (hidle : ∀ session, s.store.sessions.lookup imsi = some session →
      Idle cfg s.store.clock session)
    {tr : List (Label ι)} (hrun : Run (only (Step cfg) (Unwritten imsi)) s tr t)
    (hsteps : 6 ≤ tr.countP isCleanup) : imsi ∉ t.store.sessions := by
  cases hlookup : s.store.sessions.lookup imsi with
  | none =>
      have habsent : imsi ∉ s.store.sessions := Finmap.lookup_eq_none.mp hlookup
      exact hrun.invariant (P := fun u => imsi ∉ u.store.sessions)
        (fun _ _ _ hu hstep => absent_of_unwritten hstep.1 hstep.2 hu) habsent
  | some session =>
      have hexpired : Expired cfg s.store.clock session :=
        (timeoutNanos_le hpos).trans (hidle session hlookup)
      have hstart : GoesWithin cfg imsi session 6 s :=
        Or.inr ⟨hlookup, false, by simp, toEnding_le _ _⟩
      rcases hstart.run hquiet hexpired hrun with habsent | ⟨_, due, _, hn⟩
      · exact habsent
      · have hpositive := toEnding_pos due t.cleanup
        omega

end Upper

/-! The pass under way has read the clock too early, and the next one takes the session. -/

private def readTooEarly : Manager Caller :=
  play (serve .first (.createSession (text "1")) 2 ++ [.cleanup (after 29 [])] ++
    [.call .first (.createSession (text "2")), .thread .first (after 0 []),
      .thread .first (after 1 []), .thread .first (after 0 [])]) (by decide +kernel)

private def laterEntry : SessionEntry := ⟨text "2", ⟨text "2", 30000000000, 30000000000⟩⟩

private def twoPasses : List (Label Caller) :=
  [.cleanup (after 0 [⟨text "1", ⟨text "1", 0, 0⟩⟩, laterEntry]), .cleanup (after 0 []),
    .cleanup (after 0 []), .cleanup (after 1 []),
    .cleanup (after 0 [⟨text "1", ⟨text "1", 0, 0⟩⟩, laterEntry]), .cleanup (after 0 [])]

private def sweptTwice : Manager Caller :=
  replayed (next sample) twoPasses readTooEarly (by decide +kernel)

theorem idle_session_goes_late :
    readTooEarly.store.clock = 30000000000 ∧ text "1" ∈ readTooEarly.store.sessions ∧
      sweptTwice.store.sessions.keys = {text "2"} ∧ text "1" ∉ sweptTwice.store.sessions := by
  have hunwritten : ∀ l ∈ twoPasses, ∀ s, Unwritten (text "1") s l := by
    simp [twoPasses, Unwritten]
  have hrun : Run (Step sample) readTooEarly twoPasses sweptTwice :=
    run_replayed (next sample) twoPasses _ _
  have hlookup : readTooEarly.store.sessions.lookup (text "1") = some ⟨text "1", 0, 0⟩ := by
    decide +kernel
  have hidle : ∀ session, readTooEarly.store.sessions.lookup (text "1") = some session →
      Idle sample readTooEarly.store.clock session := by
    intro session hsession
    rw [hlookup, Option.some.injEq] at hsession
    subst hsession
    decide +kernel
  have hsteps : 6 ≤ twoPasses.countP isCleanup := by decide
  refine ⟨by decide +kernel, by decide +kernel, by decide +kernel, ?_⟩
  exact idle_session_goes sample_delivers.quiet (by decide) hidle
    (hrun.only_of_forall hunwritten) hsteps

end Pgw.SessionManager
