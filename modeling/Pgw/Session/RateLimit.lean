import Pgw.Lib.Pacing
import Pgw.Session.DrainLoop

/-!
# The rate of the graceful shutdown

`shutdown_rate_` is documented in sessions per second, and the loop pauses for
`1000 / shutdown_rate_` milliseconds after each of them. The division drops the
remainder: the pauses of `shutdown_rate_` sessions add up to a full second only if
the rate divides 1000, and above 1000 there is no pause at all.

Sections take place at instants here. The manager's own clock moves only when some
section reads it, and the section that erases a session does not.
-/
namespace Pgw.SessionManager
open TransitionSystem Pacing

/-! ## Instants -/

/-- A manager and the instant of its last section, in ticks of the steady clock. -/
structure Timed (ι : Type) where
  manager : Manager ι
  now : ℤ

variable {ι : Type}

def Timed.initial (cfg : Config) (clock : ℤ) : Timed ι := ⟨.initial cfg clock, clock⟩

/-- The clock is read between the last section and the end of this one. -/
def ReadsBetween (s : Timed ι) (instant : ℤ) : Label ι → Prop
  | .thread _ env | .cleanup env | .loop _ env =>
      s.now ≤ s.manager.store.clock + env.elapsed ∧
        s.manager.store.clock + env.elapsed + env.lag ≤ instant
  | .call _ _ | .destroy => True

instance (s : Timed ι) (instant : ℤ) (l : Label ι) : Decidable (ReadsBetween s instant l) :=
  match l with
  | .thread _ _ | .cleanup _ | .loop _ _ => inferInstanceAs (Decidable (_ ∧ _))
  | .call _ _ | .destroy => isTrue trivial

variable [Fintype ι] [DecidableEq ι]

/-- A section at an instant. -/
def timedNext (cfg : Config) (l : ℤ × Label ι) (s : Timed ι) : Option (Timed ι) :=
  if s.now ≤ l.1 ∧ ReadsBetween s l.1 l.2 then
    (next cfg l.2 s.manager).map fun m => ⟨m, l.1⟩
  else none

def TimedStep (cfg : Config) (s : Timed ι) (l : ℤ × Label ι) (t : Timed ι) : Prop :=
  timedNext cfg l s = some t

omit [Fintype ι] [DecidableEq ι] in
/-- The instants of the removals that a loop announces. -/
def removalOf (cfg : Config) (k : ℕ) (s : Timed ι) (l : ℤ × Label ι) : List ℤ :=
  (loopEmitted cfg k s.manager l.2).map fun _ => l.1

/-- No start sets the flag again while the loop is between an interrupted wait and
the test that makes it end. -/
def NotResumed (k : ℕ) (s : Timed ι) (l : ℤ × Label ι) : Prop :=
  match l.2 with
  | .thread i _ =>
      s.manager.threads i = .entered .startGracefulShutdown → s.manager.loops k = .testActive →
        s.manager.store.gracefulShutdownActive = true
  | _ => True

instance (k : ℕ) (s : Timed ι) (l : ℤ × Label ι) : Decidable (NotResumed k s l) :=
  match l with
  | (_, .thread _ _) => inferInstanceAs (Decidable (_ → _ → _))
  | (_, .call _ _) | (_, .cleanup _) | (_, .loop _ _) | (_, .destroy) => isTrue trivial

section Steps
variable {cfg : Config} {s t : Timed ι} {l : ℤ × Label ι} {k : ℕ}

theorem timedStep_iff : TimedStep cfg s l t ↔
    (s.now ≤ l.1 ∧ ReadsBetween s l.1 l.2) ∧ Step cfg s.manager l.2 t.manager ∧ t.now = l.1 := by
  rw [TimedStep, timedNext]
  by_cases hnow : s.now ≤ l.1 ∧ ReadsBetween s l.1 l.2
  · rw [if_pos hnow, Option.map_eq_some_iff]
    constructor
    · rintro ⟨m, hm, rfl⟩
      exact ⟨hnow, hm, rfl⟩
    · rintro ⟨_, hm, hinstant⟩
      exact ⟨t.manager, hm, by rw [← hinstant]⟩
  · simp [hnow]

end Steps

/-! ## The pause of the loop -/

/-- What a position of the loop says about its removals so far: when it is about to
remove another session, the pause after each of them has passed. -/
def Rested (cfg : Config) (times : List ℤ) (now : ℤ) (active : Bool) : LoopPc → Prop
  | .absent | .start => times = []
  | .testActive => active = true → ∀ t ∈ times, t + sleepDuration cfg ≤ now
  | .testRunning | .pick | .erase _ => ∀ t ∈ times, t + sleepDuration cfg ≤ now
  | .wait deadline => ∀ t ∈ times, t + sleepDuration cfg ≤ deadline
  | .limit | .exited => True

section Pause
variable {cfg : Config} {times : List ℤ} {now instant : ℤ}

theorem Rested.mono {active active' : Bool} {pc : LoopPc} (h : Rested cfg times now active pc)
    (hnow : now ≤ instant) (hactive : pc = .testActive → active' = true → active = true) :
    Rested cfg times instant active' pc := by
  have hlater : (∀ u ∈ times, u + sleepDuration cfg ≤ now) →
      ∀ u ∈ times, u + sleepDuration cfg ≤ instant := fun hs u hu => (hs u hu).trans hnow
  cases pc with
  | testActive => exact fun ht => hlater (h (hactive rfl ht))
  | testRunning => exact hlater h
  | pick => exact hlater h
  | erase imsi => exact hlater h
  | _ => exact h

omit [Fintype ι] [DecidableEq ι] in
/-- Along the positions at which nothing is removed, the loop comes to rest. -/
theorem rested_of_loopNext {k : ℕ} {env : Ambient} {s t : Manager ι}
    (h : loopNext cfg k env s = some t) (hnot : ∀ imsi, s.loops k ≠ .erase imsi)
    (hpast : ∀ u ∈ times, u ≤ now) (hfrom : now ≤ s.store.clock + env.elapsed)
    (hto : s.store.clock + env.elapsed ≤ instant) (hterm : t.terminated = false)
    (hrested : Rested cfg times now s.store.gracefulShutdownActive (s.loops k)) :
    Rested cfg times instant t.store.gracefulShutdownActive (t.loops k) := by
  have hlater : (∀ u ∈ times, u + sleepDuration cfg ≤ now) →
      ∀ u ∈ times, u + sleepDuration cfg ≤ instant :=
    fun hs u hu => (hs u hu).trans (hfrom.trans hto)
  cases hpc : s.loops k <;> rw [hpc] at hrested <;> simp only [loopNext, hpc] at h
  case absent => cases h
  case exited => cases h
  case erase imsi => exact absurd hpc (hnot imsi)
  case start =>
    split at h <;> cases h
    · cases hterm
    · simp [Rested, show times = [] from hrested]
  case testActive =>
    cases h
    rw [loops_gotoLoop]
    split
    · rename_i hactive
      exact hlater (hrested hactive)
    · trivial
  case testRunning =>
    cases h
    rw [loops_gotoLoop]
    split
    · exact hlater hrested
    · trivial
  case pick =>
    split at h
    · cases hchoice : pickSession env.order with
      | none =>
          simp only [hchoice, Option.some.injEq] at h
          rw [← h, loops_gotoLoop]
          trivial
      | some imsi =>
          simp only [hchoice, Option.some.injEq] at h
          rw [← h, loops_gotoLoop]
          split
          · exact fun _ => hlater hrested
          · exact hlater hrested
    · cases h
  case limit =>
    cases h
    rw [loops_gotoLoop]
    intro u hu
    have hle := (hpast u hu).trans hfrom
    simpa using hle
  case wait deadline =>
    split at h
    · rename_i hends
      cases h
      rw [loops_gotoLoop]
      intro hactive u hu
      -- An interrupted wait has left the flag false, and the test ends the loop.
      rcases hends with hinterrupted | hdue
      · rw [store_gotoLoop, hinterrupted] at hactive
        cases hactive
      · exact (hrested u hu).trans (hdue.trans hto)
    · cases h

end Pause

omit [DecidableEq ι] in
/-- The destructor only clears the flag. -/
theorem active_of_destroyNext {s t : Manager ι} (h : destroyNext s = some t)
    (hactive : t.store.gracefulShutdownActive = true) : s.store.gracefulShutdownActive = true := by
  rw [destroyNext] at h
  split at h <;> (try split at h) <;> (try split at h)
  all_goals cases h <;> first | exact hactive | cases hactive

/-- The removals so far are spaced, and the loop keeps the pause after the last one. -/
structure KeepsPace (cfg : Config) (k : ℕ) (times : List ℤ) (s : Timed ι) : Prop where
  reaches : Reaches cfg s.manager
  spaced : Spaced (sleepDuration cfg) times
  past : ∀ t ∈ times, t ≤ s.now
  rested : s.manager.terminated = false →
    Rested cfg times s.now s.manager.store.gracefulShutdownActive (s.manager.loops k)

namespace KeepsPace
variable {cfg : Config} {s t : Timed ι} {l : ℤ × Label ι} {k : ℕ} {times : List ℤ}

theorem initial (cfg : Config) (k : ℕ) (clock : ℤ) :
    KeepsPace cfg k [] (Timed.initial cfg clock : Timed ι) where
  reaches := .of_init ⟨clock, rfl⟩
  spaced := .nil _
  past := by simp
  rested := fun _ => rfl

/-- A step of another thread removes nothing in the name of the loop. -/
theorem others (hs : KeepsPace cfg k times s) (h : TimedStep cfg s l t) (hl : NotResumed k s l)
    (hother : ∀ env, l.2 ≠ .loop k env) :
    KeepsPace cfg k (times ++ removalOf cfg k s l) t := by
  obtain ⟨⟨hnow, _⟩, hstep, hinstant⟩ := timedStep_iff.mp h
  rw [← hinstant] at hnow
  have hnone : removalOf cfg k s l = [] := by
    obtain ⟨instant, l⟩ := l
    cases l with
    | loop j env =>
        have hjk : j ≠ k := fun heq => hother env (by rw [← heq])
        simp [removalOf, loopEmitted, hjk]
    | _ => rfl
  rw [hnone, List.append_nil]
  refine ⟨hs.reaches.tail hstep, hs.spaced, fun u hu => (hs.past u hu).trans hnow, fun _ => ?_⟩
  have hrested := hs.rested (not_terminated_of_step hstep)
  rcases loops_of_reaches hs.reaches hstep k hother with hsame | ⟨habsent, hstart⟩
  · rw [hsame]
    refine hrested.mono hnow fun hpc hactive => ?_
    -- Only a start sets the flag, and none does so while the loop is at its test.
    by_contra hcleared
    obtain ⟨instant, l⟩ := l
    cases flags_of_step hstep with
    | same hflags => exact hcleared (hflags.2 ▸ hactive)
    | start i env hentered => exact hcleared (hl hentered hpc)
    | complete j env _ _ _ hinactive => simp [hinactive] at hactive
    | destroy => exact hcleared (active_of_destroyNext (step_destroy.mp hstep).2 hactive)
  · rw [habsent] at hrested
    rw [hstart]
    exact hrested

/-- The loop's own step. It removes a session only when it is at rest. -/
theorem own (hs : KeepsPace cfg k times s) {instant : ℤ} {env : Ambient}
    (h : TimedStep cfg s (instant, .loop k env) t) :
    KeepsPace cfg k (times ++ removalOf cfg k s (instant, .loop k env)) t := by
  obtain ⟨⟨hnow, hfrom, hto⟩, hstep, hinstant⟩ := timedStep_iff.mp h
  have hread : s.manager.store.clock + env.elapsed ≤ t.now := by omega
  have hpast : ∀ u ∈ times, u ≤ t.now := fun u hu => ((hs.past u hu).trans hfrom).trans hread
  have hreaches := hs.reaches.tail hstep
  have hrested := hs.rested (not_terminated_of_step hstep)
  have hnext := (step_loop.mp hstep).2
  by_cases herase : ∃ imsi, s.manager.loops k = .erase imsi
  · obtain ⟨imsi, hpc⟩ := herase
    rw [hpc] at hrested
    have hrests : t.manager.terminated = false → ∀ times', Rested cfg times' t.now
        t.manager.store.gracefulShutdownActive (t.manager.loops k) := by
      intro hterm times'
      rcases (keys_of_erase hnext hpc).2 with ⟨hlimit, _⟩ | ⟨_, hended⟩
      · rw [hlimit]
        trivial
      · rw [hterm] at hended
        cases hended
    by_cases hpresent : imsi ∈ s.manager.store.sessions
    · have hone : removalOf cfg k s (instant, .loop k env) = [t.now] := by
        simp [removalOf, loopEmitted, emitted, hpc, hpresent, hinstant]
      rw [hone]
      have hspaced := hs.spaced.concat fun u hu => ((hrested u hu).trans hfrom).trans hread
      refine ⟨hreaches, hspaced, ?_, fun hterm => hrests hterm _⟩
      intro u hu
      rcases List.mem_append.mp hu with hold | hnew
      · exact hpast u hold
      · exact (List.mem_singleton.mp hnew).le
    · have hnone : removalOf cfg k s (instant, .loop k env) = [] := by
        simp [removalOf, loopEmitted, emitted, hpc, hpresent]
      rw [hnone, List.append_nil]
      exact ⟨hreaches, hs.spaced, hpast, fun hterm => hrests hterm _⟩
  · have hnot : ∀ imsi, s.manager.loops k ≠ .erase imsi := fun imsi hpc => herase ⟨imsi, hpc⟩
    have hnone : removalOf cfg k s (instant, .loop k env) = [] := by
      cases hpc : s.manager.loops k with
      | erase imsi => exact absurd hpc (hnot imsi)
      | _ => simp [removalOf, loopEmitted, emitted, hpc]
    rw [hnone, List.append_nil]
    exact ⟨hreaches, hs.spaced, hpast, fun hterm =>
      rested_of_loopNext hnext hnot hs.past hfrom hread hterm hrested⟩

theorem step (hs : KeepsPace cfg k times s) (h : TimedStep cfg s l t) (hl : NotResumed k s l) :
    KeepsPace cfg k (times ++ removalOf cfg k s l) t := by
  by_cases hown : ∃ env, l.2 = .loop k env
  · obtain ⟨instant, l⟩ := l
    obtain ⟨env, rfl⟩ := hown
    exact hs.own h
  · exact hs.others h hl fun env heq => hown ⟨env, heq⟩

/-- **The removals of a loop are a pause apart.** -/
theorem run {clock : ℤ} {tr : List (ℤ × Label ι)}
    (h : Run (only (TimedStep cfg) (NotResumed k)) (.initial cfg clock) tr s) :
    KeepsPace cfg k (observed (timedNext cfg) (removalOf cfg k) tr (.initial cfg clock)) s := by
  induction h with
  | nil => exact initial cfg k clock
  | snoc hrun hlast ih =>
      rw [Run.observed_snoc _ hrun.of_only]
      exact ih.step hlast.1 hlast.2

end KeepsPace

/-! ## Runs at full speed

A subscriber is created anew as soon as the loop has come back from its pause. -/

/-- The sample configuration at some rate. -/
def rated (r : ℕ) : Config := { sample with shutdownRate := r }

/-- `sleepDuration` as a delay. -/
def pause (r : ℕ) : ℕ := 1000 / r * 1000000

/-- The loop of the only shutdown is at some position, and all callers are idle. -/
def scene (loop : LoopPc) (sessions : SessionTable) (time : ℤ) (events : List SessionEvent)
    (settled : ℤ) (began : Caller → ℤ) : Timed Caller where
  manager := {
    store := ⟨sessions, ∅, true, true, time, events, settled, []⟩
    threads := fun _ => .idle
    began := began
    cleanup := .testRunning
    loops := Function.update (fun _ => .absent) 0 loop
    spawned := 1
    gracefulShutdownThread := some 0
    destructor := .alive
    terminated := false }
  now := time

/-- A session as it is made at some time. -/
def freshEntry (imsi : StdString) (time : ℤ) : SessionEntry := ⟨imsi, imsi, time, time⟩

@[simp] theorem fst_freshEntry (imsi : StdString) (time : ℤ) :
    (freshEntry imsi time).1 = imsi := rfl

/-- The table with one session of the given age. -/
def oneSession (time : ℤ) : SessionTable :=
  (∅ : SessionTable).insert (text "1") (freshEntry (text "1") time).2

theorem entries_oneSession (time : ℤ) :
    (oneSession time).entries = {freshEntry (text "1") time} :=
  Finmap.entries_insert_of_notMem Finmap.notMem_empty

theorem erase_oneSession (time : ℤ) : (oneSession time).erase (text "1") = ∅ := by
  refine eq_empty_of_keys ?_
  rw [Finmap.keys_erase, oneSession, keys_insert]
  rfl

private def checkedNext (r : ℕ) (l : ℤ × Label Caller) (s : Timed Caller) :
    Option (Timed Caller) :=
  if NotResumed 0 s l then timedNext (rated r) l s else none

private def startLabels : List (ℤ × Label Caller) :=
  (serve Caller.first .startGracefulShutdown 3 ++ [Label.loop 0 (after 0 [])]).map fun l => (0, l)

private def createLabels (imsi : StdString) (time : ℤ) : List (ℤ × Label Caller) :=
  (serve Caller.first (.createSession imsi) 2).map fun l => (time, l)

private def removeLabels (r : ℕ) (order : List SessionEntry) (time : ℤ) :
    List (ℤ × Label Caller) :=
  [(time, .loop 0 (after 0 [])), (time, .loop 0 (after 0 [])), (time, .loop 0 (after 0 order)),
    (time, .loop 0 (after 0 [])), (time, .loop 0 (after 0 [])),
    (time + pause r, .loop 0 { after 0 [] with elapsed := pause r })]

private theorem replay_start {r : ℕ} (hr : 1 ≤ r) :
    replay (checkedNext r) startLabels (.initial (rated r) 0) =
      some (scene .testActive ∅ 0 [] 0 fun _ => 0) := by
  have hne : r ≠ 0 := by omega
  simp [startLabels, serve, replay, checkedNext, NotResumed, timedNext, ReadsBetween, scene, next,
    Timed.initial, Manager.initial, Config.initial, Manager.goto, threadNext, firstSection,
    loopNext, Manager.gotoLoop, rated, sample, after, hne]

theorem rated_delivers (r : ℕ) : (rated r).Delivers := ⟨_, rfl, fun _ => rfl⟩

private theorem replay_create (r : ℕ) (time : ℤ) (events : List SessionEvent) (settled : ℤ)
    (began : Caller → ℤ) :
    replay (checkedNext r) (createLabels (text "1") time)
        (scene .testActive ∅ time events settled began) =
      some (scene .testActive (oneSession time) time (events ++ [⟨text "1", .created, 0⟩]) time
        (Function.update began .first time)) := by
  have himsi : IMSI.ofString (text "1") = .returned ⟨text "1", by decide +kernel⟩ := by
    decide +kernel
  simp [createLabels, serve, replay, checkedNext, NotResumed, timedNext, ReadsBetween, scene, next,
    Manager.goto, threadNext, firstSection, himsi, createSessionBlacklist, createSessionTable,
    (rated_delivers r).emitEvent, tableResult, Store.tick, Store.settle, after, oneSession,
    freshEntry]

private theorem replay_remove (r : ℕ) (time : ℤ) (events : List SessionEvent) (settled : ℤ)
    (began : Caller → ℤ) :
    replay (checkedNext r) (removeLabels r [freshEntry (text "1") time] time)
        (scene .testActive (oneSession time) time events settled began) =
      some (scene .testActive ∅ (time + pause r) (events ++ [⟨text "1", .gracefulShutdown, 0⟩])
        time began) := by
  have hne : text "1" ≠ [] := by decide
  have hpresent : (oneSession time).lookup (text "1") = some (freshEntry (text "1") time).2 :=
    Finmap.lookup_insert _
  have hdue : sleepDuration (rated r) = pause r := by simp [sleepDuration, rated, pause]
  simp [removeLabels, replay, checkedNext, NotResumed, timedNext, ReadsBetween, scene, next,
    loopNext, Manager.gotoLoop, pickSession, entries_oneSession, hne, shutdownErase, hpresent,
    erase_oneSession, (rated_delivers r).emitEvent, Store.tick, Store.settle, hdue, after]

private theorem observed_create (r : ℕ) (time : ℤ) (s : Timed Caller) :
    observed (timedNext (rated r)) (removalOf (rated r) 0) (createLabels (text "1") time) s =
      [] := by
  apply observed_eq_nil
  simp [createLabels, serve, removalOf, loopEmitted]

private theorem observed_start {r : ℕ} (hr : 1 ≤ r) :
    observed (timedNext (rated r)) (removalOf (rated r) 0) startLabels (.initial (rated r) 0) =
      [] := by
  have hne : r ≠ 0 := by omega
  simp [startLabels, serve, observed, removalOf, loopEmitted, emitted, timedNext, ReadsBetween,
    next, Timed.initial, Manager.initial, Config.initial, Manager.goto, threadNext, firstSection,
    loopNext, rated, sample, after, hne]

private theorem observed_remove (r : ℕ) (time : ℤ) (events : List SessionEvent) (settled : ℤ)
    (began : Caller → ℤ) :
    observed (timedNext (rated r)) (removalOf (rated r) 0)
        (removeLabels r [freshEntry (text "1") time] time)
        (scene .testActive (oneSession time) time events settled began) =
      [time] := by
  have hne : text "1" ≠ [] := by decide
  have hpresent : (oneSession time).lookup (text "1") = some (freshEntry (text "1") time).2 :=
    Finmap.lookup_insert _
  have hmem : text "1" ∈ oneSession time := Finmap.mem_of_lookup_eq_some hpresent
  have hdue : sleepDuration (rated r) = pause r := by simp [sleepDuration, rated, pause]
  simp [removeLabels, observed, removalOf, loopEmitted, emitted, timedNext, ReadsBetween, scene,
    next, loopNext, Manager.gotoLoop, pickSession, entries_oneSession, hne, shutdownErase, hpresent,
    hmem, erase_oneSession, (rated_delivers r).emitEvent, Store.tick, Store.settle, hdue, after]

/-- One subscriber is created and removed, and the pause passes. -/
theorem run_round (r : ℕ) (time : ℤ) (events : List SessionEvent) (settled : ℤ)
    (began : Caller → ℤ) :
    ∃ tr events' settled' began', Run (only (TimedStep (rated r)) (NotResumed 0))
        (scene .testActive ∅ time events settled began) tr
        (scene .testActive ∅ (time + pause r) events' settled' began') ∧
      observed (timedNext (rated r)) (removalOf (rated r) 0) tr
        (scene .testActive ∅ time events settled began) = [time] := by
  have hcreate := run_only_of_replay (replay_create r time events settled began)
  have hremove := run_only_of_replay (replay_remove r time (events ++ [⟨text "1", .created, 0⟩])
    time (Function.update began .first time))
  refine ⟨_, _, _, _, hcreate.append hremove, ?_⟩
  rw [Run.observed_append _ hcreate.of_only, observed_create, observed_remove, List.nil_append]

theorem run_rounds (r n : ℕ) (time : ℤ) (events : List SessionEvent) (settled : ℤ)
    (began : Caller → ℤ) :
    ∃ tr t, Run (only (TimedStep (rated r)) (NotResumed 0))
        (scene .testActive ∅ time events settled began) tr t ∧
      observed (timedNext (rated r)) (removalOf (rated r) 0) tr
        (scene .testActive ∅ time events settled began) = paced time (pause r : ℤ) n := by
  induction n generalizing time events settled began with
  | zero => exact ⟨[], _, Run.nil _, rfl⟩
  | succ n ih =>
      obtain ⟨tr, events', settled', began', hround, hone⟩ := run_round r time events settled began
      obtain ⟨tr', t, hrounds, hpaced⟩ := ih (time + pause r) events' settled' began'
      refine ⟨tr ++ tr', t, hround.append hrounds, ?_⟩
      rw [Run.observed_append _ hround.of_only, hone, hpaced]
      rfl

/-- Any number of removals, each a pause after the one before. -/
theorem run_paced {r : ℕ} (hr : 1 ≤ r) (n : ℕ) :
    ∃ tr, ∃ t : Timed Caller,
      Run (only (TimedStep (rated r)) (NotResumed 0)) (.initial (rated r) 0) tr t ∧
        observed (timedNext (rated r)) (removalOf (rated r) 0) tr (.initial (rated r) 0) =
          paced 0 (pause r : ℤ) n := by
  have hstart := run_only_of_replay (replay_start hr)
  obtain ⟨tr, t, hrounds, hpaced⟩ := run_rounds r n 0 [] 0 fun _ => 0
  refine ⟨_, t, hstart.append hrounds, ?_⟩
  rw [Run.observed_append _ hstart.of_only, observed_start hr, hpaced, List.nil_append]

/-! ## The rate -/

/-- At rate `r`, no loop announces more than `r` removals in a second, wherever the
second begins. -/
def RateLimited (r : ℕ) : Prop :=
  ∀ (ι : Type) [Fintype ι] [DecidableEq ι] (cfg : Config), cfg.shutdownRate = r →
    ∀ (clock : ℤ) (k : ℕ) (tr : List (ℤ × Label ι)) (s : Timed ι),
      Run (only (TimedStep cfg) (NotResumed k)) (.initial cfg clock) tr s →
        ∀ a : ℤ, (inWindow a nanosPerSecond
          (observed (timedNext cfg) (removalOf cfg k) tr (.initial cfg clock))).length ≤ r

/-- `r` pauses of a rate that divides 1000 last a second. -/
theorem second_le_pauses {r : ℕ} (hdvd : r ∣ 1000) {cfg : Config} (hrate : cfg.shutdownRate = r) :
    nanosPerSecond ≤ r • sleepDuration cfg := by
  have hexact : r * (1000 / r) = 1000 := Nat.mul_div_cancel' hdvd
  have hcast : (r : ℤ) * ((1000 / r : ℕ) : ℤ) = 1000 := by exact_mod_cast hexact
  rw [sleepDuration, hrate, nsmul_eq_mul, ← mul_assoc, hcast]
  decide

/-- `r` pauses of any other rate are shorter than a second. -/
theorem pauses_lt_second {r : ℕ} (hdvd : ¬ r ∣ 1000) : r • (pause r : ℤ) < nanosPerSecond := by
  have hle : r * (1000 / r) ≤ 1000 := Nat.mul_div_le 1000 r
  have hne : r * (1000 / r) ≠ 1000 := fun heq => hdvd ⟨_, heq.symm⟩
  have hlt : r * (1000 / r) * 1000000 < 1000 * 1000000 := by omega
  have hcast : ((r * (1000 / r) * 1000000 : ℕ) : ℤ) < 1000000000 := by exact_mod_cast hlt
  rw [nsmul_eq_mul, pause, nanosPerSecond]
  push_cast at hcast ⊢
  rw [← mul_assoc]
  exact hcast

/-- **When the shutdown rate is a limit**: exactly when it divides 1000. -/
theorem rate_limited_iff (r : ℕ) (hr : 1 ≤ r) : RateLimited r ↔ r ∣ 1000 := by
  constructor
  · intro hlimited
    by_contra hdvd
    obtain ⟨tr, t, hrun, htimes⟩ := run_paced hr (r + 1)
    have hle := hlimited Caller (rated r) rfl 0 0 tr t hrun 0
    have hall : inWindow 0 nanosPerSecond (paced 0 (pause r : ℤ) (r + 1)) = _ :=
      inWindow_paced (Int.natCast_nonneg _) (pauses_lt_second hdvd)
    rw [htimes, hall, length_paced] at hle
    omega
  · intro hdvd ι _ _ cfg hrate clock k tr s hrun a
    exact (KeepsPace.run hrun).spaced.length_inWindow_le a (second_le_pauses hdvd hrate)

theorem rate_limited_iff_sample : RateLimited 20 ∧ ¬ RateLimited 30 := by
  constructor
  · exact (rate_limited_iff 20 (by decide)).mpr (by decide)
  · exact fun hlimited => absurd ((rate_limited_iff 30 (by decide)).mp hlimited) (by decide)

/-- Four sessions are created, and three a second are to be removed. -/
private def fourSessions : List (ℤ × Label Caller) :=
  (createLabels (text "1") 0 ++ createLabels (text "2") 0 ++ createLabels (text "3") 0 ++
    createLabels (text "4") 0) ++ startLabels ++
  (removeLabels 3 [freshEntry (text "1") 0, freshEntry (text "2") 0, freshEntry (text "3") 0,
      freshEntry (text "4") 0] 0 ++
    removeLabels 3 [freshEntry (text "2") 0, freshEntry (text "3") 0, freshEntry (text "4") 0]
      333000000 ++
    removeLabels 3 [freshEntry (text "3") 0, freshEntry (text "4") 0] 666000000 ++
    removeLabels 3 [freshEntry (text "4") 0] 999000000)

/-- At rate 3 the pause is 333 ms, and all four are gone after 999 ms. -/
theorem four_removals_in_a_second :
    observed (timedNext (rated 3)) (removalOf (rated 3) 0) fourSessions (.initial (rated 3) 0) =
        [0, 333000000, 666000000, 999000000] ∧ ¬ RateLimited 3 := by
  have htimes : observed (timedNext (rated 3)) (removalOf (rated 3) 0) fourSessions
      (.initial (rated 3) 0) = [0, 333000000, 666000000, 999000000] := by
    decide +kernel
  refine ⟨htimes, fun hlimited => ?_⟩
  have hrun := run_only_replayed (timedNext (rated 3)) (NotResumed 0) fourSessions
    (.initial (rated 3) 0) (by decide +kernel)
  have hle := hlimited Caller (rated 3) rfl 0 0 fourSessions _ hrun 0
  rw [htimes] at hle
  exact absurd hle (by decide +kernel)

end Pgw.SessionManager
