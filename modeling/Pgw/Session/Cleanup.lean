import Pgw.Lib.Sweep
import Pgw.Session.Changes
import Pgw.Session.Positions

/-!
# A cleanup pass is one filter of the table

The pass reads the clock, lists the expired sessions in one section, and erases
in another what is still expired by its old reading. In between the table changes
at will. What carries the proof is that every section leaves an entry alone or
makes it active no earlier than the clock then stood, and the clock does not go
back: an entry that the list does not cover cannot be expired.

This is about whole sections, one after the other, and about a timeout that the
clock's unit can express. A longer one is converted to a shorter one, and the pass
ends sessions before their time.

## Main results

* `cleanup_pass_filters_iff` — the passes are filters exactly for the timeouts up to
  `maxTimeout`.
-/
namespace Pgw.SessionManager
open TransitionSystem Sweep Completion

/-! ## The two loops -/

variable {cfg : Config} {now : ℤ}

theorem mem_expiredSessions {order : List SessionEntry} {imsi : StdString} :
    imsi ∈ expiredSessions cfg now order ↔
      ∃ session, ⟨imsi, session⟩ ∈ order ∧ Expired cfg now session := by
  induction order with
  | nil => simp [expiredSessions]
  | cons entry order ih =>
      obtain ⟨key, value⟩ := entry
      rw [expiredSessions]
      by_cases hexpired : Expired cfg now value
      · rw [if_pos hexpired, List.mem_cons, ih]
        constructor
        · rintro (rfl | ⟨session, hmem, hsession⟩)
          · exact ⟨value, List.mem_cons_self, hexpired⟩
          · exact ⟨session, List.mem_cons_of_mem _ hmem, hsession⟩
        · rintro ⟨session, hmem, hsession⟩
          rcases List.mem_cons.mp hmem with heq | hmem
          · cases heq
            exact Or.inl rfl
          · exact Or.inr ⟨session, hmem, hsession⟩
      · rw [if_neg hexpired, ih]
        constructor
        · rintro ⟨session, hmem, hsession⟩
          exact ⟨session, List.mem_cons_of_mem _ hmem, hsession⟩
        · rintro ⟨session, hmem, hsession⟩
          rcases List.mem_cons.mp hmem with heq | hmem
          · cases heq
            exact absurd hsession hexpired
          · exact ⟨session, hmem, hsession⟩

/-- The list covers the table it was made from, in whichever order it was met. -/
theorem covers_expiredSessions {sessions : SessionTable} {order : List SessionEntry}
    (h : sessions.entries = ↑order) :
    Covers (Expired cfg now) (expiredSessions cfg now order) sessions := by
  intro imsi session hlookup hexpired
  refine mem_expiredSessions.mpr ⟨session, ?_, hexpired⟩
  rw [Finmap.lookup_eq_some_iff, h] at hlookup
  exact Multiset.mem_coe.mp hlookup

def timeoutEvent (env : Ambient) (imsi : StdString) : SessionEvent :=
  ⟨imsi, .timeout, env.wallClock imsi⟩

/-- The erase loop is a sweep that reports what it swept. -/
theorem cleanupErase_eq (hquiet : cfg.Quiet) (env : Ambient) (expired : List StdString)
    (st : Store) :
    cleanupErase cfg env now expired st =
      (.returned (), { st with
        sessions := (sweep (Expired cfg now) expired st.sessions).2
        events := st.events ++ (sweep (Expired cfg now) expired st.sessions).1.flatMap fun imsi =>
          delivered cfg (timeoutEvent env imsi) }) := by
  induction expired generalizing st with
  | nil => simp [cleanupErase, sweep]
  | cons imsi expired ih =>
      by_cases hgoes : ∃ session, st.sessions.lookup imsi = some session ∧ Expired cfg now session
      · obtain ⟨session, hlookup, hexpired⟩ := hgoes
        rw [cleanupErase, hlookup, sweep_cons_of_goes hlookup hexpired]
        simp only [if_pos hexpired, hquiet.emitEvent_eq, andThen_returned]
        rw [ih]
        simp [timeoutEvent]
      · have hstays : ∀ session, st.sessions.lookup imsi = some session →
            ¬ Expired cfg now session := fun session hlookup hexpired =>
          hgoes ⟨session, hlookup, hexpired⟩
        rw [sweep_cons_of_stays hstays, ← ih, cleanupErase]
        cases hlookup : st.sessions.lookup imsi with
        | none => rfl
        | some session => exact if_neg (hstays session hlookup)

/-! ## Between the two sections -/

/-- What happens to the table while other threads run, if no update writes a reading from
before. -/
theorem lookup_cases_of_run {st st' : Store} {ds : List Deed} (h : Run (Change cfg) st ds st')
    (htouch : ∀ d ∈ ds, ∀ imsi reading, d = .touch imsi reading → st.clock ≤ reading) :
    st.clock ≤ st'.clock ∧ ∀ imsi session, st'.sessions.lookup imsi = some session →
      st.sessions.lookup imsi = some session ∨ st.clock ≤ session.lastActivity := by
  induction h with
  | nil => exact ⟨le_refl _, fun _ _ hlookup => Or.inl hlookup⟩
  | @snoc _ _ ds d _ hlast ih =>
      obtain ⟨hclock, hearlier⟩ := ih fun d hd => htouch d (List.mem_append_left _ hd)
      refine ⟨le_trans hclock hlast.clock_le, fun imsi session hlookup => ?_⟩
      rcases hlast.lookup_cases hlookup with hold | hactive | ⟨reading, htouched, hle⟩
      · exact hearlier imsi session hold
      · exact Or.inr (le_trans hclock hactive)
      · have hlate := htouch d (List.mem_append_right _ (List.mem_singleton_self d)) imsi reading
          htouched
        exact Or.inr (le_trans hlate hle)

/-- `now - last_activity >= session_timeout_`, by the numbers. -/
def Idle (cfg : Config) (now : ℤ) (session : Session) : Prop :=
  cfg.sessionTimeout * nanosPerSecond ≤ now - session.lastActivity

instance (cfg : Config) (now : ℤ) (session : Session) : Decidable (Idle cfg now session) :=
  inferInstanceAs (Decidable (cfg.sessionTimeout * nanosPerSecond ≤ now - session.lastActivity))

/-- The code compares the numbers, as long as it can express them. -/
theorem expired_eq_idle (htimeout : 0 < cfg.sessionTimeout)
    (hle : cfg.sessionTimeout ≤ maxTimeout) : Expired cfg now = Idle cfg now := by
  funext session
  rw [Expired, Idle, timeoutNanos_of_le htimeout.le hle]

/-- Nothing active since `now` is idle at `now`. -/
theorem not_idle_of_le (htimeout : 0 < cfg.sessionTimeout) {session : Session}
    (h : now ≤ session.lastActivity) : ¬ Idle cfg now session := by
  have hnanos : (0 : ℤ) < nanosPerSecond := by decide
  have hpos : 0 < cfg.sessionTimeout * nanosPerSecond := Int.mul_pos htimeout hnanos
  rw [Idle]
  omega

/-- While a pass is on, its reading is past, and its list covers the table. -/
def PassCovers (cfg : Config) : CleanupPc → Store → Prop
  | .snapshot now, st => now ≤ st.clock
  | .erase now expired, st => now ≤ st.clock ∧ Covers (Idle cfg now) expired st.sessions
  | _, _ => True

theorem PassCovers.of_run (htimeout : 0 < cfg.sessionTimeout) {pc : CleanupPc} {st st' : Store}
    {ds : List Deed} (h : PassCovers cfg pc st) (hrun : Run (Change cfg) st ds st')
    (htouch : ∀ d ∈ ds, ∀ imsi reading, d = .touch imsi reading → st.clock ≤ reading) :
    PassCovers cfg pc st' := by
  obtain ⟨hclock, hlookup⟩ := lookup_cases_of_run hrun htouch
  cases pc with
  | snapshot now => exact le_trans h hclock
  | erase now expired =>
      obtain ⟨hnow, hcovers⟩ := h
      refine ⟨le_trans hnow hclock, hcovers.of_lookup fun imsi session hafter => ?_⟩
      rcases hlookup imsi session hafter with hold | hactive
      · exact Or.inl hold
      · exact Or.inr (not_idle_of_le htimeout (le_trans hnow hactive))
  | _ => trivial

variable {ι : Type} {s t : Manager ι} {l : Label ι}

/-- The cleanup thread does not move. -/
def NoCleanup (_ : Manager ι) (l : Label ι) : Prop := ∀ env, l ≠ .cleanup env

instance (s : Manager ι) : (l : Label ι) → Decidable (NoCleanup s l)
  | .cleanup env => isFalse fun h => h env rfl
  | .call _ _ => isTrue fun _ h => by cases h
  | .thread _ _ => isTrue fun _ h => by cases h
  | .loop _ _ => isTrue fun _ h => by cases h
  | .destroy => isTrue fun _ h => by cases h

/-- What an update is about to write. -/
def ThreadPc.reading? : ThreadPc → Option ℤ
  | .touching _ reading => some reading
  | _ => none

/-- The section that ends with this step has had the lock for itself: an update writes what
the clock still shows, and the list is made from the table as it is. -/
def Whole (s : Manager ι) : Label ι → Prop
  | .thread i _ => ∀ reading ∈ (s.threads i).reading?, s.store.clock ≤ reading
  | .cleanup env => s.cleanup matches .snapshot _ → s.store.sessions.entries = ↑env.order
  | _ => True

instance (s : Manager ι) : (l : Label ι) → Decidable (Whole s l)
  | .thread i _ =>
      inferInstanceAs (Decidable (∀ reading ∈ (s.threads i).reading?, s.store.clock ≤ reading))
  | .cleanup env => inferInstanceAs
      (Decidable (s.cleanup matches .snapshot _ → s.store.sessions.entries = ↑env.order))
  | .call _ _ => isTrue trivial
  | .loop _ _ => isTrue trivial
  | .destroy => isTrue trivial

section Between
variable [Fintype ι] [DecidableEq ι]

theorem passCovers_of_others (htimeout : 0 < cfg.sessionTimeout)
    (hs : PassCovers cfg s.cleanup s.store) (h : Step cfg s l t) (hl : NoCleanup s l)
    (hwhole : Whole s l) : PassCovers cfg t.cleanup t.store := by
  obtain ⟨ds, hrun, hpermits⟩ := step_changes h
  rw [cleanup_of_step h hl]
  refine hs.of_run htimeout hrun ?_
  rintro d hd imsi reading rfl
  obtain ⟨i, env, rfl, hpc⟩ := hpermits _ hd
  exact hwhole reading (by rw [hpc]; rfl)

/-- What other threads do between two sections of a pass. -/
theorem between (htimeout : 0 < cfg.sessionTimeout) {tr : List (Label ι)}
    (h : Run (only (Step cfg) fun s l => NoCleanup s l ∧ Whole s l) s tr t)
    (hs : PassCovers cfg s.cleanup s.store) :
    t.cleanup = s.cleanup ∧ PassCovers cfg t.cleanup t.store := by
  refine Run.invariant (P := fun u => u.cleanup = s.cleanup ∧ PassCovers cfg u.cleanup u.store)
    ?_ h ⟨rfl, hs⟩
  intro u l u' hu hstep
  refine ⟨?_, passCovers_of_others htimeout hu.2 hstep.1 hstep.2.1 hstep.2.2⟩
  rw [cleanup_of_step hstep.1 hstep.2.1, hu.1]

end Between

/-! ## The pass -/

/-- The erase section from `s` to `t` filters the table as it is by the reading `now`: it
drops who is idle, with one `TIMEOUT` event for each, and leaves the rest alone. -/
def Filters (cfg : Config) (now : ℤ) (env : Ambient) (s t : Manager ι) : Prop :=
  ∃ (swept : List StdString) (settled : ℤ) (replaced : List SessionEntry), swept.Nodup ∧
    (∀ imsi, imsi ∈ swept ↔
      ∃ session, s.store.sessions.lookup imsi = some session ∧ Idle cfg now session) ∧
    t = { s with
      store := { s.store with
        sessions := keep (fun session => ¬ Idle cfg now session) s.store.sessions
        events := s.store.events ++ swept.flatMap fun imsi =>
          delivered cfg (timeoutEvent env imsi)
        settled := settled
        replaced := replaced }
      cleanup := .sleep }

/-- The erase section of a pass whose list covers the table. -/
theorem filters_of_covers [Fintype ι] [DecidableEq ι] (hquiet : cfg.Quiet)
    (htimeout : 0 < cfg.sessionTimeout) (hle : cfg.sessionTimeout ≤ maxTimeout)
    {expired : List StdString} (hpc : s.cleanup = .erase now expired)
    (hcovers : Covers (Idle cfg now) expired s.store.sessions) {env : Ambient}
    (hstep : Step cfg s (.cleanup env) t) : Filters cfg now env s t := by
  have hidle : Expired cfg now = Idle cfg now := expired_eq_idle htimeout hle
  have hexpired : Covers (Expired cfg now) expired s.store.sessions := by rwa [hidle]
  have hkeep : keep (fun session => ¬ Expired cfg now session) s.store.sessions =
      keep (fun session => ¬ Idle cfg now session) s.store.sessions := by
    apply Finmap.ext_lookup
    intro imsi
    simp only [lookup_keep, hidle]
  have hnext := (step_cleanup.mp hstep).2
  simp only [cleanupNext, hpc, cleanupErase_eq hquiet, Option.some.injEq] at hnext
  have hswept := mem_swept (q := Expired cfg now) hexpired
  rw [sweep_eq_keep hexpired, hkeep] at hnext
  refine ⟨(sweep (Expired cfg now) expired s.store.sessions).1,
    (if expired = [] then s.store else s.store.settle).settled,
    (if expired = [] then s.store else s.store.settle).replaced, nodup_swept _ _, ?_, ?_⟩
  · simpa only [hidle] using hswept
  · rw [← hnext]
    split <;> rfl

/-- **A cleanup pass is one filter of the table as it is at its end.** The pass reads the
clock, other threads run, it makes its list, other threads run, and its erase section then
filters the whole current table by the old reading. -/
def PassesFilter (ι : Type) [Fintype ι] [DecidableEq ι] (cfg : Config) : Prop :=
  ∀ (s₀ s₁ s₂ s₃ s₄ s₅ : Manager ι) (env₁ env₂ env₃ : Ambient) (tr tr' : List (Label ι)),
    Reaches cfg s₀ → s₀.cleanup = .testRunning → s₀.store.running = true →
    Step cfg s₀ (.cleanup env₁) s₁ →
    Run (only (Step cfg) fun s l => NoCleanup s l ∧ Whole s l) s₁ tr s₂ →
    only (Step cfg) Whole s₂ (.cleanup env₂) s₃ →
    Run (only (Step cfg) fun s l => NoCleanup s l ∧ Whole s l) s₃ tr' s₄ →
    Step cfg s₄ (.cleanup env₃) s₅ → Filters cfg s₁.store.clock env₃ s₄ s₅

section Pass
variable [Fintype ι] [DecidableEq ι]

theorem passesFilter_of_le (hquiet : cfg.Quiet) (htimeout : 0 < cfg.sessionTimeout)
    (hle : cfg.sessionTimeout ≤ maxTimeout) : PassesFilter ι cfg := by
  intro s₀ s₁ s₂ s₃ s₄ s₅ env₁ env₂ env₃ tr tr' _ hstart hrunning hread hbefore hlist hbetween
    herase
  have hs₁ : s₁.cleanup = .snapshot s₁.store.clock := by
    have hnext := (step_cleanup.mp hread).2
    simp only [cleanupNext, hstart, hrunning, if_true, Option.some.injEq] at hnext
    rw [← hnext]
    rfl
  have hpast : PassCovers cfg s₁.cleanup s₁.store := by
    rw [hs₁]
    exact le_refl _
  obtain ⟨hs₂, hcovers₂⟩ := between htimeout hbefore hpast
  rw [hs₁] at hs₂
  obtain ⟨hs₃, hcovers₃⟩ : s₃.cleanup = .erase s₁.store.clock
      (expiredSessions cfg s₁.store.clock env₂.order) ∧ PassCovers cfg s₃.cleanup s₃.store := by
    have hmet : s₂.store.sessions.entries = ↑env₂.order := hlist.2 (by rw [hs₂])
    have hnext := (step_cleanup.mp hlist.1).2
    rw [hs₂] at hcovers₂
    simp only [cleanupNext, hs₂] at hnext
    split at hnext <;> cases hnext
    refine ⟨rfl, hcovers₂, ?_⟩
    rw [← expired_eq_idle htimeout hle]
    exact covers_expiredSessions hmet
  obtain ⟨hs₄, hcovers₄⟩ := between htimeout hbetween hcovers₃
  rw [hs₃] at hs₄
  rw [hs₄] at hcovers₄
  exact filters_of_covers hquiet htimeout hle hs₄ hcovers₄.2 herase

end Pass

/-! ## Timeouts that are too long -/

section TooLong
variable [Fintype ι] [DecidableEq ι]

def freshSession : Session := ⟨text "1", 0, 0⟩

/-- A manager with one session, made at the time 0. -/
def fresh (cfg : Config) : Manager ι :=
  { Manager.initial cfg 0 with
    store := { cfg.initial 0 with
      sessions := (∅ : SessionTable).insert (text "1") freshSession
      blacklist := cfg.blacklist.erase (text "1")
      events := delivered cfg ⟨text "1", .created, 0⟩ } }

/-- Whatever the configuration, it is reachable. -/
theorem reaches_fresh [Inhabited ι] (hquiet : cfg.Quiet) : Reaches cfg (fresh cfg : Manager ι) := by
  have hvalid : IMSI.ofString (text "1") = .returned ⟨text "1", by decide +kernel⟩ := by
    decide +kernel
  have hcalls : replay (next cfg)
      (serve (default : ι) (.removeFromBlacklist (text "1")) 1 ++
        serve default (.createSession (text "1")) 2) (.initial cfg 0) = some (fresh cfg) := by
    simp [serve, replay, next, threadNext, Manager.initial, Manager.goto, firstSection, hvalid,
      createSessionBlacklist, removeFromBlacklist, createSessionTable, hquiet.emitEvent_eq,
      Config.initial, after, Store.settle, Store.tick, List.replicate, tableResult, fresh,
      freshSession]
  exact ⟨_, _, ⟨0, rfl⟩, run_of_replay hcalls⟩

/-- The surroundings of a pass over it that reads the clock after a delay. -/
def onTime (delay : ℕ) : Ambient := ⟨delay, 0, fun _ => 0, [⟨text "1", freshSession⟩]⟩

/-- A pass that nobody disturbs, over a table with one session that its reading expires. -/
theorem pass_alone (hquiet : cfg.Quiet) (hlive : s.terminated = false)
    (hstart : s.cleanup = .testRunning) (hrunning : s.store.running = true)
    (htable : s.store.sessions = (∅ : SessionTable).insert (text "1") freshSession)
    {delay : ℕ} (hexpired : Expired cfg (s.store.clock + delay) freshSession) :
    ∃ s₁ s₃ s₅, Step cfg s (.cleanup (onTime delay)) s₁ ∧
      s₁.store.clock = s.store.clock + delay ∧
      only (Step cfg) Whole s₁ (.cleanup (onTime delay)) s₃ ∧
      s₃.store.sessions = s.store.sessions ∧
      Step cfg s₃ (.cleanup (onTime delay)) s₅ ∧
      s₅.store.sessions.lookup (text "1") = none := by
  have hentries : s.store.sessions.entries = ↑(onTime delay).order := by
    rw [htable]
    rfl
  have hread : Step cfg s (.cleanup (onTime delay)) { s with
      store := (s.store.tick delay).forget
      cleanup := .snapshot (s.store.clock + delay) } := by
    refine step_cleanup.mpr ⟨hlive, ?_⟩
    simp [cleanupNext, hstart, hrunning, onTime]
  have hlist : Step cfg { s with
      store := (s.store.tick delay).forget
      cleanup := .snapshot (s.store.clock + delay) } (.cleanup (onTime delay)) { s with
      store := (s.store.tick delay).forget
      cleanup := .erase (s.store.clock + delay) [text "1"] } := by
    have hmet : (s.store.tick delay).forget.Met (onTime delay).order :=
      Store.met_of_entries hentries
    refine step_cleanup.mpr ⟨hlive, ?_⟩
    simp only [cleanupNext, if_pos hmet]
    simp [onTime, expiredSessions, hexpired]
  have hwhole : Whole { s with
      store := (s.store.tick delay).forget
      cleanup := .snapshot (s.store.clock + delay) } (.cleanup (onTime delay)) :=
    fun _ => hentries
  have hlookup : s.store.sessions.lookup (text "1") = some freshSession := by
    rw [htable, Finmap.lookup_insert]
  have hswept : cleanupErase cfg _ (s.store.clock + delay) _ _ = _ :=
    cleanupErase_eq hquiet (onTime delay) [text "1"] (s.store.tick delay).forget
  simp only [Store.sessions_forget, Store.sessions_tick,
    sweep_cons_of_goes hlookup hexpired] at hswept
  refine ⟨_, _, { s with
    store := (cleanupErase cfg (onTime delay) (s.store.clock + delay) [text "1"]
      (s.store.tick delay).forget).2.settle
    cleanup := .sleep }, hread, rfl, ⟨hlist, hwhole⟩, rfl, step_cleanup.mpr ⟨hlive, ?_⟩, ?_⟩
  · simp [cleanupNext, hswept]
  · simp [hswept, sweep]

/-- A timeout that is too long ends the session of a subscriber that is not idle. -/
theorem not_passesFilter_of_gt [Inhabited ι] (hquiet : cfg.Quiet)
    (hgt : maxTimeout < cfg.sessionTimeout) : ¬ PassesFilter ι cfg := by
  intro hfilter
  have hshort := timeoutNanos_lt hgt
  have hpos : 0 < cfg.sessionTimeout * nanosPerSecond := by
    simp only [maxTimeout, nanosPerSecond] at *
    omega
  obtain ⟨now, hlong, hearly⟩ : ∃ now : ℕ, timeoutNanos cfg ≤ now ∧
      now < cfg.sessionTimeout * nanosPerSecond :=
    ⟨(timeoutNanos cfg).toNat, by omega, by omega⟩
  have hexpired : Expired cfg now freshSession := by simpa [Expired, freshSession] using hlong
  have hactive : ¬ Idle cfg now freshSession := by simpa [Idle, freshSession] using hearly
  obtain ⟨s₁, s₃, s₅, hread, hclock, hlist, htable, herase, hgone⟩ :=
    pass_alone (s := (fresh cfg : Manager ι)) hquiet rfl rfl rfl rfl
      (by rwa [show (fresh cfg : Manager ι).store.clock = 0 from rfl, zero_add])
  rw [show (fresh cfg : Manager ι).store.clock = 0 from rfl, zero_add] at hclock
  obtain ⟨_, _, _, _, _, rfl⟩ := hfilter _ s₁ s₁ s₃ s₃ s₅ _ _ _ [] [] (reaches_fresh hquiet) rfl rfl
    hread (Run.nil _) hlist (Run.nil _) herase
  have hlookup : (fresh cfg : Manager ι).store.sessions.lookup (text "1") = some freshSession :=
    Finmap.lookup_insert _
  rw [lookup_keep, htable, hlookup, hclock] at hgone
  simp [hactive] at hgone

end TooLong

/-- **The passes are filters exactly for the timeouts that the clock's unit can express.** -/
theorem cleanup_pass_filters_iff [Fintype ι] [DecidableEq ι] [Inhabited ι] (hquiet : cfg.Quiet)
    (htimeout : 0 < cfg.sessionTimeout) :
    PassesFilter ι cfg ↔ cfg.sessionTimeout ≤ maxTimeout := by
  constructor
  · intro hfilter
    by_contra hnot
    exact not_passesFilter_of_gt hquiet (not_le.mp hnot) hfilter
  · exact passesFilter_of_le hquiet htimeout

/-! With the shortest timeout that is too long, a pass ends a session at once. -/

def overlong : Config := { sample with sessionTimeout := 9223372037 }

private def passAtOnce : List (Label Caller) := List.replicate 3 (.cleanup (onTime 0))

private def endedAtOnce : Manager Caller :=
  replayed (next overlong) passAtOnce (fresh overlong) (by decide +kernel)

theorem cleanup_pass_overflows :
    Reaches overlong endedAtOnce ∧ endedAtOnce.store.clock = 0 ∧
      endedAtOnce.store.sessions = ∅ ∧
      endedAtOnce.store.events.map SessionEvent.action = [.created, .timeout] ∧
      ¬ PassesFilter Caller overlong := by
  have hquiet : overlong.Quiet := sample_delivers.quiet
  have hrun : Run (Step overlong) (fresh overlong) passAtOnce endedAtOnce :=
    run_replayed (next overlong) passAtOnce _ _
  refine ⟨(reaches_fresh hquiet).run hrun, by decide +kernel, by decide +kernel,
    by decide +kernel, ?_⟩
  exact not_passesFilter_of_gt hquiet (by decide)

/-! Two sessions expire, and the second is refreshed between the two sections. -/

private def beforePass : Manager Caller :=
  play (serve .first (.createSession (text "1")) 2 ++ serve .first (.createSession (text "2")) 2)
    (by decide +kernel)

private def afterReading : Manager Caller :=
  (next sample (.cleanup (after 30 [])) beforePass).get (by decide +kernel)

private def bothListed : Label Caller :=
  .cleanup (after 0 [⟨text "2", ⟨text "2", 0, 0⟩⟩, ⟨text "1", ⟨text "1", 0, 0⟩⟩])

private def afterListing : Manager Caller :=
  (next sample bothListed afterReading).get (by decide +kernel)

private def refreshing : List (Label Caller) := serve .first (.updateSessionActivity (text "2")) 2

private def refreshed : Manager Caller :=
  replayed (fun l s => if NoCleanup s l ∧ Whole s l then next sample l s else none) refreshing
    afterListing (by decide +kernel)

private def afterErasing : Manager Caller :=
  (next sample (.cleanup (after 0 [])) refreshed).get (by decide +kernel)

theorem cleanup_pass_filters_refreshed :
    Filters sample 30000000000 (after 0 []) refreshed afterErasing ∧
      afterErasing.store.sessions.keys = {text "2"} := by
  have hpasses : PassesFilter Caller sample :=
    (cleanup_pass_filters_iff sample_delivers.quiet (by decide)).mpr (by decide)
  have hread : Step sample beforePass (.cleanup (after 30 [])) afterReading :=
    (Option.some_get _).symm
  have hlist : only (Step sample) Whole afterReading bothListed afterListing :=
    ⟨(Option.some_get _).symm, by decide +kernel⟩
  have hrefresh := run_only_replayed (next sample) (fun s l => NoCleanup s l ∧ Whole s l)
    refreshing afterListing (by decide +kernel)
  have herase : Step sample refreshed (.cleanup (after 0 [])) afterErasing :=
    (Option.some_get _).symm
  have hclock : afterReading.store.clock = 30000000000 := by decide +kernel
  refine ⟨hclock ▸ ?_, by decide +kernel⟩
  exact hpasses beforePass _ _ _ _ _ _ _ _ [] refreshing ⟨_, _, ⟨0, rfl⟩, run_play _ _⟩
    (by decide +kernel) (by decide +kernel) hread (Run.nil _) hlist hrefresh herase

end Pgw.SessionManager
