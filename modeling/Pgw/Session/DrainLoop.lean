import Pgw.Session.CreateSession
import Pgw.Session.Drain
import Pgw.Session.Endings
import Pgw.Session.GracefulShutdown
import Pgw.Session.WellFormed

/-!
# The drain loop ends on an empty table

A loop chooses a key in one section and erases it in another, and meanwhile others
may have erased it. What falls with every choice is therefore not the table but the
set of keys that the loop has not chosen: `unpicked` is the table without the key
the loop carries. An empty string would be chosen again and again without a pause;
that no key is empty is an invariant of the table.

The runs considered begin with the flag section of a start and add no session, and
the destructor takes no step in them. Everything else may happen, removals by hand
and timeouts included.
-/
namespace Pgw.SessionManager
open TransitionSystem

variable {ι : Type}

/-! ## Measures -/

/-- The keys that the loop has still to choose. -/
def unpicked (k : ℕ) (s : Manager ι) : Finset StdString :=
  match s.loops k with
  | .erase imsi => s.store.sessions.keys.erase imsi
  | _ => s.store.sessions.keys

/-- The steps to the next choice, or to the end. -/
def LoopPc.rank : LoopPc → ℕ
  | .exited => 0
  | .pick => 1
  | .testRunning => 2
  | .testActive => 3
  | .wait _ => 4
  | .start => 4
  | .absent => 4
  | .limit => 5
  | .erase _ => 6

/-- A bound on the steps that the loop still makes. -/
def remaining (k : ℕ) (s : Manager ι) : ℕ :=
  6 * (unpicked k s).card + (s.loops k).rank + if s.terminated then 0 else 1

/-- Weighs the steps of the loop. -/
def stepOf (k : ℕ) (_ : Manager ι) : Label ι → ℕ
  | .loop j _ => if j = k then 1 else 0
  | _ => 0

/-- Weighs the choices of the loop that find a session. -/
def choiceOf (k : ℕ) (s : Manager ι) : Label ι → ℕ
  | .loop j _ => if j = k ∧ s.loops k = .pick ∧ s.store.sessions.keys.Nonempty then 1 else 0
  | _ => 0

/-- The step adds no session and is not the destructor's. -/
def Draining (s : Manager ι) (l : Label ι) : Prop := createdKey s l = none ∧ l ≠ .destroy

instance (s : Manager ι) (l : Label ι) : Decidable (Draining s l) :=
  match l with
  | .destroy => isFalse fun h => h.2 rfl
  | .call i c => decidable_of_iff (createdKey s (.call i c) = none) (by simp [Draining])
  | .thread i env => decidable_of_iff (createdKey s (.thread i env) = none) (by simp [Draining])
  | .cleanup env => decidable_of_iff (createdKey s (.cleanup env) = none) (by simp [Draining])
  | .loop k env => decidable_of_iff (createdKey s (.loop k env) = none) (by simp [Draining])

/-! ## Steps of the loop -/

section Loop
variable {cfg : Config} {s t : Manager ι} {k : ℕ} {env : Ambient}

@[simp] theorem loops_gotoLoop (s : Manager ι) (k : ℕ) (pc : LoopPc) :
    (s.gotoLoop k pc).loops k = pc := Function.update_self _ _ _

@[simp] theorem store_gotoLoop (s : Manager ι) (k : ℕ) (pc : LoopPc) :
    (s.gotoLoop k pc).store = s.store := rfl

@[simp] theorem terminated_gotoLoop (s : Manager ι) (k : ℕ) (pc : LoopPc) :
    (s.gotoLoop k pc).terminated = s.terminated := rfl

theorem eq_empty_of_keys {sessions : SessionTable} (h : sessions.keys = ∅) : sessions = ∅ := by
  refine Finmap.ext_lookup fun imsi => ?_
  rw [Finmap.lookup_empty, Finmap.lookup_eq_none, ← Finmap.mem_keys, h]
  exact Finset.notMem_empty imsi

/-- A choice is a key of the table. -/
theorem mem_of_pickSession {sessions : SessionTable} {order : List SessionEntry} {imsi : StdString}
    (hmet : sessions.entries = ↑order) (hpick : pickSession order = some imsi) :
    imsi ∈ sessions.keys := by
  cases order with
  | nil => cases hpick
  | cons entry order =>
      have himsi : entry.1 = imsi := by simpa [pickSession] using hpick
      rw [Finmap.mem_keys, ← himsi, Finmap.mem_def, hmet]
      exact Multiset.mem_map_of_mem Sigma.fst (Multiset.mem_coe.mpr List.mem_cons_self)

/-- What a choice leads to: the end on the empty table, or one session fewer to choose. -/
theorem choice_of_pick (hs : s.WellFormed) (h : loopNext cfg k env s = some t)
    (hpc : s.loops k = .pick) :
    (s.store.sessions = ∅ ∧ t.loops k = .exited ∧ t.store.sessions = ∅ ∧
        t.store.gracefulShutdownActive = false) ∧ t.terminated = s.terminated ∨
      ∃ imsi ∈ s.store.sessions.keys, t = s.gotoLoop k (.erase imsi) := by
  simp only [loopNext, hpc] at h
  split at h
  · rename_i hmet
    cases hsession : pickSession env.order with
    | none =>
        have hempty := sessions_of_pick_none hmet hsession
        simp only [hsession, Option.some.injEq] at h
        rw [← h]
        exact Or.inl ⟨⟨hempty, loops_gotoLoop _ _ _, hempty, rfl⟩, rfl⟩
    | some imsi =>
        have hmem := mem_of_pickSession hmet hsession
        have hne : imsi ≠ [] := (hs.store.valid_of_mem (Finmap.mem_keys.mp hmem)).1
        simp only [hsession, if_neg hne, Option.some.injEq] at h
        exact Or.inr ⟨imsi, hmem, h.symm⟩
  · cases h

theorem keys_of_erase (h : loopNext cfg k env s = some t) {imsi : StdString}
    (hpc : s.loops k = .erase imsi) :
    t.store.sessions.keys = s.store.sessions.keys.erase imsi ∧
      (t.loops k = .limit ∧ t.terminated = s.terminated ∨
        t.loops k = .erase imsi ∧ t.terminated = true) := by
  rw [← keys_shutdownErase cfg env imsi s.store]
  simp only [loopNext, hpc] at h
  split at h <;> rename_i heq <;> cases h <;> rw [heq]
  · exact ⟨rfl, Or.inl ⟨loops_gotoLoop _ _ _, rfl⟩⟩
  · exact ⟨rfl, Or.inr ⟨hpc, rfl⟩⟩

/-- At the other positions a step leads one position further, or ends the process. -/
theorem rank_of_other (h : loopNext cfg k env s = some t) (hpick : s.loops k ≠ .pick)
    (herase : ∀ imsi, s.loops k ≠ .erase imsi) :
    t.store.sessions.keys = s.store.sessions.keys ∧ (∀ imsi, t.loops k ≠ .erase imsi) ∧
      ((t.loops k).rank < (s.loops k).rank ∧ t.terminated = s.terminated ∨
        (t.loops k).rank = (s.loops k).rank ∧ t.terminated = true) := by
  cases hpc : s.loops k with
  | absent => simp [loopNext, hpc] at h
  | exited => simp [loopNext, hpc] at h
  | pick => exact absurd hpc hpick
  | erase imsi => exact absurd hpc (herase imsi)
  | start =>
      simp only [loopNext, hpc] at h
      split at h <;> cases h
      · simp [hpc]
      · simp [LoopPc.rank]
  | testActive =>
      simp only [loopNext, hpc, Option.some.injEq] at h
      rw [← h]
      cases s.store.gracefulShutdownActive <;> simp [LoopPc.rank]
  | testRunning =>
      simp only [loopNext, hpc, Option.some.injEq] at h
      rw [← h]
      cases s.store.running <;> simp [LoopPc.rank]
  | limit =>
      simp only [loopNext, hpc, Option.some.injEq] at h
      rw [← h]
      simp [LoopPc.rank]
  | wait deadline =>
      simp only [loopNext, hpc] at h
      split at h <;> cases h
      simp [LoopPc.rank]

/-- The loop ends on a lowered flag, or at its choice. -/
theorem position_of_exit (h : loopNext cfg k env s = some t) (hexit : t.loops k = .exited) :
    s.loops k = .pick ∨
      s.loops k = .testActive ∧ s.store.gracefulShutdownActive = false ∧ t.store = s.store ∨
      s.loops k = .testRunning ∧ s.store.running = false := by
  cases hpc : s.loops k with
  | pick => exact Or.inl rfl
  | testActive =>
      simp only [loopNext, hpc, Option.some.injEq] at h
      rw [← h, loops_gotoLoop] at hexit
      rw [← h]
      cases hactive : s.store.gracefulShutdownActive with
      | false => exact Or.inr (Or.inl ⟨rfl, rfl, rfl⟩)
      | true => simp [hactive] at hexit
  | testRunning =>
      simp only [loopNext, hpc, Option.some.injEq] at h
      rw [← h, loops_gotoLoop] at hexit
      cases hrunning : s.store.running with
      | false => exact Or.inr (Or.inr ⟨rfl, rfl⟩)
      | true => simp [hrunning] at hexit
  | erase imsi =>
      rcases (keys_of_erase h hpc).2 with ⟨hlimit, _⟩ | ⟨herase, _⟩
      · rw [hlimit] at hexit
        cases hexit
      · rw [herase] at hexit
        cases hexit
  | absent => simp [loopNext, hpc] at h
  | exited => simp [loopNext, hpc] at h
  | start =>
      simp only [loopNext, hpc] at h
      split at h <;> cases h
      · rw [hpc] at hexit
        cases hexit
      · simp at hexit
  | limit =>
      simp only [loopNext, hpc, Option.some.injEq] at h
      rw [← h, loops_gotoLoop] at hexit
      cases hexit
  | wait deadline =>
      simp only [loopNext, hpc] at h
      split at h <;> cases h
      simp at hexit

theorem unpicked_of_not_erase (h : ∀ imsi, s.loops k ≠ .erase imsi) :
    unpicked k s = s.store.sessions.keys := by
  rw [unpicked]
  split
  · rename_i imsi hpc
    exact absurd hpc (h imsi)
  · rfl

/-- **A step of the loop** is counted, and a choice lowers the number of sessions left
to choose. -/
theorem remaining_of_loop (hs : s.WellFormed) (hterm : s.terminated = false)
    (h : loopNext cfg k env s = some t) :
    (unpicked k t).card + choiceOf k s (.loop k env) ≤ (unpicked k s).card ∧
      remaining k t + 1 ≤ remaining k s := by
  by_cases hpick : s.loops k = .pick
  · have hbefore : unpicked k s = s.store.sessions.keys := by simp [unpicked, hpick]
    rcases choice_of_pick hs h hpick with ⟨⟨hempty, hexited, hempty', _⟩, hsame⟩ | ⟨imsi, hmem, rfl⟩
    · simp [remaining, unpicked, choiceOf, hpick, hempty, hempty', hexited, hsame, hterm,
        LoopPc.rank]
    · have hcard := Finset.card_erase_of_mem hmem
      have hpos : 0 < s.store.sessions.keys.card := Finset.card_pos.mpr ⟨imsi, hmem⟩
      have hafter : unpicked k (s.gotoLoop k (.erase imsi)) = s.store.sessions.keys.erase imsi := by
        simp [unpicked]
      constructor
      · simp only [choiceOf, hpick, hafter, hbefore, hcard]
        split <;> omega
      · simp only [remaining, hafter, hbefore, hcard, loops_gotoLoop, hpick, LoopPc.rank,
          terminated_gotoLoop, hterm]
        omega
  · by_cases herase : ∃ imsi, s.loops k = .erase imsi
    · obtain ⟨imsi, hpc⟩ := herase
      obtain ⟨hkeys, ⟨hlimit, hsame⟩ | ⟨herase, hended⟩⟩ := keys_of_erase h hpc
      · simp [remaining, unpicked, choiceOf, hpc, hlimit, hkeys, hsame, hterm, LoopPc.rank]
      · simp [remaining, unpicked, choiceOf, hpc, herase, hkeys, hended, hterm]
    · have hnot : ∀ imsi, s.loops k ≠ .erase imsi := fun imsi hpc => herase ⟨imsi, hpc⟩
      obtain ⟨hkeys, hafter, hrank⟩ := rank_of_other h hpick hnot
      have hchoice : choiceOf k s (.loop k env) = 0 := by simp [choiceOf, hpick]
      rw [hchoice, remaining, remaining, unpicked_of_not_erase hafter, unpicked_of_not_erase hnot,
        hkeys, hterm]
      rcases hrank with ⟨hlt, hsame⟩ | ⟨heq, hended⟩
      · rw [hsame, hterm]
        constructor
        · exact le_refl _
        · omega
      · rw [hended, heq]
        simp

end Loop

/-! ## Steps of the others -/

section Others
variable [Fintype ι] [DecidableEq ι] {cfg : Config} {s t : Manager ι} {l : Label ι} {k : ℕ}

theorem keys_subset_of_draining (h : Step cfg s l t) (hl : Draining s l) :
    t.store.sessions.keys ⊆ s.store.sessions.keys := by
  intro imsi hmem
  rw [Finmap.mem_keys] at hmem ⊢
  rcases mem_sessions_of_step h hmem with hold | hnew
  · exact hold
  · rw [hl.1] at hnew
    cases hnew

/-- The others leave the loop where it is, and add nothing to choose from. -/
theorem unpicked_of_others (hreach : Reaches cfg s) (h : Step cfg s l t) (hl : Draining s l)
    (hother : ∀ env, l ≠ .loop k env) :
    unpicked k t ⊆ unpicked k s ∧ (t.loops k).rank = (s.loops k).rank := by
  have hkeys := keys_subset_of_draining h hl
  rcases loops_of_reaches hreach h k hother with hsame | ⟨habsent, hstart⟩
  · rw [unpicked, unpicked, hsame]
    refine ⟨?_, rfl⟩
    split
    · exact Finset.erase_subset_erase _ hkeys
    · exact hkeys
  · rw [unpicked, unpicked, habsent, hstart]
    exact ⟨hkeys, rfl⟩

theorem not_terminated_of_step (h : Step cfg s l t) : s.terminated = false := by
  cases l with
  | call i c => exact (step_call.mp h).1
  | thread i env => exact (step_thread.mp h).1
  | cleanup env => exact (step_cleanup.mp h).1
  | loop k env => exact (step_loop.mp h).1
  | destroy => exact (step_destroy.mp h).1

/-- **One step**, of the loop or of the others. -/
theorem remaining_of_step (hreach : Reaches cfg s) (h : Step cfg s l t) (hl : Draining s l) :
    (unpicked k t).card + choiceOf k s l ≤ (unpicked k s).card ∧
      remaining k t + stepOf k s l ≤ remaining k s := by
  by_cases hloop : ∃ env, l = .loop k env
  · obtain ⟨env, rfl⟩ := hloop
    obtain ⟨hterm, hnext⟩ := step_loop.mp h
    simpa [stepOf] using remaining_of_loop (wellFormed_of_reaches hreach) hterm hnext
  · have hother : ∀ env, l ≠ .loop k env := fun env heq => hloop ⟨env, heq⟩
    have hweights : choiceOf k s l = 0 ∧ stepOf k s l = 0 := by
      cases l with
      | loop j env =>
          have hjk : j ≠ k := fun heq => hother env (heq ▸ rfl)
          simp [choiceOf, stepOf, hjk]
      | _ => exact ⟨rfl, rfl⟩
    obtain ⟨hsub, hrank⟩ := unpicked_of_others hreach h hl hother
    have hcard := Finset.card_le_card hsub
    have hterm := not_terminated_of_step h
    rw [hweights.1, hweights.2]
    refine ⟨hcard, ?_⟩
    simp only [remaining, hrank, hterm]
    split <;> simp <;> omega

end Others

/-! ## Flags -/

section Flags
variable [Fintype ι] [DecidableEq ι] {cfg : Config} {s t : Manager ι} {l : Label ι} {k : ℕ}

theorem running_of_reaches (h : Reaches cfg s) (halive : s.destructor = .alive) :
    s.store.running = true := by
  refine h.invariant (P := fun s => s.destructor = .alive → s.store.running = true) ?_ ?_ halive
  · rintro s₀ ⟨clock, rfl⟩ _
    rfl
  · intro u l v hu hstep hv
    by_cases hl : l = .destroy
    · subst hl
      exact absurd hv (destroyNext_destructor (step_destroy.mp hstep).2).2
    · have hrunning := hu (destructor_of_step hstep hl ▸ hv)
      cases flags_of_step hstep with
      | same hflags => rw [hflags.1, hrunning]
      | start _ _ _ hsame => rw [hsame, hrunning]
      | complete _ _ _ hsame => rw [hsame, hrunning]
      | destroy => exact absurd rfl hl

/-- While a shutdown drains, the flag falls and the loop ends on an empty table only. -/
structure Shutdown (cfg : Config) (k : ℕ) (s : Manager ι) : Prop where
  reaches : Reaches cfg s
  running : s.store.running = true
  inactive : s.store.gracefulShutdownActive = false → s.store.sessions.keys = ∅
  exited : s.loops k = .exited → s.store.sessions.keys = ∅

namespace Shutdown

/-- The flag section of a start begins a shutdown. -/
theorem of_start {s₀ : Manager ι} {i : ι} {env : Ambient} (hreach : Reaches cfg s₀)
    (hstart : s₀.threads i = .entered .startGracefulShutdown)
    (hset : Step cfg s₀ (.thread i env) s) (hk : s.loops k = .absent) : Shutdown cfg k s := by
  have hnext := (step_thread.mp hset).2
  simp only [threadNext, hstart, firstSection, Option.some.injEq] at hnext
  have halive : s₀.destructor = .alive := by
    by_contra hdestructor
    rw [idle_of_reaches hreach hdestructor i] at hstart
    cases hstart
  have hrunning := running_of_reaches hreach halive
  refine ⟨hreach.tail hset, ?_, ?_, ?_⟩
  · rw [← hnext]
    exact hrunning
  · intro hinactive
    rw [← hnext] at hinactive
    cases hinactive
  · intro hexit
    rw [hk] at hexit
    cases hexit

/-- Where the loop ends. -/
theorem exit (hs : Shutdown cfg k s) {env : Ambient} (h : Step cfg s (.loop k env) t)
    (hexit : t.loops k = .exited) :
    t.store.sessions.keys = ∅ ∧ t.store.gracefulShutdownActive = false := by
  have hnext := (step_loop.mp h).2
  rcases position_of_exit hnext hexit with hpick | ⟨_, hactive, hsame⟩ | ⟨_, hstopped⟩
  · rcases choice_of_pick (wellFormed_of_reaches hs.reaches) hnext hpick with
      ⟨⟨_, _, hempty, hactive⟩, _⟩ | ⟨imsi, _, rfl⟩
    · exact ⟨by rw [hempty]; exact Finmap.keys_empty, hactive⟩
    · rw [loops_gotoLoop] at hexit
      cases hexit
  · rw [hsame]
    exact ⟨hs.inactive hactive, hactive⟩
  · rw [hs.running] at hstopped
    cases hstopped

theorem step (hs : Shutdown cfg k s) (h : Step cfg s l t) (hl : Draining s l) :
    Shutdown cfg k t := by
  have hkeep : s.store.sessions.keys = ∅ → t.store.sessions.keys = ∅ := fun hempty =>
    Finset.subset_empty.mp (hempty ▸ keys_subset_of_draining h hl)
  have hflags := flags_of_step h
  refine ⟨hs.reaches.tail h, ?_, ?_, ?_⟩
  · cases hflags with
    | same hsame => rw [hsame.1, hs.running]
    | start _ _ _ hsame => rw [hsame, hs.running]
    | complete _ _ _ hsame => rw [hsame, hs.running]
    | destroy => exact absurd rfl hl.2
  · intro hinactive
    cases hflags with
    | same hsame =>
        rw [hsame.2] at hinactive
        exact hkeep (hs.inactive hinactive)
    | start _ _ _ _ hactive =>
        rw [hactive] at hinactive
        cases hinactive
    | complete _ _ _ _ hempty =>
        rw [hempty]
        exact Finmap.keys_empty
    | destroy => exact absurd rfl hl.2
  · intro hexit
    by_cases hloop : ∃ env, l = .loop k env
    · obtain ⟨env, rfl⟩ := hloop
      exact (hs.exit h hexit).1
    · rcases loops_of_step h k fun env heq => hloop ⟨env, heq⟩ with hsame | ⟨_, _, hstart⟩
      · exact hkeep (hs.exited (hsame ▸ hexit))
      · rw [hstart] at hexit
        cases hexit

end Shutdown

end Flags

/-! ## Progress -/

section Progress
variable [Fintype ι] [DecidableEq ι] {cfg : Config} {s t : Manager ι} {l : Label ι} {k : ℕ}

/-- A loop that has not ended can move: the table can be iterated in some order, and
a deadline passes. -/
theorem exists_step_of_live (hlive : (s.loops k).live) (hterm : s.terminated = false) :
    ∃ env t, Step cfg s (.loop k env) t := by
  suffices hnext : ∃ env, (loopNext cfg k env s).isSome by
    obtain ⟨env, hsome⟩ := hnext
    obtain ⟨t, ht⟩ := Option.isSome_iff_exists.mp hsome
    exact ⟨env, t, step_loop.mpr ⟨hterm, ht⟩⟩
  obtain ⟨order, horder⟩ := Quot.exists_rep s.store.sessions.entries
  have hmet : s.store.sessions.entries = ↑order := horder.symm
  cases hpc : s.loops k with
  | absent => simp [hpc, LoopPc.live] at hlive
  | exited => simp [hpc, LoopPc.live] at hlive
  | pick =>
      refine ⟨after 0 order, ?_⟩
      simp only [loopNext, hpc, after, hmet, if_true]
      split <;> rfl
  | erase imsi =>
      refine ⟨after 0 [], ?_⟩
      simp only [loopNext, hpc]
      split <;> rfl
  | start =>
      refine ⟨after 0 [], ?_⟩
      simp only [loopNext, hpc]
      split <;> rfl
  | wait deadline =>
      refine ⟨after (deadline - s.store.clock).toNat [], ?_⟩
      have hpassed : deadline ≤
          (s.store.tick (after (deadline - s.store.clock).toNat []).elapsed).clock := by
        have hle := Int.self_le_toNat (deadline - s.store.clock)
        simp only [Store.clock_tick, after]
        push_cast
        omega
      simp only [loopNext, hpc]
      rw [if_pos (Or.inr hpassed)]
      rfl
  | _ =>
      refine ⟨after 0 [], ?_⟩
      simp [loopNext, hpc]

/-- The loop ends the process only by an exception of the callback. -/
theorem refuses_of_terminated (hrate : 1 ≤ cfg.shutdownRate) {env : Ambient}
    (h : Step cfg s (.loop k env) t) (hterm : t.terminated = true) :
    ∃ imsi what, cfg.Refuses ⟨imsi, .gracefulShutdown, env.wallClock imsi⟩ what := by
  by_contra hnone
  have herase : ∀ imsi, (shutdownErase cfg env imsi s.store).1 = .returned () := by
    intro imsi
    cases hlookup : s.store.sessions.lookup imsi with
    | none => rw [shutdownErase, hlookup]
    | some session =>
        rw [shutdownErase, hlookup]
        simp only [emitEvent_returned fun what hwhat => hnone ⟨imsi, what, hwhat⟩]
  rw [terminated_of_loop herase hrate (step_loop.mp h).2, (step_loop.mp h).1] at hterm
  cases hterm

end Progress

/-! ## The events of the loop -/

section Events
variable [Fintype ι] [DecidableEq ι] {cfg : Config} {s t : Manager ι} {l : Label ι} {k : ℕ}

/-- The `GRACEFUL_SHUTDOWN` events of a subscriber. -/
def shutdownCount (imsi : StdString) (events : List SessionEvent) : ℕ :=
  events.countP fun event => event.imsi = imsi ∧ event.action = .gracefulShutdown

/-- What one loop emits. -/
def loopEmitted (cfg : Config) (k : ℕ) (s : Manager ι) (l : Label ι) : List SessionEvent :=
  match l with
  | .loop j _ => if j = k then emitted cfg s l else []
  | _ => []

/-- What one loop delivers. -/
def loopDelivered (cfg : Config) (k : ℕ) (s : Manager ι) (l : Label ι) : List SessionEvent :=
  match l with
  | .loop j _ =>
      if j = k then
        (next cfg l s).elim [] fun t => t.store.events.drop s.store.events.length
      else []
  | _ => []

/-- Weighs the steps of one loop after which a key has left the table. -/
def erasureOf (cfg : Config) (k : ℕ) (imsi : StdString) (s : Manager ι) (l : Label ι) : ℕ :=
  match l with
  | .loop j _ =>
      if j = k ∧ imsi ∈ s.store.sessions ∧ ∃ t ∈ next cfg l s, imsi ∉ t.store.sessions then 1 else 0
  | _ => 0

theorem shutdownCount_of_step (h : Step cfg s l t) (imsi : StdString) :
    shutdownCount imsi (loopEmitted cfg k s l) = erasureOf cfg k imsi s l := by
  cases l with
  | loop j env =>
      by_cases hjk : j = k
      · subst hjk
        have hleft : (∃ u ∈ next cfg (.loop j env) s, imsi ∉ u.store.sessions) ↔
            imsi ∉ t.store.sessions := by
          rw [show next cfg (.loop j env) s = some t from h]
          simp
        simp only [loopEmitted, erasureOf, hleft, if_true, true_and]
        by_cases herase : ∃ x, s.loops j = .erase x
        · obtain ⟨x, hpc⟩ := herase
          have hkeys := (keys_of_erase (step_loop.mp h).2 hpc).1
          have hmem : imsi ∈ t.store.sessions ↔ imsi ≠ x ∧ imsi ∈ s.store.sessions := by
            rw [← Finmap.mem_keys, hkeys, Finset.mem_erase, Finmap.mem_keys]
          by_cases heq : imsi = x
          · subst heq
            by_cases hpresent : imsi ∈ s.store.sessions <;>
              simp [emitted, hpc, hpresent, hmem, shutdownCount]
          · by_cases hpresent : x ∈ s.store.sessions <;>
              simp [emitted, hpc, hpresent, hmem, shutdownCount, heq, Ne.symm heq]
        · have hnot : ∀ x, s.loops j ≠ .erase x := fun x hpc => herase ⟨x, hpc⟩
          have hkeys := keys_of_step h (by simp [Permits, hnot])
          have hemitted : emitted cfg s (.loop j env) = [] := by
            cases hpc : s.loops j with
            | erase x => exact absurd hpc (hnot x)
            | _ => simp [emitted, hpc]
          have hmem : imsi ∈ t.store.sessions ↔ imsi ∈ s.store.sessions := by
            rw [← Finmap.mem_keys, hkeys, Finmap.mem_keys]
          simp [hemitted, hmem, shutdownCount]
      · simp [loopEmitted, erasureOf, hjk, shutdownCount]
  | _ => rfl

theorem shutdownCount_of_run {tr : List (Label ι)} (h : Run (Step cfg) s tr t) (imsi : StdString) :
    shutdownCount imsi (observed (next cfg) (loopEmitted cfg k) tr s) =
      tally (next cfg) (erasureOf cfg k imsi) tr s := by
  induction h with
  | nil => rfl
  | snoc hrun hlast ih =>
      rw [Run.observed_snoc _ hrun, Run.tally_snoc _ hrun, ← ih, ← shutdownCount_of_step hlast imsi]
      exact List.countP_append

/-- A callback that takes everything delivers what the loop emits. -/
theorem loopDelivered_of_step (hcfg : cfg.Delivers) (h : Step cfg s l t) :
    loopDelivered cfg k s l = loopEmitted cfg k s l := by
  cases l with
  | loop j env =>
      have hevents := hcfg.events_of_run (Run.single h)
      have hnext : next cfg (.loop j env) s = some t := h
      simp only [loopDelivered, loopEmitted, hnext, Option.elim_some, hevents, List.drop_left]
      simp [observed, hnext]
  | _ => rfl

theorem loopDelivered_of_run (hcfg : cfg.Delivers) {tr : List (Label ι)}
    (h : Run (Step cfg) s tr t) : observed (next cfg) (loopDelivered cfg k) tr s =
      observed (next cfg) (loopEmitted cfg k) tr s := by
  induction h with
  | nil => rfl
  | snoc hrun hlast ih =>
      rw [Run.observed_snoc _ hrun, Run.observed_snoc _ hrun, ih, loopDelivered_of_step hcfg hlast]

/-- Without new sessions, what is gone has been ended once. -/
theorem ended_of_draining {tr : List (Label ι)} (h : Run (only (Step cfg) Draining) s tr t)
    (imsi : StdString) : present imsi t.store +
        endedCount imsi (observed (next cfg) (emitted cfg) tr s) +
        tally (next cfg) (manualRemovalOf imsi) tr s = present imsi s.store := by
  induction h with
  | nil => rfl
  | @snoc u _ _ l hrun hlast ih =>
      have hstep := balance_of_step hlast.1 imsi
      have hcreated : createdCount imsi (emitted cfg u l) = 0 := by
        rw [createdCount_emitted, creationOf, hlast.2.1]
        rfl
      rw [Run.observed_snoc _ hrun.of_only, Run.tally_snoc _ hrun.of_only, endedCount_append]
      omega

end Events

/-! ## Runs -/

variable [Fintype ι] [DecidableEq ι] {cfg : Config}

/-- What is true of a loop after a run that drains, from the flag section of a start on. -/
structure Drains (cfg : Config) (k : ℕ) (s : Manager ι) (tr : List (Label ι)) (t : Manager ι) :
    Prop where
  /-- A choice takes a session of the table, or ends the loop. -/
  choice : ∀ env u, t.loops k = .pick → Step cfg t (.loop k env) u →
    u.loops k = .exited ∨ ∃ imsi ∈ t.store.sessions, u.loops k = .erase imsi
  /-- Between a choice and the end of its erasing section the table has become smaller. -/
  iteration : ∀ env u imsi, t.loops k = .pick → Step cfg t (.loop k env) u →
    u.loops k = .erase imsi → ∀ tr' v env' w,
      Run (only (Step cfg) fun s l => Draining s l ∧ ∀ env, l ≠ .loop k env) u tr' v →
      Step cfg v (.loop k env') w → w.store.sessions.keys ⊂ t.store.sessions.keys
  choices : tally (next cfg) (choiceOf k) tr s ≤ s.store.sessions.keys.card
  steps : tally (next cfg) (stepOf k) tr s ≤ 6 * s.store.sessions.keys.card + 5
  progress : (t.loops k).live → t.terminated = false → ∃ env u, Step cfg t (.loop k env) u
  /-- Only an exception of the callback takes the process down. -/
  survives : ∀ env u, Step cfg t (.loop k env) u → u.terminated = true →
    ∃ imsi what, cfg.Refuses ⟨imsi, .gracefulShutdown, env.wallClock imsi⟩ what
  exit : ∀ env u, Step cfg t (.loop k env) u → u.loops k = .exited →
    u.store.sessions = ∅ ∧ u.store.gracefulShutdownActive = false
  /-- When the loop has ended, each of the first sessions has been ended once; the events
  delivered since the start say so too, if the callback never raises. -/
  ended : t.loops k = .exited → t.store.sessions = ∅ ∧ ∀ imsi ∈ s.store.sessions,
    endedCount imsi (observed (next cfg) (emitted cfg) tr s) +
        tally (next cfg) (manualRemovalOf imsi) tr s = 1 ∧
      (cfg.Delivers → endedCount imsi (t.store.events.drop s.store.events.length) +
        tally (next cfg) (manualRemovalOf imsi) tr s = 1)
  /-- The loop's events, those that it emits and those that it delivers, are for the sessions
  it has erased itself. -/
  own : ∀ imsi, shutdownCount imsi (observed (next cfg) (loopEmitted cfg k) tr s) =
      tally (next cfg) (erasureOf cfg k imsi) tr s ∧
    (cfg.Delivers → shutdownCount imsi (observed (next cfg) (loopDelivered cfg k) tr s) =
      tally (next cfg) (erasureOf cfg k imsi) tr s)

namespace Drains
variable {k : ℕ} {s t : Manager ι} {tr : List (Label ι)}

theorem iteration_of_reaches (hreach : Reaches cfg t) {env : Ambient} {u : Manager ι}
    {imsi : StdString} (hpc : t.loops k = .pick) (hpick : Step cfg t (.loop k env) u)
    (hchosen : u.loops k = .erase imsi) {tr' : List (Label ι)} {v w : Manager ι} {env' : Ambient}
    (hrun : Run (only (Step cfg) fun s l => Draining s l ∧ ∀ env, l ≠ .loop k env) u tr' v)
    (herase : Step cfg v (.loop k env') w) :
    w.store.sessions.keys ⊂ t.store.sessions.keys := by
  have hwait : Reaches cfg v ∧ v.loops k = .erase imsi ∧
      v.store.sessions.keys ⊆ u.store.sessions.keys := by
    refine hrun.invariant (P := fun v => Reaches cfg v ∧ v.loops k = .erase imsi ∧
      v.store.sessions.keys ⊆ u.store.sessions.keys) ?_
      ⟨hreach.tail hpick, hchosen, Finset.Subset.refl _⟩
    rintro a l b ⟨ha, hpc, hsub⟩ ⟨hstep, hl, hother⟩
    refine ⟨ha.tail hstep, ?_, (keys_subset_of_draining hstep hl).trans hsub⟩
    rcases loops_of_reaches ha hstep k hother with hsame | ⟨habsent, _⟩
    · rw [hsame, hpc]
    · rw [hpc] at habsent
      cases habsent
  obtain ⟨_, hpc', hsub⟩ := hwait
  have herased := (keys_of_erase (step_loop.mp herase).2 hpc').1
  rcases choice_of_pick (wellFormed_of_reaches hreach) (step_loop.mp hpick).2 hpc with
    ⟨⟨_, hexit, _⟩, _⟩ | ⟨x, hmem, rfl⟩
  · rw [hexit] at hchosen
    cases hchosen
  · rw [loops_gotoLoop, LoopPc.erase.injEq] at hchosen
    subst hchosen
    calc
      w.store.sessions.keys = v.store.sessions.keys.erase x := herased
      _ ⊆ t.store.sessions.keys.erase x := Finset.erase_subset_erase _ hsub
      _ ⊂ t.store.sessions.keys := Finset.erase_ssubset hmem

end Drains

/-- **The drain loop ends on an empty table.** Let a start set the flag in a reachable
state, let a loop begin afterwards, and let no session be added and the destructor
take no step. Then whatever the others erase, the loop chooses no more often than
there were sessions, makes a bounded number of steps and can always make the next;
where it ends the table is empty and the flag is down, every session of the start
has been ended exactly once, and the loop has emitted one `GRACEFUL_SHUTDOWN` event
for each key it erased and no other. -/
theorem drain_loop_ends {s₀ s t : Manager ι} {i : ι} {env : Ambient} {k : ℕ}
    {tr : List (Label ι)} (hreach : Reaches cfg s₀) (hrate : 1 ≤ cfg.shutdownRate)
    (hstart : s₀.threads i = .entered .startGracefulShutdown)
    (hset : Step cfg s₀ (.thread i env) s) (hk : s.loops k = .absent)
    (hrun : Run (only (Step cfg) Draining) s tr t) : Drains cfg k s tr t := by
  have hs : Shutdown cfg k s := .of_start hreach hstart hset hk
  have ht : Shutdown cfg k t := hrun.invariant (fun _ _ _ hu hstep => hu.step hstep.1 hstep.2) hs
  have hranked : ∀ w : Manager ι → Label ι → ℕ, ∀ φ : Manager ι → ℕ,
      (∀ s l t, Shutdown cfg k s → Step cfg s l t → Draining s l → φ t + w s l ≤ φ s) →
      φ t + tally (next cfg) w tr s ≤ φ s := fun w φ hstep =>
    Run.ranked φ w (fun _ _ _ hu hstep => hu.step hstep.1 hstep.2) hstep hrun hs
  have hunpicked : unpicked k s = s.store.sessions.keys := by simp [unpicked, hk]
  constructor
  · intro env u hpc hstep
    rcases choice_of_pick (wellFormed_of_reaches ht.reaches) (step_loop.mp hstep).2 hpc with
      ⟨⟨_, hexit, _⟩, _⟩ | ⟨imsi, hmem, rfl⟩
    · exact Or.inl hexit
    · exact Or.inr ⟨imsi, Finmap.mem_keys.mp hmem, loops_gotoLoop _ _ _⟩
  · intro env u imsi hpc hstep hchosen tr' v env' w hothers herase
    exact Drains.iteration_of_reaches ht.reaches hpc hstep hchosen hothers herase
  · have hbound := hranked (choiceOf k) (fun s => (unpicked k s).card) fun _ _ _ hu hstep hl =>
      (remaining_of_step hu.reaches hstep hl).1
    rw [hunpicked] at hbound
    omega
  · have hbound := hranked (stepOf k) (remaining k) fun _ _ _ hu hstep hl =>
      (remaining_of_step hu.reaches hstep hl).2
    have hfirst : remaining k s ≤ 6 * s.store.sessions.keys.card + 5 := by
      rw [remaining, hunpicked, hk]
      split <;> simp [LoopPc.rank]
    omega
  · exact exists_step_of_live
  · intro env u hstep hterm
    exact refuses_of_terminated hrate hstep hterm
  · intro env u hstep hexit
    obtain ⟨hempty, hactive⟩ := ht.exit hstep hexit
    exact ⟨eq_empty_of_keys hempty, hactive⟩
  · intro hexit
    have hempty := eq_empty_of_keys (ht.exited hexit)
    refine ⟨hempty, fun imsi hmem => ?_⟩
    have hended := ended_of_draining hrun imsi
    have hgone : present imsi t.store = 0 := by
      rw [present, hempty]
      exact if_neg Finmap.notMem_empty
    have hthere : present imsi s.store = 1 := if_pos hmem
    refine ⟨by omega, fun hcfg => ?_⟩
    rw [hcfg.events_of_run hrun.of_only, List.drop_left]
    omega
  · intro imsi
    have hown := shutdownCount_of_run (k := k) hrun.of_only imsi
    refine ⟨hown, fun hcfg => ?_⟩
    rw [loopDelivered_of_run hcfg hrun.of_only]
    exact hown

/-! One session is drained, and the loop ends after its pause. -/

private def aboutToDrain : Manager Caller :=
  play (serve .first (.createSession (text "1")) 2 ++ [.call .first .startGracefulShutdown])
    (by decide +kernel)

private def drainBegun : Manager Caller :=
  (next sample (.thread .first (after 0 [])) aboutToDrain).get (by decide +kernel)

private def drainOfOne : List (Label Caller) :=
  List.replicate 3 (.thread .first (after 0 [])) ++
    List.replicate 6 (.loop 0 (after 0 [⟨text "1", ⟨text "1", 0, 0⟩⟩])) ++
    List.replicate 4 (.loop 0 (after 1 []))

private def drainEnded : Manager Caller :=
  replayed (fun l s => if Draining s l then next sample l s else none) drainOfOne drainBegun
    (by decide +kernel)

theorem drain_loop_ends_one :
    drainEnded.store.sessions = ∅ ∧
      endedCount (text "1") (observed (next sample) (emitted sample) drainOfOne drainBegun) +
        tally (next sample) (manualRemovalOf (text "1")) drainOfOne drainBegun = 1 := by
  have hreach : Reaches sample aboutToDrain := ⟨_, _, ⟨0, rfl⟩, run_play _ _⟩
  have hset : Step sample aboutToDrain (.thread .first (after 0 [])) drainBegun :=
    (Option.some_get _).symm
  have hrun : Run (only (Step sample) Draining) drainBegun drainOfOne drainEnded :=
    run_only_replayed _ _ _ _ _
  have hends : Drains sample 0 drainBegun drainOfOne drainEnded :=
    drain_loop_ends hreach (by decide +kernel) (by decide +kernel) hset (by decide +kernel) hrun
  obtain ⟨hempty, hended⟩ := hends.ended (by decide +kernel)
  exact ⟨hempty, (hended _ (by decide +kernel)).1⟩

end Pgw.SessionManager
