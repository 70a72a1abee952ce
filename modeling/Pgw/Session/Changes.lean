import Pgw.Session.Manager

/-!
# What a step can do to the store

A step of the manager changes the store by a short list of `Deed`s, and each deed
is possible only at certain positions of the thread that moves. `step_changes`
says so once; the invariants of the store are then case analyses over the ten
deeds instead of over the code.
-/
namespace Pgw.SessionManager
open TransitionSystem Completion

/-! ## Deeds -/

inductive Deed where
  /-- Flags and clock only. -/
  | pass
  | reject (imsi : StdString)
  | create (imsi : StdString)
  | refresh (imsi : StdString)
  /-- An update that has read the clock at `reading` writes. -/
  | touch (imsi : StdString) (reading : ℤ)
  | remove (imsi : StdString)
  | expire (imsi : StdString)
  | drain (imsi : StdString)
  | ban (imsi : StdString)
  | unban (imsi : StdString)
  deriving DecidableEq

/-- What an attempt to emit an event adds to the delivered ones. -/
def delivered (cfg : Config) (event : SessionEvent) : List SessionEvent :=
  match cfg.eventCallback with
  | some callback => if callback event = none then [event] else []
  | none => []

theorem Config.Delivers.delivered {cfg : Config} (h : cfg.Delivers) (event : SessionEvent) :
    delivered cfg event = [event] := by
  obtain ⟨callback, hcallback, hquiet⟩ := h
  simp [SessionManager.delivered, hcallback, hquiet]

theorem eq_of_mem_delivered {cfg : Config} {event event' : SessionEvent}
    (h : event' ∈ delivered cfg event) : event' = event := by
  rw [delivered] at h
  split at h
  · split at h
    · exact List.mem_singleton.mp h
    · cases h
  · cases h

/-- The store after `emit_event`, however the callback ends. -/
theorem emitEvent_store (cfg : Config) (env : Ambient) (imsi : StdString)
    (action : SessionAction) (st : Store) :
    (emitEvent cfg env imsi action st).2 =
      { st with events := st.events ++ delivered cfg ⟨imsi, action, env.wallClock imsi⟩ } := by
  cases hcallback : cfg.eventCallback with
  | none => simp [emitEvent, delivered, hcallback]
  | some callback =>
      cases hwhat : callback ⟨imsi, action, env.wallClock imsi⟩ <;>
        simp [emitEvent, delivered, hcallback, hwhat]

theorem Config.Quiet.emitEvent_eq {cfg : Config} (h : cfg.Quiet) (env : Ambient)
    (imsi : StdString) (action : SessionAction) (st : Store) :
    SessionManager.emitEvent cfg env imsi action st =
      (.returned (),
        { st with events := st.events ++ delivered cfg ⟨imsi, action, env.wallClock imsi⟩ }) :=
  Prod.ext (h.emitEvent env imsi action st) (emitEvent_store cfg env imsi action st)

/-- What is found after an erasure was there under another key. -/
theorem lookup_of_erase {sessions : SessionTable} {imsi x : StdString} {session : Session}
    (h : (sessions.erase x).lookup imsi = some session) :
    imsi ≠ x ∧ sessions.lookup imsi = some session := by
  by_cases heq : imsi = x
  · rw [heq, Finmap.lookup_erase] at h
    cases h
  · rw [Finmap.lookup_erase_ne heq] at h
    exact ⟨heq, h⟩

/-- What is found after an insertion is the new entry, or was there under another key. -/
theorem lookup_of_insert {sessions : SessionTable} {imsi x : StdString} {session new : Session}
    (h : (sessions.insert x new).lookup imsi = some session) :
    imsi = x ∧ session = new ∨ imsi ≠ x ∧ sessions.lookup imsi = some session := by
  by_cases heq : imsi = x
  · rw [heq, Finmap.lookup_insert, Option.some.injEq] at h
    exact Or.inl ⟨heq, h.symm⟩
  · rw [Finmap.lookup_insert_of_ne _ heq] at h
    exact Or.inr ⟨heq, h⟩

theorem keys_insert (sessions : SessionTable) (imsi : StdString) (session : Session) :
    (sessions.insert imsi session).keys = insert imsi sessions.keys := by
  ext x
  simp [Finmap.mem_keys]

/-- An entry that is replaced keeps its key. -/
theorem keys_insert_of_lookup {sessions : SessionTable} {imsi : StdString} {session : Session}
    (hpresent : sessions.lookup imsi = some session) (new : Session) :
    (sessions.insert imsi new).keys = sessions.keys := by
  rw [keys_insert, Finset.insert_eq_self, Finmap.mem_keys]
  exact Finmap.mem_of_lookup_eq_some hpresent

/-- The effect of each deed. -/
inductive Change (cfg : Config) : Store → Deed → Store → Prop where
  | pass {st : Store} (running active : Bool) (clock settled : ℤ) (replaced : List SessionEntry)
      (hclock : st.clock ≤ clock) (hsettled : settled = st.settled ∨ settled = clock)
      (hreplaced : replaced = st.replaced ∨ replaced = []) :
      Change cfg st .pass
        { st with
          running := running
          gracefulShutdownActive := active
          clock := clock
          settled := settled
          replaced := replaced }
  | reject {st : Store} {imsi : StdString} (stamp : ℤ) (hbanned : imsi ∈ st.blacklist) :
      Change cfg st (.reject imsi)
        { st with events := st.events ++ delivered cfg ⟨imsi, .rejected, stamp⟩ }
  | create {st : Store} {imsi : StdString} (stamp createdAt lastActivity : ℤ)
      (habsent : imsi ∉ st.sessions) (hcreated : st.clock ≤ createdAt)
      (hactive : createdAt ≤ lastActivity) :
      Change cfg st (.create imsi)
        { st with
          sessions := st.sessions.insert imsi ⟨imsi, createdAt, lastActivity⟩
          clock := lastActivity
          events := st.events ++ delivered cfg ⟨imsi, .created, stamp⟩
          settled := lastActivity
          replaced := [] }
  | refresh {st : Store} {imsi : StdString} (session : Session) (clock : ℤ)
      (hpresent : st.sessions.lookup imsi = some session) (hclock : st.clock ≤ clock) :
      Change cfg st (.refresh imsi)
        { st with
          sessions := st.sessions.insert imsi { session with lastActivity := clock }
          clock := clock
          settled := clock
          replaced := [] }
  | touch {st : Store} {imsi : StdString} {reading : ℤ} (session : Session)
      (hpresent : st.sessions.lookup imsi = some session) :
      Change cfg st (.touch imsi reading)
        { st with
          sessions := st.sessions.insert imsi
            { session with lastActivity := max st.settled reading }
          replaced := ⟨imsi, session⟩ :: st.replaced }
  | remove {st : Store} {imsi : StdString} (hpresent : imsi ∈ st.sessions) :
      Change cfg st (.remove imsi)
        { st with
          sessions := st.sessions.erase imsi
          settled := st.clock
          replaced := [] }
  | expire {st : Store} {imsi : StdString} (stamp : ℤ) (hpresent : imsi ∈ st.sessions) :
      Change cfg st (.expire imsi)
        { st with
          sessions := st.sessions.erase imsi
          events := st.events ++ delivered cfg ⟨imsi, .timeout, stamp⟩ }
  | drain {st : Store} {imsi : StdString} (stamp : ℤ) (hpresent : imsi ∈ st.sessions) :
      Change cfg st (.drain imsi)
        { st with
          sessions := st.sessions.erase imsi
          events := st.events ++ delivered cfg ⟨imsi, .gracefulShutdown, stamp⟩
          settled := st.clock
          replaced := [] }
  | ban {st : Store} (imsi : StdString) :
      Change cfg st (.ban imsi) { st with blacklist := insert imsi st.blacklist }
  | unban {st : Store} (imsi : StdString) :
      Change cfg st (.unban imsi) { st with blacklist := st.blacklist.erase imsi }

namespace Change
variable {cfg : Config} {st st' : Store} {d : Deed}

theorem rfl_pass (cfg : Config) (st : Store) : Change cfg st .pass st :=
  pass st.running st.gracefulShutdownActive st.clock st.settled st.replaced (le_refl _)
    (Or.inl rfl) (Or.inl rfl)

theorem tick (cfg : Config) (st : Store) (delay : ℕ) : Change cfg st .pass (st.tick delay) :=
  pass st.running st.gracefulShutdownActive _ st.settled st.replaced (by omega) (Or.inl rfl)
    (Or.inl rfl)

theorem flags (cfg : Config) (st : Store) (running active : Bool) : Change cfg st .pass
    { st with running := running, gracefulShutdownActive := active } :=
  pass running active st.clock st.settled st.replaced (le_refl _) (Or.inl rfl) (Or.inl rfl)

theorem settle (cfg : Config) (st : Store) : Change cfg st .pass st.settle :=
  pass st.running st.gracefulShutdownActive st.clock _ _ (le_refl _) (Or.inr rfl) (Or.inr rfl)

/-- The steady clock never goes backwards. -/
theorem clock_le (h : Change cfg st d st') : st.clock ≤ st'.clock := by
  cases h with
  | create _ createdAt lastActivity _ hcreated hactive => exact le_trans hcreated hactive
  | pass _ _ _ _ _ hclock => exact hclock
  | refresh _ _ _ hclock => exact hclock
  | _ => exact le_refl _

/-- Neither does the end of the last section that had the table to itself. -/
theorem settled_le (h : Change cfg st d st') (hpast : st.settled ≤ st.clock) :
    st.settled ≤ st'.settled ∧ st'.settled ≤ st'.clock := by
  cases h with
  | pass _ _ clock settled _ hclock hsettled _ =>
      have hlater : st.settled ≤ clock := le_trans hpast hclock
      rcases hsettled with rfl | rfl
      · exact ⟨le_refl _, hlater⟩
      · exact ⟨hlater, le_refl _⟩
  | create _ createdAt lastActivity _ hcreated hactive =>
      exact ⟨hpast.trans (hcreated.trans hactive), le_refl _⟩
  | refresh _ clock _ hclock => exact ⟨hpast.trans hclock, le_refl _⟩
  | remove => exact ⟨hpast, le_refl _⟩
  | drain => exact ⟨hpast, le_refl _⟩
  | _ => exact ⟨le_refl _, hpast⟩

/-- An entry is an old one, was active since the change began, or was touched. -/
theorem lookup_cases (h : Change cfg st d st') {imsi : StdString} {session : Session}
    (hlookup : st'.sessions.lookup imsi = some session) :
    st.sessions.lookup imsi = some session ∨ st.clock ≤ session.lastActivity ∨
      ∃ reading, d = .touch imsi reading ∧ reading ≤ session.lastActivity := by
  have herase : ∀ x, (st.sessions.erase x).lookup imsi = some session →
      st.sessions.lookup imsi = some session := fun _ hx => (lookup_of_erase hx).2
  have hinsert : ∀ x new, st.clock ≤ new.lastActivity →
      (st.sessions.insert x new).lookup imsi = some session →
      st.sessions.lookup imsi = some session ∨ st.clock ≤ session.lastActivity := by
    intro x new hnew hx
    rcases lookup_of_insert hx with ⟨_, heq⟩ | ⟨_, hold⟩
    · exact Or.inr (heq ▸ hnew)
    · exact Or.inl hold
  cases h with
  | create _ createdAt lastActivity _ hcreated hactive =>
      exact (hinsert _ _ (le_trans hcreated hactive) hlookup).imp_right Or.inl
  | refresh _ clock _ hclock => exact (hinsert _ _ hclock hlookup).imp_right Or.inl
  | touch old hpresent =>
      rcases lookup_of_insert hlookup with ⟨rfl, rfl⟩ | ⟨_, hold⟩
      · exact Or.inr (Or.inr ⟨_, rfl, le_max_right _ _⟩)
      · exact Or.inl hold
  | remove => exact Or.inl (herase _ hlookup)
  | expire => exact Or.inl (herase _ hlookup)
  | drain => exact Or.inl (herase _ hlookup)
  | _ => exact Or.inl hlookup

/-- Only the creation of `imsi` adds the key. -/
theorem mem_sessions (h : Change cfg st d st') {imsi : StdString} (hmem : imsi ∈ st'.sessions) :
    imsi ∈ st.sessions ∨ d = .create imsi := by
  cases h with
  | create =>
      rcases Finmap.mem_insert.mp hmem with rfl | hold
      · exact Or.inr rfl
      · exact Or.inl hold
  | refresh _ _ hpresent =>
      rcases Finmap.mem_insert.mp hmem with rfl | hold
      · exact Or.inl (Finmap.mem_of_lookup_eq_some hpresent)
      · exact Or.inl hold
  | touch _ hpresent =>
      rcases Finmap.mem_insert.mp hmem with rfl | hold
      · exact Or.inl (Finmap.mem_of_lookup_eq_some hpresent)
      · exact Or.inl hold
  | remove => exact Or.inl (Finmap.mem_erase.mp hmem).2
  | expire => exact Or.inl (Finmap.mem_erase.mp hmem).2
  | drain => exact Or.inl (Finmap.mem_erase.mp hmem).2
  | _ => exact Or.inl hmem

/-- Who is not written stays as it was, or goes. -/
theorem lookup_of_unwritten (h : Change cfg st d st') {imsi : StdString}
    (hd : d ≠ .create imsi ∧ d ≠ .refresh imsi ∧ ∀ reading, d ≠ .touch imsi reading) :
    st'.sessions.lookup imsi = st.sessions.lookup imsi ∨ imsi ∉ st'.sessions := by
  have hinsert : ∀ x new, imsi ≠ x →
      (st.sessions.insert x new).lookup imsi = st.sessions.lookup imsi :=
    fun x new hx => Finmap.lookup_insert_of_ne _ hx
  have herase : ∀ x, (st.sessions.erase x).lookup imsi = st.sessions.lookup imsi ∨
      imsi ∉ st.sessions.erase x := by
    intro x
    by_cases hx : imsi = x
    · exact Or.inr fun hmem => (Finmap.mem_erase.mp hmem).1 hx
    · exact Or.inl (Finmap.lookup_erase_ne hx)
  cases h with
  | create => exact Or.inl (hinsert _ _ fun heq => hd.1 (heq ▸ rfl))
  | refresh => exact Or.inl (hinsert _ _ fun heq => hd.2.1 (heq ▸ rfl))
  | @touch _ reading => exact Or.inl (hinsert _ _ fun heq => hd.2.2 reading (heq ▸ rfl))
  | remove => exact herase _
  | expire => exact herase _
  | drain => exact herase _
  | _ => exact Or.inl rfl

/-- Only a write leaves an old entry behind. -/
theorem replaced_of_unwritten (h : Change cfg st d st') {imsi : StdString}
    (hd : ∀ reading, d ≠ .touch imsi reading) {old : Session}
    (hmem : ⟨imsi, old⟩ ∈ st'.replaced) : ⟨imsi, old⟩ ∈ st.replaced := by
  cases h with
  | pass _ _ _ _ replaced _ _ hreplaced =>
      rcases hreplaced with rfl | rfl
      · exact hmem
      · cases hmem
  | @touch x reading session _ =>
      rcases List.mem_cons.mp hmem with heq | hold
      · rw [Sigma.mk.injEq] at heq
        exact absurd (by rw [heq.1]) (hd reading)
      · exact hold
  | create => cases hmem
  | refresh => cases hmem
  | remove => cases hmem
  | drain => cases hmem
  | _ => exact hmem

/-- The other deeds touch no key. -/
theorem keys_eq (h : Change cfg st d st')
    (hd : ∀ imsi, d ≠ .create imsi ∧ d ≠ .remove imsi ∧ d ≠ .expire imsi ∧ d ≠ .drain imsi) :
    st'.sessions.keys = st.sessions.keys := by
  cases h with
  | @create imsi => exact absurd rfl (hd imsi).1
  | @remove imsi => exact absurd rfl (hd imsi).2.1
  | @expire imsi => exact absurd rfl (hd imsi).2.2.1
  | @drain imsi => exact absurd rfl (hd imsi).2.2.2
  | refresh _ _ hpresent => exact keys_insert_of_lookup hpresent _
  | touch _ hpresent => exact keys_insert_of_lookup hpresent _
  | _ => rfl

end Change

theorem keys_eq_of_run {cfg : Config} {st st' : Store} {ds : List Deed}
    (h : Run (Change cfg) st ds st') (hds : ∀ d ∈ ds, ∀ imsi,
      d ≠ .create imsi ∧ d ≠ .remove imsi ∧ d ≠ .expire imsi ∧ d ≠ .drain imsi) :
    st'.sessions.keys = st.sessions.keys :=
  h.invariant_of_labels (P := fun st' => st'.sessions.keys = st.sessions.keys)
    (fun _ _ _ hsame hd hchange => (hchange.keys_eq hd).trans hsame) hds rfl

/-- A key that is new after a run of deeds was created in it. -/
theorem create_of_mem_sessions {cfg : Config} {st st' : Store} {ds : List Deed} {imsi : StdString}
    (h : Run (Change cfg) st ds st') (hbefore : imsi ∉ st.sessions) (hafter : imsi ∈ st'.sessions) :
    .create imsi ∈ ds := by
  induction h with
  | nil => exact absurd hafter hbefore
  | snoc _ hlast ih =>
      rcases hlast.mem_sessions hafter with hold | rfl
      · exact List.mem_append_left _ (ih hold)
      · exact List.mem_append_right _ (List.mem_singleton_self _)

/-! ## Sections -/

theorem createSessionBlacklist_change (cfg : Config) (env : Ambient) (imsi : StdString)
    (st : Store) :
    ∃ d, (d = .reject imsi ∨ d = .pass) ∧
      Change cfg st d (createSessionBlacklist cfg env imsi st).2 := by
  by_cases hbanned : imsi ∈ st.blacklist
  · refine ⟨.reject imsi, Or.inl rfl, ?_⟩
    rw [createSessionBlacklist, if_pos hbanned, snd_andThen, emitEvent_store]
    exact .reject _ hbanned
  · refine ⟨.pass, Or.inr rfl, ?_⟩
    rw [createSessionBlacklist, if_neg hbanned]
    exact .rfl_pass cfg st

theorem createSessionTable_change (cfg : Config) (env : Ambient) (imsi : StdString)
    (st : Store) :
    ∃ d, (d = .create imsi ∨ d = .refresh imsi) ∧
      Change cfg st d (createSessionTable cfg env imsi st).2.settle := by
  cases hlookup : st.sessions.lookup imsi with
  | some session =>
      refine ⟨.refresh imsi, Or.inr rfl, ?_⟩
      rw [createSessionTable, hlookup]
      exact .refresh session _ hlookup (by simp)
  | none =>
      refine ⟨.create imsi, Or.inl rfl, ?_⟩
      rw [createSessionTable, hlookup]
      simp only [snd_andThen, emitEvent_store]
      exact .create _ _ _ (Finmap.lookup_eq_none.mp hlookup) (by simp) (by simp)

theorem updateSessionActivity_change (cfg : Config) (reading : ℤ) (imsi : StdString)
    (st : Store) : ∃ d, (d = .touch imsi reading ∨ d = .pass) ∧
      Change cfg st d (updateSessionActivity reading imsi st) := by
  cases hlookup : st.sessions.lookup imsi with
  | some session =>
      refine ⟨.touch imsi reading, Or.inl rfl, ?_⟩
      rw [updateSessionActivity, hlookup]
      exact .touch session hlookup
  | none =>
      refine ⟨.pass, Or.inr rfl, ?_⟩
      rw [updateSessionActivity, hlookup]
      exact .rfl_pass cfg st

theorem removeSession_change (cfg : Config) (imsi : StdString) (st : Store) :
    ∃ d, (d = .remove imsi ∨ d = .pass) ∧ Change cfg st d (removeSession imsi st).2.settle := by
  by_cases hpresent : imsi ∈ st.sessions
  · refine ⟨.remove imsi, Or.inl rfl, ?_⟩
    rw [removeSession, if_pos hpresent]
    exact .remove hpresent
  · refine ⟨.pass, Or.inr rfl, ?_⟩
    rw [removeSession, if_neg hpresent]
    exact .settle cfg st

theorem shutdownErase_change (cfg : Config) (env : Ambient) (imsi : StdString) (st : Store) :
    ∃ d, (d = .drain imsi ∨ d = .pass) ∧
      Change cfg st d (shutdownErase cfg env imsi st).2.settle := by
  cases hlookup : st.sessions.lookup imsi with
  | some session =>
      refine ⟨.drain imsi, Or.inl rfl, ?_⟩
      rw [shutdownErase, hlookup]
      simp only [emitEvent_store]
      exact .drain _ (Finmap.mem_of_lookup_eq_some hlookup)
  | none =>
      refine ⟨.pass, Or.inr rfl, ?_⟩
      rw [shutdownErase, hlookup]
      exact .settle cfg st

/-- The erase loop of `cleanup_thread` expires some sessions one after the other. -/
theorem cleanupErase_changes (cfg : Config) (env : Ambient) (now : ℤ)
    (expired : List StdString) (st : Store) :
    ∃ ds, Run (Change cfg) st ds (cleanupErase cfg env now expired st).2 ∧
      ∀ d ∈ ds, ∃ imsi, d = .expire imsi := by
  induction expired generalizing st with
  | nil => exact ⟨[], Run.nil st, by simp⟩
  | cons imsi expired ih =>
      cases hlookup : st.sessions.lookup imsi with
      | none =>
          rw [cleanupErase, hlookup]
          exact ih st
      | some session =>
          rw [cleanupErase, hlookup]
          by_cases hexpired : Expired cfg now session
          · simp only [if_pos hexpired]
            have hfirst : Change cfg st (.expire imsi)
                (emitEvent cfg env imsi .timeout
                  { st with sessions := st.sessions.erase imsi }).2 := by
              rw [emitEvent_store]
              exact .expire _ (Finmap.mem_of_lookup_eq_some hlookup)
            generalize emitEvent cfg env imsi .timeout
              { st with sessions := st.sessions.erase imsi } = emitted at hfirst ⊢
            obtain ⟨outcome, st₁⟩ := emitted
            cases outcome with
            | returned _ =>
                obtain ⟨ds, hrun, hds⟩ := ih st₁
                refine ⟨[.expire imsi] ++ ds, (Run.single hfirst).append hrun, ?_⟩
                intro d hd
                rcases List.mem_cons.mp hd with rfl | hd
                · exact ⟨imsi, rfl⟩
                · exact hds d hd
            | raised _ => exact ⟨[.expire imsi], Run.single hfirst, by simp⟩
            | terminated => exact ⟨[.expire imsi], Run.single hfirst, by simp⟩
          · simp only [if_neg hexpired]
            exact ih st

/-! ## Steps -/

variable {ι : Type}

/-- Where the moving thread must stand for a deed to happen. Passing needs no particular
place. -/
def Permits (s : Manager ι) (l : Label ι) : Deed → Prop
  | .pass => True
  | .refresh imsi => ∃ i env, l = .thread i env ∧ s.threads i = .checked imsi
  | .touch imsi reading => ∃ i env, l = .thread i env ∧ s.threads i = .touching imsi reading
  | .reject imsi => ∃ i env, l = .thread i env ∧ s.threads i = .entered (.createSession imsi)
  | .create imsi => ∃ i env, l = .thread i env ∧ s.threads i = .checked imsi
  | .remove imsi => ∃ i env, l = .thread i env ∧ s.threads i = .entered (.removeSession imsi)
  | .expire _ => ∃ env, l = .cleanup env
  | .drain imsi => ∃ k env, l = .loop k env ∧ s.loops k = .erase imsi
  | .ban imsi => ∃ i env, l = .thread i env ∧ s.threads i = .entered (.addToBlacklist imsi)
  | .unban imsi => ∃ i env, l = .thread i env ∧ s.threads i = .entered (.removeFromBlacklist imsi)

/-- The deed of a caller's first section. -/
private theorem firstSection_change (cfg : Config) (env : Ambient) (i : ι) (c : Call)
    (s : Manager ι) (hpc : s.threads i = .entered c) :
    ∃ d, Permits s (.thread i env) d ∧
      Change cfg s.store d (firstSection cfg env c s.store).2 := by
  cases c with
  | createSession imsi =>
      obtain ⟨d, hd, hchange⟩ := createSessionBlacklist_change cfg env imsi s.store
      rw [firstSection]
      cases IMSI.ofString imsi with
      | returned _ =>
          refine ⟨d, ?_, ?_⟩
          · rcases hd with rfl | rfl
            · exact ⟨i, env, rfl, hpc⟩
            · trivial
          · generalize createSessionBlacklist cfg env imsi s.store = outcome at hchange ⊢
            obtain ⟨(_ | _) | _ | _, _⟩ := outcome <;> exact hchange
      | raised _ => exact ⟨.pass, trivial, .rfl_pass cfg s.store⟩
      | terminated => exact ⟨.pass, trivial, .rfl_pass cfg s.store⟩
  | removeSession imsi =>
      obtain ⟨d, hd, hchange⟩ := removeSession_change cfg imsi s.store
      refine ⟨d, ?_, hchange⟩
      rcases hd with rfl | rfl
      · exact ⟨i, env, rfl, hpc⟩
      · trivial
  | addToBlacklist imsi => exact ⟨.ban imsi, ⟨i, env, rfl, hpc⟩, .ban imsi⟩
  | removeFromBlacklist imsi => exact ⟨.unban imsi, ⟨i, env, rfl, hpc⟩, .unban imsi⟩
  | updateSessionActivity imsi => exact ⟨.pass, trivial, .tick cfg s.store env.elapsed⟩
  | startGracefulShutdown => exact ⟨.pass, trivial, .flags cfg s.store _ _⟩
  | sessionExists _ => exact ⟨.pass, trivial, .rfl_pass cfg s.store⟩
  | isBlacklisted _ => exact ⟨.pass, trivial, .rfl_pass cfg s.store⟩

/-- One deed is enough for a run of deeds. -/
private theorem run_of_change {cfg : Config} {s : Manager ι} {l : Label ι} {st : Store}
    (h : ∃ d, Permits s l d ∧ Change cfg s.store d st) :
    ∃ ds, Run (Change cfg) s.store ds st ∧ ∀ d ∈ ds, Permits s l d := by
  obtain ⟨d, hpermits, hchange⟩ := h
  exact ⟨[d], Run.single hchange, by simpa using hpermits⟩

variable {cfg : Config} {s t : Manager ι} {l : Label ι}

private theorem thread_changes [DecidableEq ι] {i : ι} {env : Ambient}
    (h : threadNext cfg i env s = some t) :
    ∃ d, Permits s (.thread i env) d ∧ Change cfg s.store d t.store := by
  cases hpc : s.threads i with
  | idle => simp [threadNext, hpc] at h
  | entered c =>
      simp only [threadNext, hpc, Option.some.injEq] at h
      subst h
      exact firstSection_change cfg env i c s hpc
  | checked imsi =>
      simp only [threadNext, hpc, Option.some.injEq] at h
      subst h
      obtain ⟨d, hd, hchange⟩ := createSessionTable_change cfg env imsi s.store
      refine ⟨d, ?_, hchange⟩
      rcases hd with rfl | rfl <;> exact ⟨i, env, rfl, hpc⟩
  | activated =>
      simp only [threadNext, hpc, Option.some.injEq] at h
      subst h
      exact ⟨.pass, trivial, .rfl_pass cfg s.store⟩
  | spawned k =>
      simp only [threadNext, hpc] at h
      split at h <;> cases h <;> exact ⟨.pass, trivial, .rfl_pass cfg s.store⟩
  | touching imsi reading =>
      simp only [threadNext, hpc, Option.some.injEq] at h
      subst h
      obtain ⟨d, hd, hchange⟩ := updateSessionActivity_change cfg reading imsi s.store
      refine ⟨d, ?_, hchange⟩
      rcases hd with rfl | rfl
      · exact ⟨i, env, rfl, hpc⟩
      · trivial
  | returning c v =>
      simp only [threadNext, hpc, Option.some.injEq] at h
      subst h
      exact ⟨.pass, trivial, .rfl_pass cfg s.store⟩

/-- The second section of a pass leaves what its loop leaves, and may have settled it. -/
theorem store_of_cleanupErase {env : Ambient} {now : ℤ} {expired : List StdString}
    (hpc : s.cleanup = .erase now expired) (h : cleanupNext cfg env s = some t) :
    t.store = (cleanupErase cfg env now expired s.store).2 ∨
      t.store = (cleanupErase cfg env now expired s.store).2.settle := by
  simp only [cleanupNext, hpc] at h
  split at h <;> rename_i heq <;> cases h <;> rw [heq]
  · by_cases hnone : expired = []
    · exact Or.inl (if_pos hnone)
    · exact Or.inr (if_neg hnone)
  · exact Or.inl rfl

/-- The second section of a loop settles what it leaves. -/
theorem store_of_shutdownErase {k : ℕ} {env : Ambient} {imsi : StdString}
    (hpc : s.loops k = .erase imsi) (h : loopNext cfg k env s = some t) :
    t.store = (shutdownErase cfg env imsi s.store).2.settle := by
  simp only [loopNext, hpc] at h
  split at h <;> rename_i heq <;> cases h <;> rw [heq]
  rfl

private theorem cleanup_changes {env : Ambient} (h : cleanupNext cfg env s = some t) :
    ∃ ds, Run (Change cfg) s.store ds t.store ∧ ∀ d ∈ ds, Permits s (.cleanup env) d := by
  cases hpc : s.cleanup with
  | testRunning =>
      simp only [cleanupNext, hpc] at h
      split at h <;> cases h
      · exact run_of_change ⟨.pass, trivial, .pass _ _ _ s.store.settled [] (by simp)
          (Or.inl rfl) (Or.inr rfl)⟩
      · exact run_of_change ⟨.pass, trivial, .rfl_pass cfg s.store⟩
  | snapshot now =>
      simp only [cleanupNext, hpc] at h
      split at h <;> cases h
      exact run_of_change ⟨.pass, trivial, .rfl_pass cfg s.store⟩
  | erase now expired =>
      obtain ⟨ds, hrun, hds⟩ := cleanupErase_changes cfg env now expired s.store
      have hpermits : ∀ d ∈ ds, Permits s (.cleanup env) d := by
        intro d hd
        obtain ⟨imsi, rfl⟩ := hds d hd
        exact ⟨env, rfl⟩
      rcases store_of_cleanupErase hpc h with hstore | hstore
      · exact ⟨ds, hstore ▸ hrun, hpermits⟩
      · refine ⟨ds ++ [.pass], hstore ▸ hrun.snoc (.settle cfg _), fun d hd => ?_⟩
        rcases List.mem_append.mp hd with hearlier | hlast
        · exact hpermits d hearlier
        · rw [List.mem_singleton.mp hlast]
          trivial
  | sleep =>
      simp only [cleanupNext, hpc, Option.some.injEq] at h
      subst h
      exact run_of_change ⟨.pass, trivial, .rfl_pass cfg s.store⟩
  | exited => simp [cleanupNext, hpc] at h

private theorem loop_changes {k : ℕ} {env : Ambient} (h : loopNext cfg k env s = some t) :
    ∃ d, Permits s (.loop k env) d ∧ Change cfg s.store d t.store := by
  cases hpc : s.loops k with
  | absent => simp [loopNext, hpc] at h
  | exited => simp [loopNext, hpc] at h
  | start =>
      simp only [loopNext, hpc] at h
      split at h <;> cases h <;> exact ⟨.pass, trivial, .rfl_pass cfg s.store⟩
  | testActive =>
      simp only [loopNext, hpc, Option.some.injEq] at h
      subst h
      exact ⟨.pass, trivial, .rfl_pass cfg s.store⟩
  | testRunning =>
      simp only [loopNext, hpc, Option.some.injEq] at h
      subst h
      exact ⟨.pass, trivial, .rfl_pass cfg s.store⟩
  | pick =>
      simp only [loopNext, hpc] at h
      split at h
      · split at h <;> cases h
        · exact ⟨.pass, trivial, .rfl_pass cfg s.store⟩
        · exact ⟨.pass, trivial, .flags cfg s.store _ _⟩
      · cases h
  | erase imsi =>
      obtain ⟨d, hd, hchange⟩ := shutdownErase_change cfg env imsi s.store
      refine ⟨d, ?_, store_of_shutdownErase hpc h ▸ hchange⟩
      rcases hd with rfl | rfl
      · exact ⟨k, env, rfl, hpc⟩
      · trivial
  | limit =>
      simp only [loopNext, hpc, Option.some.injEq] at h
      subst h
      exact ⟨.pass, trivial, .tick cfg s.store env.elapsed⟩
  | wait deadline =>
      simp only [loopNext, hpc] at h
      split at h <;> cases h
      exact ⟨.pass, trivial, .tick cfg s.store env.elapsed⟩

private theorem destroy_changes [Fintype ι] (h : destroyNext s = some t) :
    ∃ d, Permits s .destroy d ∧ Change cfg s.store d t.store := by
  refine ⟨.pass, trivial, ?_⟩
  rw [destroyNext] at h
  split at h <;> try split at h
  all_goals (try split at h) <;> cases h
  all_goals first
    | exact .rfl_pass cfg s.store
    | exact .flags cfg s.store _ _

/-- **What a step can do to the store.** -/
theorem step_changes [Fintype ι] [DecidableEq ι] (h : Step cfg s l t) :
    ∃ ds, Run (Change cfg) s.store ds t.store ∧ ∀ d ∈ ds, Permits s l d := by
  cases l with
  | call i c =>
      obtain ⟨_, _, rfl⟩ := step_call.mp h
      exact run_of_change ⟨.pass, trivial, .rfl_pass cfg s.store⟩
  | thread i env => exact run_of_change (thread_changes (step_thread.mp h).2)
  | cleanup env => exact cleanup_changes (step_cleanup.mp h).2
  | loop k env => exact run_of_change (loop_changes (step_loop.mp h).2)
  | destroy => exact run_of_change (destroy_changes (step_destroy.mp h).2)

theorem clock_of_step [Fintype ι] [DecidableEq ι] (h : Step cfg s l t) :
    s.store.clock ≤ t.store.clock := by
  obtain ⟨ds, hrun, _⟩ := step_changes h
  refine hrun.invariant (P := fun st => s.store.clock ≤ st.clock) ?_ (le_refl _)
  intro st d st' hst hchange
  exact le_trans hst hchange.clock_le

/-! ## Flags -/

/-- Two stores with the same flags. -/
def SameFlags (st st' : Store) : Prop :=
  st'.running = st.running ∧ st'.gracefulShutdownActive = st.gracefulShutdownActive

/-- No deed but a pass touches a flag. -/
theorem Change.sameFlags {st st' : Store} {d : Deed} (h : Change cfg st d st') (hd : d ≠ .pass) :
    SameFlags st st' := by
  cases h with
  | pass => exact absurd rfl hd
  | _ => exact ⟨rfl, rfl⟩

theorem sameFlags_of_run {st st' : Store} {ds : List Deed} (h : Run (Change cfg) st ds st')
    (hds : ∀ d ∈ ds, d ≠ .pass) : SameFlags st st' := by
  refine h.invariant_of_labels (P := SameFlags st) ?_ hds ⟨rfl, rfl⟩
  intro _ _ _ hsame hd hchange
  obtain ⟨hrunning, hactive⟩ := hchange.sameFlags hd
  exact ⟨hrunning.trans hsame.1, hactive.trans hsame.2⟩

variable (cfg) in
theorem sameFlags_firstSection {c : Call} (hc : c ≠ .startGracefulShutdown) (env : Ambient)
    (st : Store) : SameFlags st (firstSection cfg env c st).2 := by
  cases c with
  | createSession imsi =>
      rw [firstSection]
      cases IMSI.ofString imsi with
      | returned _ =>
          have hstore := emitEvent_store cfg env imsi .rejected st
          by_cases hbanned : imsi ∈ st.blacklist
          · simp only [createSessionBlacklist, if_pos hbanned]
            generalize emitEvent cfg env imsi .rejected st = emission at hstore ⊢
            obtain ⟨_ | _ | _, st₁⟩ := emission <;> rw [show st₁ = _ from hstore] <;>
              exact ⟨rfl, rfl⟩
          · simp only [createSessionBlacklist, if_neg hbanned]
            exact ⟨rfl, rfl⟩
      | raised _ => exact ⟨rfl, rfl⟩
      | terminated => exact ⟨rfl, rfl⟩
  | removeSession imsi =>
      simp only [firstSection, removeSession]
      split <;> exact ⟨rfl, rfl⟩
  | startGracefulShutdown => exact absurd rfl hc
  | _ => exact ⟨rfl, rfl⟩

variable (cfg) in
theorem sameFlags_createSessionTable (env : Ambient) (imsi : StdString) (st : Store) :
    SameFlags st (createSessionTable cfg env imsi st).2 := by
  rw [createSessionTable]
  split
  · exact ⟨rfl, rfl⟩
  · rw [snd_andThen, emitEvent_store]
    exact ⟨rfl, rfl⟩

theorem sameFlags_updateSessionActivity (reading : ℤ) (imsi : StdString) (st : Store) :
    SameFlags st (updateSessionActivity reading imsi st) := by
  rw [updateSessionActivity]
  split <;> exact ⟨rfl, rfl⟩

variable (cfg) in
theorem sameFlags_cleanupErase (env : Ambient) (now : ℤ) (expired : List StdString) (st : Store) :
    SameFlags st (cleanupErase cfg env now expired st).2 := by
  obtain ⟨ds, hrun, hds⟩ := cleanupErase_changes cfg env now expired st
  refine sameFlags_of_run hrun fun d hd => ?_
  obtain ⟨imsi, rfl⟩ := hds d hd
  intro heq
  cases heq

variable (cfg) in
theorem sameFlags_shutdownErase (env : Ambient) (imsi : StdString) (st : Store) :
    SameFlags st (shutdownErase cfg env imsi st).2 := by
  rw [shutdownErase]
  split
  · rw [emitEvent_store]
    exact ⟨rfl, rfl⟩
  · exact ⟨rfl, rfl⟩

/-- A choice that finds nothing has met the empty table. -/
theorem sessions_of_pick_none {sessions : SessionTable} {order : List SessionEntry}
    (hmet : sessions.entries = ↑order) (hpick : pickSession order = none) : sessions = ∅ := by
  cases order with
  | nil => exact Finmap.ext hmet
  | cons entry order => cases hpick

/-- What a step does to the flags: nothing, or it is the first section of a start, the
end of a loop that finds the table empty, or a part of the destructor. -/
inductive FlagEffect (s : Manager ι) : Label ι → Store → Prop where
  | same {l : Label ι} {st : Store} (hflags : SameFlags s.store st) : FlagEffect s l st
  | start (i : ι) (env : Ambient) {st : Store}
      (hpc : s.threads i = .entered .startGracefulShutdown)
      (hrunning : st.running = s.store.running)
      (hactive : st.gracefulShutdownActive = true) : FlagEffect s (.thread i env) st
  | complete (k : ℕ) (env : Ambient) {st : Store} (hpc : s.loops k = .pick)
      (hrunning : st.running = s.store.running) (hempty : st.sessions = ∅)
      (hactive : st.gracefulShutdownActive = false) : FlagEffect s (.loop k env) st
  | destroy {st : Store} : FlagEffect s .destroy st

/-- **What a step can do to the flags.** -/
theorem flags_of_step [Fintype ι] [DecidableEq ι] (h : Step cfg s l t) :
    FlagEffect s l t.store := by
  cases l with
  | call i c =>
      obtain ⟨_, _, rfl⟩ := step_call.mp h
      exact .same ⟨rfl, rfl⟩
  | thread i env =>
      have hnext := (step_thread.mp h).2
      cases hpc : s.threads i <;> simp only [threadNext, hpc] at hnext
      case idle => cases hnext
      case entered c =>
        cases hnext
        by_cases hc : c = .startGracefulShutdown
        · subst hc
          exact .start i env hpc rfl rfl
        · exact .same (sameFlags_firstSection cfg hc env s.store)
      case checked imsi =>
        cases hnext
        exact .same (sameFlags_createSessionTable cfg env imsi s.store)
      case touching imsi reading =>
        cases hnext
        exact .same (sameFlags_updateSessionActivity reading imsi s.store)
      all_goals (try split at hnext) <;> cases hnext <;> exact .same ⟨rfl, rfl⟩
  | cleanup env =>
      have hnext := (step_cleanup.mp h).2
      cases hpc : s.cleanup <;> simp only [cleanupNext, hpc] at hnext
      case erase now expired =>
        have hflags := sameFlags_cleanupErase cfg env now expired s.store
        refine .same ?_
        rcases store_of_cleanupErase hpc (step_cleanup.mp h).2 with hstore | hstore <;>
          exact hstore ▸ hflags
      all_goals (try split at hnext) <;> cases hnext <;> exact .same ⟨rfl, rfl⟩
  | loop k env =>
      have hnext := (step_loop.mp h).2
      cases hpc : s.loops k <;> simp only [loopNext, hpc] at hnext
      case erase imsi =>
        have hflags := sameFlags_shutdownErase cfg env imsi s.store
        exact .same (store_of_shutdownErase hpc (step_loop.mp h).2 ▸ hflags)
      case pick =>
        split at hnext
        · rename_i hmet
          split at hnext
          · cases hnext
            exact .same ⟨rfl, rfl⟩
          · rename_i hnone
            cases hnext
            exact .complete k env hpc rfl (sessions_of_pick_none hmet hnone) rfl
        · cases hnext
      all_goals (try split at hnext) <;> cases hnext <;> exact .same ⟨rfl, rfl⟩
  | destroy => exact .destroy

end Pgw.SessionManager
