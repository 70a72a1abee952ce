import Pgw.Session.Changes
import Pgw.Session.Positions

/-!
# What the table and the events are made of

The keys are checked once, at the entrance of `create_session`; from there an IMSI
travels between sections as a bare string. The shutdown loop takes an empty string
for "nothing picked", the timeout subtracts time points, and a CDR line separates
its fields by commas: all of this rests on the invariants of this module. The
blacklist is looked at in one section and trusted in the next, so what it says
about the table needs that nobody changes it in between.
-/
namespace Pgw.SessionManager
open TransitionSystem Completion

/-! ## The store -/

structure Store.WellFormed (st : Store) : Prop where
  entries : ∀ imsi session, st.sessions.lookup imsi = some session →
    IMSI.Valid imsi ∧ session.imsi = imsi ∧ session.createdAt ≤ session.lastActivity ∧
      session.lastActivity ≤ st.clock
  /-- Sessions are made by sections that have the lock for themselves. -/
  created : ∀ imsi session, st.sessions.lookup imsi = some session →
    session.createdAt ≤ st.settled
  past : st.settled ≤ st.clock
  events : ∀ event ∈ st.events, IMSI.Valid event.imsi

namespace Store.WellFormed
variable {cfg : Config} {st st' : Store} {d : Deed} {ds : List Deed}

theorem initial (cfg : Config) (clock : ℤ) : (cfg.initial clock).WellFormed where
  entries := by simp [Config.initial]
  created := by simp [Config.initial]
  past := le_refl _
  events := by simp [Config.initial]

theorem valid_of_mem (hst : st.WellFormed) {imsi : StdString} (hmem : imsi ∈ st.sessions) :
    IMSI.Valid imsi := by
  obtain ⟨session, hlookup⟩ := Finmap.mem_iff.mp hmem
  exact (hst.entries imsi session hlookup).1

/-- One more event. -/
theorem emit (hst : st.WellFormed) (event : SessionEvent) (hvalid : IMSI.Valid event.imsi) :
    ∀ event' ∈ st.events ++ delivered cfg event, IMSI.Valid event'.imsi := by
  intro event' hmem
  rcases List.mem_append.mp hmem with hold | hnew
  · exact hst.events event' hold
  · rw [eq_of_mem_delivered hnew]
    exact hvalid

/-- One entry fewer, whatever the events. -/
theorem erase (hst : st.WellFormed) (imsi : StdString) {events : List SessionEvent} {settled : ℤ}
    (replaced : List SessionEntry) (hsettled : settled = st.settled ∨ settled = st.clock)
    (hevents : ∀ event ∈ events, IMSI.Valid event.imsi) :
    { st with sessions := st.sessions.erase imsi, events := events, settled := settled,
              replaced := replaced }.WellFormed where
  entries := fun key session hlookup => hst.entries key session (lookup_of_erase hlookup).2
  created := fun key session hlookup => by
    have hcreated := hst.created key session (lookup_of_erase hlookup).2
    have hpast := hst.past
    show session.createdAt ≤ settled
    omega
  past := by
    have hpast := hst.past
    show settled ≤ st.clock
    omega
  events := hevents

/-- One entry set, at a later time. -/
theorem insert (hst : st.WellFormed) {imsi : StdString} {session : Session} {clock settled : ℤ}
    {events : List SessionEvent} (replaced : List SessionEntry) (hvalid : IMSI.Valid imsi)
    (himsi : session.imsi = imsi) (hcreated : session.createdAt ≤ settled)
    (hactive : settled ≤ session.lastActivity) (hpast : session.lastActivity ≤ clock)
    (hsettled : st.settled ≤ settled) (hclock : st.clock ≤ clock)
    (hevents : ∀ event ∈ events, IMSI.Valid event.imsi) :
    { st with sessions := st.sessions.insert imsi session, clock := clock, events := events,
              settled := settled, replaced := replaced }.WellFormed where
  entries := by
    intro key found hlookup
    rcases lookup_of_insert hlookup with ⟨rfl, rfl⟩ | ⟨_, hold⟩
    · exact ⟨hvalid, himsi, le_trans hcreated hactive, hpast⟩
    · obtain ⟨hkey, himsi, hle, hbefore⟩ := hst.entries key found hold
      exact ⟨hkey, himsi, hle, le_trans hbefore hclock⟩
  created := by
    intro key found hlookup
    rcases lookup_of_insert hlookup with ⟨rfl, rfl⟩ | ⟨_, hold⟩
    · exact hcreated
    · exact le_trans (hst.created key found hold) hsettled
  past := le_trans hactive hpast
  events := hevents

/-- A deed keeps the store well formed if the strings it brings in are valid, and the reading
that it writes is past. -/
theorem change (hst : st.WellFormed) (h : Change cfg st d st')
    (hvalid : ∀ imsi, d = .create imsi ∨ d = .reject imsi → IMSI.Valid imsi)
    (hread : ∀ imsi reading, d = .touch imsi reading → reading ≤ st.clock) : st'.WellFormed := by
  have hsettled := hst.past
  cases h with
  | pass _ _ clock settled _ hclock hto =>
      refine ⟨fun imsi session hlookup => ?_, fun imsi session hlookup => ?_, ?_, hst.events⟩
      · obtain ⟨hkey, himsi, hle, hbefore⟩ := hst.entries imsi session hlookup
        exact ⟨hkey, himsi, hle, le_trans hbefore hclock⟩
      · have hcreated := hst.created imsi session hlookup
        show session.createdAt ≤ settled
        omega
      · show settled ≤ clock
        omega
  | reject =>
      have hkey := hvalid _ (Or.inr rfl)
      exact ⟨hst.entries, hst.created, hst.past, hst.emit _ hkey⟩
  | @create imsi stamp _ _ _ hcreated hactive =>
      have hkey := hvalid _ (Or.inl rfl)
      exact hst.insert [] hkey rfl hactive (le_refl _) (le_refl _) (by omega)
        (le_trans hcreated hactive) (hst.emit ⟨imsi, .created, stamp⟩ hkey)
  | refresh session clock hpresent hclock =>
      obtain ⟨hkey, himsi, hle, hbefore⟩ := hst.entries _ session hpresent
      have hcreated : session.createdAt ≤ clock := by omega
      exact hst.insert [] hkey himsi hcreated (le_refl _) (le_refl _) (by omega) hclock hst.events
  | @touch imsi reading session hpresent =>
      obtain ⟨hkey, himsi, _, _⟩ := hst.entries _ session hpresent
      have hpast := hread imsi reading rfl
      exact hst.insert _ hkey himsi (hst.created _ session hpresent) (le_max_left _ _)
        (max_le hsettled hpast) (le_refl _) (le_refl _) hst.events
  | remove => exact hst.erase _ _ (Or.inr rfl) hst.events
  | @expire imsi stamp hpresent =>
      exact hst.erase _ _ (Or.inl rfl)
        (hst.emit ⟨imsi, .timeout, stamp⟩ (hst.valid_of_mem hpresent))
  | @drain imsi stamp hpresent =>
      exact hst.erase _ _ (Or.inr rfl)
        (hst.emit ⟨imsi, .gracefulShutdown, stamp⟩ (hst.valid_of_mem hpresent))
  | ban => exact ⟨hst.entries, hst.created, hst.past, hst.events⟩
  | unban => exact ⟨hst.entries, hst.created, hst.past, hst.events⟩

theorem changes (hst : st.WellFormed) (h : Run (Change cfg) st ds st')
    (hvalid : ∀ d ∈ ds, ∀ imsi, d = .create imsi ∨ d = .reject imsi → IMSI.Valid imsi)
    (hread : ∀ d ∈ ds, ∀ imsi reading, d = .touch imsi reading → reading ≤ st.clock) :
    st'.WellFormed := by
  have hboth : st'.WellFormed ∧ st.clock ≤ st'.clock := by
    refine h.invariant_of_labels (P := fun u => u.WellFormed ∧ st.clock ≤ u.clock)
      (Q := fun d => (∀ imsi, d = .create imsi ∨ d = .reject imsi → IMSI.Valid imsi) ∧
        ∀ imsi reading, d = .touch imsi reading → reading ≤ st.clock) ?_
      (fun d hd => ⟨hvalid d hd, hread d hd⟩) ⟨hst, le_refl _⟩
    intro u d u' hu hd hchange
    refine ⟨hu.1.change hchange hd.1 fun imsi reading heq => ?_, le_trans hu.2 hchange.clock_le⟩
    exact le_trans (hd.2 imsi reading heq) hu.2
  exact hboth.1

end Store.WellFormed

/-! ## The blacklist of the constructor -/

/-- Nothing but refusals for the subscribers of a fixed blacklist. -/
structure Store.Excludes (banned : Finset StdString) (st : Store) : Prop where
  blacklist : st.blacklist = banned
  keys : ∀ imsi ∈ st.sessions, imsi ∉ banned
  events : ∀ event ∈ st.events, event.action ≠ .rejected → event.imsi ∉ banned

namespace Store.Excludes
variable {cfg : Config} {banned : Finset StdString} {st st' : Store} {d : Deed} {ds : List Deed}

theorem emit (hst : st.Excludes banned) (event : SessionEvent)
    (hfree : event.action ≠ .rejected → event.imsi ∉ banned) :
    ∀ event' ∈ st.events ++ delivered cfg event,
      event'.action ≠ .rejected → event'.imsi ∉ banned := by
  intro event' hmem
  rcases List.mem_append.mp hmem with hold | hnew
  · exact hst.events event' hold
  · rw [eq_of_mem_delivered hnew]
    exact hfree

theorem erase (hst : st.Excludes banned) (imsi : StdString) {events : List SessionEvent}
    (settled : ℤ) (replaced : List SessionEntry)
    (hevents : ∀ event ∈ events, event.action ≠ .rejected → event.imsi ∉ banned) :
    { st with sessions := st.sessions.erase imsi, events := events, settled := settled,
              replaced := replaced }.Excludes banned where
  blacklist := hst.blacklist
  keys := fun key hmem => hst.keys key (Finmap.mem_erase.mp hmem).2
  events := hevents

theorem insert (hst : st.Excludes banned) {imsi : StdString} (session : Session)
    (clock settled : ℤ) (replaced : List SessionEntry) {events : List SessionEvent}
    (hfree : imsi ∉ banned)
    (hevents : ∀ event ∈ events, event.action ≠ .rejected → event.imsi ∉ banned) :
    { st with sessions := st.sessions.insert imsi session, clock := clock, events := events,
              settled := settled, replaced := replaced }.Excludes banned where
  blacklist := hst.blacklist
  keys := by
    intro key hmem
    rcases Finmap.mem_insert.mp hmem with rfl | hold
    · exact hfree
    · exact hst.keys key hold
  events := hevents

/-- A deed respects the blacklist if it leaves it alone and creates for free
subscribers only. -/
theorem change (hst : st.Excludes banned) (h : Change cfg st d st')
    (hfree : ∀ imsi, d = .create imsi → imsi ∉ banned)
    (hfixed : ∀ imsi, d ≠ .ban imsi ∧ d ≠ .unban imsi) : st'.Excludes banned := by
  cases h with
  | pass => exact ⟨hst.blacklist, hst.keys, hst.events⟩
  | reject => exact ⟨hst.blacklist, hst.keys, hst.emit _ fun hne => absurd rfl hne⟩
  | @create imsi stamp =>
      have hkey := hfree _ rfl
      exact hst.insert _ _ _ _ hkey (hst.emit ⟨imsi, .created, stamp⟩ fun _ => hkey)
  | refresh _ _ hpresent =>
      have hmem := Finmap.mem_of_lookup_eq_some hpresent
      exact hst.insert _ _ _ _ (hst.keys _ hmem) hst.events
  | touch _ hpresent =>
      have hmem := Finmap.mem_of_lookup_eq_some hpresent
      exact hst.insert _ _ _ _ (hst.keys _ hmem) hst.events
  | remove => exact hst.erase _ _ _ hst.events
  | @expire imsi stamp hpresent =>
      exact hst.erase _ _ _
        (hst.emit ⟨imsi, .timeout, stamp⟩ fun _ => hst.keys _ hpresent)
  | @drain imsi stamp hpresent =>
      exact hst.erase _ _ _
        (hst.emit ⟨imsi, .gracefulShutdown, stamp⟩ fun _ => hst.keys _ hpresent)
  | ban imsi => exact absurd rfl (hfixed imsi).1
  | unban imsi => exact absurd rfl (hfixed imsi).2

theorem changes (hst : st.Excludes banned) (h : Run (Change cfg) st ds st')
    (hfree : ∀ d ∈ ds, ∀ imsi, d = .create imsi → imsi ∉ banned)
    (hfixed : ∀ d ∈ ds, ∀ imsi, d ≠ .ban imsi ∧ d ≠ .unban imsi) : st'.Excludes banned := by
  refine h.invariant_of_labels (P := Store.Excludes banned)
    (Q := fun d => (∀ imsi, d = .create imsi → imsi ∉ banned) ∧
      ∀ imsi, d ≠ .ban imsi ∧ d ≠ .unban imsi) ?_ (fun d hd => ⟨hfree d hd, hfixed d hd⟩) hst
  exact fun _ _ _ hst hd hchange => hst.change hchange hd.1 hd.2

end Store.Excludes

/-! ## The manager -/

section Steps
variable {ι : Type} [Fintype ι] [DecidableEq ι] {cfg : Config} {s t : Manager ι} {l : Label ι}

/-- A call with an improper string does not reach the store. -/
theorem store_of_invalid {i : ι} {env : Ambient} {imsi : StdString}
    (h : Step cfg s (.thread i env) t) (hpc : s.threads i = .entered (.createSession imsi))
    (hinvalid : ¬ IMSI.Valid imsi) : t.store = s.store := by
  have hnext := (step_thread.mp h).2
  simp only [threadNext, hpc, firstSection, IMSI.ofString_raised hinvalid,
    Option.some.injEq] at hnext
  rw [← hnext]
  rfl

/-- The deeds of a step, refusals being for proper strings. -/
theorem step_changes_valid (h : Step cfg s l t) :
    ∃ ds, Run (Change cfg) s.store ds t.store ∧
      ∀ d ∈ ds, Permits s l d ∧ ∀ imsi, d = .reject imsi → IMSI.Valid imsi := by
  by_cases hinvalid : ∃ i env imsi, l = .thread i env ∧
      s.threads i = .entered (.createSession imsi) ∧ ¬ IMSI.Valid imsi
  · obtain ⟨i, env, imsi, rfl, hpc, hinvalid⟩ := hinvalid
    refine ⟨[], ?_, fun _ hmem => absurd hmem List.not_mem_nil⟩
    rw [store_of_invalid h hpc hinvalid]
    exact Run.nil _
  · obtain ⟨ds, hrun, hpermits⟩ := step_changes h
    refine ⟨ds, hrun, fun d hd => ⟨hpermits d hd, ?_⟩⟩
    rintro imsi rfl
    obtain ⟨i, env, hl, hpc⟩ := hpermits _ hd
    by_contra hnot
    exact hinvalid ⟨i, env, imsi, hl, hpc, hnot⟩

/-- The store is well formed, the strings between two sections are proper, and the readings
that are yet to be written are past. -/
structure Manager.WellFormed (s : Manager ι) : Prop where
  store : s.store.WellFormed
  checked : ∀ i imsi, s.threads i = .checked imsi → IMSI.Valid imsi
  touching : ∀ i imsi reading, s.threads i = .touching imsi reading → reading ≤ s.store.clock

theorem Manager.WellFormed.step (hs : s.WellFormed) (h : Step cfg s l t) : t.WellFormed := by
  constructor
  · obtain ⟨ds, hrun, hds⟩ := step_changes_valid h
    refine hs.store.changes hrun ?_ ?_
    · rintro d hd imsi (rfl | rfl)
      · obtain ⟨i, _, _, hpc⟩ := (hds _ hd).1
        exact hs.checked i imsi hpc
      · exact (hds _ hd).2 imsi rfl
    · rintro d hd imsi reading rfl
      obtain ⟨i, _, _, hpc⟩ := (hds _ hd).1
      exact hs.touching i imsi reading hpc
  · intro i imsi hpc
    rcases checked_of_step h hpc with ⟨hbefore, _⟩ | ⟨_, hvalid, _⟩
    · exact hs.checked i imsi hbefore
    · exact hvalid
  · intro i imsi reading hpc
    rcases touching_of_step h hpc with ⟨hbefore, _⟩ | ⟨_, _, hnow⟩
    · exact le_trans (hs.touching i imsi reading hbefore) (clock_of_step h)
    · exact hnow.le

theorem wellFormed_of_reaches (h : Reaches cfg s) : s.WellFormed := by
  refine h.invariant (P := Manager.WellFormed) ?_ fun _ _ _ hs hstep => hs.step hstep
  rintro s₀ ⟨clock, rfl⟩
  exact ⟨.initial cfg clock, by simp [Manager.initial], by simp [Manager.initial]⟩

/-- No call to change the blacklist begins. -/
def NoBlacklisting (_ : Manager ι) (l : Label ι) : Prop :=
  ∀ i imsi, l ≠ .call i (.addToBlacklist imsi) ∧ l ≠ .call i (.removeFromBlacklist imsi)

/-- The table respects the constructor's blacklist, and so do those about to enter it. -/
structure Manager.Excludes (banned : Finset StdString) (s : Manager ι) : Prop where
  store : s.store.Excludes banned
  checked : ∀ i imsi, s.threads i = .checked imsi → imsi ∉ banned
  fixed : ∀ i imsi, s.threads i ≠ .entered (.addToBlacklist imsi) ∧
    s.threads i ≠ .entered (.removeFromBlacklist imsi)

theorem Manager.Excludes.step {banned : Finset StdString} (hs : s.Excludes banned)
    (h : Step cfg s l t) (hl : NoBlacklisting s l) : t.Excludes banned := by
  constructor
  · obtain ⟨ds, hrun, hpermits⟩ := step_changes h
    refine hs.store.changes hrun ?_ ?_
    · rintro d hd imsi rfl
      obtain ⟨i, _, _, hpc⟩ := hpermits _ hd
      exact hs.checked i imsi hpc
    · intro d hd imsi
      constructor
      · rintro rfl
        obtain ⟨i, _, _, hpc⟩ := hpermits _ hd
        exact (hs.fixed i imsi).1 hpc
      · rintro rfl
        obtain ⟨i, _, _, hpc⟩ := hpermits _ hd
        exact (hs.fixed i imsi).2 hpc
  · intro i imsi hpc
    rcases checked_of_step h hpc with ⟨hbefore, _⟩ | ⟨_, _, hfree⟩
    · exact hs.checked i imsi hbefore
    · rwa [hs.store.blacklist] at hfree
  · intro i imsi
    constructor
    · intro hpc
      rcases entered_of_step h hpc with hbefore | hcall
      · exact (hs.fixed i imsi).1 hbefore
      · exact (hl i imsi).1 hcall
    · intro hpc
      rcases entered_of_step h hpc with hbefore | hcall
      · exact (hs.fixed i imsi).2 hbefore
      · exact (hl i imsi).2 hcall

theorem excludes_of_reachable (h : Reachable (Initial cfg) (only (Step cfg) NoBlacklisting) s) :
    s.Excludes cfg.blacklist := by
  refine h.invariant (P := Manager.Excludes cfg.blacklist) ?_ fun _ _ _ hs hstep =>
    hs.step hstep.1 hstep.2
  rintro s₀ ⟨clock, rfl⟩
  constructor
  · exact ⟨rfl, fun _ hmem => absurd hmem Finmap.notMem_empty, fun _ hmem => nomatch hmem⟩
  · simp [Manager.initial]
  · simp [Manager.initial]

end Steps

/-! ## What the callback is handed -/

/-- The same arguments with another callback. -/
def Config.withCallback (cfg : Config) (callback : SessionEventCallback) : Config :=
  { cfg with eventCallback := some callback }

/-- Every event that the next step may hand to the callback has the property. -/
structure Manager.Hands {ι : Type} (P : SessionEvent → Prop) (s : Manager ι) : Prop where
  ended : ∀ imsi ∈ s.store.sessions, ∀ action stamp, action ≠ .rejected → P ⟨imsi, action, stamp⟩
  created : ∀ i imsi, s.threads i = .checked imsi → ∀ stamp, P ⟨imsi, .created, stamp⟩
  rejected : ∀ imsi, IMSI.Valid imsi → ∀ stamp, P ⟨imsi, .rejected, stamp⟩

section Callback
variable {cfg : Config} {callback callback' : SessionEventCallback} {P : SessionEvent → Prop}

theorem expiredSessions_withCallback (now : ℤ) (order : List SessionEntry) :
    expiredSessions (cfg.withCallback callback') now order = expiredSessions cfg now order := by
  induction order with
  | nil => rfl
  | cons entry order ih =>
      simp only [expiredSessions, ih]
      rfl

variable (hcallback : cfg.eventCallback = some callback)
  (hagree : ∀ event, P event → callback' event = callback event)
include hcallback hagree

theorem emitEvent_withCallback (env : Ambient) {imsi : StdString} {action : SessionAction}
    (hP : ∀ stamp, P ⟨imsi, action, stamp⟩) (st : Store) :
    emitEvent (cfg.withCallback callback') env imsi action st =
      emitEvent cfg env imsi action st := by
  simp only [emitEvent, Config.withCallback, hcallback]
  rw [hagree _ (hP _)]

theorem cleanupErase_withCallback (env : Ambient) (now : ℤ) (expired : List StdString)
    {st : Store} (hkeys : ∀ imsi ∈ st.sessions, ∀ stamp, P ⟨imsi, .timeout, stamp⟩) :
    cleanupErase (cfg.withCallback callback') env now expired st =
      cleanupErase cfg env now expired st := by
  induction expired generalizing st with
  | nil => rfl
  | cons imsi expired ih =>
      rw [cleanupErase, cleanupErase]
      cases hlookup : st.sessions.lookup imsi with
      | none => exact ih hkeys
      | some session =>
          by_cases hexpired : Expired cfg now session
          · have hexpired' : Expired (cfg.withCallback callback') now session := hexpired
            have hP := hkeys imsi (Finmap.mem_of_lookup_eq_some hlookup)
            simp only [if_pos hexpired, if_pos hexpired']
            rw [emitEvent_withCallback hcallback hagree env hP]
            have hstore := emitEvent_store cfg env imsi .timeout
              { st with sessions := st.sessions.erase imsi }
            generalize emitEvent cfg env imsi .timeout
              { st with sessions := st.sessions.erase imsi } = emitted at hstore ⊢
            obtain ⟨_ | _ | _, st₁⟩ := emitted
            · refine ih fun key hmem => hkeys key ?_
              rw [show st₁ = _ from hstore] at hmem
              exact (Finmap.mem_erase.mp hmem).2
            · rfl
            · rfl
          · have hexpired' : ¬ Expired (cfg.withCallback callback') now session := hexpired
            simp only [if_neg hexpired, if_neg hexpired']
            exact ih hkeys

theorem firstSection_withCallback (env : Ambient) (c : Call) (st : Store)
    (hrejected : ∀ imsi, IMSI.Valid imsi → ∀ stamp, P ⟨imsi, .rejected, stamp⟩) :
    firstSection (cfg.withCallback callback') env c st = firstSection cfg env c st := by
  cases c with
  | createSession imsi =>
      cases hvalid : IMSI.ofString imsi with
      | returned imsiObj =>
          have himsi := IMSI.ofString_returned.mp hvalid
          have hP := hrejected imsi (himsi ▸ imsiObj.valid)
          simp only [firstSection, createSessionBlacklist,
            emitEvent_withCallback hcallback hagree env hP]
      | raised _ => simp only [firstSection, hvalid]
      | terminated => simp only [firstSection, hvalid]
  | _ => rfl

theorem shutdownErase_withCallback (env : Ambient) (imsi : StdString) {st : Store}
    (hkeys : ∀ imsi ∈ st.sessions, ∀ stamp, P ⟨imsi, .gracefulShutdown, stamp⟩) :
    shutdownErase (cfg.withCallback callback') env imsi st = shutdownErase cfg env imsi st := by
  cases hlookup : st.sessions.lookup imsi with
  | none => simp only [shutdownErase, hlookup]
  | some session =>
      have hP := hkeys imsi (Finmap.mem_of_lookup_eq_some hlookup)
      simp only [shutdownErase, hlookup, emitEvent_withCallback hcallback hagree env hP]

/-- Callbacks that agree on what they can be handed make the same step. -/
theorem next_withCallback {ι : Type} [Fintype ι] [DecidableEq ι] {s : Manager ι}
    (hs : s.Hands P) (l : Label ι) : next (cfg.withCallback callback') l s = next cfg l s := by
  cases l with
  | call i c => rfl
  | thread i env =>
      have hthread : threadNext (cfg.withCallback callback') i env s = threadNext cfg i env s := by
        cases hpc : s.threads i with
        | entered c =>
            simp only [threadNext, hpc,
              firstSection_withCallback hcallback hagree env c s.store hs.rejected]
        | checked imsi =>
            simp only [threadNext, hpc, createSessionTable,
              emitEvent_withCallback hcallback hagree env (hs.created i imsi hpc)]
        | _ => simp only [threadNext, hpc]
      simp only [next, hthread]
  | cleanup env =>
      have hcleanup : cleanupNext (cfg.withCallback callback') env s = cleanupNext cfg env s := by
        cases hpc : s.cleanup with
        | snapshot now => simp only [cleanupNext, hpc, expiredSessions_withCallback]
        | erase now expired =>
            have hkeys : ∀ imsi ∈ s.store.sessions, ∀ stamp, P ⟨imsi, .timeout, stamp⟩ :=
              fun imsi hmem stamp => hs.ended imsi hmem _ stamp (by decide)
            simp only [cleanupNext, hpc,
              cleanupErase_withCallback hcallback hagree env now expired hkeys]
        | _ => simp only [cleanupNext, hpc]
      simp only [next, hcleanup]
  | loop k env =>
      have hloop : loopNext (cfg.withCallback callback') k env s = loopNext cfg k env s := by
        cases hpc : s.loops k with
        | erase imsi =>
            have hkeys : ∀ imsi ∈ s.store.sessions, ∀ stamp, P ⟨imsi, .gracefulShutdown, stamp⟩ :=
              fun imsi hmem stamp => hs.ended imsi hmem _ stamp (by decide)
            simp only [loopNext, hpc, shutdownErase_withCallback hcallback hagree env imsi hkeys]
        | start =>
            simp only [loopNext, hpc]
            rfl
        | limit =>
            simp only [loopNext, hpc]
            rfl
        | _ => simp only [loopNext, hpc]
      simp only [next, hloop]
  | destroy => rfl

end Callback

/-! ## Runs -/

variable {ι : Type}

theorem Manager.WellFormed.hands {s : Manager ι} (hs : s.WellFormed) :
    s.Hands fun event => IMSI.Valid event.imsi where
  ended := fun _ hmem _ _ _ => hs.store.valid_of_mem hmem
  created := fun i imsi hpc _ => hs.checked i imsi hpc
  rejected := fun _ hvalid _ => hvalid

theorem Manager.Excludes.hands {s : Manager ι} {banned : Finset StdString}
    (hs : s.Excludes banned) :
    s.Hands fun event => event.action ≠ .rejected → event.imsi ∉ banned where
  ended := fun imsi hmem _ _ _ _ => hs.store.keys imsi hmem
  created := fun i imsi hpc _ _ => hs.checked i imsi hpc
  rejected := fun _ _ _ hne => absurd rfl hne

/-- A comma or a line end is no digit. -/
theorem not_separator_of_digit : ∀ c ∈ decimalDigits, c ∉ text ",\n" := by
  decide +kernel

/-- **What the table and the events are made of.** In every reachable state the
entries are those of checked subscribers with ordered time points, and so are the
events delivered and those the callback is handed next, delivered or not: what it
does with any other makes no difference. When nobody changes the blacklist, its
subscribers have no entry and no event but refusals. -/
theorem table_and_events [Fintype ι] [DecidableEq ι] {cfg : Config} :
    (∀ s : Manager ι, Reaches cfg s →
      (∀ imsi session, s.store.sessions.lookup imsi = some session →
        IMSI.Valid imsi ∧ session.imsi = imsi ∧ session.createdAt ≤ session.lastActivity ∧
          session.lastActivity ≤ s.store.clock) ∧
      (∀ event ∈ s.store.events,
        IMSI.Valid event.imsi ∧ ∀ c ∈ event.imsi, c ∉ text ",\n") ∧
      ∀ callback callback', cfg.eventCallback = some callback →
        (∀ event, IMSI.Valid event.imsi → callback' event = callback event) →
        ∀ l, next (cfg.withCallback callback') l s = next cfg l s) ∧
    ∀ s : Manager ι, Reachable (Initial cfg) (only (Step cfg) NoBlacklisting) s →
      (∀ imsi ∈ cfg.blacklist, imsi ∉ s.store.sessions ∧
        ∀ event ∈ s.store.events, event.imsi = imsi → event.action = .rejected) ∧
      ∀ callback callback', cfg.eventCallback = some callback →
        (∀ event, (event.action ≠ .rejected → event.imsi ∉ cfg.blacklist) →
          callback' event = callback event) →
        ∀ l, next (cfg.withCallback callback') l s = next cfg l s := by
  constructor
  · intro s hreach
    have hs := wellFormed_of_reaches hreach
    refine ⟨hs.store.entries, fun event hmem => ?_, ?_⟩
    · have hvalid := hs.store.events event hmem
      exact ⟨hvalid, fun c hc => not_separator_of_digit c (hvalid.2.2 c hc)⟩
    · intro callback callback' hcallback hagree l
      exact next_withCallback hcallback hagree hs.hands l
  · intro s hreach
    have hs := excludes_of_reachable hreach
    refine ⟨fun imsi hbanned => ⟨fun hmem => hs.store.keys imsi hmem hbanned, ?_⟩, ?_⟩
    · intro event hmem himsi
      by_contra hne
      exact hs.store.events event hmem hne (himsi ▸ hbanned)
    · intro callback callback' hcallback hagree l
      exact next_withCallback hcallback hagree hs.hands l

/-! A subscriber is served and a blacklisted one is refused. -/

private def guarded : Config := { sample with blacklist := {text "2"} }

private def guardedCalls : List (Label Caller) :=
  serve .first (.createSession (text "1")) 2 ++ serve .second (.createSession (text "2")) 1

private def guardedState : Manager Caller :=
  replayed (next guarded) guardedCalls (.initial guarded 0) (by decide +kernel)

theorem table_and_events_guarded :
    (∀ imsi session, guardedState.store.sessions.lookup imsi = some session →
        session.createdAt ≤ session.lastActivity) ∧
      text "2" ∉ guardedState.store.sessions := by
  have hrun : Run (Step guarded) (.initial guarded 0) guardedCalls guardedState :=
    run_replayed _ _ _ _
  have hcalls : ∀ l ∈ guardedCalls, ∀ s, NoBlacklisting s l := by
    intro l hl _ i imsi
    constructor <;> rintro rfl <;> simp [guardedCalls, serve] at hl
  constructor
  · intro imsi session hlookup
    exact ((table_and_events.1 guardedState ⟨_, _, ⟨0, rfl⟩, hrun⟩).1 imsi session hlookup).2.2.1
  · have hbanned : text "2" ∈ guarded.blacklist := by decide +kernel
    exact ((table_and_events.2 guardedState ⟨_, _, ⟨0, rfl⟩, hrun.only_of_forall hcalls⟩).1
      (text "2") hbanned).1

end Pgw.SessionManager
