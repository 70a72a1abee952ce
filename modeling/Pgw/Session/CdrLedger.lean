import Pgw.Lib.Ledger
import Pgw.Session.Changes
import Pgw.Session.Positions

/-!
# The events of a subscriber form a ledger

Seen as a book of accounts, the table is the set of open accounts and the
delivered events are the log: `CREATED` opens, `TIMEOUT` and `GRACEFUL_SHUTDOWN`
close, `REJECTED` is a remark. Both background threads choose their victims in
one section and erase in another, but the erasing section looks the key up again,
so every write is one the ledger machine allows. Only `remove_session` takes a
key out without an event, and the runs below do without it.
-/
namespace Pgw.SessionManager
open TransitionSystem Ledger

/-- The events of one subscriber, rejections left out. -/
def ledger (imsi : StdString) (events : List SessionEvent) : List SessionAction :=
  (events.filter fun e => e.imsi = imsi ∧ e.action ≠ .rejected).map SessionEvent.action

/-! ## The store as a book -/

def mark : SessionAction → Mark
  | .created => .opened
  | .rejected => .remark
  | .timeout => .closed
  | .gracefulShutdown => .closed

@[simp] theorem mark_eq_opened {action : SessionAction} :
    mark action = .opened ↔ action = .created := by
  cases action <;> simp [mark]

@[simp] theorem mark_eq_remark {action : SessionAction} :
    mark action = .remark ↔ action = .rejected := by
  cases action <;> simp [mark]

def line (event : SessionEvent) : StdString × Mark := (event.imsi, mark event.action)

def book (st : Store) : Book StdString := ⟨st.sessions.keys, st.events.map line⟩

theorem history_book (imsi : StdString) (st : Store) :
    history imsi (book st).log = (ledger imsi st.events).map mark := by
  have hlines : ∀ e ∈ st.events, decide ((line e).1 = imsi ∧ (line e).2 ≠ .remark) =
      decide (e.imsi = imsi ∧ e.action ≠ .rejected) := by
    intro e _
    simp [line]
  simp only [history, book, ledger, List.filter_map, List.map_map, Function.comp_def]
  rw [List.filter_congr hlines]
  rfl

/-- Every deed but a manual removal is written in the book. -/
theorem Change.book {cfg : Config} (hcfg : cfg.Delivers) {st st' : Store} {d : Deed}
    (h : Change cfg st d st') (hd : ∀ imsi, d ≠ .remove imsi) :
    ∃ tr, Run Write (book st) tr (book st') := by
  cases h with
  | pass => exact ⟨[], Run.nil _⟩
  | @reject imsi stamp =>
      refine ⟨[(imsi, .remark)], Run.single ?_⟩
      simpa [SessionManager.book, hcfg.delivered, line, mark] using
        Write.remark (b := SessionManager.book st) (k := imsi)
  | @create imsi stamp _ _ habsent =>
      refine ⟨[(imsi, .opened)], Run.single ?_⟩
      have hclosed : imsi ∉ (SessionManager.book st).accounts := by
        simpa [SessionManager.book, Finmap.mem_keys] using habsent
      simpa [SessionManager.book, hcfg.delivered, line, mark, keys_insert] using
        Write.opened hclosed
  | refresh _ _ hpresent =>
      refine ⟨[], ?_⟩
      simp only [SessionManager.book, keys_insert_of_lookup hpresent]
      exact Run.nil _
  | touch _ hpresent =>
      refine ⟨[], ?_⟩
      simp only [SessionManager.book, keys_insert_of_lookup hpresent]
      exact Run.nil _
  | @remove imsi => exact absurd rfl (hd imsi)
  | @expire imsi stamp hpresent =>
      refine ⟨[(imsi, .closed)], Run.single ?_⟩
      have hopen : imsi ∈ (SessionManager.book st).accounts := by
        simpa [SessionManager.book, Finmap.mem_keys] using hpresent
      simpa [SessionManager.book, hcfg.delivered, line, mark, Finmap.keys_erase] using
        Write.closed hopen
  | @drain imsi stamp hpresent =>
      refine ⟨[(imsi, .closed)], Run.single ?_⟩
      have hopen : imsi ∈ (SessionManager.book st).accounts := by
        simpa [SessionManager.book, Finmap.mem_keys] using hpresent
      simpa [SessionManager.book, hcfg.delivered, line, mark, Finmap.keys_erase] using
        Write.closed hopen
  | ban => exact ⟨[], Run.nil _⟩
  | unban => exact ⟨[], Run.nil _⟩

theorem book_of_run {cfg : Config} (hcfg : cfg.Delivers) {st st' : Store} {ds : List Deed}
    (h : Run (Change cfg) st ds st') (hds : ∀ d ∈ ds, ∀ imsi, d ≠ .remove imsi) :
    ∃ tr, Run Write (book st) tr (book st') := by
  induction h with
  | nil => exact ⟨[], Run.nil _⟩
  | snoc _ hlast ih =>
      obtain ⟨tr, hrun⟩ := ih fun d hd => hds d (by simp [hd])
      obtain ⟨tr', hrun'⟩ := hlast.book hcfg (hds _ (by simp))
      exact ⟨tr ++ tr', hrun.append hrun'⟩

/-! ## The manager refines the ledger machine -/

variable {ι : Type} [Fintype ι] [DecidableEq ι] {cfg : Config}

/-- No call to `remove_session` begins. -/
def NoRemoval (_ : Manager ι) (l : Label ι) : Prop := ∀ i imsi, l ≠ .call i (.removeSession imsi)

theorem not_removing {s : Manager ι}
    (h : Reachable (Initial cfg) (only (Step cfg) NoRemoval) s) (imsi : StdString) :
    ∀ i, s.threads i ≠ .entered (.removeSession imsi) := by
  obtain ⟨s₀, tr, ⟨clock, rfl⟩, hrun⟩ := h
  have hcalls : Run (only (Step cfg) fun _ l => ∀ i, l ≠ .call i (.removeSession imsi))
      (Manager.initial cfg clock) tr s :=
    hrun.mono fun _ _ _ hstep => ⟨hstep.1, fun i => hstep.2 i imsi⟩
  exact not_entered_of_run hcalls fun i => by simp [Manager.initial]

theorem refines_ledger (hcfg : cfg.Delivers) :
    WeakSimulation (Initial cfg) (only (Step cfg) NoRemoval) Fresh Write
      (fun s : Manager ι => book s.store) where
  starts := by
    rintro s ⟨clock, rfl⟩
    exact ⟨rfl, rfl⟩
  follows := by
    intro s l t hreach hstep
    obtain ⟨ds, hrun, hpermits⟩ := step_changes hstep.1
    refine book_of_run hcfg hrun ?_
    rintro d hd imsi rfl
    obtain ⟨i, _, _, hpc⟩ := hpermits _ hd
    exact not_removing hreach imsi i hpc

/-- **The CDR ledger.** In every run without manual removals the events of a
subscriber alternate between `CREATED` and an end, beginning with `CREATED`, and
the subscriber is in the table exactly when the last of them is `CREATED`. -/
theorem events_alternate (hcfg : cfg.Delivers) {s : Manager ι}
    (h : Reachable (Initial cfg) (only (Step cfg) NoRemoval) s) (imsi : StdString) :
    (∀ i (hi : i < (ledger imsi s.store.events).length),
      (Even i → (ledger imsi s.store.events)[i] = .created) ∧
      (¬ Even i → (ledger imsi s.store.events)[i] = .timeout ∨
        (ledger imsi s.store.events)[i] = .gracefulShutdown)) ∧
    (imsi ∈ s.store.sessions ↔ (ledger imsi s.store.events).getLast? = some .created) := by
  obtain ⟨halt, hmem⟩ := reachable_balanced ((refines_ledger hcfg).reachable h) imsi
  rw [history_book] at halt hmem
  constructor
  · intro i hi
    have hopens := halt i (by simpa using hi)
    simp only [List.getElem_map, mark_eq_opened] at hopens
    refine ⟨hopens.mpr, fun hodd => ?_⟩
    have hcreated := mt hopens.mp hodd
    have hrejected : (ledger imsi s.store.events)[i] ≠ .rejected := by
      obtain ⟨e, he, haction⟩ := List.mem_map.mp (List.getElem_mem hi)
      rw [← haction]
      exact (of_decide_eq_true (List.mem_filter.mp he).2).2
    cases haction : (ledger imsi s.store.events)[i] <;> simp_all
  · have hkey : imsi ∈ (book s.store).accounts ↔ imsi ∈ s.store.sessions := Finmap.mem_keys
    rw [← hkey, hmem, EndsOpen]
    simp [List.getLast?_map]

/-- A session is created and expires thirty seconds later. -/
private def creationAndTimeout : List (Label Caller) :=
  serve .first (.createSession (text "1")) 2 ++
    [.cleanup (after 30 []),
      .cleanup (after 0 [⟨text "1", ⟨text "1", 0, 0⟩⟩]), .cleanup (after 0 [])]

theorem events_alternate_timeout :
    text "1" ∉ (play creationAndTimeout (by decide +kernel)).store.sessions := by
  have hnoremoval : ∀ l ∈ creationAndTimeout, ∀ s, NoRemoval s l := by
    rintro l hl _ i imsi rfl
    simp [creationAndTimeout, serve] at hl
  have hreach : Reachable (Initial sample) (only (Step sample) NoRemoval)
      (play creationAndTimeout (by decide +kernel)) :=
    ⟨_, _, ⟨0, rfl⟩, (run_play creationAndTimeout (by decide +kernel)).only_of_forall hnoremoval⟩
  rw [(events_alternate sample_delivers hreach (text "1")).2]
  decide +kernel

end Pgw.SessionManager
