import Mathlib.Data.Multiset.AddSub
import Pgw.Lib.Custody
import Pgw.UniqueFd.Model

/-!
# Every descriptor has one owner

Handles are places of a custody, and so are the past calls of `release` and of
`close`. An operation hands over one descriptor at most, with the exception of a move
between two handles that both have one: it first closes, then hands over, and is the
one move after the other.

A handle cannot tell a stale number from a good one. What keeps it from closing a
descriptor that the kernel has given out again is that its number is always open, and
always stands for a descriptor opened for a handle; that no other handle has the same
number then follows from the custody.

## Main results

* `refines_custody` — the operations hand descriptors over.
* `owned_of_reaches` — one owner each, and no handle closes what is not its own.
-/
namespace Pgw.UniqueFd
open TransitionSystem
open Custody (run_of_eq run_of_deal)

variable {η : Type}

/-! ## Places -/

inductive Place (η : Type) where
  | handle (h : η)
  | released
  | closed
  deriving DecidableEq

/-- The descriptor that a handle holds, if it is alive and not empty. -/
def Process.serials (p : Process η) (h : η) : List ℕ :=
  match p.handles h with
  | some fd => p.serialAt fd
  | none => []

def held (p : Process η) : Place η → Multiset ℕ
  | .handle h => ↑(p.serials h)
  | .released => ↑p.released
  | .closed => ↑p.closed

/-- The process as a custody of descriptors. -/
def custody (p : Process η) : Custody.Holdings (Place η) := ⟨held p, p.arrived⟩

/-- The number of a handle is open, for a handle, and so was every number that a handle
has closed. -/
structure Sound (p : Process η) : Prop where
  negative : ∀ fd < 0, p.table fd = none
  isOpen : ∀ h fd, p.handles h = some fd → 0 ≤ fd → ∃ serial, p.table fd = some (.adopted serial)
  closes : ∀ call ∈ p.closes, 0 ≤ call.fd →
    call.held = some call.fd ∧ ∃ serial, call.found = some (.adopted serial)

/-! ## What a number stands for -/

section
variable {p : Process η} {h h' : η} {fd : ℤ} {serial : ℕ}

theorem serialAt_of_adopted (ht : p.table fd = some (.adopted serial)) :
    p.serialAt fd = [serial] := by
  rw [Process.serialAt, ht]

theorem serialAt_of_none (ht : p.table fd = none) : p.serialAt fd = [] := by
  rw [Process.serialAt, ht]

theorem serials_of_some (hh : p.handles h = some fd) : p.serials h = p.serialAt fd := by
  rw [Process.serials, hh]

theorem serials_of_none (hh : p.handles h = none) : p.serials h = [] := by
  rw [Process.serials, hh]

theorem serialAt_congr {q : Process η} (ht : q.table fd = p.table fd) :
    q.serialAt fd = p.serialAt fd := by
  rw [Process.serialAt, Process.serialAt, ht]

theorem Sound.serialAt_negative (hp : Sound p) (hfd : fd < 0) : p.serialAt fd = [] :=
  serialAt_of_none (hp.negative fd hfd)

/-- A handle is empty, or it holds the descriptor under its number. -/
theorem Sound.serials_cases (hp : Sound p) (hh : p.handles h = some fd) :
    fd < 0 ∧ p.serials h = [] ∨
      0 ≤ fd ∧ ∃ serial, p.table fd = some (.adopted serial) ∧ p.serials h = [serial] := by
  rw [serials_of_some hh]
  by_cases hfd : 0 ≤ fd
  · obtain ⟨serial, ht⟩ := hp.isOpen h fd hh hfd
    exact Or.inr ⟨hfd, serial, ht, serialAt_of_adopted ht⟩
  · have hneg : fd < 0 := Int.not_le.mp hfd
    exact Or.inl ⟨hneg, hp.serialAt_negative hneg⟩

/-- Two handles with one number would be two places of one descriptor. -/
theorem handles_unique (hp : Sound p) (hc : Custody.Exclusive (custody p)) (hfd : 0 ≤ fd)
    (hh : p.handles h = some fd) (hh' : p.handles h' = some fd) : h = h' := by
  obtain ⟨serial, ht⟩ := hp.isOpen h fd hh hfd
  have hmem : ∀ k, p.handles k = some fd → serial ∈ (custody p).held (.handle k) := by
    intro k hk
    simp [custody, held, serials_of_some hk, serialAt_of_adopted ht]
  exact Place.handle.inj (hc.apart _ _ serial (hmem h hh) (hmem h' hh'))

theorem custody_congr {q : Process η} (hserials : ∀ h, q.serials h = p.serials h)
    (hreleased : q.released = p.released) (hclosed : q.closed = p.closed)
    (harrived : q.arrived = p.arrived) : custody q = custody p := by
  have hheld : held q = held p := by
    funext r
    cases r with
    | handle h => rw [held, held, hserials]
    | released => rw [held, held, hreleased]
    | closed => rw [held, held, hclosed]
  rw [custody, custody, hheld, harrived]

end

/-! ## The moves -/

section
variable {p : Process η} {h : η} {fd : ℤ}

/-- The values of `fd_` that hold nothing: no object, or −1. -/
def Vacant (v : Option ℤ) : Prop := v = none ∨ v = some (-1)

theorem Vacant.ne_some {v : Option ℤ} (hv : Vacant v) (hfd : 0 ≤ fd) : v ≠ some fd := by
  rintro rfl
  obtain hv | hv := hv
  · cases hv
  · cases hv
    exact absurd hfd (by decide)

theorem Sound.serials_vacant (hp : Sound p) (hv : Vacant (p.handles h)) : p.serials h = [] := by
  obtain hv | hv := hv
  · exact serials_of_none hv
  · rw [serials_of_some hv]
    exact hp.serialAt_negative (by decide)

/-- What a handle holds depends on its own number only. -/
theorem serials_congr {q : Process η} (hhandle : q.handles h = p.handles h)
    (htable : ∀ fd, p.handles h = some fd → q.table fd = p.table fd) :
    q.serials h = p.serials h := by
  cases hh : p.handles h with
  | none => rw [serials_of_none hh, serials_of_none (hhandle.trans hh)]
  | some fd =>
      rw [serials_of_some hh, serials_of_some (hhandle.trans hh), serialAt_congr (htable fd hh)]

/-- What the handle holds goes to another place, and to no other. If it holds nothing,
nothing moves. -/
theorem run_hand {q : Process η} (hp : Sound p) (hh : p.handles h = some fd) (place : Place η)
    (hne : place ≠ .handle h) (hgives : q.serials h = [])
    (htakes : held q place = held p place + (p.serialAt fd : Multiset ℕ))
    (hothers : ∀ r, r ≠ .handle h → r ≠ place → held q r = held p r)
    (harrived : q.arrived = p.arrived) :
    ∃ deals, Run Custody.Step (custody p) deals (custody q) := by
  obtain ⟨hneg, hempty⟩ | ⟨-, serial, ht, hserial⟩ := hp.serials_cases hh
  · have hheld : held q = held p := by
      funext r
      by_cases hr : r = .handle h
      · rw [hr, held, held, hgives, hempty]
      · by_cases hrp : r = place
        · rw [hrp, htakes, hp.serialAt_negative hneg, Multiset.coe_nil, Multiset.add_zero]
        · exact hothers r hr hrp
    exact run_of_eq (by rw [custody, custody, hheld, harrived])
  · refine run_of_deal (.hand (.handle h) place serial hne.symm ?_ ?_ hothers harrived)
    · simp [custody, held, hgives, hserial]
    · rw [serialAt_of_adopted ht, Multiset.coe_singleton, Multiset.add_comm,
        Multiset.singleton_add] at htakes
      exact htakes

/-! ## A handle closes its own number -/

variable [DecidableEq η] {v : Option ℤ}

/-- Whatever another handle has is open still. -/
theorem close_table_of_handle (hp : Sound p) (hc : Custody.Exclusive (custody p))
    (hh : p.handles h = some fd) {k : η} (hk : k ≠ h) {fd' : ℤ} (hfd' : p.handles k = some fd') :
    ((p.close h fd).put h v).table fd' = p.table fd' := by
  by_cases heq : fd' = fd
  · subst heq
    have hneg : fd' < 0 := by
      by_contra hnonneg
      exact hk (handles_unique hp hc (Int.not_lt.mp hnonneg) hfd' hh)
    simp [hp.negative fd' hneg]
  · simp [heq]

theorem Sound.close (hp : Sound p) (hc : Custody.Exclusive (custody p))
    (hh : p.handles h = some fd) (hv : Vacant v) : Sound ((p.close h fd).put h v) := by
  refine ⟨fun fd' hfd' => ?_, fun k fd' hk hfd' => ?_, fun call hcall hfd' => ?_⟩
  · by_cases heq : fd' = fd
    · simp [heq]
    · simpa [heq] using hp.negative fd' hfd'
  · have hkh : k ≠ h := by
      rintro rfl
      rw [put_handles_self] at hk
      exact hv.ne_some hfd' hk
    rw [put_handles_of_ne _ hkh, close_handles] at hk
    rw [close_table_of_handle hp hc hh hkh hk]
    exact hp.isOpen k fd' hk hfd'
  · rw [put_closes, close_closes, List.mem_append, List.mem_singleton] at hcall
    obtain hcall | rfl := hcall
    · exact hp.closes call hcall hfd'
    · exact ⟨hh, hp.isOpen h fd hh hfd'⟩

/-- The descriptor goes from the handle to the closed ones; the call fails on a
negative number, under which nothing is open. -/
theorem run_close (hp : Sound p) (hc : Custody.Exclusive (custody p))
    (hh : p.handles h = some fd) (hv : Vacant v) :
    ∃ deals, Run Custody.Step (custody p) deals (custody ((p.close h fd).put h v)) := by
  have hself : ((p.close h fd).put h v).serials h = [] :=
    (hp.close hc hh hv).serials_vacant (by rwa [put_handles_self])
  have hothers : ∀ k, k ≠ h → ((p.close h fd).put h v).serials k = p.serials k := by
    intro k hk
    exact serials_congr (put_handles_of_ne _ hk) fun fd' => close_table_of_handle hp hc hh hk
  have hclosed : held ((p.close h fd).put h v) .closed = ↑(p.closed ++ p.serialAt fd) := rfl
  refine run_hand hp hh .closed (by simp) hself ?_ ?_ rfl
  · rw [hclosed, ← Multiset.coe_add]
    rfl
  · intro r hr hrclosed
    cases r with
    | handle k => simp only [held, hothers k fun heq => hr (heq ▸ rfl)]
    | released => rfl
    | closed => exact absurd rfl hrclosed

/-! ## A handle takes over from another -/

variable {other : η} {theirs : ℤ}

theorem Sound.moveConstruct (hp : Sound p) (ho : p.handles other = some theirs)
    (hne : h ≠ other) : Sound (p.moveConstruct h other theirs) := by
  refine ⟨hp.negative, fun k fd' hk hfd' => ?_, hp.closes⟩
  rw [Process.moveConstruct] at hk
  by_cases hkh : k = h
  · subst hkh
    rw [put_handles_self, Option.some.injEq] at hk
    subst hk
    exact hp.isOpen other theirs ho hfd'
  · rw [put_handles_of_ne _ hkh] at hk
    by_cases hko : k = other
    · subst hko
      rw [put_handles_self] at hk
      exact absurd hk (Vacant.ne_some (Or.inr rfl) hfd')
    · rw [put_handles_of_ne _ hko] at hk
      exact hp.isOpen k fd' hk hfd'

/-- The receiving handle is not alive yet, or it has been emptied before. -/
theorem run_moveConstruct (hp : Sound p) (ho : p.handles other = some theirs) (hne : h ≠ other)
    (hv : Vacant (p.handles h)) :
    ∃ deals, Run Custody.Step (custody p) deals (custody (p.moveConstruct h other theirs)) := by
  have hempty := hp.serials_vacant hv
  have hself : (p.moveConstruct h other theirs).serials h = p.serials other := by
    rw [serials_of_some ho]
    exact serials_of_some (put_handles_self _)
  have hother : (p.moveConstruct h other theirs).serials other = [] := by
    apply (hp.moveConstruct ho hne).serials_vacant
    rw [Process.moveConstruct, put_handles_of_ne _ hne.symm, put_handles_self]
    exact Or.inr rfl
  have hothers : ∀ k, k ≠ h → k ≠ other →
      (p.moveConstruct h other theirs).serials k = p.serials k := by
    intro k hkh hko
    refine serials_congr ?_ fun _ _ => rfl
    rw [Process.moveConstruct, put_handles_of_ne _ hkh, put_handles_of_ne _ hko]
  refine run_hand hp ho (.handle h) (fun heq => hne (Place.handle.inj heq)) hother ?_ ?_ rfl
  · rw [held, held, hself, hempty, serials_of_some ho, Multiset.coe_nil, Multiset.zero_add]
  · intro r hro hrh
    cases r with
    | handle k =>
        have hkh : k ≠ h := fun heq => hrh (heq ▸ rfl)
        have hko : k ≠ other := fun heq => hro (heq ▸ rfl)
        simp only [held, hothers k hkh hko]
    | released => rfl
    | closed => rfl

/-- **A move assignment is a close and a take-over.** The other handle is emptied before
the own number is closed, which makes no difference to two different handles. -/
theorem moveAssign_eq (hne : h ≠ other) :
    p.moveAssign h other fd theirs =
      ((p.close h fd).put h (some (-1))).moveConstruct h other theirs := by
  rw [Process.moveAssign, if_pos hne, Process.reset, Process.moveConstruct]
  have hhandles : Function.update (Function.update p.handles other (some (-1))) h (some theirs) =
      Function.update (Function.update (Function.update p.handles h (some (-1))) other
        (some (-1))) h (some theirs) := by
    rw [Function.update_comm hne.symm, Function.update_comm hne.symm, Function.update_idem]
  simp only [Process.put, Process.close, Function.update_of_ne hne, hhandles]
  rfl

/-! ## The other operations -/

/-- A handle that is emptied leaves the other handles as they are. -/
theorem Sound.put (hp : Sound p) (hv : Vacant v) : Sound (p.put h v) := by
  refine ⟨hp.negative, fun k fd' hk hfd' => ?_, hp.closes⟩
  by_cases hkh : k = h
  · subst hkh
    rw [put_handles_self] at hk
    exact absurd hk (hv.ne_some hfd')
  · rw [put_handles_of_ne _ hkh] at hk
    exact hp.isOpen k fd' hk hfd'

/-- A handle that was empty already may come into being and go. -/
theorem custody_put (hp : Sound p) (hempty : p.serials h = []) (hv : Vacant v) :
    custody (p.put h v) = custody p := by
  refine custody_congr (fun k => ?_) rfl rfl rfl
  by_cases hkh : k = h
  · subst hkh
    rw [hempty]
    exact (hp.put hv).serials_vacant (by rwa [put_handles_self])
  · exact serials_congr (put_handles_of_ne _ hkh) fun _ _ => rfl

theorem Sound.release (hp : Sound p) : Sound (p.release h fd) := by
  have hput : Sound (p.put h (some (-1))) := hp.put (Or.inr rfl)
  exact ⟨hput.negative, hput.isOpen, hput.closes⟩

theorem run_release (hp : Sound p) (hh : p.handles h = some fd) :
    ∃ deals, Run Custody.Step (custody p) deals (custody (p.release h fd)) := by
  have hself : (p.release h fd).serials h = [] :=
    hp.release.serials_vacant (Or.inr (put_handles_self (p := p) _))
  have hothers : ∀ k, k ≠ h → (p.release h fd).serials k = p.serials k := by
    intro k hk
    exact serials_congr (put_handles_of_ne (p := p) _ hk) fun _ _ => rfl
  have hreleased : held (p.release h fd) .released = ↑(p.released ++ p.serialAt fd) := rfl
  refine run_hand hp hh .released (by simp) hself ?_ ?_ rfl
  · rw [hreleased, ← Multiset.coe_add]
    rfl
  · intro r hr hrreleased
    cases r with
    | handle k => simp only [held, hothers k fun heq => hr (heq ▸ rfl)]
    | released => exact absurd rfl hrreleased
    | closed => rfl

omit [DecidableEq η] in
/-- No handle has a number that is not open. -/
theorem Sound.handles_ne (hp : Sound p) (hnonneg : 0 ≤ fd) (hfresh : p.table fd = none) (k : η) :
    p.handles k ≠ some fd := by
  intro hk
  obtain ⟨serial, ht⟩ := hp.isOpen k fd hk hnonneg
  rw [hfresh] at ht
  cases ht

theorem Sound.adopt (hp : Sound p) (hh : p.handles h = none) (hnonneg : 0 ≤ fd)
    (hfresh : p.table fd = none) : Sound ((p.adopt fd).put h (some fd)) := by
  refine ⟨fun fd' hfd' => ?_, fun k fd' hk hfd' => ?_, hp.closes⟩
  · have hne : fd' ≠ fd := by omega
    simpa [Process.adopt, hne] using hp.negative fd' hfd'
  · by_cases hkh : k = h
    · subst hkh
      rw [put_handles_self, Option.some.injEq] at hk
      subst hk
      exact ⟨p.arrived, by simp [Process.adopt]⟩
    · rw [put_handles_of_ne _ hkh] at hk
      have hne : fd' ≠ fd := fun heq => hp.handles_ne hnonneg hfresh k (heq ▸ hk)
      obtain ⟨serial, ht⟩ := hp.isOpen k fd' hk hfd'
      exact ⟨serial, by simpa [Process.adopt, hne] using ht⟩

/-- What the kernel has just opened goes to the new handle. -/
theorem run_adopt (hp : Sound p) (hh : p.handles h = none) (hnonneg : 0 ≤ fd)
    (hfresh : p.table fd = none) :
    ∃ deals, Run Custody.Step (custody p) deals (custody ((p.adopt fd).put h (some fd))) := by
  refine run_of_deal (.arrive (.handle h) ?_ (fun r hr => ?_) rfl)
  · have ht : ((p.adopt fd).put h (some fd)).table fd = some (.adopted p.arrived) := by
      simp [Process.adopt]
    simp [custody, held, serials_of_some (put_handles_self _), serialAt_of_adopted ht,
      serials_of_none hh]
  · cases r with
    | handle k =>
        have hk : k ≠ h := fun heq => hr (heq ▸ rfl)
        have hserials : ((p.adopt fd).put h (some fd)).serials k = p.serials k := by
          refine serials_congr (put_handles_of_ne _ hk) fun fd' hfd' => ?_
          have hne : fd' ≠ fd := fun heq => hp.handles_ne hnonneg hfresh k (heq ▸ hfd')
          simp [Process.adopt, hne]
        simp only [custody, held, hserials]
    | released => rfl
    | closed => rfl

omit [DecidableEq η] in
/-- The kernel opens or closes a number that no handle has. -/
theorem Sound.setTable (hp : Sound p) (hnonneg : 0 ≤ fd) (hnone : ∀ k, p.handles k ≠ some fd)
    (owner : Option Owner) :
    Sound { p with table := Function.update p.table fd owner } := by
  refine ⟨fun fd' hfd' => ?_, fun k fd' hk hfd' => ?_, hp.closes⟩
  · have hne : fd' ≠ fd := by omega
    simpa [hne] using hp.negative fd' hfd'
  · have hne : fd' ≠ fd := fun heq => hnone k (heq ▸ hk)
    simpa [hne] using hp.isOpen k fd' hk hfd'

omit [DecidableEq η] in
theorem custody_setTable (hnone : ∀ k, p.handles k ≠ some fd) (owner : Option Owner) :
    custody { p with table := Function.update p.table fd owner } = custody p := by
  refine custody_congr (fun k => serials_congr rfl fun fd' hfd' => ?_) rfl rfl rfl
  have hne : fd' ≠ fd := fun heq => hnone k (heq ▸ hfd')
  simp [hne]

omit [DecidableEq η] in
/-- What the rest of the process may close, no handle has: it is foreign, or released. -/
theorem handles_ne_of_mayClose (hp : Sound p) (hc : Custody.Exclusive (custody p))
    (hmay : p.mayClose fd = true) : 0 ≤ fd ∧ ∀ k, p.handles k ≠ some fd := by
  have hnonneg : 0 ≤ fd := by
    by_contra hneg
    rw [Process.mayClose, hp.negative fd (Int.not_le.mp hneg)] at hmay
    cases hmay
  refine ⟨hnonneg, fun k hk => ?_⟩
  obtain ⟨serial, ht⟩ := hp.isOpen k fd hk hnonneg
  rw [Process.mayClose, ht] at hmay
  have hheld : serial ∈ (custody p).held (.handle k) := by
    simp [custody, held, serials_of_some hk, serialAt_of_adopted ht]
  have hreleased : serial ∈ (custody p).held .released := by
    simpa [custody, held] using hmay
  cases hc.apart _ _ serial hheld hreleased

/-! ## Every operation -/

/-- An assignment to itself changes nothing, and any other one first closes. -/
theorem deals_of_moveAssign (hp : Sound p) (hc : Custody.Exclusive (custody p)) {mine : ℤ}
    (hh : p.handles h = some mine) (ho : p.handles other = some theirs) :
    Sound (p.moveAssign h other mine theirs) ∧
      ∃ deals, Run Custody.Step (custody p) deals (custody (p.moveAssign h other mine theirs)) := by
  by_cases hne : h = other
  · subst hne
    rw [Process.moveAssign, if_neg (not_not_intro rfl)]
    exact ⟨hp, run_of_eq rfl⟩
  · have hv : Vacant (some (-1 : ℤ)) := Or.inr rfl
    have hp' := hp.close hc hh hv
    have ho' : ((p.close h mine).put h (some (-1))).handles other = some theirs := by
      rw [put_handles_of_ne _ (Ne.symm hne), close_handles, ho]
    obtain ⟨deals, hclose⟩ := run_close hp hc hh hv
    obtain ⟨deals', hmove⟩ := run_moveConstruct hp' ho' hne
      (by rw [put_handles_self]; exact hv)
    rw [moveAssign_eq hne]
    exact ⟨hp'.moveConstruct ho' hne, _, hclose.append hmove⟩

/-- The destructor closes, unless the handle is empty. -/
theorem deals_of_destroy (hp : Sound p) (hc : Custody.Exclusive (custody p))
    (hh : p.handles h = some fd) :
    Sound (p.destroy h fd) ∧
      ∃ deals, Run Custody.Step (custody p) deals (custody (p.destroy h fd)) := by
  have hv : Vacant none := Or.inl rfl
  rw [Process.destroy]
  split
  case isTrue => exact ⟨hp.close hc hh hv, run_close hp hc hh hv⟩
  case isFalse hneg =>
    have hempty : p.serials h = [] := by
      rw [serials_of_some hh]
      exact hp.serialAt_negative (Int.not_le.mp hneg)
    exact ⟨hp.put hv, run_of_eq (custody_put hp hempty hv)⟩

/-- A sound process stays sound, and hands its descriptors over. -/
theorem deals_of_next {op : Op η} {q : Process η} (hp : Sound p)
    (hc : Custody.Exclusive (custody p)) (hnext : next op p = some q) :
    Sound q ∧ ∃ deals, Run Custody.Step (custody p) deals (custody q) := by
  cases op with
  | construct h fd =>
      rw [next] at hnext
      split at hnext
      case isFalse => cases hnext
      rename_i hh
      split at hnext
      case isTrue hfd =>
        cases hnext
        have hv : Vacant (some fd) := Or.inr (congrArg some hfd)
        exact ⟨hp.put hv, run_of_eq (custody_put hp (serials_of_none hh) hv)⟩
      case isFalse hfd =>
        split at hnext
        case isTrue hopen =>
          cases hnext
          exact ⟨hp.adopt hh hopen.1 hopen.2, run_adopt hp hh hopen.1 hopen.2⟩
        case isFalse => cases hnext
  | moveConstruct h other =>
      rw [next] at hnext
      split at hnext
      case h_2 => cases hnext
      rename_i theirs hh ho
      cases hnext
      have hne : h ≠ other := by
        rintro rfl
        rw [hh] at ho
        cases ho
      exact ⟨hp.moveConstruct ho hne, run_moveConstruct hp ho hne (Or.inl hh)⟩
  | moveAssign h other =>
      rw [next] at hnext
      split at hnext
      case h_2 => cases hnext
      rename_i mine theirs hh ho
      cases hnext
      exact deals_of_moveAssign hp hc hh ho
  | release h =>
      obtain ⟨mine, hh, rfl⟩ := Option.map_eq_some_iff.mp hnext
      exact ⟨hp.release, run_release hp hh⟩
  | destroy h =>
      obtain ⟨mine, hh, rfl⟩ := Option.map_eq_some_iff.mp hnext
      exact deals_of_destroy hp hc hh
  | openElsewhere fd =>
      rw [next] at hnext
      split at hnext
      case isFalse => cases hnext
      rename_i hopen
      cases hnext
      have hnone := hp.handles_ne hopen.1 hopen.2
      exact ⟨hp.setTable hopen.1 hnone _, run_of_eq (custody_setTable hnone _)⟩
  | closeElsewhere fd =>
      rw [next] at hnext
      split at hnext
      case isFalse => cases hnext
      rename_i hmay
      cases hnext
      obtain ⟨hnonneg, hnone⟩ := handles_ne_of_mayClose hp hc hmay
      exact ⟨hp.setTable hnonneg hnone _, run_of_eq (custody_setTable hnone _)⟩

end

/-! ## Ownership -/

/-- The handle is alive and its number stands for this adopted descriptor. -/
def Process.Holds (p : Process η) (h : η) (serial : ℕ) : Prop :=
  ∃ fd, 0 ≤ fd ∧ p.handles h = some fd ∧ p.table fd = some (.adopted serial)

theorem Sound.holds_iff {p : Process η} (hp : Sound p) {h : η} {serial : ℕ} :
    p.Holds h serial ↔ serial ∈ p.serials h := by
  constructor
  · rintro ⟨fd, -, hh, ht⟩
    simp [serials_of_some hh, serialAt_of_adopted ht]
  · intro hmem
    cases hh : p.handles h with
    | none =>
        rw [serials_of_none hh] at hmem
        cases hmem
    | some fd =>
        obtain ⟨-, hempty⟩ | ⟨hnonneg, serial', ht, hserial⟩ := hp.serials_cases hh
        · rw [hempty] at hmem
          cases hmem
        · rw [hserial, List.mem_singleton] at hmem
          exact ⟨fd, hnonneg, hh, hmem ▸ ht⟩

/-- What the handles of a process owe to each other and to the rest of it. -/
structure Owned (p : Process η) : Prop where
  /-- No two live handles have the same number. -/
  unique : ∀ h₁ h₂ fd, 0 ≤ fd → p.handles h₁ = some fd → p.handles h₂ = some fd → h₁ = h₂
  /-- Every number ever handed to `close` by a handle was its own, and stood for a
  descriptor opened for a handle; negative numbers aside. -/
  closes : ∀ call ∈ p.closes, 0 ≤ call.fd →
    call.held = some call.fd ∧ ∃ serial, call.found = some (.adopted serial)
  /-- Every adopted descriptor has one owner, was released once or was closed once. -/
  fate : ∀ serial < p.arrived,
    (∃! h, p.Holds h serial) ∧ p.released.count serial = 0 ∧ p.closed.count serial = 0 ∨
    (∀ h, ¬ p.Holds h serial) ∧ p.released.count serial = 1 ∧ p.closed.count serial = 0 ∨
    (∀ h, ¬ p.Holds h serial) ∧ p.released.count serial = 0 ∧ p.closed.count serial = 1

theorem owned_of_exclusive {p : Process η} (hp : Sound p)
    (hc : Custody.Exclusive (custody p)) : Owned p := by
  refine ⟨fun h₁ h₂ fd hfd => handles_unique hp hc hfd, hp.closes, fun serial hserial => ?_⟩
  have hreleased : serial ∈ p.released ↔ serial ∈ (custody p).held .released := Iff.rfl
  have hclosed : serial ∈ p.closed ↔ serial ∈ (custody p).held .closed := Iff.rfl
  have hholds : ∀ h, p.Holds h serial ↔ serial ∈ (custody p).held (.handle h) :=
    fun h => hp.holds_iff
  have honce : ∀ l : List ℕ, l.Nodup → serial ∈ l → l.count serial = 1 :=
    fun l hl hmem => List.count_eq_one_of_mem hl hmem
  obtain ⟨place, hplace⟩ := (hc.numbered serial).mp hserial
  have helsewhere : ∀ r, r ≠ place → serial ∉ (custody p).held r :=
    fun r hr hmem => hr (hc.apart r place serial hmem hplace)
  cases place with
  | handle h =>
      refine Or.inl ⟨⟨h, (hholds h).mpr hplace, fun h' hh' => ?_⟩, ?_, ?_⟩
      · exact Place.handle.inj (hc.apart _ _ serial ((hholds h').mp hh') hplace)
      · exact List.count_eq_zero.mpr (mt hreleased.mp (helsewhere _ (by simp)))
      · exact List.count_eq_zero.mpr (mt hclosed.mp (helsewhere _ (by simp)))
  | released =>
      refine Or.inr (Or.inl ⟨fun h => mt (hholds h).mp (helsewhere _ (by simp)), ?_, ?_⟩)
      · exact honce _ (Multiset.coe_nodup.mp (hc.nodup .released)) (hreleased.mpr hplace)
      · exact List.count_eq_zero.mpr (mt hclosed.mp (helsewhere _ (by simp)))
  | closed =>
      refine Or.inr (Or.inr ⟨fun h => mt (hholds h).mp (helsewhere _ (by simp)), ?_, ?_⟩)
      · exact List.count_eq_zero.mpr (mt hreleased.mp (helsewhere _ (by simp)))
      · exact honce _ (Multiset.coe_nodup.mp (hc.nodup .closed)) (hclosed.mpr hplace)

variable [DecidableEq η]

/-- **The operations hand descriptors over**, and keep every number of a handle good. -/
theorem refines_custody {p : Process η} (h : Reaches p) :
    Sound p ∧ Reachable Custody.Initial Custody.Step (custody p) := by
  refine h.invariant
    (P := fun p => Sound p ∧ Reachable Custody.Initial Custody.Step (custody p)) ?_ ?_
  · rintro p rfl
    have hempty : Custody.Initial (custody (Process.initial (η := η))) :=
      ⟨fun r => by cases r <;> rfl, rfl⟩
    refine ⟨⟨fun _ _ => rfl, ?_, ?_⟩, ⟨_, [], hempty, Run.nil _⟩⟩
    · intro h fd hh
      cases hh
    · intro call hcall
      cases hcall
  · rintro p op q ⟨hp, hcustody⟩ hstep
    obtain ⟨hq, deals, hrun⟩ :=
      deals_of_next hp (Custody.exclusive_of_reachable hcustody) hstep
    exact ⟨hq, hcustody.run hrun⟩

/-- **One owner each.** After any operations on any number of handles, whatever the
kernel gives out again in between. -/
theorem owned_of_reaches (p : Process η) (h : Reaches p) : Owned p :=
  have hrefines := refines_custody h
  owned_of_exclusive hrefines.1 (Custody.exclusive_of_reachable hrefines.2)

/-- Two handles, one moved into the other; the number that this closes is opened again
elsewhere, and the number that is then released is adopted again. -/
def reuse : List (Op Bool) :=
  [.construct false 3, .construct true 4, .moveAssign false true, .moveAssign false false,
    .openElsewhere 3, .destroy true, .release false, .closeElsewhere 4, .construct true 4,
    .destroy true]

theorem owned_of_reaches_reuse :
    ∃ p, replay next reuse .initial = some p ∧ p.arrived = 3 ∧ p.closed = [0, 2] ∧
      p.released = [1] ∧ p.table 3 = some .foreign ∧ Owned p := by
  refine ⟨replayed next reuse .initial (by decide +kernel), (Option.some_get _).symm,
    by decide +kernel, by decide +kernel, by decide +kernel, by decide +kernel, ?_⟩
  exact owned_of_reaches _ ⟨.initial, reuse, rfl, run_replayed next reuse .initial _⟩

end Pgw.UniqueFd
