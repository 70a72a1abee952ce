import Mathlib.Algebra.Order.Group.Defs
import Mathlib.Algebra.Order.Monoid.Unbundled.Pow
import Mathlib.Algebra.Order.Ring.Int
import Mathlib.Data.List.Pairwise
import Mathlib.Tactic.Abel

/-!
# Events at a distance

A list of times is `Spaced d` when any two of them, in the order of the list, are at
least `d` apart. At most `n` of them fall into a half-open window no longer than `n`
distances, wherever it begins. The bound is met: `n + 1` times exactly `d` apart fit
into every window longer than that.

## Main definitions

* `Spaced d ts` — the times `ts` are at least `d` apart.
* `inWindow a w ts` — those of the times `ts` that fall into `[a, a + w)`.
* `paced a d n` — the first `n` times of the clock that starts at `a` with period `d`.
-/
namespace Pacing

section Times
variable {T : Type*} [AddCommGroup T]

/-- `n` times, exactly `d` apart. -/
def paced (a d : T) : ℕ → List T
  | 0 => []
  | n + 1 => a :: paced (a + d) d n

@[simp] theorem length_paced (a d : T) (n : ℕ) : (paced a d n).length = n := by
  induction n generalizing a with
  | zero => rfl
  | succ n ih => simp [paced, ih]

variable [LinearOrder T]

/-- Any two of the times are at least `d` apart. -/
def Spaced (d : T) (ts : List T) : Prop := ts.Pairwise fun t u => t + d ≤ u

/-- The times of the half-open window of length `w` from `a`. -/
def inWindow (a w : T) (ts : List T) : List T := ts.filter fun t => a ≤ t ∧ t < a + w

theorem Spaced.nil (d : T) : Spaced d [] := List.Pairwise.nil

/-- One time more, at a distance from every earlier one. -/
theorem Spaced.concat {d : T} {ts : List T} (h : Spaced d ts) {u : T}
    (hu : ∀ t ∈ ts, t + d ≤ u) : Spaced d (ts ++ [u]) := by
  refine List.pairwise_append.mpr ⟨h, List.pairwise_singleton _ _, ?_⟩
  intro t ht v hv
  rw [List.mem_singleton.mp hv]
  exact hu t ht

variable [IsOrderedAddMonoid T]

/-- Times that are spaced and lie within `n` distances are at most `n`. -/
theorem Spaced.length_le {d : T} {ts : List T} (h : Spaced d ts) {a : T} {n : ℕ}
    (hts : ∀ t ∈ ts, a ≤ t ∧ t < a + n • d) : ts.length ≤ n := by
  induction ts generalizing a n with
  | nil => exact Nat.zero_le n
  | cons t ts ih =>
      obtain ⟨hlater, hrest⟩ := List.pairwise_cons.mp h
      obtain ⟨hat, htn⟩ := hts t List.mem_cons_self
      cases n with
      | zero =>
          rw [zero_nsmul, add_zero] at htn
          exact absurd htn (not_lt.mpr hat)
      | succ n =>
          have hshift : a + (n + 1) • d = a + d + n • d := by
            rw [succ_nsmul]
            abel
          have hle : ts.length ≤ n := by
            apply ih hrest (a := a + d)
            intro u hu
            constructor
            · exact (add_le_add_left hat d).trans (hlater u hu)
            · rw [← hshift]
              exact (hts u (List.mem_cons_of_mem t hu)).2
          simpa using hle

/-- **Window bound.** A window of at most `n` distances holds at most `n` times. -/
theorem Spaced.length_inWindow_le {d : T} {ts : List T} (h : Spaced d ts) (a : T) {w : T} {n : ℕ}
    (hw : w ≤ n • d) : (inWindow a w ts).length ≤ n := by
  apply Spaced.length_le (List.Pairwise.filter _ h) (a := a)
  intro t ht
  have hin : a ≤ t ∧ t < a + w := by simpa using (List.mem_filter.mp ht).2
  exact ⟨hin.1, lt_of_lt_of_le hin.2 (add_le_add_right hw a)⟩

/-- The first and the last of the times, `d` apart. -/
theorem bounds_of_mem_paced {a d t : T} (hd : 0 ≤ d) {n : ℕ} (ht : t ∈ paced a d (n + 1)) :
    a ≤ t ∧ t ≤ a + n • d := by
  induction n generalizing a with
  | zero =>
      have hta : t = a := by simpa [paced] using ht
      simp [hta]
  | succ n ih =>
      rw [paced, List.mem_cons] at ht
      rcases ht with rfl | hlater
      · exact ⟨le_rfl, le_add_of_nonneg_right (nsmul_nonneg hd _)⟩
      · obtain ⟨hle, hge⟩ := ih hlater
        refine ⟨(le_add_of_nonneg_right hd).trans hle, hge.trans_eq ?_⟩
        rw [succ_nsmul]
        abel

/-- **The bound is met**: a window longer than `n` distances holds `n + 1` times. -/
theorem inWindow_paced {a d w : T} {n : ℕ} (hd : 0 ≤ d) (hw : n • d < w) :
    inWindow a w (paced a d (n + 1)) = paced a d (n + 1) := by
  refine List.filter_eq_self.mpr fun t ht => ?_
  obtain ⟨hle, hge⟩ := bounds_of_mem_paced hd ht
  simpa using ⟨hle, lt_of_le_of_lt hge (add_lt_add_right hw a)⟩

end Times

end Pacing
