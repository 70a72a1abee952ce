import Mathlib.Algebra.Group.Nat.Even
import Mathlib.Data.Finset.Insert
import Mathlib.Data.Finset.Erase
import Pgw.Lib.TransitionSystem

/-!
# Ledgers of accounts

An account is opened, closed, opened again, and so on; the ledger writes a line
for each, and may write remarks that change nothing. The log alone then tells
which accounts are open: the lines of an account alternate, and it is open
exactly when its last line is an opening.

## Main results

* `alternates_concat` — the alternation law, one line at a time.
* `reachable_balanced` — log and accounts agree in every reachable ledger.
-/
namespace Ledger
open TransitionSystem

universe u v

/-! ## Alternating logs -/

section Alternation
variable {α : Type u} {opens : α → Prop}

/-- The lines at even places open, those at odd places do not. -/
def Alternates (opens : α → Prop) (l : List α) : Prop :=
  ∀ i (hi : i < l.length), opens l[i] ↔ Even i

/-- The last line is an opening. -/
def EndsOpen (opens : α → Prop) (l : List α) : Prop := ∃ a, l.getLast? = some a ∧ opens a

theorem alternates_nil : Alternates opens [] := fun _ hi => absurd hi (Nat.not_lt_zero _)

theorem not_endsOpen_nil : ¬ EndsOpen opens [] := by
  rintro ⟨a, ha, _⟩
  cases ha

@[simp] theorem endsOpen_concat {l : List α} {a : α} :
    EndsOpen opens (l ++ [a]) ↔ opens a := by
  simp [EndsOpen]

/-- A log alternates on when its next line opens at an even place only. -/
theorem alternates_concat {l : List α} {a : α} :
    Alternates opens (l ++ [a]) ↔ Alternates opens l ∧ (opens a ↔ Even l.length) := by
  constructor
  · intro h
    refine ⟨fun i hi => ?_, ?_⟩
    · have hi' : i < (l ++ [a]).length := by simp; omega
      simpa [List.getElem_append_left hi] using h i hi'
    · simpa using h l.length (by simp)
  · rintro ⟨hl, ha⟩ i hi
    by_cases hlt : i < l.length
    · simpa [List.getElem_append_left hlt] using hl i hlt
    · have heq : i = l.length := by simp at hi; omega
      subst heq
      simpa using ha

/-- An alternating log ends open exactly when its length is odd. -/
theorem Alternates.endsOpen_iff {l : List α} (h : Alternates opens l) :
    EndsOpen opens l ↔ ¬ Even l.length := by
  rcases List.eq_nil_or_concat l with rfl | ⟨l', a, rfl⟩
  · simp [not_endsOpen_nil]
  · rw [List.concat_eq_append] at h ⊢
    rw [endsOpen_concat, (alternates_concat.mp h).2]
    simp [Nat.even_add_one]

/-- The next line of a log may be an opening exactly when the log does not end open. -/
theorem Alternates.concat {l : List α} (h : Alternates opens l) {a : α}
    (ha : opens a ↔ ¬ EndsOpen opens l) : Alternates opens (l ++ [a]) := by
  rw [h.endsOpen_iff, not_not] at ha
  exact alternates_concat.mpr ⟨h, ha⟩

end Alternation

/-! ## The ledger machine -/

inductive Mark where
  | opened
  | closed
  | remark
  deriving DecidableEq

structure Book (κ : Type v) where
  accounts : Finset κ
  log : List (κ × Mark)

variable {κ : Type v} [DecidableEq κ]

/-- What may be written, and what it does to the open accounts. -/
inductive Write : Book κ → κ × Mark → Book κ → Prop where
  | opened {b : Book κ} {k : κ} (h : k ∉ b.accounts) :
      Write b (k, .opened) ⟨insert k b.accounts, b.log ++ [(k, .opened)]⟩
  | closed {b : Book κ} {k : κ} (h : k ∈ b.accounts) :
      Write b (k, .closed) ⟨b.accounts.erase k, b.log ++ [(k, .closed)]⟩
  | remark {b : Book κ} {k : κ} : Write b (k, .remark) ⟨b.accounts, b.log ++ [(k, .remark)]⟩

def Fresh (b : Book κ) : Prop := b.accounts = ∅ ∧ b.log = []

/-- The lines of one account, remarks left out. -/
def history (k : κ) (log : List (κ × Mark)) : List Mark :=
  (log.filter fun line => line.1 = k ∧ line.2 ≠ .remark).map Prod.snd

theorem history_append (k : κ) (log log' : List (κ × Mark)) :
    history k (log ++ log') = history k log ++ history k log' := by
  simp [history]

theorem history_line (k : κ) (line : κ × Mark) :
    history k [line] = if line.1 = k ∧ line.2 ≠ .remark then [line.2] else [] := by
  by_cases h : line.1 = k ∧ line.2 ≠ .remark <;> simp [history, h]

/-- Log and open accounts tell the same story, account by account. -/
def Balanced (b : Book κ) : Prop :=
  ∀ k, Alternates (· = Mark.opened) (history k b.log) ∧
    (k ∈ b.accounts ↔ EndsOpen (· = Mark.opened) (history k b.log))

theorem Fresh.balanced {b : Book κ} (h : Fresh b) : Balanced b := by
  intro k
  rw [h.1, h.2]
  exact ⟨alternates_nil, by simp [history, not_endsOpen_nil]⟩

theorem Write.balanced {b b' : Book κ} {line : κ × Mark} (h : Write b line b')
    (hb : Balanced b) : Balanced b' := by
  intro k
  obtain ⟨halt, hmem⟩ := hb k
  cases h with
  | @opened k' habsent =>
      rw [history_append, history_line]
      by_cases hk : k' = k
      · subst hk
        have hclosed := mt hmem.mpr habsent
        simp [halt.concat (a := Mark.opened) (by simp [hclosed])]
      · simpa [hk, Ne.symm hk] using ⟨halt, hmem⟩
  | @closed k' hpresent =>
      rw [history_append, history_line]
      by_cases hk : k' = k
      · subst hk
        have hopen := hmem.mp hpresent
        simp [halt.concat (a := Mark.closed) (by simp [hopen])]
      · simpa [hk, Ne.symm hk] using ⟨halt, hmem⟩
  | @remark k' =>
      rw [history_append, history_line]
      simpa using ⟨halt, hmem⟩

/-- **Log and accounts agree** in every ledger written from a fresh one. -/
theorem reachable_balanced {b : Book κ} (h : Reachable Fresh Write b) : Balanced b :=
  h.invariant (fun _ => Fresh.balanced) fun _ _ _ hb hwrite => hwrite.balanced hb

end Ledger
