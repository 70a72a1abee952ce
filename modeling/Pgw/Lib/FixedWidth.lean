import Mathlib.Data.List.Forall2
import Mathlib.Data.UInt

/-!
# Numbers in columns

A number in decimal on a fixed number of places, and rows of such numbers with fixed
texts between them. Strings are compared byte by byte from the left. On a fixed width
this is the order of the numbers, and for rows it is the order of the lists of their
numbers.

## Main results

* `decimal_lt_decimal` — the order of numbers on one width.
* `row_lt_row` — the order of rows with the same columns.
-/
namespace FixedWidth

/-! ## Strings of one length -/

/-- What follows a difference does not matter. -/
theorem append_lt_append {α : Type*} [LT α] {a b : List α} (h : a < b)
    (hlength : a.length = b.length) (x y : List α) : a ++ x < b ++ y := by
  induction a generalizing b with
  | nil =>
      cases b with
      | nil => exact absurd h (List.not_lt_nil _)
      | cons => cases hlength
  | cons c a ih =>
      cases b with
      | nil => cases hlength
      | cons d b =>
          rw [List.cons_append, List.cons_append, List.cons_lt_cons_iff]
          obtain hcd | ⟨hcd, hab⟩ := List.cons_lt_cons_iff.mp h
          · exact Or.inl hcd
          · exact Or.inr ⟨hcd, ih hab (Nat.succ.inj hlength)⟩

/-! ## One number -/

/-- The character of a digit. -/
def digit (d : ℕ) : UInt8 := 48 + UInt8.ofNat d

/-- `n` on `w` places with zeros in front; what does not fit is cut off in front. -/
def decimal : ℕ → ℕ → List UInt8
  | 0, _ => []
  | w + 1, n => decimal w (n / 10) ++ [digit (n % 10)]

private theorem digit_lt_digit_fin : ∀ d e : Fin 10, d < e → digit d < digit e := by decide

theorem digit_lt_digit {d e : ℕ} (he : e < 10) (h : d < e) : digit d < digit e :=
  digit_lt_digit_fin ⟨d, h.trans he⟩ ⟨e, he⟩ h

@[simp] theorem length_decimal (w n : ℕ) : (decimal w n).length = w := by
  induction w generalizing n with
  | zero => rfl
  | succ w ih => simp [decimal, ih]

/-- A decimal consists of digits. -/
theorem exists_digit_of_mem {w n : ℕ} {c : UInt8} (h : c ∈ decimal w n) :
    ∃ d < 10, c = digit d := by
  induction w generalizing n with
  | zero => cases h
  | succ w ih =>
      rw [decimal, List.mem_append, List.mem_singleton] at h
      obtain h | rfl := h
      · exact ih h
      · exact ⟨n % 10, Nat.mod_lt _ (by decide), rfl⟩

/-- **Decimals of one width are in the order of their numbers.** -/
theorem decimal_lt_decimal {w m n : ℕ} (hn : n < 10 ^ w) (h : m < n) :
    decimal w m < decimal w n := by
  induction w generalizing m n with
  | zero => omega
  | succ w ih =>
      have hquotient : n / 10 < 10 ^ w := by
        rw [pow_succ] at hn
        omega
      obtain hlt | heq : m / 10 < n / 10 ∨ m / 10 = n / 10 := by omega
      · exact append_lt_append (ih hquotient hlt) (by simp) _ _
      · have hdigit : digit (m % 10) < digit (n % 10) :=
          digit_lt_digit (Nat.mod_lt _ (by decide)) (by omega)
        rw [decimal, decimal, heq]
        exact List.append_left_lt (List.cons_lt_cons_iff.mpr (Or.inl hdigit))

/-! ## Rows -/

/-- The width of a number and the text after it. -/
structure Column where
  width : ℕ
  after : List UInt8
  deriving DecidableEq

def row : List Column → List ℕ → List UInt8
  | col :: cols, n :: ns => decimal col.width n ++ (col.after ++ row cols ns)
  | _, _ => []

/-- As many numbers as columns, each within its width. -/
def Fits (cols : List Column) (ns : List ℕ) : Prop :=
  List.Forall₂ (fun col n => n < 10 ^ col.width) cols ns

theorem length_row {cols : List Column} {ns : List ℕ} (h : Fits cols ns) :
    (row cols ns).length = (cols.map fun col => col.width + col.after.length).sum := by
  induction h with
  | nil => rfl
  | cons _ _ ih => simp [row, ih, Nat.add_assoc]

/-- A character of a row is a digit, or it stands between the numbers. -/
theorem mem_row {cols : List Column} {ns : List ℕ} {c : UInt8} (h : c ∈ row cols ns) :
    (∃ d < 10, c = digit d) ∨ ∃ col ∈ cols, c ∈ col.after := by
  induction cols generalizing ns with
  | nil => cases h
  | cons col cols ih =>
      cases ns with
      | nil => cases h
      | cons n ns =>
          simp only [row, List.mem_append] at h
          obtain h | h | h := h
          · exact Or.inl (exists_digit_of_mem h)
          · exact Or.inr ⟨col, by simp, h⟩
          · obtain hdigit | ⟨col', hcol', hc⟩ := ih h
            · exact Or.inl hdigit
            · exact Or.inr ⟨col', by simp [hcol'], hc⟩

/-- **Rows are in the order of their numbers**, the first one that differs decides. -/
theorem row_lt_row {cols : List Column} {ms ns : List ℕ} (hm : Fits cols ms) (hn : Fits cols ns)
    (h : ms < ns) : row cols ms < row cols ns := by
  induction hm generalizing ns with
  | nil =>
      cases hn
      exact absurd h (List.not_lt_nil _)
  | cons hmhead hmtail ih =>
      cases hn with
      | cons hnhead hntail =>
          obtain hlt | ⟨rfl, htail⟩ := List.cons_lt_cons_iff.mp h
          · exact append_lt_append (decimal_lt_decimal hnhead hlt) (by simp) _ _
          · exact List.append_left_lt (List.append_left_lt (ih hntail htail))

end FixedWidth
