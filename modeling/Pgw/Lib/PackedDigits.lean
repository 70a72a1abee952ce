import Mathlib.Data.List.Basic
import Mathlib.Data.UInt
import Mathlib.Data.Fintype.Basic

/-!
# Packed digit strings

Two digits to a byte, the earlier one in the low nibble; an odd last digit shares
its byte with a filler nibble. Packing is the pairing of consecutive digits.
Unpacking reads every byte on its own and drops a high filler wherever it stands,
so it accepts more than packing produces: it undoes packing on all strings, and
packing undoes it exactly on the byte strings whose fillers are at the very end.

## Main results

* `unpack_pack` — every digit string survives.
* `pack_unpack_iff` — a byte string survives iff it is `Canonical`.
-/
namespace PackedDigits

/-- The nibble that stands for no digit. -/
def filler : UInt8 := 0xF

def low (b : UInt8) : UInt8 := b &&& 0x0F
def high (b : UInt8) : UInt8 := (b >>> 4) &&& 0x0F
def join (lo hi : UInt8) : UInt8 := (hi <<< 4) ||| lo

/-! ## Nibbles of a byte -/

private theorem low_join_fin : ∀ lo hi : Fin 16,
    low (join (UInt8.ofNat lo) (UInt8.ofNat hi)) = UInt8.ofNat lo := by decide

private theorem high_join_fin : ∀ lo hi : Fin 16,
    high (join (UInt8.ofNat lo) (UInt8.ofNat hi)) = UInt8.ofNat hi := by decide

private theorem join_low_high_fin : ∀ b : Fin 256,
    join (low (UInt8.ofNat b)) (high (UInt8.ofNat b)) = UInt8.ofNat b := by decide +kernel

private theorem low_lt_fin : ∀ b : Fin 256, low (UInt8.ofNat b) < 16 := by decide +kernel

theorem low_lt (b : UInt8) : low b < 16 := by
  simpa using low_lt_fin ⟨b.toNat, b.toNat_lt⟩

private theorem high_lt_fin : ∀ b : Fin 256, high (UInt8.ofNat b) < 16 := by decide +kernel

theorem high_lt (b : UInt8) : high b < 16 := by
  simpa using high_lt_fin ⟨b.toNat, b.toNat_lt⟩

/-- A digit is a nibble. -/
theorem lt_sixteen {d : UInt8} (h : d < filler) : d < 16 := UInt8.lt_trans h (by decide)

theorem low_join {lo hi : UInt8} (hlo : lo < 16) (hhi : hi < 16) : low (join lo hi) = lo := by
  simpa using low_join_fin ⟨lo.toNat, hlo⟩ ⟨hi.toNat, hhi⟩

theorem high_join {lo hi : UInt8} (hlo : lo < 16) (hhi : hi < 16) : high (join lo hi) = hi := by
  simpa using high_join_fin ⟨lo.toNat, hlo⟩ ⟨hi.toNat, hhi⟩

@[simp] theorem join_low_high (b : UInt8) : join (low b) (high b) = b := by
  simpa using join_low_high_fin ⟨b.toNat, b.toNat_lt⟩

/-! ## Packing and unpacking -/

/-- Pair consecutive digits; a filler completes an odd last byte. -/
def pack : List UInt8 → List UInt8
  | [] => []
  | [d] => [join d filler]
  | d :: e :: ds => join d e :: pack ds

/-- The digits one byte holds. -/
def digitsOf (b : UInt8) : List UInt8 :=
  if high b = filler then [low b] else [low b, high b]

/-- Read the digits byte by byte. -/
def unpack (bs : List UInt8) : List UInt8 := bs.flatMap digitsOf

/-- Byte strings with a filler in the last byte at most. -/
def Canonical (bs : List UInt8) : Prop := ∀ b ∈ bs.dropLast, high b ≠ filler

instance (bs : List UInt8) : Decidable (Canonical bs) :=
  inferInstanceAs (Decidable (∀ b ∈ bs.dropLast, high b ≠ filler))

@[simp] theorem unpack_nil : unpack [] = [] := rfl
@[simp] theorem unpack_cons (b : UInt8) (bs : List UInt8) :
    unpack (b :: bs) = digitsOf b ++ unpack bs := rfl

theorem length_pack (ds : List UInt8) : (pack ds).length = (ds.length + 1) / 2 := by
  induction ds using pack.induct with
  | case1 => rfl
  | case2 d => simp [pack]
  | case3 d e ds ih => simp only [pack, List.length_cons, ih]; omega

/-- Each filler takes the place of one digit. -/
theorem length_unpack (bs : List UInt8) :
    (unpack bs).length + bs.countP (fun b => high b = filler) = 2 * bs.length := by
  induction bs with
  | nil => rfl
  | cons b bs ih =>
      by_cases hb : high b = filler
      · simp only [unpack_cons, digitsOf, hb, if_true, List.length_append, List.length_cons,
          List.length_nil, List.countP_cons, decide_true]
        omega
      · simp only [unpack_cons, digitsOf, hb, if_false, List.length_append, List.length_cons,
          List.length_nil, List.countP_cons, decide_false, Bool.false_eq_true]
        omega

/-- Which nibbles become digits. -/
theorem forall_mem_unpack {P : UInt8 → Prop} (bs : List UInt8) :
    (∀ d ∈ unpack bs, P d) ↔ ∀ b ∈ bs, P (low b) ∧ (P (high b) ∨ high b = filler) := by
  induction bs with
  | nil => simp
  | cons b bs ih =>
      simp only [unpack_cons, List.forall_mem_append, List.forall_mem_cons, ih]
      by_cases hb : high b = filler <;> simp [digitsOf, hb]

/-- The nibbles of a joined pair of digits, the second of them not the filler. -/
theorem digitsOf_join {d e : UInt8} (hd : d < filler) (he : e < filler) :
    digitsOf (join d e) = [d, e] := by
  rw [digitsOf, high_join (lt_sixteen hd) (lt_sixteen he),
    low_join (lt_sixteen hd) (lt_sixteen he), if_neg (UInt8.ne_of_lt he)]

theorem digitsOf_join_filler {d : UInt8} (hd : d < filler) :
    digitsOf (join d filler) = [d] := by
  have hfiller : filler < 16 := by decide
  rw [digitsOf, high_join (lt_sixteen hd) hfiller, low_join (lt_sixteen hd) hfiller, if_pos rfl]

/-- **Unpacking undoes packing** when no digit is the filler. -/
theorem unpack_pack (ds : List UInt8) (h : ∀ d ∈ ds, d < filler) : unpack (pack ds) = ds := by
  induction ds using pack.induct with
  | case1 => rfl
  | case2 d => simp [pack, digitsOf_join_filler (h d (by simp))]
  | case3 d e ds ih =>
      have hrest : ∀ x ∈ ds, x < filler := fun x hx => h x (by simp [hx])
      rw [pack, unpack_cons, digitsOf_join (h d (by simp)) (h e (by simp)), ih hrest]
      rfl

/-- Packing gives back a byte without a filler, whatever follows it. -/
theorem pack_digitsOf_append {b : UInt8} (hb : high b ≠ filler) (ds : List UInt8) :
    pack (digitsOf b ++ ds) = b :: pack ds := by
  simp [digitsOf, hb, pack]

/-- **Packing undoes unpacking exactly on the canonical strings.** The hypothesis
keeps a low nibble from being taken for the filler of its neighbour. -/
theorem pack_unpack_iff (bs : List UInt8) (h : ∀ b ∈ bs, low b ≠ filler) :
    pack (unpack bs) = bs ↔ Canonical bs := by
  induction bs with
  | nil => simp [Canonical, pack]
  | cons b bs ih =>
      have hrest : ∀ x ∈ bs, low x ≠ filler := fun x hx => h x (by simp [hx])
      cases bs with
      | nil =>
          by_cases hb : high b = filler
          · have hjoin : join (low b) filler = b := by rw [← hb, join_low_high]
            simp [Canonical, digitsOf, hb, pack, hjoin]
          · simp [Canonical, digitsOf, hb, pack]
      | cons c bs =>
          have hdrop : (b :: c :: bs).dropLast = b :: (c :: bs).dropLast := rfl
          simp only [Canonical, hdrop, List.forall_mem_cons]
          by_cases hb : high b = filler
          · -- the neighbour's low nibble slides into the place of the filler
            refine iff_of_false ?_ (fun hc => hc.1 hb)
            intro heq
            obtain ⟨ds, hds⟩ : ∃ ds, unpack (c :: bs) = low c :: ds := by
              rw [unpack_cons, digitsOf]
              split <;> exact ⟨_, rfl⟩
            rw [unpack_cons, digitsOf, if_pos hb, hds] at heq
            have hjoin : join (low b) (low c) = b := (List.cons.inj heq).1
            have hhigh : high b = low c := by
              conv_lhs => rw [← hjoin]
              exact high_join (low_lt b) (low_lt c)
            exact h c (by simp) (hhigh ▸ hb)
          · rw [unpack_cons, pack_digitsOf_append hb, List.cons.injEq]
            simp only [true_and, ne_eq, hb, not_false_eq_true]
            exact ih hrest

end PackedDigits
