import Pgw.Lib.Completion
import Pgw.Lib.PackedDigits

/-!
# The subscriber identity

`IMSI` is a string of 1 to 15 decimal digits; the constructor is the only way to
build one, so the check is a field. `toBcd` and `fromBcd` are the loops of the
source: the encoder fills a vector of the final size two digits at a time, and
reports a write outside it; the decoder appends a character per nibble without
looking at it and leaves every check to the constructor. `fromBcd` is `noexcept`,
so a string the constructor refuses ends the process.
-/
namespace Pgw

/-- A `std::string`: bytes, not code points. -/
abbrev StdString := List UInt8

/-- The bytes of an ASCII literal. -/
def text (s : String) : StdString := s.toList.map Char.toUInt8

/-- The character `'0'`, the base of all digit arithmetic. -/
def zeroChar : UInt8 := '0'.toUInt8

/-- The set handed to `find_first_not_of`. -/
def decimalDigits : StdString := text "1234567890"

namespace IMSI

def maxBytes : ℕ := 8
def maxDigits : ℕ := 15

/-- What the constructor lets through: neither empty, nor too long, nor with a
character outside `decimalDigits`. -/
def Valid (s : StdString) : Prop :=
  s ≠ [] ∧ s.length ≤ maxDigits ∧ ∀ c ∈ s, c ∈ decimalDigits

instance (s : StdString) : Decidable (Valid s) :=
  inferInstanceAs (Decidable (s ≠ [] ∧ s.length ≤ maxDigits ∧ ∀ c ∈ s, c ∈ decimalDigits))

end IMSI

/-- A checked identity; `str` is the member `digits_`. -/
structure IMSI where
  str : StdString
  valid : IMSI.Valid str
  deriving DecidableEq

namespace IMSI

@[ext] theorem ext {s t : IMSI} (h : s.str = t.str) : s = t := by
  cases s; cases t
  congr

/-- The constructor. -/
def ofString (s : StdString) : Completion IMSI :=
  if h : Valid s then .returned ⟨s, h⟩ else .raised "Invalid IMSI string"

/-- A write through `bcd[i]`; there is none outside the vector. -/
def write (bcd : List UInt8) (i : ℕ) (byte : UInt8) : Option (List UInt8) :=
  if i < bcd.length then some (bcd.set i byte) else none

/-- The loop `for (; i + 1 < digits_.size(); i += 2)`, from index `i` on. -/
def toBcdLoop (digits : StdString) (i : ℕ) (bcd : List UInt8) : Option (ℕ × List UInt8) :=
  if h : i + 1 < digits.length then do
    let first := digits[i] - zeroChar
    let second := digits[i + 1] - zeroChar
    let bcd ← write bcd (i / 2) ((second <<< 4) ||| first)
    toBcdLoop digits (i + 2) bcd
  else some (i, bcd)
termination_by digits.length - i

/-- The odd digit after the loop. -/
def toBcdTail (digits : StdString) (i : ℕ) (bcd : List UInt8) : Option (List UInt8) :=
  if h : i < digits.length then
    let second := digits[i] - zeroChar
    write bcd (i / 2) (((0xF : UInt8) <<< 4) ||| second)
  else some bcd

/-- `to_bcd`; `none` would be a write out of range. -/
def toBcd (imsi : IMSI) : Option (List UInt8) := do
  let digits := imsi.str
  let (i, bcd) ← toBcdLoop digits 0 (List.replicate ((digits.length + 1) / 2) 0)
  toBcdTail digits i bcd

/-- The loop of `from_bcd`, appending to `result`. -/
def fromBcdLoop : List UInt8 → StdString → StdString
  | [], result => result
  | byte :: data, result =>
      let second := byte &&& 0x0F
      let first := (byte >>> 4) &&& 0x0F
      let result := result ++ [zeroChar + second]
      fromBcdLoop data (if first ≠ 0xF then result ++ [zeroChar + first] else result)

/-- `from_bcd`, with its `noexcept` boundary around the constructor. -/
def fromBcd (data : List UInt8) : Completion IMSI :=
  (ofString (fromBcdLoop data [])).noexcept

/-! ## Constructor and digit characters -/

theorem ofString_returned {s : StdString} {imsi : IMSI} :
    ofString s = .returned imsi ↔ imsi.str = s := by
  rw [ofString]
  split
  · rw [Completion.returned.injEq]
    constructor
    · rintro rfl; rfl
    · intro h; exact ext h.symm
  · rename_i hs
    refine iff_of_false (by simp) ?_
    rintro rfl
    exact hs imsi.valid

@[simp] theorem ofString_str (imsi : IMSI) : ofString imsi.str = .returned imsi :=
  ofString_returned.mpr rfl

theorem ofString_raised {s : StdString} (h : ¬ Valid s) :
    ofString s = .raised "Invalid IMSI string" := dif_neg h

/-- Of the characters `'0' + n` with a nibble `n`, the decimal ones have `n < 10`. -/
private theorem zeroChar_add_mem_fin : ∀ n : Fin 16,
    zeroChar + UInt8.ofNat n ∈ decimalDigits ↔ UInt8.ofNat n < 10 := by decide

theorem zeroChar_add_mem {n : UInt8} (h : n < 16) : zeroChar + n ∈ decimalDigits ↔ n < 10 := by
  simpa using zeroChar_add_mem_fin ⟨n.toNat, h⟩

theorem sub_zeroChar_lt : ∀ c ∈ decimalDigits, c - zeroChar < 10 := by decide +kernel

theorem zeroChar_add_injective : Function.Injective (zeroChar + ·) := by
  intro a b h
  simpa using h

/-- The digits as numbers. -/
def values (imsi : IMSI) : List UInt8 := imsi.str.map (· - zeroChar)

theorem values_lt (imsi : IMSI) : ∀ d ∈ imsi.values, d < 10 := by
  intro d hd
  obtain ⟨c, hc, rfl⟩ := List.mem_map.mp hd
  exact sub_zeroChar_lt c (imsi.valid.2.2 c hc)

theorem values_lt_filler (imsi : IMSI) : ∀ d ∈ imsi.values, d < PackedDigits.filler :=
  fun d hd => UInt8.lt_trans (imsi.values_lt d hd) (by decide)

@[simp] theorem length_values (imsi : IMSI) : imsi.values.length = imsi.str.length := by
  simp [values]

@[simp] theorem map_values (imsi : IMSI) : imsi.values.map (zeroChar + ·) = imsi.str := by
  simp [values, Function.comp_def]

end IMSI
end Pgw
