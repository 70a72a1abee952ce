import Pgw.Imsi.Model

/-!
# The two BCD loops agree

Each loop is first identified with its counterpart on packed digit strings; the
laws of the pair are then those of `PackedDigits`, and what is left to the
identity is its own check. Encoding is total and loses nothing. Decoding accepts
a byte string exactly when its nibbles are decimal, fillers apart, and their
number is in range; a filler before the last byte is dropped in silence, so the
strings that encoding gives back are the canonical ones only.

## Main results

* `toBcd_eq` — the encoder loop packs the digits and stays in range.
* `fromBcd_returned_iff` — exact acceptance of the decoder.
* `fromBcd_toBcd`, `toBcd_fromBcd_iff` — the two round trips.
-/
namespace Pgw.IMSI
open PackedDigits

/-! ## The encoder -/

/-- Filling slot `packed.length` of a vector that is packed up to there. -/
private theorem write_next (packed : List UInt8) (n : ℕ) (byte : UInt8) :
    write (packed ++ List.replicate (n + 1) 0) packed.length byte =
      some ((packed ++ [byte]) ++ List.replicate n 0) := by
  rw [write, if_pos (by simp)]
  simp [List.replicate_succ]

/-- The loop and its tail, started at an even index with the digits before it
packed, pack the digits that are left. -/
theorem toBcdLoop_spec (rest : StdString) : ∀ (done : StdString) (packed : List UInt8),
    done.length = 2 * packed.length →
    (toBcdLoop (done ++ rest) done.length
        (packed ++ List.replicate ((rest.length + 1) / 2) 0)).bind
      (fun r => toBcdTail (done ++ rest) r.1 r.2) =
      some (packed ++ pack (rest.map (· - zeroChar))) := by
  induction rest using pack.induct with
  | case1 =>
      intro done packed _
      rw [toBcdLoop, dif_neg (by simp)]
      simp [toBcdTail, pack]
  | case2 d =>
      intro done packed hdone
      have hhalf : done.length / 2 = packed.length := by omega
      rw [toBcdLoop, dif_neg (by simp), Option.bind_some, toBcdTail, dif_pos (by simp)]
      simp only [hhalf, List.length_singleton, List.getElem_append_right (le_refl _), Nat.sub_self]
      rw [write_next packed 0]
      simp [pack, join, filler]
  | case3 d e rest ih =>
      intro done packed hdone
      have hhalf : done.length / 2 = packed.length := by omega
      have hslots : ((d :: e :: rest).length + 1) / 2 = (rest.length + 1) / 2 + 1 := by
        simp only [List.length_cons]; omega
      have hnext := ih (done ++ [d, e]) (packed ++ [join (d - zeroChar) (e - zeroChar)])
        (by simp [hdone]; omega)
      rw [toBcdLoop, dif_pos (by simp)]
      simp only [hhalf, hslots, List.getElem_append_right (le_refl done.length),
        List.getElem_append_right (Nat.le_succ done.length), write_next packed]
      simpa [List.append_assoc, pack, join] using hnext

/-- **The encoder packs the digits**, and no write leaves the vector. -/
theorem toBcd_eq (imsi : IMSI) : imsi.toBcd = some (pack imsi.values) := by
  have h := toBcdLoop_spec imsi.str [] [] rfl
  simpa [toBcd, values] using h

/-! ## The decoder -/

theorem fromBcdLoop_eq (data : List UInt8) (result : StdString) :
    fromBcdLoop data result = result ++ (unpack data).map (zeroChar + ·) := by
  induction data generalizing result with
  | nil => simp [fromBcdLoop]
  | cons byte data ih =>
      rw [fromBcdLoop, unpack_cons, digitsOf]
      simp only [ih, high, low, filler]
      split <;> simp_all

/-- The number of digits a byte string spells: two to a byte, less the fillers. -/
def digitCount (data : List UInt8) : ℕ :=
  2 * data.length - data.countP fun b => high b = filler

/-- Every low nibble a digit, every high nibble a digit or the filler, and the
digits neither missing nor too many. -/
def Decodable (data : List UInt8) : Prop :=
  (∀ b ∈ data, low b < 10 ∧ (high b < 10 ∨ high b = filler)) ∧
    1 ≤ digitCount data ∧ digitCount data ≤ maxDigits

instance (data : List UInt8) : Decidable (Decodable data) :=
  inferInstanceAs (Decidable ((∀ b ∈ data, low b < 10 ∧ (high b < 10 ∨ high b = filler)) ∧
    1 ≤ digitCount data ∧ digitCount data ≤ maxDigits))

theorem digitCount_eq (data : List UInt8) : digitCount data = (unpack data).length := by
  have h := length_unpack data
  rw [digitCount]
  omega

theorem nibble_lt_of_mem_unpack (data : List UInt8) : ∀ n ∈ unpack data, n < 16 :=
  (forall_mem_unpack data).mpr fun b _ => ⟨low_lt b, Or.inl (high_lt b)⟩

/-- The constructor refuses exactly the undecodable byte strings, although the
loop looks at nothing: a bad nibble is a bad character, and lengths agree. -/
theorem valid_fromBcdLoop (data : List UInt8) :
    Valid (fromBcdLoop data []) ↔ Decodable data := by
  have hdigits : (∀ c ∈ (unpack data).map (zeroChar + ·), c ∈ decimalDigits) ↔
      ∀ n ∈ unpack data, n < 10 := by
    simp only [List.forall_mem_map]
    refine forall₂_congr fun n hn => ?_
    exact zeroChar_add_mem (nibble_lt_of_mem_unpack data n hn)
  have hnonempty : (unpack data).map (zeroChar + ·) ≠ [] ↔ 1 ≤ (unpack data).length := by
    rw [← List.length_pos_iff, List.length_map]
    rfl
  rw [fromBcdLoop_eq, List.nil_append, Valid, hdigits, hnonempty, forall_mem_unpack, Decodable,
    digitCount_eq, List.length_map]
  tauto

/-- **Exact acceptance.** The decoder returns on the decodable byte strings only,
and then with the digits in order. -/
theorem fromBcd_returned_iff {data : List UInt8} {imsi : IMSI} :
    fromBcd data = .returned imsi ↔ imsi.values = unpack data := by
  rw [fromBcd, Completion.noexcept_eq_returned, ofString_returned, fromBcdLoop_eq,
    List.nil_append, ← map_values]
  exact (List.map_injective_iff.mpr zeroChar_add_injective).eq_iff

theorem fromBcd_of_decodable {data : List UInt8} (h : Decodable data) :
    ∃ imsi, fromBcd data = .returned imsi :=
  ⟨⟨_, (valid_fromBcdLoop data).mpr h⟩, by simp [fromBcd, ofString_returned]⟩

/-- On every other byte string the exception meets the `noexcept`. -/
theorem fromBcd_terminated {data : List UInt8} (h : ¬ Decodable data) :
    fromBcd data = .terminated := by
  rw [fromBcd, ofString_raised (mt (valid_fromBcdLoop data).mp h), Completion.noexcept_raised]

theorem decodable_of_fromBcd {data : List UInt8} {imsi : IMSI}
    (h : fromBcd data = .returned imsi) : Decodable data := by
  by_contra hd
  rw [fromBcd_terminated hd] at h
  cases h

/-- A decoded string has no filler in a low nibble. -/
theorem low_ne_filler_of_fromBcd {data : List UInt8} {imsi : IMSI}
    (h : fromBcd data = .returned imsi) : ∀ b ∈ data, low b ≠ filler := by
  intro b hb
  have hlow := ((decodable_of_fromBcd h).1 b hb).1
  exact UInt8.ne_of_lt (UInt8.lt_trans hlow (by decide))

/-! ## Round trips -/

/-- **Decoding undoes encoding.** Every string the constructor accepts is encoded,
with no write out of range, in half as many bytes rounded up, is decoded to
itself, and shares its encoding with no other identity. -/
theorem fromBcd_toBcd (s : StdString) (imsi : IMSI) (h : ofString s = .returned imsi) :
    ∃ data, imsi.toBcd = some data ∧ data.length = (s.length + 1) / 2 ∧
      data.length ≤ maxBytes ∧
      (∃ decoded, fromBcd data = .returned decoded ∧ decoded.str = s) ∧
      ∀ other : IMSI, other.toBcd = some data → other = imsi := by
  have hstr : imsi.str = s := ofString_returned.mp h
  have hlength : (pack imsi.values).length = (s.length + 1) / 2 := by
    rw [length_pack, length_values, hstr]
  have hmax : s.length ≤ maxDigits := hstr ▸ imsi.valid.2.1
  refine ⟨pack imsi.values, toBcd_eq imsi, hlength, ?_, ⟨imsi, ?_, hstr⟩, ?_⟩
  · rw [hlength]
    simp only [maxDigits, maxBytes] at hmax ⊢
    omega
  · rw [fromBcd_returned_iff, unpack_pack _ imsi.values_lt_filler]
  · intro other hother
    rw [toBcd_eq, Option.some.injEq] at hother
    have hvalues : other.values = imsi.values := by
      rw [← unpack_pack _ other.values_lt_filler, hother, unpack_pack _ imsi.values_lt_filler]
    apply IMSI.ext
    rw [← map_values, hvalues, map_values]

theorem fromBcd_toBcd_odd :
    ∃ imsi, ofString (text "12345") = .returned imsi ∧
      ∃ data, imsi.toBcd = some data ∧ data.length = 3 ∧ data.length ≤ maxBytes ∧
        (∃ decoded, fromBcd data = .returned decoded ∧ decoded.str = text "12345") ∧
        ∀ other : IMSI, other.toBcd = some data → other = imsi :=
  ⟨⟨text "12345", by decide +kernel⟩, ofString_returned.mpr rfl,
    fromBcd_toBcd (text "12345") _ (ofString_returned.mpr rfl)⟩

/-- **Encoding undoes decoding exactly on the canonical byte strings**, those with
no filler before the last byte. They fit the largest encoding, and no two of
them decode to the same identity. -/
theorem toBcd_fromBcd_iff (data : List UInt8) (imsi : IMSI)
    (h : fromBcd data = .returned imsi) :
    (imsi.toBcd = some data ↔ Canonical data) ∧
      (Canonical data → data.length ≤ maxBytes ∧
        ∀ data', Canonical data' → fromBcd data' = .returned imsi → data' = data) := by
  have hiff : ∀ d, fromBcd d = .returned imsi → (imsi.toBcd = some d ↔ Canonical d) := by
    intro d hd
    rw [toBcd_eq, Option.some.injEq, fromBcd_returned_iff.mp hd]
    exact pack_unpack_iff d (low_ne_filler_of_fromBcd hd)
  refine ⟨hiff data h, fun hc => ⟨?_, ?_⟩⟩
  · have hdata : imsi.toBcd = some data := (hiff data h).mpr hc
    rw [toBcd_eq, Option.some.injEq] at hdata
    have hmax := imsi.valid.2.1
    rw [← hdata, length_pack, length_values]
    simp only [maxDigits, maxBytes] at hmax ⊢
    omega
  · intro data' hc' h'
    have heq : some data' = some data :=
      ((hiff data' h').mpr hc').symm.trans ((hiff data h).mpr hc)
    exact Option.some.inj heq

theorem toBcd_fromBcd_iff_canonical :
    ∃ imsi, fromBcd [0x21, 0xF3] = .returned imsi ∧ imsi.toBcd = some [0x21, 0xF3] := by
  refine ⟨⟨text "123", by decide +kernel⟩, by decide +kernel, ?_⟩
  exact (toBcd_fromBcd_iff [0x21, 0xF3] _ (by decide +kernel)).1.mpr (by decide +kernel)

/-- A filler in the first of two bytes is dropped: `F1 F2` is read as `12`, which
is encoded as `21`. -/
theorem toBcd_fromBcd_inner_filler :
    ∃ imsi, fromBcd [0xF1, 0xF2] = .returned imsi ∧ imsi.toBcd = some [0x21] ∧
      fromBcd [0x21] = .returned imsi ∧ imsi.toBcd ≠ some [0xF1, 0xF2] := by
  refine ⟨⟨text "12", by decide +kernel⟩, by decide +kernel, ?_, by decide +kernel, ?_⟩ <;>
    rw [toBcd_eq] <;> decide +kernel

end Pgw.IMSI
