import Mathlib.Logic.Function.Basic
import Pgw.Cdr.Model

/-!
# Reading the CDR back

A line is a timestamp, an identity and an action between commas. The two cuts of the
time point agree: its second is the second of its millisecond, at every boundary. With
three digits for the fraction, and seconds that the C library writes on one width and
in order, timestamps then are in the order of their time points, and a line determines
what it was made of, microseconds and below apart.

`utc` is a C library of this kind, up to the end of the year 9999.

## Main results

* `formatTimestamp_eq` — the second and three digits.
* `formatRecord_decodes` — lines are split, decoded and ordered.
* `renders_utc` — the seconds of the calendar qualify.
-/
namespace Pgw.CDRWriter
open FixedWidth

/-! ## Seconds -/

def comma : UInt8 := ','.toUInt8

/-- A second from 1970 through the year 9999. -/
def IsSecond (s : ℤ) : Prop := 0 ≤ s ∧ s < Calendar.horizon

/-- A time point in one of these seconds. -/
def InRange (p : Platform) (tp : ℤ) : Prop := 0 ≤ tp ∧ tp < Calendar.horizon * (1000 * p.ticks)

/-- What the C library writes for a second. -/
def Platform.second (p : Platform) (s : ℤ) : StdString := p.strftime dateFormat (p.gmtime s)

/-- The strings of the seconds have one width and no comma, and are different and in
order. -/
structure Renders (p : Platform) : Prop where
  width : ∃ w, ∀ s, IsSecond s → (p.second s).length = w
  noComma : ∀ s, IsSecond s → comma ∉ p.second s
  injective : ∀ s s', IsSecond s → IsSecond s' → p.second s = p.second s' → s = s'
  ordered : ∀ s s', IsSecond s → IsSecond s' → s ≤ s' → p.second s ≤ p.second s'

/-! ## The two cuts -/

section
variable {p : Platform} {tp : ℤ}

/-- **The cuts agree**: the second of a time point is that of its millisecond. -/
theorem toTimeT_eq (htp : 0 ≤ tp) : p.toTimeT tp = p.toMilliseconds tp / 1000 := by
  have hticks : (0 : ℤ) ≤ p.ticks := Int.natCast_nonneg _
  rw [Platform.toTimeT, Platform.toMilliseconds, Int.tdiv_eq_ediv_of_nonneg htp,
    Int.tdiv_eq_ediv_of_nonneg htp, Int.ediv_ediv_of_nonneg hticks, Int.mul_comm]

theorem toMilliseconds_nonneg (htp : 0 ≤ tp) : 0 ≤ p.toMilliseconds tp :=
  Int.tdiv_nonneg htp (Int.natCast_nonneg _)

theorem toMilliseconds_mono {tp' : ℤ} (htp : 0 ≤ tp) (h : tp ≤ tp') :
    p.toMilliseconds tp ≤ p.toMilliseconds tp' := by
  rw [Platform.toMilliseconds, Platform.toMilliseconds, Int.tdiv_eq_ediv_of_nonneg htp,
    Int.tdiv_eq_ediv_of_nonneg (htp.trans h)]
  exact Int.ediv_le_ediv (Int.natCast_pos.mpr p.ticks_pos) h

theorem InRange.isSecond (h : InRange p tp) : IsSecond (p.toTimeT tp) := by
  have hticks : (0 : ℤ) < 1000 * p.ticks :=
    Int.mul_pos (by decide) (Int.natCast_pos.mpr p.ticks_pos)
  rw [IsSecond, Platform.toTimeT, Int.tdiv_eq_ediv_of_nonneg h.1]
  exact ⟨Int.ediv_nonneg h.1 hticks.le, Int.ediv_lt_of_lt_mul hticks h.2⟩

/-! ## The timestamp -/

private theorem digitChar_fin : ∀ d : Fin 10, (Nat.digitChar d).toUInt8 = digit d := by decide

theorem stdToString_natCast (n : ℕ) :
    stdToString n = (Nat.toDigits 10 n).map Char.toUInt8 := by
  rw [stdToString, if_neg (Int.not_lt.mpr (Int.natCast_nonneg n)), List.nil_append,
    Int.natAbs_natCast]

theorem stdToString_digit {d : ℕ} (h : d < 10) : stdToString d = [digit d] := by
  rw [stdToString_natCast, Nat.toDigits_of_lt_base h, List.map_singleton]
  exact congrArg (fun c => [c]) (digitChar_fin ⟨d, h⟩)

theorem stdToString_snoc {n : ℕ} (h : 10 ≤ n) :
    stdToString n = stdToString (n / 10 : ℕ) ++ [digit (n % 10)] := by
  have hdigit : n % 10 < 10 := Nat.mod_lt _ (by decide)
  rw [stdToString_natCast, stdToString_natCast, Nat.toDigits_of_base_le (by decide) h,
    List.map_append, List.map_singleton]
  exact congrArg (fun c => _ ++ [c]) (digitChar_fin ⟨n % 10, hdigit⟩)

/-- **The two conditional zeros fill up to three digits.** -/
theorem stamp_eq (buffer : StdString) {ms : ℕ} (h : ms < 1000) :
    stamp buffer ms = buffer ++ text "." ++ decimal 3 ms := by
  have hzero : text "0" = [digit 0] := by decide +kernel
  have hthree : decimal 3 ms = [digit (ms / 10 / 10 % 10), digit (ms / 10 % 10), digit (ms % 10)] :=
    rfl
  rw [stamp, hthree, hzero]
  obtain hms | hms | hms : ms < 10 ∨ 10 ≤ ms ∧ ms < 100 ∨ 100 ≤ ms := by omega
  · have hlarge : ms / 10 / 10 % 10 = 0 ∧ ms / 10 % 10 = 0 ∧ ms % 10 = ms := by omega
    rw [if_pos (by omega), if_pos (by omega), stdToString_digit hms, hlarge.1, hlarge.2.1,
      hlarge.2.2]
    simp
  · have hlarge : ms / 10 / 10 % 10 = 0 ∧ ms / 10 % 10 = ms / 10 := by omega
    rw [if_pos (by omega), if_neg (by omega), stdToString_snoc hms.1,
      stdToString_digit (by omega), hlarge.1, hlarge.2]
    simp
  · have hlarge : ms / 10 / 10 % 10 = ms / 10 / 10 := by omega
    rw [if_neg (by omega), if_neg (by omega), stdToString_snoc (by omega),
      stdToString_snoc (by omega), stdToString_digit (by omega), hlarge]
    simp

/-- The milliseconds in the second of a time point. -/
def fraction (p : Platform) (tp : ℤ) : ℕ := (p.toMilliseconds tp % 1000).toNat

theorem fraction_lt (p : Platform) (tp : ℤ) : fraction p tp < 1000 := by
  unfold fraction
  omega

/-- **A timestamp is its second, a point and three digits.** -/
theorem formatTimestamp_eq (htp : 0 ≤ tp) :
    formatTimestamp p tp =
      p.second (p.toTimeT tp) ++ text "." ++ decimal 3 (fraction p tp) := by
  have hms : (p.toMilliseconds tp).tmod 1000 = (fraction p tp : ℕ) := by
    rw [Int.tmod_eq_emod_of_nonneg (toMilliseconds_nonneg htp), fraction]
    omega
  rw [formatTimestamp, hms, stamp_eq _ (fraction_lt p tp)]
  rfl

theorem decimal_mem {w n : ℕ} : ∀ c ∈ decimal w n, c ∈ decimalDigits := by
  intro c hc
  obtain ⟨d, hd, rfl⟩ := exists_digit_of_mem hc
  have hdigit : ∀ d : Fin 10, digit d ∈ decimalDigits := by decide
  exact hdigit ⟨d, hd⟩

theorem comma_notMem_decimal {w n : ℕ} : comma ∉ decimal w n :=
  fun h => absurd (decimal_mem _ h) (by decide)

theorem comma_notMem_timestamp (h : Renders p) (htp : InRange p tp) :
    comma ∉ formatTimestamp p tp := by
  rw [formatTimestamp_eq htp.1, List.mem_append, List.mem_append, not_or, not_or]
  exact ⟨⟨h.noComma _ htp.isSecond, by decide⟩, comma_notMem_decimal⟩

end

/-! ## Order -/

section
variable {p : Platform} {tp tp' : ℤ}

/-- Strings in the order of their numbers determine them. -/
theorem eq_of_ordered {m m' : ℤ} {l l' : StdString} (hlt : m < m' → l < l')
    (hgt : m' < m → l' < l) (h : l = l') : m = m' := by
  subst h
  by_contra hne
  obtain hm | hm := Int.lt_or_gt_of_ne hne
  · exact List.lt_irrefl l (hlt hm)
  · exact List.lt_irrefl l (hgt hm)

theorem second_lt_second (h : Renders p) {s s' : ℤ} (hs : IsSecond s) (hs' : IsSecond s')
    (hlt : s < s') : p.second s < p.second s' := by
  obtain hlt' | heq := List.le_iff_lt_or_eq.mp (h.ordered s s' hs hs' hlt.le)
  · exact hlt'
  · exact absurd (h.injective s s' hs hs' heq) hlt.ne

/-- Timestamps of different milliseconds differ, and are in order. -/
theorem formatTimestamp_lt (h : Renders p) (htp : InRange p tp) (htp' : InRange p tp')
    (hlt : p.toMilliseconds tp < p.toMilliseconds tp') :
    formatTimestamp p tp < formatTimestamp p tp' := by
  obtain ⟨w, hwidth⟩ := h.width
  rw [formatTimestamp_eq htp.1, formatTimestamp_eq htp'.1]
  have hsecond := toTimeT_eq (p := p) htp.1
  have hsecond' := toTimeT_eq (p := p) htp'.1
  obtain hs | hs : p.toTimeT tp < p.toTimeT tp' ∨ p.toTimeT tp = p.toTimeT tp' := by omega
  · have hlength : (p.second (p.toTimeT tp)).length = (p.second (p.toTimeT tp')).length := by
      rw [hwidth _ htp.isSecond, hwidth _ htp'.isSecond]
    rw [List.append_assoc, List.append_assoc]
    exact append_lt_append (second_lt_second h htp.isSecond htp'.isSecond hs) hlength _ _
  · have hfraction : fraction p tp < fraction p tp' := by
      have hnonneg := toMilliseconds_nonneg (p := p) htp.1
      unfold fraction
      omega
    have hbound : fraction p tp' < 10 ^ 3 := fraction_lt p tp'
    rw [hs]
    exact List.append_left_lt (decimal_lt_decimal hbound hfraction)

theorem formatTimestamp_eq_of_eq (htp : 0 ≤ tp) (htp' : 0 ≤ tp')
    (heq : p.toMilliseconds tp = p.toMilliseconds tp') :
    formatTimestamp p tp = formatTimestamp p tp' := by
  rw [formatTimestamp_eq htp, formatTimestamp_eq htp', toTimeT_eq htp, toTimeT_eq htp', fraction,
    fraction, heq]

/-- **Timestamps are in the order of their time points.** -/
theorem formatTimestamp_le (h : Renders p) (htp : InRange p tp) (htp' : InRange p tp')
    (hle : tp ≤ tp') : formatTimestamp p tp ≤ formatTimestamp p tp' := by
  obtain hlt | heq := (toMilliseconds_mono (p := p) htp.1 hle).lt_or_eq
  · exact List.le_of_lt (formatTimestamp_lt h htp htp' hlt)
  · rw [formatTimestamp_eq_of_eq htp.1 htp'.1 heq]
    exact List.le_refl _

/-- A timestamp determines its millisecond. -/
theorem toMilliseconds_of_eq (h : Renders p) (htp : InRange p tp) (htp' : InRange p tp')
    (heq : formatTimestamp p tp = formatTimestamp p tp') :
    p.toMilliseconds tp = p.toMilliseconds tp' := by
  refine eq_of_ordered (fun hlt => ?_) (fun hgt => ?_) heq
  · exact formatTimestamp_lt h htp htp' hlt
  · exact formatTimestamp_lt h htp' htp hgt

end

/-! ## Lines -/

section
variable {p : Platform}

theorem actionToString_injective : Function.Injective actionToString := by
  intro a a' h
  cases a <;> cases a' <;> first | rfl | exact absurd h (by decide +kernel)

theorem comma_notMem_action (action : SessionAction) : comma ∉ actionToString action := by
  cases action <;> decide +kernel

theorem comma_notMem_imsi (imsi : IMSI) : comma ∉ imsi.str :=
  fun h => absurd (imsi.valid.2.2 comma h) (by decide +kernel)

theorem line_eq_intercalate (timestamp imsi : StdString) (action : SessionAction) :
    line timestamp imsi action = [comma].intercalate [timestamp, imsi, actionToString action] := by
  have hcomma : text "," = [comma] := by decide +kernel
  simp [line, hcomma, List.intercalate]

/-- Two commas, neither of them inside a part. -/
theorem splitOn_line {timestamp : StdString} (htimestamp : comma ∉ timestamp) (imsi : IMSI)
    (action : SessionAction) :
    (line timestamp imsi.str action).splitOn comma =
      [timestamp, imsi.str, actionToString action] := by
  rw [line_eq_intercalate]
  refine List.splitOn_intercalate comma ?_ (by simp)
  simp [htimestamp, comma_notMem_imsi, comma_notMem_action]

theorem count_line {timestamp : StdString} (htimestamp : comma ∉ timestamp) (imsi : IMSI)
    (action : SessionAction) : (line timestamp imsi.str action).count comma = 2 := by
  have hcomma : (text ",").count comma = 1 := by decide +kernel
  rw [line, List.count_append, List.count_append, List.count_append, List.count_append,
    List.count_eq_zero.mpr htimestamp, List.count_eq_zero.mpr (comma_notMem_imsi imsi),
    List.count_eq_zero.mpr (comma_notMem_action action), hcomma]

/-- A line determines the millisecond, the identity and the action. -/
theorem formatRecord_injective (h : Renders p) {tp tp' : ℤ} {imsi imsi' : IMSI}
    {action action' : SessionAction} (htp : InRange p tp) (htp' : InRange p tp')
    (heq : formatRecord p imsi.str action tp = formatRecord p imsi'.str action' tp') :
    p.toMilliseconds tp = p.toMilliseconds tp' ∧ imsi = imsi' ∧ action = action' := by
  have hparts := congrArg (List.splitOn comma) heq
  rw [formatRecord, formatRecord, splitOn_line (comma_notMem_timestamp h htp),
    splitOn_line (comma_notMem_timestamp h htp')] at hparts
  simp only [List.cons.injEq, and_true] at hparts
  exact ⟨toMilliseconds_of_eq h htp htp' hparts.1, IMSI.ext hparts.2.1,
    actionToString_injective hparts.2.2⟩

/-- **The CDR is read back.** Every line is split at its two commas and decoded up to the
millisecond, and the timestamps sort the lines by time. -/
theorem formatRecord_decodes (p : Platform) (h : Renders p) :
    (∀ tp imsi action, InRange p tp →
      let record := formatRecord p (IMSI.str imsi) action tp
      record.count comma = 2 ∧
      record.splitOn comma = [formatTimestamp p tp, imsi.str, actionToString action] ∧
      ∃ fraction, formatTimestamp p tp = p.second (p.toTimeT tp) ++ text "." ++ fraction ∧
        fraction.length = 3 ∧ ∀ c ∈ fraction, c ∈ decimalDigits) ∧
    (∃ decode : StdString → Option (ℤ × IMSI × SessionAction), ∀ tp imsi action, InRange p tp →
      decode (formatRecord p imsi.str action tp) = some (p.toMilliseconds tp, imsi, action)) ∧
    ∀ tp tp', InRange p tp → InRange p tp' → tp ≤ tp' →
      formatTimestamp p tp ≤ formatTimestamp p tp' := by
  refine ⟨?_, ?_, fun tp tp' htp htp' => formatTimestamp_le h htp htp'⟩
  · intro tp imsi action htp record
    have htimestamp := comma_notMem_timestamp h htp
    exact ⟨count_line htimestamp imsi action, splitOn_line htimestamp imsi action, _,
      formatTimestamp_eq htp.1, length_decimal 3 _, decimal_mem⟩
  · let Parts := {tp : ℤ // InRange p tp} × IMSI × SessionAction
    let write : Parts → StdString := fun x => formatRecord p x.2.1.str x.2.2 x.1
    let made : Parts → Option (ℤ × IMSI × SessionAction) :=
      fun x => some (p.toMilliseconds x.1, x.2.1, x.2.2)
    have hfactors : Function.FactorsThrough made write := by
      intro x y hxy
      obtain ⟨htp, himsi, haction⟩ := formatRecord_injective h x.1.2 y.1.2 hxy
      simp only [made, htp, himsi, haction]
    refine ⟨Function.extend write made fun _ => none, fun tp imsi action htp => ?_⟩
    exact hfactors.extend_apply _ (⟨tp, htp⟩, imsi, action)

end

/-! ## The seconds of the calendar -/

/-- The six conversions and what stands between them. -/
def columns : List Column :=
  [⟨4, text "-"⟩, ⟨2, text "-"⟩, ⟨2, text " "⟩, ⟨2, text ":"⟩, ⟨2, text ":"⟩, ⟨2, []⟩]

theorem expand_dateFormat (tm : Tm) :
    expand tm dateFormat =
      row columns [(tm.year + 1900).toNat, (tm.mon + 1).toNat, tm.mday.toNat, tm.hour.toNat,
        tm.min.toNat, tm.sec.toNat] := by
  have hformat : dateFormat =
      [37, 89, 45, 37, 109, 45, 37, 100, 32, 37, 72, 58, 37, 77, 58, 37, 83] := by decide +kernel
  have hcolumns : columns = [⟨4, [45]⟩, ⟨2, [45]⟩, ⟨2, [32]⟩, ⟨2, [58]⟩, ⟨2, [58]⟩, ⟨2, []⟩] := by
    decide +kernel
  rw [hformat, hcolumns]
  simp only [expand, row, List.cons_append, List.nil_append, List.append_nil]
  rfl

theorem second_utc (s : ℤ) : utc.second s = row columns (Calendar.fields s.toNat) := by
  have hsecond : utc.second s = expand (brokenDown s) dateFormat := rfl
  obtain ⟨year, month, day, hour, minute, second, hfields⟩ :
      ∃ year month day hour minute second,
        Calendar.fields s.toNat = [year, month, day, hour, minute, second] :=
    ⟨_, _, _, _, _, _, rfl⟩
  rw [hsecond, expand_dateFormat, brokenDown, hfields]
  simp only [Int.sub_add_cancel, Int.toNat_natCast]

theorem fits_fields {s : ℤ} (hs : IsSecond s) : Fits columns (Calendar.fields s.toNat) := by
  have hmonth := Calendar.month_lt (Int.toNat_lt hs.1 |>.mpr hs.2)
  have hday := Calendar.dayOfMonth_lt (s.toNat / 86400 + Calendar.epoch)
  rw [Calendar.fields, Calendar.date]
  generalize Calendar.month (s.toNat / 86400 + Calendar.epoch) = month at hmonth ⊢
  generalize Calendar.dayOfMonth (s.toNat / 86400 + Calendar.epoch) = day at hday ⊢
  have hrest : s.toNat % 86400 < 86400 := Nat.mod_lt _ (by decide)
  generalize s.toNat % 86400 = rest at hrest ⊢
  refine .cons ?_ (.cons ?_ (.cons ?_ (.cons ?_ (.cons ?_ (.cons ?_ .nil)))))
  all_goals
    simp only
    omega

/-- **The seconds from 1970 through 9999 are written in order**, on nineteen places. -/
theorem renders_utc : Renders utc := by
  have hlt : ∀ s s', IsSecond s → IsSecond s' → s < s' → utc.second s < utc.second s' := by
    intro s s' hs hs' h
    rw [second_utc, second_utc]
    refine row_lt_row (fits_fields hs) (fits_fields hs') (Calendar.fields_lt_fields ?_)
    have hnonneg := hs.1
    omega
  refine ⟨⟨19, fun s hs => ?_⟩, fun s hs hcomma => ?_, fun s s' hs hs' heq => ?_,
    fun s s' hs hs' hle => ?_⟩
  · rw [second_utc, length_row (fits_fields hs)]
    decide +kernel
  · rw [second_utc] at hcomma
    obtain ⟨d, hd, hdigit⟩ | ⟨col, hcol, hafter⟩ := mem_row hcomma
    · have hno : ∀ d : Fin 10, comma ≠ digit d := by decide
      exact hno ⟨d, hd⟩ hdigit
    · have hno : ∀ col ∈ columns, comma ∉ col.after := by decide +kernel
      exact hno col hcol hafter
  · exact eq_of_ordered (hlt s s' hs hs') (hlt s' s hs' hs) heq
  · obtain h | rfl := hle.lt_or_eq
    · exact List.le_of_lt (hlt s s' hs hs' h)
    · exact List.le_refl _

/-- The first line of the documentation: split, read back up to the millisecond, and
not before a line of the last nanosecond before its second. -/
theorem formatRecord_decodes_utc :
    ∃ imsi : IMSI, ∃ record, imsi.str = text "123456789012345" ∧
      record = text "2024-01-15 14:30:25.123,123456789012345,CREATED" ∧
      formatRecord utc imsi.str .created 1705329025123456789 = record ∧
      record.count comma = 2 ∧
      record.splitOn comma = [formatTimestamp utc 1705329025123456789, imsi.str,
        actionToString .created] ∧
      (∃ decode : StdString → Option (ℤ × IMSI × SessionAction),
        decode record = some (1705329025123, imsi, .created)) ∧
      formatTimestamp utc 1705329024999999999 ≤ formatTimestamp utc 1705329025123456789 := by
  have hrange : ∀ tp, 1705329024999999999 ≤ tp ∧ tp ≤ 1705329025123456789 → InRange utc tp := by
    intro tp htp
    exact ⟨by omega, lt_of_le_of_lt htp.2 (by decide)⟩
  have htp : InRange utc 1705329025123456789 := hrange _ (by decide)
  obtain ⟨hsplit, ⟨decode, hdecode⟩, hordered⟩ := formatRecord_decodes utc renders_utc
  let imsi : IMSI := ⟨text "123456789012345", by decide +kernel⟩
  have hrecord : formatRecord utc imsi.str .created 1705329025123456789 =
      text "2024-01-15 14:30:25.123,123456789012345,CREATED" := by decide +kernel
  obtain ⟨hcount, hparts, -⟩ := hsplit 1705329025123456789 imsi .created htp
  have hread := hdecode 1705329025123456789 imsi .created htp
  exact ⟨imsi, _, rfl, hrecord, rfl, hcount, hparts, ⟨decode, hread⟩,
    hordered _ _ (hrange _ (by decide)) htp (by decide)⟩

end Pgw.CDRWriter
