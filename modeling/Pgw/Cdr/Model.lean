import Mathlib.Data.Int.DivMod
import Pgw.Lib.Calendar
import Pgw.Session.Store

/-!
# The CDR writer

`format_record` writes a time point, an identity and an action on one line. The time
point is cut twice, to seconds for the C library and to milliseconds for the fraction;
both cuts go towards zero. `gmtime` and `strftime` are the C library's and stay
parameters, together with the resolution of the system clock.

`utc` is what the two functions do on the seconds from 1970 on, with the conversions
that the writer's format has.
-/
namespace Pgw.CDRWriter

/-! ## The C library and the system clock -/

/-- The members of `std::tm` that have a conversion in the format. -/
structure Tm where
  /-- Years since 1900. -/
  year : ℤ
  /-- Months since January. -/
  mon : ℤ
  mday : ℤ
  hour : ℤ
  min : ℤ
  sec : ℤ
  deriving DecidableEq

/-- What the writer finds outside. -/
structure Platform where
  gmtime : ℤ → Tm
  strftime : StdString → Tm → StdString
  /-- Ticks of `std::chrono::system_clock` in a millisecond. -/
  ticks : ℕ
  ticks_pos : 0 < ticks

namespace Platform
variable (p : Platform)

/-- `system_clock::to_time_t`. -/
def toTimeT (tp : ℤ) : ℤ := tp.tdiv (1000 * p.ticks)

/-- `duration_cast<milliseconds>`. -/
def toMilliseconds (tp : ℤ) : ℤ := tp.tdiv p.ticks

end Platform

/-! ## Formatting -/

/-- `std::to_string`. -/
def stdToString (n : ℤ) : StdString :=
  (if n < 0 then text "-" else []) ++ (Nat.toDigits 10 n.natAbs).map Char.toUInt8

def dateFormat : StdString := text "%Y-%m-%d %H:%M:%S"

/-- The string of `buffer`, and the fraction. -/
def stamp (buffer : StdString) (ms : ℤ) : StdString :=
  buffer ++ text "." ++ (if ms < 100 then text "0" else []) ++
    (if ms < 10 then text "0" else []) ++ stdToString ms

/-- `format_timestamp`. -/
def formatTimestamp (p : Platform) (tp : ℤ) : StdString :=
  let time := p.toTimeT tp
  let ms := (p.toMilliseconds tp).tmod 1000
  stamp (p.strftime dateFormat (p.gmtime time)) ms

/-- `action_to_string`. -/
def actionToString : SessionAction → StdString
  | .created => text "CREATED"
  | .rejected => text "REJECTED"
  | .timeout => text "TIMEOUT"
  | .gracefulShutdown => text "GRACEFUL_SHUTDOWN"

/-- The concatenation in `format_record`. -/
def line (timestamp imsi : StdString) (action : SessionAction) : StdString :=
  timestamp ++ text "," ++ imsi ++ text "," ++ actionToString action

/-- `format_record`. -/
def formatRecord (p : Platform) (imsi : StdString) (action : SessionAction) (tp : ℤ) :
    StdString :=
  line (formatTimestamp p tp) imsi action

/-! ## UTC -/

/-- A conversion with the width that POSIX gives it. -/
def conversion (tm : Tm) : Char → StdString
  | 'Y' => FixedWidth.decimal 4 (tm.year + 1900).toNat
  | 'm' => FixedWidth.decimal 2 (tm.mon + 1).toNat
  | 'd' => FixedWidth.decimal 2 tm.mday.toNat
  | 'H' => FixedWidth.decimal 2 tm.hour.toNat
  | 'M' => FixedWidth.decimal 2 tm.min.toNat
  | 'S' => FixedWidth.decimal 2 tm.sec.toNat
  | _ => []

/-- `strftime`, for the six conversions above and characters that stand for themselves. -/
def expand (tm : Tm) : StdString → StdString
  | 37 :: c :: format => conversion tm (Char.ofNat c.toNat) ++ expand tm format
  | c :: format => c :: expand tm format
  | [] => []

/-- `gmtime`, from the epoch on. -/
def brokenDown (second : ℤ) : Tm :=
  match Calendar.fields second.toNat with
  | [year, month, day, hour, minute, second] =>
      ⟨year - 1900, month - 1, day, hour, minute, second⟩
  | _ => ⟨0, 0, 0, 0, 0, 0⟩

/-- The C library, and a clock that counts nanoseconds. -/
def utc : Platform where
  gmtime := brokenDown
  strftime format tm := expand tm format
  ticks := 1000000
  ticks_pos := by decide

example : formatRecord utc (text "123456789012345") .created 1705329025123000000 =
    text "2024-01-15 14:30:25.123,123456789012345,CREATED" := by decide +kernel

end Pgw.CDRWriter
