import MTAppenderFile.Comm.CTypes

/-! # Log information and the C library's time

`mtaf_log_info` (`loglib/mtaf_base.h`), and what the code takes from the C library and the platform
to print and compare times: `localtime`, and the text that `%+.1f` gives for an offset from UTC in
hours. Both depend on the time zone and are parameters (`Libc`); no result needs an assumption on
them. -/

namespace MTAppenderFile.Loglib.Base

open MTAppenderFile.Comm.CTypes

/-- `LOG_LEVEL_FATAL`. -/
def LOG_LEVEL_FATAL : ℤ := 5

/-- `struct timeval`. -/
structure TimeVal where
  tvSec : ℤ
  tvUsec : ℤ
  deriving DecidableEq, Repr

/-- `mtaf_log_info`. -/
structure LogInfo where
  level : ℤ
  tag : Option CStr
  timeval : TimeVal

/-- `struct tm`, as far as the code reads it. -/
structure Tm where
  tmYear : ℤ
  tmMon : ℤ
  tmMday : ℤ
  tmHour : ℤ
  tmMin : ℤ
  tmSec : ℤ
  tmGmtoff : ℤ
  deriving DecidableEq, Repr

/-- The library functions that depend on the platform's time zone and locale. -/
structure Libc where
  /-- `*localtime(&sec)`. -/
  localtime : ℤ → Tm
  /-- What `%+.1f` prints for `gmtoff / 3600.0`. -/
  gmtoffHours : ℤ → CStr

/-- A platform in UTC whose clock stands still. -/
def utc : Libc where
  localtime := fun _ => ⟨70, 0, 1, 0, 0, 0, 0⟩
  gmtoffHours := fun _ => ⟨ascii "+0.0", by decide⟩

/-- What `%0wd` prints: the sign counts in the width. -/
def zeroWidth (w : ℕ) (x : ℤ) : Bytes :=
  let sign := if x < 0 then ascii "-" else []
  let digits := decimal x.natAbs
  sign ++ List.replicate (w - sign.length - digits.length) 0x30 ++ digits

/-- What `%.wd` prints: at least `w` digits. -/
def zeroPrecision (w : ℕ) (x : ℤ) : Bytes :=
  let sign := if x < 0 then ascii "-" else []
  let digits := decimal x.natAbs
  sign ++ List.replicate (w - digits.length) 0x30 ++ digits

/-- The text of a time in the head of a record. -/
def timeText (lc : Libc) (tv : TimeVal) : Bytes :=
  let tm := lc.localtime tv.tvSec
  decimal (1900 + tm.tmYear) ++ ascii "-" ++ zeroWidth 2 (1 + tm.tmMon) ++ ascii "-" ++
    zeroWidth 2 tm.tmMday ++ ascii " " ++ (lc.gmtoffHours tm.tmGmtoff).bytes ++ ascii " " ++
    zeroWidth 2 tm.tmHour ++ ascii ":" ++ zeroWidth 2 tm.tmMin ++ ascii ":" ++
    zeroWidth 2 tm.tmSec ++ ascii "." ++ zeroPrecision 3 (tv.tvUsec.tdiv 1000)

theorem nul_notMem_padded (n : ℕ) (x : ℤ) :
    (0 : Byte) ∉ (if x < 0 then ascii "-" else []) ++ List.replicate n 0x30 ++ decimal x.natAbs := by
  have hs : (0 : Byte) ∉ (if x < 0 then ascii "-" else []) := by split_ifs <;> decide
  have hz : (0 : Byte) ∉ List.replicate n (0x30 : Byte) := fun h =>
    absurd (List.eq_of_mem_replicate h) (by decide)
  rw [List.mem_append, List.mem_append, not_or, not_or]
  exact ⟨⟨hs, hz⟩, nul_notMem_decimal _⟩

theorem nul_notMem_zeroWidth (w : ℕ) (x : ℤ) : (0 : Byte) ∉ zeroWidth w x := nul_notMem_padded _ x

theorem nul_notMem_zeroPrecision (w : ℕ) (x : ℤ) : (0 : Byte) ∉ zeroPrecision w x :=
  nul_notMem_padded _ x

/-- **The text of a time has no NUL byte.** -/
theorem nul_notMem_timeText (lc : Libc) (tv : TimeVal) : (0 : Byte) ∉ timeText lc tv := by
  have h1 : (0 : Byte) ∉ ascii "-" := by decide
  have h2 : (0 : Byte) ∉ ascii " " := by decide
  have h3 : (0 : Byte) ∉ ascii ":" := by decide
  have h4 : (0 : Byte) ∉ ascii "." := by decide
  simp only [timeText, List.mem_append, not_or]
  simp [h1, h2, h3, h4, nul_notMem_decimal, nul_notMem_zeroWidth, nul_notMem_zeroPrecision, CStr.nul]

end MTAppenderFile.Loglib.Base
