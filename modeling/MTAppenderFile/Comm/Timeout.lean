import Mathlib.Algebra.Order.Ring.Int
import Mathlib.Data.Int.Basic
import Mathlib.Tactic.Common

/-! # The end of a timed wait

`Condition::makeTimeout` (`comm/mtaf_condition.h`), which `Mutex::MakeTimeout` repeats, adds a time in milliseconds to
the time of day, for `pthread_cond_timedwait`. The result is exact for every `long` (`nsec_makeTimeout`), and no value
on the way leaves 64 bits (`makeTimeout_fits`). For a negative time it may be no valid `timespec`, since C rounds
towards zero; `pthread_cond_timedwait` does not wait then. -/

namespace MTAppenderFile.Comm.Timeout

/-- `struct timeval`. -/
structure Timeval where
  tvSec : ℤ
  tvUsec : ℤ

/-- `struct timespec`. -/
structure Timespec where
  tvSec : ℤ
  tvNsec : ℤ
  deriving DecidableEq

/-- `gettimeofday`, at a time in microseconds. -/
def gettimeofday (clock : ℕ) : Timeval := ⟨clock / 1000000, clock % 1000000⟩

/-- `Condition::makeTimeout`. -/
def makeTimeout (tv : Timeval) (millisecond : ℤ) : Timespec :=
  let tvSec := millisecond.tdiv 1000 + tv.tvSec
  let tvNsec := millisecond.tmod 1000 * 1000 * 1000 + tv.tvUsec * 1000
  ⟨tvSec + tvNsec.tdiv (1000 * 1000 * 1000), tvNsec.tmod (1000 * 1000 * 1000)⟩

namespace Timespec

/-- `pthread_cond_timedwait` takes it; otherwise it returns `EINVAL`. -/
def Valid (ts : Timespec) : Prop := 0 ≤ ts.tvNsec ∧ ts.tvNsec < 1000000000

instance (ts : Timespec) : Decidable ts.Valid := inferInstanceAs (Decidable (_ ∧ _))

/-- The time in nanoseconds. -/
def nsec (ts : Timespec) : ℤ := ts.tvSec * 1000000000 + ts.tvNsec

/-- The time has come. -/
def Passed (ts : Timespec) (clock : ℕ) : Prop := ts.nsec ≤ clock * 1000

instance (ts : Timespec) (clock : ℕ) : Decidable (ts.Passed clock) := inferInstanceAs (Decidable (_ ≤ _))

end Timespec

/-- **The result is exact.** -/
theorem nsec_makeTimeout (clock : ℕ) (ms : ℤ) :
    (makeTimeout (gettimeofday clock) ms).nsec = clock * 1000 + ms * 1000000 := by
  have hms := Int.mul_tdiv_add_tmod ms 1000
  have hns := Int.mul_tdiv_add_tmod (ms.tmod 1000 * 1000 * 1000 + (clock : ℤ) % 1000000 * 1000) 1000000000
  have hclock := Int.mul_ediv_add_emod (clock : ℤ) 1000000
  simp only [makeTimeout, gettimeofday, Timespec.nsec, Int.reduceMul]
  omega

theorem valid_makeTimeout {clock : ℕ} {ms : ℤ} (h : 0 ≤ ms) : (makeTimeout (gettimeofday clock) ms).Valid := by
  have hms := Int.tmod_nonneg 1000 h
  have hclock := Int.emod_nonneg (clock : ℤ) (b := 1000000) (by decide)
  simp only [Timespec.Valid, makeTimeout, gettimeofday, Int.reduceMul]
  exact ⟨Int.tmod_nonneg _ (by omega), Int.tmod_lt_of_pos _ (by decide)⟩

/-- A value of 64 bits. -/
def Fits (x : ℤ) : Prop := -2 ^ 63 ≤ x ∧ x < 2 ^ 63

/-- **No overflow**: every value on the way has 64 bits, for every `long` and for any date. -/
theorem makeTimeout_fits {clock : ℕ} {ms : ℤ} (hms : Fits ms) (hclock : clock < 2 ^ 62) :
    let tv := gettimeofday clock
    let tvNsec := ms.tmod 1000 * 1000 * 1000 + tv.tvUsec * 1000
    Fits (ms.tdiv 1000 + tv.tvSec) ∧ Fits (ms.tmod 1000 * 1000 * 1000) ∧ Fits (tv.tvUsec * 1000) ∧ Fits tvNsec ∧
      Fits (makeTimeout tv ms).tvSec ∧ Fits (makeTimeout tv ms).tvNsec := by
  obtain ⟨hlo, hhi⟩ := hms
  have hdiv := Int.mul_tdiv_add_tmod ms 1000
  have hmod : -1000 < ms.tmod 1000 ∧ ms.tmod 1000 < 1000 :=
    ⟨by have := Int.lt_tmod_of_pos ms (b := 1000) (by decide); omega, Int.tmod_lt_of_pos _ (by decide)⟩
  have hns := Int.mul_tdiv_add_tmod (ms.tmod 1000 * 1000 * 1000 + (clock : ℤ) % 1000000 * 1000) 1000000000
  have hnsmod : -1000000000 < (ms.tmod 1000 * 1000 * 1000 + (clock : ℤ) % 1000000 * 1000).tmod 1000000000 ∧
      (ms.tmod 1000 * 1000 * 1000 + (clock : ℤ) % 1000000 * 1000).tmod 1000000000 < 1000000000 :=
    ⟨by have := Int.lt_tmod_of_pos (ms.tmod 1000 * 1000 * 1000 + (clock : ℤ) % 1000000 * 1000)
          (b := 1000000000) (by decide); omega, Int.tmod_lt_of_pos _ (by decide)⟩
  simp only [Fits, makeTimeout, gettimeofday, Int.reduceMul]
  omega

end MTAppenderFile.Comm.Timeout
