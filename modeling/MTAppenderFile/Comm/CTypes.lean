import Mathlib.Data.List.Basic
import Mathlib.Algebra.Order.Ring.Int
import Mathlib.Data.Int.Basic
import Mathlib.Tactic.Common

/-! # C types and the C library

Bytes, the conversions between the integer types of a 64-bit platform (`size_t`, `off_t`,
`unsigned int`, `int`), NUL-terminated strings, and the two library functions the code calls on
memory: `strnlen`, which reads bytes until a NUL or the limit and is undefined (`none`) when it runs
off the memory, and `snprintf`, which stores at most `size - 1` bytes and a NUL and returns the
length the whole text would have had. -/

namespace MTAppenderFile.Comm.CTypes

abbrev Byte := UInt8
abbrev Bytes := List Byte

/-! ### Integer conversions -/

/-- Conversion to `size_t`. -/
def sizeT (x : ℤ) : ℕ := (x % 2 ^ 64).toNat

/-- Conversion to `off_t`. -/
def offT (x : ℤ) : ℤ := x.bmod (2 ^ 64)

/-- Conversion to `unsigned int`. -/
def uint32 (x : ℤ) : ℕ := (x % 2 ^ 32).toNat

/-- Conversion to `int`. -/
def int32 (x : ℤ) : ℤ := x.bmod (2 ^ 32)

theorem sizeT_of_lt {x : ℤ} (h0 : 0 ≤ x) (h : x < 2 ^ 64) : sizeT x = x.toNat := by
  rw [sizeT, Int.emod_eq_of_lt h0 h]

theorem sizeT_natCast {n : ℕ} (h : n < 2 ^ 64) : sizeT n = n := by
  rw [sizeT_of_lt (by omega) (by omega), Int.toNat_natCast]

theorem offT_of_lt {x : ℤ} (h0 : -2 ^ 63 ≤ x) (h : x < 2 ^ 63) : offT x = x := by
  rw [offT, Int.bmod_def]; split_ifs <;> omega

theorem uint32_of_lt {x : ℤ} (h0 : 0 ≤ x) (h : x < 2 ^ 32) : uint32 x = x.toNat := by
  rw [uint32, Int.emod_eq_of_lt h0 h]

/-! ### Text -/

/-- The bytes of an ASCII text. -/
def ascii (s : String) : Bytes := s.toList.map fun c => UInt8.ofNat c.toNat

/-- What `%d` prints. -/
def decimal : ℤ → Bytes
  | .ofNat n => (Nat.toDigits 10 n).map fun c => UInt8.ofNat c.toNat
  | .negSucc n => ascii "-" ++ (Nat.toDigits 10 (n + 1)).map fun c => UInt8.ofNat c.toNat

theorem nul_notMem_digits (n : ℕ) : (0 : Byte) ∉ (Nat.toDigits 10 n).map fun c => UInt8.ofNat c.toNat := by
  intro h
  obtain ⟨c, hc, h0⟩ := List.mem_map.mp h
  have hd := Char.isDigit_iff_toNat.mp (Nat.isDigit_of_mem_toDigits (by decide) (by decide) hc)
  have h48 : '0'.toNat = 48 := rfl
  have h57 : '9'.toNat = 57 := rfl
  have hz := congrArg UInt8.toNat h0
  rw [UInt8.toNat_ofNat', UInt8.toNat_zero] at hz
  omega

theorem nul_notMem_decimal (x : ℤ) : (0 : Byte) ∉ decimal x := by
  cases x with
  | ofNat n => exact nul_notMem_digits n
  | negSucc n =>
    rw [decimal, List.mem_append, not_or]
    exact ⟨by decide, nul_notMem_digits (n + 1)⟩

/-- A NUL-terminated string: its bytes before the NUL. -/
structure CStr where
  bytes : Bytes
  nul : (0 : Byte) ∉ bytes

/-- The memory of a string, its NUL included. -/
def CStr.mem (s : CStr) : Bytes := s.bytes ++ [0]

/-! ### `strnlen` and `snprintf` -/

/-- `strnlen(m, n)`; undefined when it runs off the memory. -/
def strnlen : Bytes → ℕ → Option ℕ
  | _, 0 => some 0
  | [], _ + 1 => none
  | c :: m, n + 1 => if c = 0 then some 0 else (strnlen m n).map (· + 1)

theorem strnlen_append : ∀ (l m : Bytes) (n : ℕ), (0 : Byte) ∉ l →
    strnlen (l ++ 0 :: m) n = some (min n l.length)
  | _, _, 0, _ => by simp [strnlen]
  | [], m, n + 1, _ => by simp [strnlen]
  | c :: l, m, n + 1, h => by
    have hc : c ≠ 0 := fun h0 => h (by simp [h0])
    have hl : (0 : Byte) ∉ l := fun h0 => h (by simp [h0])
    rw [List.cons_append, strnlen, if_neg hc, strnlen_append l m n hl]
    simp

@[simp] theorem CStr.strnlen_mem (s : CStr) (n : ℕ) :
    strnlen s.mem n = some (min n s.bytes.length) := strnlen_append _ _ _ s.nul

theorem strnlen_eq_zero_iff {m : Bytes} {n : ℕ} :
    strnlen m n = some 0 ↔ n = 0 ∨ m.head? = some 0 := by
  cases n with
  | zero => simp [strnlen]
  | succ n =>
    cases m with
    | nil => simp [strnlen]
    | cons c m =>
      by_cases hc : c = 0 <;> simp [strnlen, hc]

theorem exists_strnlen : ∀ {m : Bytes} {n : ℕ}, n ≤ m.length → ∃ k ≤ n, strnlen m n = some k
  | _, 0, _ => ⟨0, le_rfl, by simp [strnlen]⟩
  | [], n + 1, h => by simp at h
  | c :: m, n + 1, h => by
    by_cases hc : c = 0
    · exact ⟨0, Nat.zero_le _, by rw [strnlen, if_pos hc]⟩
    · obtain ⟨k, hk, hs⟩ := exists_strnlen (m := m) (n := n) (by simpa using h)
      exact ⟨k + 1, by omega, by rw [strnlen, if_neg hc, hs]; rfl⟩

/-- `snprintf(…, size, …)` of a text: the bytes it stores and what it returns. A text longer than
`INT_MAX` has no length to return. -/
def snprintf (size : ℕ) (text : Bytes) : Bytes × ℤ :=
  (text.take (size - 1) ++ [0], if text.length < 2 ^ 31 then text.length else -1)

/-- The first `n` bytes of a block of memory; undefined when it has fewer. -/
def readBlock (m : Bytes) (n : ℕ) : Option Bytes :=
  if (m.take n).length = n then some (m.take n) else none

/-- The `n` bytes of a block of memory from `p` on; undefined when they are not all in it. -/
def readMem (m : Bytes) (p : ℤ) (n : ℕ) : Option Bytes :=
  if 0 ≤ p ∧ p + n ≤ m.length then some ((m.drop p.toNat).take n) else none

theorem readBlock_of_le {m : Bytes} {n : ℕ} (h : n ≤ m.length) : readBlock m n = some (m.take n) :=
  if_pos (List.length_take_of_le h)

theorem readBlock_of_lt {m : Bytes} {n : ℕ} (h : m.length < n) : readBlock m n = none :=
  if_neg (by rw [List.length_take, Nat.min_eq_right h.le]; exact h.ne)

/-- A block of memory or a file cut to `n` bytes, or continued with zeros up to `n` bytes. -/
def resize (m : Bytes) (n : ℕ) : Bytes := m.take n ++ List.replicate (n - m.length) 0

@[simp] theorem length_resize (m : Bytes) (n : ℕ) : (resize m n).length = n := by
  simp only [resize, List.length_append, List.length_take, List.length_replicate]; omega

theorem take_resize {m : Bytes} {k n : ℕ} (hm : k ≤ m.length) (hn : k ≤ n) : (resize m n).take k = m.take k := by
  rw [resize, List.take_append_of_le_length (by rw [List.length_take]; omega), List.take_take, Nat.min_eq_left hn]

theorem resize_of_length {m : Bytes} {n : ℕ} (h : m.length = n) : resize m n = m := by
  simp [resize, ← h]

end MTAppenderFile.Comm.CTypes
