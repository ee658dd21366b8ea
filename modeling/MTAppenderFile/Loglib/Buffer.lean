import MTAppenderFile.Comm.Auto
import MTAppenderFile.Comm.Ptr

/-! # The log buffer

`MTAppenderFileLogBuffer` (`loglib/mtaf_log_buffer.cpp`) puts a `PtrBuffer` over the block it is
given, which is the mapping of the `.mmap2` file or, without it, memory from the heap. `Flush` moves
the content to an `AutoBuffer` and clears the buffer; it takes the content to be empty when `strnlen`
finds a NUL first. `__Clear` zeroes one byte and moves the cursor to the start.

The compression stream `cstream_` is never started and is left out; so are `__Fix` and `__Flush`,
whose bodies are empty. Memory for the `AutoBuffer` is taken to be there.

Between two operations the buffer is `Good`: a log whose first byte is NUL exactly when it is empty.
Every flush establishes this (`flush_eq`), whatever the block held, and a write of data that does not
start with a NUL preserves it and appends the data (`Good.write`). -/

namespace MTAppenderFile.Loglib.Buffer

open MTAppenderFile.Lib.Block
open MTAppenderFile.Comm.CTypes
open MTAppenderFile.Comm.Auto
open MTAppenderFile.Comm.Ptr

/-- `MTAppenderFileLogBuffer`. -/
structure LogBuffer where
  buff : PtrBuffer
  deriving DecidableEq, Repr

namespace LogBuffer

/-- `MTAppenderFileLogBuffer(_pbuffer, _len)`. -/
def ofBlock (pbuffer : Bytes) (len : ℕ) : LogBuffer := ⟨.attach pbuffer len⟩

/-- `GetData()`. -/
abbrev getData (lb : LogBuffer) : PtrBuffer := lb.buff

/-- The static `Write(_data, _input_len, _output, _output_len)`: what it returns, and the output with
its length; undefined when the output is too small. -/
def writeOut (data output : Bytes) (outputLen : ℕ) : Option (Bool × Bytes × ℕ) :=
  if data = [] then some (false, output, outputLen)
  else if data.length ≤ output.length then some (true, overwrite output 0 data, data.length)
  else none

/-- `__Clear()`. -/
def clear (lb : LogBuffer) : LogBuffer :=
  ⟨{ lb.buff with parray := storeAll lb.buff.parray [(0, 0)] }.setLength 0 0⟩

/-- `__Reset()`. -/
def reset (lb : LogBuffer) : Bool × LogBuffer := (true, lb.clear)

/-- `Flush(_buff)`. -/
def flush (lb : LogBuffer) (buff : AutoBuffer) : Option (LogBuffer × AutoBuffer) := do
  let n ← strnlen lb.buff.parray lb.buff.length
  if uint32 n = 0 then some (lb.clear, buff)
  else do
    let data ← readBlock lb.buff.parray lb.buff.length
    let buff ← buff.write true data
    some (lb.clear, buff)

/-- `Write(_data, _length)`. -/
def write (lb : LogBuffer) (data : Bytes) : Bool × LogBuffer :=
  if data = [] then (false, lb)
  else
    let (ok, lb) := if lb.buff.length = 0 then lb.reset else (true, lb)
    if ok then (true, ⟨lb.buff.write data⟩) else (false, lb)

@[simp] theorem maxLength_ofBlock (m : Bytes) (n : ℕ) : (ofBlock m n).buff.maxLength = n := rfl

@[simp] theorem length_ofBlock (m : Bytes) (n : ℕ) : (ofBlock m n).buff.length = n := rfl

@[simp] theorem parray_ofBlock (m : Bytes) (n : ℕ) : (ofBlock m n).buff.parray = m := rfl

/-- The content of the buffer. -/
abbrev content (lb : LogBuffer) : Bytes := lb.buff.content

/-- **The buffer between two operations**: a log with room for the end marker, whose first byte is NUL
exactly when it is empty. -/
structure Good (lb : LogBuffer) : Prop extends lb.buff.AtEnd where
  four : 4 ≤ lb.buff.maxLength
  first : lb.buff.parray.head? = some 0 ↔ lb.buff.length = 0

theorem Good.content_eq_nil_iff {lb : LogBuffer} (h : lb.Good) :
    lb.content = [] ↔ lb.buff.length = 0 := h.toWF.content_eq_nil_iff

/-! ### Clearing -/

theorem clear_eq (lb : LogBuffer) :
    lb.clear = ⟨{ lb.buff with parray := storeAll lb.buff.parray [(0, 0)], pos := 0, length := 0 }⟩ := by
  rw [clear, show (0 : ℤ) = ((0 : ℕ) : ℤ) from rfl, PtrBuffer.setLength_eq (by decide)]
  simp

section Clear

variable {lb : LogBuffer} (h : lb.buff.WF) (h4 : 4 ≤ lb.buff.maxLength)

include h h4

theorem parray_clear : lb.clear.buff.parray = overwrite lb.buff.parray 0 [0] := by
  rw [clear_eq]
  exact storeAll_storesAt [0] lb.buff.parray 0 (by rw [h.mem]; simp; omega)

theorem good_clear : lb.clear.Good := by
  have hm : lb.clear.buff.parray.length = lb.buff.maxLength := by
    rw [parray_clear h h4, length_overwrite (by rw [h.mem]; simp; omega), h.mem]
  have hf : lb.clear.buff.parray.head? = some 0 := by
    rw [parray_clear h h4]; simp [overwrite]
  rw [clear_eq] at hm hf ⊢
  exact ⟨⟨⟨Int.le_refl 0, Int.le_refl 0, Nat.zero_le _, hm, h.maxLt⟩, rfl⟩, h4, by simp [hf]⟩

end Clear

@[simp] theorem length_clear (lb : LogBuffer) : lb.clear.buff.length = 0 := by rw [clear_eq]

@[simp] theorem maxLength_clear (lb : LogBuffer) : lb.clear.buff.maxLength = lb.buff.maxLength := by
  rw [clear_eq]

@[simp] theorem length_parray_clear (lb : LogBuffer) :
    lb.clear.buff.parray.length = lb.buff.parray.length := by
  rw [clear_eq]; exact length_storeAll _ _

@[simp] theorem content_clear (lb : LogBuffer) : lb.clear.content = [] := by
  rw [content, PtrBuffer.content, length_clear, List.take_zero]

theorem Good.clear_of_empty {lb : LogBuffer} (h : lb.Good) (h0 : lb.buff.length = 0) :
    lb.clear = lb := by
  obtain ⟨l, hl⟩ := List.head?_eq_some_iff.mp (h.first.mpr h0)
  have hp : lb.buff.pos = 0 := by rw [h.pos, h0]; rfl
  have hs : storeAll lb.buff.parray [(0, 0)] = lb.buff.parray := by
    rw [hl]; simp [storeAll, store]
  rw [clear_eq, hs, ← hp, ← h0]

/-! ### Flushing -/

/-- **A flush** hands over the content, unless it starts with a NUL, and clears the buffer. -/
theorem flush_eq {lb : LogBuffer} (h : lb.buff.WF) (unit : ℕ) (hu : 0 < unit) (hu' : unit < 2 ^ 32) :
    ∃ buff, lb.flush (.empty unit) = some (lb.clear, buff) ∧
      buff.ptrBytes =
        if lb.buff.length = 0 ∨ lb.buff.parray.head? = some 0 then none else some lb.content := by
  have hmax := h.maxLt
  have hle := h.le
  have hmem : lb.buff.length ≤ lb.buff.parray.length := by rw [h.mem]; exact hle
  obtain ⟨k, hk, hs⟩ := exists_strnlen hmem
  have hu32 : uint32 k = k := by rw [uint32_of_lt (by omega) (by omega), Int.toNat_natCast]
  have hkz : k = 0 ↔ lb.buff.length = 0 ∨ lb.buff.parray.head? = some 0 := by
    rw [← strnlen_eq_zero_iff, hs, Option.some_inj]
  simp only [flush, hs, Option.bind_eq_bind, Option.bind_some, hu32, hkz, readBlock_of_le hmem]
  by_cases hz : lb.buff.length = 0 ∨ lb.buff.parray.head? = some 0
  · rw [if_pos hz]
    exact ⟨_, rfl, by rw [if_pos hz]; rfl⟩
  · rw [if_neg hz]
    have hne : lb.content ≠ [] := fun h0 => hz (.inl (h.content_eq_nil_iff.mp h0))
    obtain ⟨buff, hb, hp⟩ := AutoBuffer.write_empty hu hne (by rw [h.length_content]; omega)
    exact ⟨buff, by rw [show lb.buff.parray.take lb.buff.length = lb.content from rfl, hb]; rfl,
      by rw [hp, if_neg hz]⟩

/-- On a good buffer the shortcut is taken exactly when the content is empty. -/
theorem Good.shortcut_iff {lb : LogBuffer} (h : lb.Good) :
    (lb.buff.length = 0 ∨ lb.buff.parray.head? = some 0) ↔ lb.content = [] := by
  rw [h.first, or_self, h.content_eq_nil_iff]

/-! ### Writing -/

section Write

variable {lb : LogBuffer} (h : lb.Good) {data : Bytes} (hne : data ≠ [])

include h hne

theorem Good.write_eq : lb.write data = (true, ⟨lb.buff.write data⟩) := by
  rw [write, if_neg hne]
  by_cases h0 : lb.buff.length = 0
  · simp [h0, reset, h.clear_of_empty h0]
  · simp [h0]

variable (hd : lb.buff.length + data.length < 2 ^ 32)

include hd

theorem Good.content_write :
    (lb.write data).2.content = (lb.content ++ data).take lb.buff.maxLength := by
  rw [h.write_eq hne]; exact h.toAtEnd.content_write h.four hd

theorem Good.maxLength_write : (lb.write data).2.buff.maxLength = lb.buff.maxLength := by
  rw [h.write_eq hne]; exact h.toWF.maxLength_write h.four h.pos hd

/-- **A write of data that does not start with a NUL** preserves the invariant. -/
theorem Good.write (h0 : data.head? ≠ some 0) : (lb.write data).2.Good := by
  rw [h.write_eq hne]
  have hpos := List.length_pos_iff.mpr hne
  have h4 := h.four
  have hw := h.toAtEnd.write h4 hd
  have hl := h.toAtEnd.length_write h4 hd
  have hm := h.toWF.maxLength_write h4 h.pos hd
  refine ⟨hw, by simp only [hm]; exact h4, ?_⟩
  have hf : (lb.buff.write data).parray.head? ≠ some 0 := by
    rcases Nat.eq_zero_or_pos lb.buff.length with hz | hz
    · rw [h.head?_write_of_zero h4 h.pos hd hz hne]; exact h0
    · rw [h.head?_write_of_pos h4 h.pos hd hz, ne_eq, h.first]; omega
  exact ⟨fun hh => absurd hh hf, fun hz => by simp only [hl] at hz; omega⟩

end Write

end LogBuffer

end MTAppenderFile.Loglib.Buffer
