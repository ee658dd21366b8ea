import MTAppenderFile.Lib.Block
import MTAppenderFile.Comm.CTypes

/-! # PtrBuffer

A `PtrBuffer` (`comm/mtaf_ptrbuffer.cc`) is a cursor and a length over memory it does not own. The
model keeps the memory behind `parray_` as a list, the cursor as the signed `off_t` and the lengths
as the unsigned `size_t` of the code, with their wrap-arounds.

`Write` stores, in this order, the bytes of the data, three zero bytes and `'\r'` (`writeStores`);
the last four, the end marker, only while the content stays more than four bytes below the capacity.

A write inside the content of a buffer within its capacity (`Sized`) stays below the capacity
(`Sized.writeAt_eq`). A buffer is well formed (`WF`) when its cursor lies in the content, too, and its
memory is as long as its capacity. The buffers of the appender are used as logs: the cursor stands at the end
of the content (`AtEnd`), and a cursor write appends what fits (`AtEnd.content_write`). -/

namespace MTAppenderFile.Comm.Ptr

open MTAppenderFile.Lib.Block
open MTAppenderFile.Comm.CTypes

/-- `MTAppenderFile::PtrBuffer`. -/
structure PtrBuffer where
  parray : Bytes
  pos : ℤ
  length : ℕ
  maxLength : ℕ
  deriving DecidableEq, Repr

/-- `PtrBuffer::TSeek`. -/
inductive TSeek
  | kSeekStart
  | kSeekCur
  | kSeekEnd
  deriving DecidableEq, Repr

/-- The end marker: three zero bytes and `'\r'`. -/
def marker : Bytes := [0, 0, 0, 0x0D]

@[simp] theorem length_marker : marker.length = 4 := rfl

namespace PtrBuffer

/-- `PtrBuffer(_ptr, _len, _maxlen)`. -/
def ofPtr (ptr : Bytes) (len maxlen : ℕ) : PtrBuffer := ⟨ptr, 0, len, maxlen⟩

/-- `PtrBuffer(_ptr, _len)` and `Attach(_pBuffer, _nLen)`: the whole memory is content. -/
def attach (ptr : Bytes) (len : ℕ) : PtrBuffer := ofPtr ptr len len

/-- `Reset()`, the body of `PtrBuffer()`. -/
def reset : PtrBuffer := ⟨[], 0, 0, 0⟩

/-- `Attach(_pBuffer, _nLen, _maxlen)`. -/
def attachMax (ptr : Bytes) (len maxlen : ℕ) : PtrBuffer :=
  { reset with parray := ptr, length := len, maxLength := maxlen }

/-- The end of `Seek`: the new cursor `p`, moved into the content. The comparison with the length is
made on the low 32 bits of the cursor. -/
def clamp (b : PtrBuffer) (p : ℤ) : PtrBuffer :=
  let p := if p < 0 then 0 else p
  { b with pos := if uint32 p > b.length then offT b.length else p }

/-- The cursor that `Seek(_nOffset, _eOrigin)` asks for. -/
def target (b : PtrBuffer) (nOffset : ℤ) : TSeek → ℤ
  | .kSeekStart => nOffset
  | .kSeekCur => offT (b.pos + nOffset)
  | .kSeekEnd => offT (b.length + nOffset)

/-- `Seek(_nOffset, _eOrigin)`. -/
def seek (b : PtrBuffer) (nOffset : ℤ) : TSeek → PtrBuffer
  | .kSeekStart => b.clamp nOffset
  | .kSeekCur => b.clamp (offT (b.pos + nOffset))
  | .kSeekEnd => b.clamp (offT (b.length + nOffset))

/-- `Length(_nPos, _nLenght)`. -/
def setLength (b : PtrBuffer) (nPos : ℤ) (nLength : ℕ) : PtrBuffer :=
  { b with length := if b.maxLength < nLength then b.maxLength else nLength }.seek nPos .kSeekStart

/-- `copylen` of a positional `Write`. -/
def copylen (b : PtrBuffer) (nLen : ℕ) (nPos : ℤ) : ℕ := min nLen (sizeT (b.maxLength - nPos))

/-- `length_` after a positional `Write`. -/
def lengthAfter (b : PtrBuffer) (nLen : ℕ) (nPos : ℤ) : ℕ :=
  max b.length (sizeT (b.copylen nLen nPos + nPos))

/-- The stores of a positional `Write`, in program order: `memcpy`, then the end marker. -/
def writeStores (b : PtrBuffer) (data : Bytes) (nPos : ℤ) : List (ℤ × Byte) :=
  storesAt nPos (data.take (b.copylen data.length nPos)) ++
    if b.lengthAfter data.length nPos < sizeT (b.maxLength - 4) then
      storesAt (nPos + b.copylen data.length nPos) marker
    else []

/-- `Write(_pBuffer, _nLen, _nPos)`. -/
def writeAt (b : PtrBuffer) (data : Bytes) (nPos : ℤ) : PtrBuffer :=
  { b with
    length := b.lengthAfter data.length nPos
    parray := storeAll b.parray (b.writeStores data nPos) }

/-- `Write(_pBuffer, _nLen)`, at the cursor. -/
def write (b : PtrBuffer) (data : Bytes) : PtrBuffer :=
  (b.writeAt data b.pos).seek (offT data.length) .kSeekCur

theorem parray_write (b : PtrBuffer) (data : Bytes) :
    (b.write data).parray = storeAll b.parray (b.writeStores data b.pos) := rfl

/-- `Read(_pBuffer, _nLen, _nPos)`: what it returns, and the bytes it copies, which are those at the cursor;
undefined when they run off the memory. -/
def readAt (b : PtrBuffer) (nLen : ℕ) (nPos : ℤ) : Option (ℕ × Bytes) :=
  let nRead := min (sizeT (b.length - nPos)) nLen
  (readMem b.parray b.pos nRead).map fun data => (nRead, data)

/-- `Read(_pBuffer, _nLen)`, at the cursor. -/
def read (b : PtrBuffer) (nLen : ℕ) : Option (ℕ × Bytes × PtrBuffer) :=
  (b.readAt nLen b.pos).map fun (nRead, data) => (nRead, data, b.seek (offT nRead) .kSeekCur)

/-- `PosLength()`. -/
def posLength (b : PtrBuffer) : ℕ := sizeT (b.length - b.pos)

/-- The content: the first `Length()` bytes. -/
def content (b : PtrBuffer) : Bytes := b.parray.take b.length

/-! ### Well-formed buffers -/

/-- **A well-formed buffer**: the cursor lies in the content and the memory is as long as the
capacity. -/
structure WF (b : PtrBuffer) : Prop where
  nonneg : 0 ≤ b.pos
  posLe : b.pos ≤ b.length
  le : b.length ≤ b.maxLength
  mem : b.parray.length = b.maxLength
  maxLt : b.maxLength < 2 ^ 32

/-- **A buffer within its capacity**, which is a `size_t`. -/
structure Sized (b : PtrBuffer) : Prop where
  le : b.length ≤ b.maxLength
  maxLt : b.maxLength < 2 ^ 64

theorem WF.sized {b : PtrBuffer} (h : b.WF) : b.Sized :=
  ⟨h.le, Nat.lt_trans h.maxLt (by decide)⟩

theorem WF.length_content {b : PtrBuffer} (h : b.WF) : b.content.length = b.length :=
  List.length_take_of_le (by rw [h.mem]; exact h.le)

theorem WF.content_eq_nil_iff {b : PtrBuffer} (h : b.WF) : b.content = [] ↔ b.length = 0 := by
  rw [← List.length_eq_zero_iff, h.length_content]

theorem head?_content {b : PtrBuffer} (h : b.length ≠ 0) :
    b.content.head? = b.parray.head? := by
  rw [content, List.head?_take, if_neg h]

/-- A cursor below `2 ^ 32` is moved back to the end of the content. -/
theorem clamp_natCast {b : PtrBuffer} {p : ℕ} (hp : p < 2 ^ 32) :
    b.clamp p = { b with pos := (min p b.length : ℕ) } := by
  have hu : uint32 (p : ℤ) = p := by rw [uint32_of_lt (by omega) (by omega), Int.toNat_natCast]
  simp only [clamp, if_neg (show ¬ ((p : ℤ) < 0) by omega), hu]
  split_ifs with hc
  · rw [offT_of_lt (by omega) (by omega), Nat.min_eq_right (by omega)]
  · rw [Nat.min_eq_left (by omega)]

theorem setLength_eq {b : PtrBuffer} {n : ℕ} (hn : n < 2 ^ 32) :
    b.setLength n n = { b with pos := (min n b.maxLength : ℕ), length := min n b.maxLength } := by
  have hm : (if b.maxLength < n then b.maxLength else n) = min n b.maxLength := by
    split_ifs <;> omega
  rw [setLength, hm, seek, clamp_natCast hn]
  simp only [← Nat.min_assoc, Nat.min_self]

/-! ### Writing inside the content -/

/-- The number of bytes of `data` that fit from `p` on. -/
def room (b : PtrBuffer) (data : Bytes) (p : ℕ) : ℕ := min data.length (b.maxLength - p)

/-- The bytes a write at `p` stores from `p` on: what fits of the data, and the end marker if the
content stays more than four bytes below the capacity. -/
def stored (b : PtrBuffer) (data : Bytes) (p : ℕ) : Bytes :=
  data.take (b.room data p) ++
    if max b.length (p + b.room data p) + 4 < b.maxLength then marker else []

theorem room_le (b : PtrBuffer) (data : Bytes) (p : ℕ) : b.room data p ≤ data.length :=
  Nat.min_le_left _ _

section WriteAt

variable {b : PtrBuffer} (h : b.Sized) {p : ℕ} (hp : p ≤ b.length) (data : Bytes)

include h hp

theorem Sized.add_room_le : p + b.room data p ≤ b.maxLength := by
  have := h.le
  unfold room; omega

theorem Sized.add_stored_le : p + (b.stored data p).length ≤ b.maxLength := by
  have h1 := h.add_room_le hp data
  rw [stored, List.length_append, List.length_take_of_le (b.room_le data p)]
  split_ifs with hg
  · have := Nat.le_max_right b.length (p + b.room data p)
    rw [length_marker]; omega
  · simpa using h1

theorem Sized.copylen_eq : b.copylen data.length p = b.room data p := by
  have h1 := h.le
  have h2 := h.maxLt
  rw [copylen, room, sizeT_of_lt (by omega) (by omega)]
  omega

theorem Sized.lengthAfter_eq : b.lengthAfter data.length p = max b.length (p + b.room data p) := by
  have h1 := h.add_room_le hp data
  have h2 := h.maxLt
  rw [lengthAfter, h.copylen_eq hp, sizeT_of_lt (by omega) (by omega)]
  rw [show (((b.room data p : ℕ) : ℤ) + p).toNat = p + b.room data p by omega]

theorem Sized.writeStores_eq (h4 : 4 ≤ b.maxLength) :
    b.writeStores data p = storesAt (p : ℤ) (b.stored data p) := by
  have h2 := h.maxLt
  have hg : sizeT ((b.maxLength : ℤ) - 4) = b.maxLength - 4 := by
    rw [sizeT_of_lt (by omega) (by omega)]; omega
  have hl : ((data.take (b.room data p)).length : ℤ) = b.room data p := by
    rw [List.length_take_of_le (b.room_le data p)]
  rw [writeStores, stored, h.copylen_eq hp, h.lengthAfter_eq hp, hg, storesAt_append, hl]
  generalize max b.length (p + b.room data p) = n
  by_cases hc : n + 4 < b.maxLength
  · rw [if_pos hc, if_pos (by omega)]
  · rw [if_neg hc, if_neg (by omega), storesAt_nil]

/-- **A write inside the content stores below the capacity**, if that is at least 4. -/
theorem Sized.mem_writeStores (h4 : 4 ≤ b.maxLength) {s : ℤ × Byte} (hs : s ∈ b.writeStores data p) :
    0 ≤ s.1 ∧ s.1 < b.maxLength := by
  rw [h.writeStores_eq hp data h4] at hs
  have hin := mem_storesAt hs
  have := h.add_stored_le hp data
  omega

/-- **A write inside the content** replaces the segment of the memory from `p` on. -/
theorem Sized.writeAt_eq (hm : b.parray.length = b.maxLength) (h4 : 4 ≤ b.maxLength) :
    b.writeAt data p =
      { b with
        parray := overwrite b.parray p (b.stored data p)
        length := max b.length (p + b.room data p) } := by
  rw [writeAt, h.lengthAfter_eq hp, h.writeStores_eq hp data h4,
    storeAll_storesAt _ _ _ (by rw [hm]; exact h.add_stored_le hp data)]

end WriteAt

/-! ### Cursor writes -/

section Write

variable {b : PtrBuffer} (h : b.WF) (h4 : 4 ≤ b.maxLength) {p : ℕ} (hpos : b.pos = p) {data : Bytes}
  (hd : p + data.length < 2 ^ 32)

include h h4 hpos hd

/-- **A cursor write** writes at the cursor and moves it behind the data, at most to the end of the
content. -/
theorem WF.write_eq :
    b.write data =
      { parray := overwrite b.parray p (b.stored data p)
        pos := (min (p + data.length) (max b.length (p + b.room data p)) : ℕ)
        length := max b.length (p + b.room data p)
        maxLength := b.maxLength } := by
  have hp : p ≤ b.length := by have := h.posLe; omega
  have ho : offT ((p : ℤ) + offT (data.length : ℤ)) = (p + data.length : ℕ) := by
    rw [offT_of_lt (x := (data.length : ℤ)) (by omega) (by omega), offT_of_lt (by omega) (by omega)]
    omega
  rw [write, hpos, h.sized.writeAt_eq hp data h.mem h4]
  simp only [seek, hpos, ho]
  rw [clamp_natCast hd]

theorem WF.write : (b.write data).WF := by
  have hp : p ≤ b.length := by have := h.posLe; omega
  have h1 := h.sized.add_room_le hp data
  have hle := h.le
  rw [h.write_eq h4 hpos hd]
  exact ⟨by simp only; omega, by simp only; omega, Nat.max_le.mpr ⟨hle, h1⟩,
    by rw [length_overwrite (by rw [h.mem]; exact h.sized.add_stored_le hp data), h.mem], h.maxLt⟩

theorem WF.maxLength_write : (b.write data).maxLength = b.maxLength := by
  rw [h.write_eq h4 hpos hd]

theorem WF.take_write {n : ℕ} (hn : n ≤ p) : (b.write data).parray.take n = b.parray.take n := by
  have hle := h.le
  have hposle := h.posLe
  have hmem := h.mem
  rw [h.write_eq h4 hpos hd]
  exact take_overwrite_le hn (by omega)

theorem WF.head?_write_of_pos (hp0 : 0 < p) :
    (b.write data).parray.head? = b.parray.head? := by
  simpa [List.head?_take] using congrArg List.head? (h.take_write h4 hpos hd hp0)

theorem WF.head?_write_of_zero (hp0 : p = 0) (hne : data ≠ []) :
    (b.write data).parray.head? = data.head? := by
  obtain ⟨a, l, rfl⟩ := List.exists_cons_of_ne_nil hne
  rw [h.write_eq h4 hpos hd]
  subst hp0
  have hr : b.room (a :: l) 0 = min l.length (b.maxLength - 1) + 1 := by
    simp only [room, List.length_cons]; omega
  simp [overwrite, stored, hr]

end Write

/-! ### The cursor at the end of the content -/

/-- **A buffer used as a log**: the cursor stands at the end of the content. -/
structure AtEnd (b : PtrBuffer) : Prop extends WF b where
  pos : b.pos = b.length

section Append

variable {b : PtrBuffer} (h : b.AtEnd) (h4 : 4 ≤ b.maxLength) {data : Bytes}
  (hd : b.length + data.length < 2 ^ 32)

include h h4 hd

theorem AtEnd.length_write : (b.write data).length = min (b.length + data.length) b.maxLength := by
  have := h.le
  rw [h.write_eq h4 h.pos hd, Nat.max_eq_right (Nat.le_add_right _ _)]
  simp only [room]; omega

theorem AtEnd.take_write {n : ℕ} (hn : n ≤ b.length) :
    (b.write data).parray.take n = b.parray.take n := h.toWF.take_write h4 h.pos hd hn

theorem AtEnd.write : (b.write data).AtEnd := by
  have hw : (b.write data).pos = (b.write data).length := by
    have := h.le
    have := b.room_le data b.length
    rw [h.write_eq h4 h.pos hd, Nat.max_eq_right (Nat.le_add_right _ _)]
    simp only; omega
  exact ⟨h.toWF.write h4 h.pos hd, hw⟩

/-- **A cursor write appends to the content what fits of the data.** -/
theorem AtEnd.content_write : (b.write data).content = (b.content ++ data).take b.maxLength := by
  have hle := h.le
  have hp : b.length ≤ b.parray.length := by rw [h.mem]; exact hle
  have hr : (data.take (b.room data b.length)).length = b.room data b.length :=
    List.length_take_of_le (b.room_le data b.length)
  have hc : (overwrite b.parray b.length (b.stored data b.length)).take
      (b.length + b.room data b.length) = b.content ++ data.take (b.room data b.length) := by
    have := take_overwrite_append (l := data.take (b.room data b.length))
      (r := if max b.length (b.length + b.room data b.length) + 4 < b.maxLength
        then marker else []) hp
    rwa [hr] at this
  have ht : b.content.take b.maxLength = b.content :=
    List.take_of_length_le (by rw [h.length_content]; exact hle)
  rw [h.write_eq h4 h.pos hd, content, Nat.max_eq_right (Nat.le_add_right _ _), hc,
    List.take_append, h.length_content, ht, List.append_cancel_left_eq]
  rcases Nat.le_total data.length (b.maxLength - b.length) with hn | hn
  · rw [room, Nat.min_eq_left hn, List.take_length, List.take_of_length_le hn]
  · rw [room, Nat.min_eq_right hn]

theorem AtEnd.content_write_of_le (hf : b.length + data.length ≤ b.maxLength) :
    (b.write data).content = b.content ++ data := by
  rw [h.content_write h4 hd, List.take_of_length_le]
  rw [List.length_append, h.length_content]; exact hf

/-- **A write that fits with its marker** leaves, from the old end of the content on, the data, the
marker and what was behind them. -/
theorem AtEnd.parray_write (hf : b.length + data.length + 4 < b.maxLength) :
    (b.write data).parray = overwrite b.parray b.length (data ++ marker) := by
  have hr : b.room data b.length = data.length := by unfold room; omega
  rw [h.write_eq h4 h.pos hd, stored, hr, Nat.max_eq_right (Nat.le_add_right _ _), if_pos hf,
    List.take_length]

end Append

end PtrBuffer

end MTAppenderFile.Comm.Ptr
