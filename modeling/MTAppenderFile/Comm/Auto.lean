import MTAppenderFile.Lib.Block
import MTAppenderFile.Comm.CTypes

/-! # AutoBuffer

An `AutoBuffer` (`comm/mtaf_autobuffer.cc`) owns its memory and lets it grow in multiples of its
unit. The block behind `parray_` is `none` while the pointer is `NULL`. Whether `realloc` succeeds is
an argument of the operations that may grow the buffer; the bytes that `realloc` adds are zero here,
as `__FitSize` zeroes them before anything reads them. A `memcpy` through a `NULL` pointer is
undefined (`none`), unless it copies nothing.

The appender writes once into a fresh buffer and hands on what it wrote (`write_empty`). -/

namespace MTAppenderFile.Comm.Auto

open MTAppenderFile.Lib.Block
open MTAppenderFile.Comm.CTypes

/-- `MTAppenderFile::AutoBuffer`. -/
structure AutoBuffer where
  parray : Option Bytes
  pos : ℤ
  length : ℕ
  capacity : ℕ
  mallocUnitsize : ℕ
  deriving DecidableEq, Repr

/-- `AutoBuffer::TSeek`. -/
inductive TSeek
  | ESeekStart
  | ESeekCur
  | ESeekEnd
  deriving DecidableEq, Repr

namespace AutoBuffer

/-- `AutoBuffer(_nSize)`. -/
def empty (nSize : ℕ) : AutoBuffer := ⟨none, 0, 0, 0, nSize⟩

/-- `mallocsize` of `__FitSize`: `_len` rounded up to the unit. -/
def mallocsize (unit len : ℕ) : ℕ := sizeT (sizeT (len + unit - 1) / unit * unit : ℕ)

/-- `__FitSize(_len)`; `ok` says whether `realloc` succeeds. -/
def fitSize (ok : Bool) (b : AutoBuffer) (len : ℕ) : Bool × AutoBuffer :=
  if len > b.capacity then
    if ok then
      (true, { b with
        parray := some (resize (b.parray.getD []) (mallocsize b.mallocUnitsize len))
        capacity := mallocsize b.mallocUnitsize len })
    else (false, { b with parray := none })
  else (true, b)

/-- The end of `Seek`: the new cursor `p`, moved into the content. -/
def clamp (b : AutoBuffer) (p : ℤ) : AutoBuffer :=
  let p := if p < 0 then 0 else p
  { b with pos := if sizeT p > b.length then offT b.length else p }

/-- `Seek(_offset, _eorigin)`. -/
def seek (b : AutoBuffer) (offset : ℤ) : TSeek → AutoBuffer
  | .ESeekStart => b.clamp offset
  | .ESeekCur => b.clamp (offT (b.pos + offset))
  | .ESeekEnd => b.clamp (offT (b.length + offset))

/-- `Write(_pos, _pbuffer, _len)`. -/
def writeAt (ok : Bool) (b : AutoBuffer) (pos : ℤ) (data : Bytes) : Option AutoBuffer :=
  let nLen := sizeT (pos + data.length)
  let b := (b.fitSize ok nLen).2
  let b := { b with length := max nLen b.length }
  if data = [] then some b
  else b.parray.map fun m => { b with parray := some (storeAll m (storesAt pos data)) }

/-- `Write(_pbuffer, _len)`, at the cursor. -/
def write (ok : Bool) (b : AutoBuffer) (data : Bytes) : Option AutoBuffer :=
  (b.writeAt ok b.pos data).map fun b => b.seek (offT data.length) .ESeekCur

/-- `Read(_pos, _pbuffer, _len)`: what it returns, and the bytes it copies, which are those at the cursor;
undefined when they run off the memory. -/
def readAt (b : AutoBuffer) (pos : ℤ) (len : ℕ) : Option (ℕ × Bytes) :=
  let readlen := min (sizeT (b.length - pos)) len
  (readMem (b.parray.getD []) b.pos readlen).map fun data => (readlen, data)

/-- `Read(_pos, _rhs, _len)`: what it returns, and `_rhs` with the bytes written to it. -/
def readTo (ok : Bool) (b : AutoBuffer) (pos : ℤ) (rhs : AutoBuffer) (len : ℕ) : Option (ℕ × AutoBuffer) := do
  let (readlen, data) ← b.readAt pos len
  let rhs ← rhs.write ok data
  some (readlen, rhs)

/-- A `memcpy`, `memmove` or `memset` that stores `data` from `parray_ + p` on. -/
def memcpyTo (b : AutoBuffer) (p : ℤ) (data : Bytes) : Option AutoBuffer :=
  if data = [] then some b else b.parray.map fun m => { b with parray := some (storeAll m (storesAt p data)) }

/-- `Write(off_t &_pos, _pbuffer, _len)`, which moves `_pos` behind the data. -/
def writeFrom (ok : Bool) (b : AutoBuffer) (pos : ℤ) (data : Bytes) : Option (AutoBuffer × ℤ) :=
  (b.writeAt ok pos data).map fun b => (b, offT (pos + data.length))

/-- The position that a `TSeek` names. -/
def seekPos (b : AutoBuffer) : TSeek → ℤ
  | .ESeekStart => 0
  | .ESeekCur => b.pos
  | .ESeekEnd => offT b.length

/-- `Write(_seek, _pbuffer, _len)`: only its own copy of the position moves. -/
def writeSeek (ok : Bool) (b : AutoBuffer) (seek : TSeek) (data : Bytes) : Option AutoBuffer :=
  (b.writeFrom ok (b.seekPos seek) data).map Prod.fst

/-- `AllocWrite(_readytowrite, _changelength)`. -/
def allocWrite (ok : Bool) (b : AutoBuffer) (readytowrite : ℕ) (changelength : Bool) : AutoBuffer :=
  let nLen := sizeT (b.pos + readytowrite)
  let b := (b.fitSize ok nLen).2
  if changelength then { b with length := max nLen b.length } else b

/-- `AddCapacity(_len)`. -/
def addCapacity (ok : Bool) (b : AutoBuffer) (len : ℕ) : AutoBuffer :=
  (b.fitSize ok (sizeT (b.capacity + len))).2

/-- `Length(_pos, _lenght)`. -/
def setLength (b : AutoBuffer) (pos : ℤ) (lenght : ℕ) : AutoBuffer :=
  { b with length := lenght }.seek pos .ESeekStart

/-- `Move(_move_len)`; it returns the new length. -/
def move (ok : Bool) (b : AutoBuffer) (moveLen : ℤ) : Option AutoBuffer :=
  if 0 < moveLen then
    let (fits, b) := b.fitSize ok (sizeT (b.length + moveLen))
    if fits then do
      let data ← readMem (b.parray.getD []) 0 b.length
      let b ← b.memcpyTo moveLen data
      let b ← b.memcpyTo 0 (List.replicate moveLen.toNat 0)
      some (b.setLength (offT (b.pos + moveLen)) (sizeT (b.length + moveLen)))
    else some b
  else do
    let moveLen := min (sizeT (-moveLen)) b.length
    let data ← readMem (b.parray.getD []) moveLen (b.length - moveLen)
    let b ← b.memcpyTo 0 data
    some (b.setLength (if moveLen < sizeT b.pos then offT (b.pos - moveLen) else 0) (b.length - moveLen))

/-- `Read(_pbuffer, _len)`, at the cursor: what it returns, and the bytes it copies. -/
def read (b : AutoBuffer) (len : ℕ) : Option ((ℕ × Bytes) × AutoBuffer) :=
  (b.readAt b.pos len).map fun r => (r, b.seek (offT r.1) .ESeekCur)

/-- `Read(_rhs, _len)`, at the cursor, into another buffer. -/
def readInto (ok : Bool) (b rhs : AutoBuffer) (len : ℕ) : Option (ℕ × AutoBuffer × AutoBuffer) :=
  (b.readTo ok b.pos rhs len).map fun r => (r.1, b.seek (offT r.1) .ESeekCur, r.2)

/-- `Reset()`. -/
def reset (b : AutoBuffer) : AutoBuffer := { b with parray := none, pos := 0, length := 0, capacity := 0 }

/-- `Attach(_rhs)`: the buffer, and what is left of the other one. -/
def attach (b rhs : AutoBuffer) : AutoBuffer × AutoBuffer :=
  ({ b.reset with parray := rhs.parray, pos := rhs.pos, length := rhs.length, capacity := rhs.capacity },
    { rhs with parray := none }.reset)

/-- `Detach(_plen)`: the block that is handed over, `*_plen`, and the buffer. -/
def detach (b : AutoBuffer) : Option Bytes × ℕ × AutoBuffer := (b.parray, b.length, { b with parray := none }.reset)

/-- The bytes at `Ptr()`, `Length()` of them; `none` if `Ptr()` is `NULL`. -/
def ptrBytes (b : AutoBuffer) : Option Bytes := b.parray.map fun m => m.take b.length

/-- The content: the first `Length()` bytes. -/
def content (b : AutoBuffer) : Bytes := (b.parray.getD []).take b.length

/-! ### One write into a fresh buffer -/

theorem mallocsize_spec {unit len : ℕ} (hu : 0 < unit) (h : len + unit < 2 ^ 63) :
    len ≤ mallocsize unit len ∧ mallocsize unit len < len + unit := by
  have h1 : sizeT ((len : ℤ) + unit - 1) = len + unit - 1 := by
    rw [sizeT_of_lt (by omega) (by omega)]; omega
  have hd := Nat.div_add_mod (len + unit - 1) unit
  have hm := Nat.mod_lt (len + unit - 1) hu
  have hc : (len + unit - 1) / unit * unit = unit * ((len + unit - 1) / unit) := Nat.mul_comm _ _
  rw [mallocsize, h1, sizeT_natCast (by omega)]
  omega

/-- **A write into a fresh buffer** leaves exactly the data, not at `NULL`. -/
theorem write_empty {unit : ℕ} (hu : 0 < unit) {data : Bytes} (hne : data ≠ [])
    (hl : data.length + unit < 2 ^ 63) :
    ∃ b, (empty unit).write true data = some b ∧ b.ptrBytes = some data := by
  have hpos := List.length_pos_iff.mpr hne
  have hs : sizeT (0 + (data.length : ℤ)) = data.length := by
    rw [Int.zero_add, sizeT_natCast (by omega)]
  have hfit := (mallocsize_spec hu hl).1
  have hover : storeAll (resize [] (mallocsize unit data.length)) (storesAt 0 data) =
      overwrite (resize [] (mallocsize unit data.length)) 0 data :=
    storeAll_storesAt data _ 0 (by rw [length_resize]; omega)
  refine ⟨_, by
    simp only [write, writeAt, empty, fitSize, hs, gt_iff_lt, hpos, if_true, Option.getD_none,
      if_neg hne, Option.map_some]; rfl, ?_⟩
  simp only [ptrBytes, seek, clamp, Option.map_some, hover, Nat.max_zero]
  have := take_overwrite (m := resize [] (mallocsize unit data.length)) (p := 0) (l := data)
    (Nat.zero_le _)
  simpa using this

end AutoBuffer

end MTAppenderFile.Comm.Auto
