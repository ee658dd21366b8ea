import MTAppenderFile.Lib.Run
import MTAppenderFile.Comm.Ptr

/-! # Sequences of calls

A `PtrBuffer` is used by sequences of calls (`BufferCall`): writes, reads, `Seek` and `Length(_nPos, _nLenght)`, all
with asserts disabled. The cursor is to stay in the content and the content in the memory (`Inv`).

`Seek` moves a cursor past the end back to the end, but looks at the low 32 bits of it only. Those tell a
cursor past the end from the others below `2 ^ 32`, and not always above it (`Tells`). The invariant holds
after every call of a sequence exactly if the comparison tells in every call (`invariant_iff`).

In such a sequence the writes store below the capacity exactly if it is at least 4 (`Inv.stores_iff`,
`stores_in_memory_iff`): for a smaller one the guard of the end marker, `max_length_ - 4`, wraps around. -/

namespace MTAppenderFile.Comm.Ptr

open MTAppenderFile.Lib.Block
open MTAppenderFile.Lib.Run
open MTAppenderFile.Comm.CTypes

/-- A call on a `PtrBuffer`; `length` is `Length(_nPos, _nLenght)`. -/
inductive BufferCall
  | write (data : Bytes)
  | writeAt (data : Bytes) (nPos : ℤ)
  | read (nLen : ℕ)
  | seek (nOffset : ℤ) (eOrigin : TSeek)
  | length (nPos : ℤ) (nLength : ℕ)

namespace BufferCall

/-- The buffer after the call; undefined for a read that runs off the memory. -/
def step (b : PtrBuffer) : BufferCall → Option PtrBuffer
  | write data => some (b.write data)
  | writeAt data nPos => some (b.writeAt data nPos)
  | read nLen => (b.read nLen).map fun r => r.2.2
  | seek nOffset eOrigin => some (b.seek nOffset eOrigin)
  | length nPos nLength => some (b.setLength nPos nLength)

/-- What the call stores. -/
def stores (b : PtrBuffer) : BufferCall → List (ℤ × Byte)
  | write data => b.writeStores data b.pos
  | writeAt data nPos => b.writeStores data nPos
  | _ => []

/-- The call is a write. -/
def writes : BufferCall → Bool
  | write _ => true
  | writeAt _ _ => true
  | _ => false

/-- A positional write is at a position in the content or at its end. -/
def Allowed (b : PtrBuffer) : BufferCall → Prop
  | writeAt _ nPos => 0 ≤ nPos ∧ nPos ≤ b.length
  | _ => True

end BufferCall

/-- The low 32 bits of `p` are past the length if `p` is. -/
def Tells (length : ℕ) (p : ℤ) : Prop := p ≤ length ∨ length < uint32 p

/-- **The comparison of the call's `Seek` tells**: in a cursor write the new length is the capacity when the
cursor goes past the end. -/
def BufferCall.SeekOk (b : PtrBuffer) : BufferCall → Prop
  | write data => Tells b.maxLength (b.target (offT data.length) .kSeekCur)
  | writeAt _ _ => True
  | read _ => True
  | seek nOffset eOrigin => Tells b.length (b.target nOffset eOrigin)
  | length nPos nLength => Tells (min b.maxLength nLength) nPos

/-- Below `2 ^ 32` the comparison always tells. -/
theorem tells_of_lt {length : ℕ} {p : ℤ} (hp : p < 2 ^ 32) : Tells length p := by
  by_cases hle : p ≤ length
  · exact .inl hle
  · rw [Tells, uint32_of_lt (by omega) hp]
    omega

namespace PtrBuffer

/-- **The representation invariant**: `0 <= Pos() <= Length() <= MaxLength()`. -/
structure Inv (b : PtrBuffer) : Prop extends b.Sized where
  nonneg : 0 ≤ b.pos
  posLe : b.pos ≤ b.length

/-- The buffers that the constructors and `Attach` make of `max_length` bytes of memory. -/
inductive Built : PtrBuffer → Prop
  | ofPtr (ptr : Bytes) {len maxlen : ℕ} (h : len ≤ maxlen) (hm : maxlen < 2 ^ 64)
      (hp : ptr.length = maxlen) : Built (ofPtr ptr len maxlen)
  | attach (ptr : Bytes) {len : ℕ} (hm : len < 2 ^ 64) (hp : ptr.length = len) : Built (attach ptr len)
  | reset : Built reset
  | attachMax (ptr : Bytes) {len maxlen : ℕ} (h : len ≤ maxlen) (hm : maxlen < 2 ^ 64)
      (hp : ptr.length = maxlen) : Built (attachMax ptr len maxlen)

theorem Built.inv {b : PtrBuffer} (h : Built b) : b.Inv := by
  cases h with
  | ofPtr ptr h hm hp => exact ⟨⟨h, hm⟩, Int.le_refl 0, Int.natCast_nonneg _⟩
  | attach ptr hm hp => exact ⟨⟨Nat.le_refl _, hm⟩, Int.le_refl 0, Int.natCast_nonneg _⟩
  | reset => exact ⟨⟨Nat.le_refl _, by decide⟩, Int.le_refl 0, Int.le_refl 0⟩
  | attachMax ptr h hm hp => exact ⟨⟨h, hm⟩, Int.le_refl 0, Int.natCast_nonneg _⟩

/-! ### The cursor -/

theorem seek_eq (b : PtrBuffer) (nOffset : ℤ) (eOrigin : TSeek) :
    b.seek nOffset eOrigin = b.clamp (b.target nOffset eOrigin) := by
  cases eOrigin <;> rfl

theorem nonneg_clamp (b : PtrBuffer) (p : ℤ) : 0 ≤ (b.clamp p).pos := by
  have h32 (q : ℤ) : uint32 q < 2 ^ 32 := by unfold uint32; omega
  unfold clamp
  dsimp only
  split_ifs with h0 h1 h1
  · have := h32 0
    rw [offT_of_lt (by omega) (by omega)]; omega
  · omega
  · have := h32 p
    rw [offT_of_lt (by omega) (by omega)]; omega
  · omega

/-- **`Seek` leaves the cursor in the content exactly if its comparison tells.** -/
theorem posLe_clamp_iff (b : PtrBuffer) (p : ℤ) : (b.clamp p).pos ≤ b.length ↔ Tells b.length p := by
  have h32 (q : ℤ) : uint32 q < 2 ^ 32 := by unfold uint32; omega
  unfold clamp Tells
  dsimp only
  by_cases h0 : p < 0
  · have hz : uint32 0 = 0 := by decide
    rw [if_pos h0, hz, if_neg (Nat.not_lt_zero _)]
    omega
  · rw [if_neg h0]
    by_cases h1 : uint32 p > b.length
    · have := h32 p
      rw [if_pos h1, offT_of_lt (by omega) (by omega)]
      omega
    · rw [if_neg h1]
      omega

theorem inv_clamp_iff {b : PtrBuffer} (h : b.Sized) (p : ℤ) : (b.clamp p).Inv ↔ Tells b.length p := by
  rw [← posLe_clamp_iff]
  constructor
  · exact fun hi => hi.posLe
  · exact fun hp => ⟨⟨h.le, h.maxLt⟩, nonneg_clamp b p, hp⟩

theorem inv_seek_iff {b : PtrBuffer} (h : b.Sized) (nOffset : ℤ) (eOrigin : TSeek) :
    (b.seek nOffset eOrigin).Inv ↔ Tells b.length (b.target nOffset eOrigin) := by
  rw [seek_eq]
  exact inv_clamp_iff h _

theorem offT_add_le {p : ℤ} (hp : 0 ≤ p) (n : ℕ) : offT (p + offT n) ≤ p + n := by
  unfold offT
  rw [Int.bmod_def, Int.bmod_def]
  split_ifs <;> omega

/-! ### One call -/

theorem forall_step_some {b : PtrBuffer} {P : PtrBuffer → Prop} : (∀ b', some b = some b' → P b') ↔ P b := by
  simp

section Inv

variable {b : PtrBuffer} (h : b.Inv)

include h

theorem Inv.exists_pos : ∃ p : ℕ, b.pos = p ∧ p ≤ b.length := by
  obtain ⟨p, hp⟩ := Int.eq_ofNat_of_zero_le h.nonneg
  have := h.posLe
  exact ⟨p, hp, by omega⟩

theorem Inv.posLength_eq : (b.posLength : ℤ) = b.length - b.pos := by
  have h1 := h.nonneg
  have h2 := h.posLe
  have h3 := h.le
  have h4 := h.maxLt
  rw [posLength, sizeT_of_lt (by omega) (by omega)]
  omega

theorem Inv.length_writeAt {p : ℕ} (hp : p ≤ b.length) (data : Bytes) :
    (b.writeAt data p).length = max b.length (p + b.room data p) :=
  h.toSized.lengthAfter_eq hp data

theorem Inv.writeAt {p : ℕ} (hp : p ≤ b.length) (data : Bytes) : (b.writeAt data p).Inv := by
  have hl := h.length_writeAt hp data
  have hposle := h.posLe
  refine ⟨⟨?_, h.maxLt⟩, h.nonneg, ?_⟩
  · rw [hl]
    exact Nat.max_le.mpr ⟨h.le, h.add_room_le hp data⟩
  · rw [hl]
    exact le_trans hposle (by omega)

theorem Inv.tells_write_iff {p : ℕ} (hpos : b.pos = p) (hp : p ≤ b.length) (data : Bytes) :
    Tells (b.writeAt data p).length (b.target (offT data.length) .kSeekCur) ↔
      Tells b.maxLength (b.target (offT data.length) .kSeekCur) := by
  have hle := h.le
  have ht : b.target (offT data.length) .kSeekCur ≤ p + data.length := by
    rw [target, hpos]
    exact offT_add_le (by omega) data.length
  rw [h.length_writeAt hp data]
  by_cases hfit : p + data.length ≤ b.maxLength
  · have hroom : b.room data p = data.length := by unfold room; omega
    exact iff_of_true (.inl (by omega)) (.inl (by omega))
  · have hroom : max b.length (p + b.room data p) = b.maxLength := by unfold room; omega
    rw [hroom]

theorem Inv.write_iff (data : Bytes) :
    (b.write data).Inv ↔ Tells b.maxLength (b.target (offT data.length) .kSeekCur) := by
  obtain ⟨p, hpos, hp⟩ := h.exists_pos
  have hw := h.writeAt hp data
  have ht : (b.writeAt data p).target (offT data.length) .kSeekCur =
      b.target (offT data.length) .kSeekCur := rfl
  rw [write, hpos, inv_seek_iff hw.toSized, ht, h.tells_write_iff hpos hp data]

theorem Inv.read {nLen nRead : ℕ} {data : Bytes} {b' : PtrBuffer}
    (hr : b.read nLen = some (nRead, data, b')) : b'.Inv := by
  have h1 := h.nonneg
  have h2 := h.posLe
  have h3 := h.le
  have h4 := h.maxLt
  obtain ⟨r, hr, he⟩ := Option.map_eq_some_iff.mp hr
  obtain ⟨data', -, rfl⟩ := Option.map_eq_some_iff.mp hr
  cases he
  rw [inv_seek_iff h.toSized]
  have hs : sizeT ((b.length : ℤ) - b.pos) = ((b.length : ℤ) - b.pos).toNat :=
    sizeT_of_lt (by omega) (by omega)
  have := offT_add_le h1 (min (sizeT ((b.length : ℤ) - b.pos)) nLen)
  refine .inl (le_trans this ?_)
  omega

theorem Inv.setLength_iff (nPos : ℤ) (nLength : ℕ) :
    (b.setLength nPos nLength).Inv ↔ Tells (min b.maxLength nLength) nPos := by
  have hm : (if b.maxLength < nLength then b.maxLength else nLength) = min b.maxLength nLength := by
    split_ifs <;> omega
  rw [setLength, hm, seek]
  exact inv_clamp_iff (b := { b with length := min b.maxLength nLength })
    ⟨Nat.min_le_left _ _, h.maxLt⟩ nPos

/-- **One call**: it keeps the invariant exactly if the comparison of its `Seek` tells. -/
theorem Inv.step_iff {c : BufferCall} (hc : c.Allowed b) :
    (∀ b', c.step b = some b' → b'.Inv) ↔ c.SeekOk b := by
  cases c with
  | write data =>
    exact forall_step_some.trans (h.write_iff data)
  | writeAt data nPos =>
    obtain ⟨h0, hle⟩ := hc
    obtain ⟨p, rfl⟩ := Int.eq_ofNat_of_zero_le h0
    refine iff_of_true (fun b' hs => ?_) trivial
    cases hs
    exact h.writeAt (by omega) data
  | read nLen =>
    refine iff_of_true (fun b' hs => ?_) trivial
    obtain ⟨⟨nRead, data, b''⟩, hr, rfl⟩ := Option.map_eq_some_iff.mp hs
    exact h.read hr
  | seek nOffset eOrigin =>
    exact forall_step_some.trans (inv_seek_iff h.toSized nOffset eOrigin)
  | length nPos nLength =>
    exact forall_step_some.trans (h.setLength_iff nPos nLength)

end Inv

/-! ### Where writes store -/

section Stores

variable {b : PtrBuffer} (h : b.Inv)

include h

/-- **A write in the content stores below the capacity exactly if that is at least 4.** Below 4 the guard of
the marker wraps around, and the marker does not fit. -/
theorem Inv.writeStores_iff {p : ℕ} (hp : p ≤ b.length) (data : Bytes) :
    (∀ s ∈ b.writeStores data p, 0 ≤ s.1 ∧ s.1 < b.maxLength) ↔ 4 ≤ b.maxLength := by
  have hroom := h.add_room_le hp data
  constructor
  · intro hs
    by_contra h4
    have hle := h.le
    have hg : sizeT ((b.maxLength : ℤ) - 4) = 2 ^ 64 + b.maxLength - 4 := by
      unfold sizeT; omega
    have hlen : b.lengthAfter data.length p < sizeT ((b.maxLength : ℤ) - 4) := by
      rw [h.lengthAfter_eq hp, hg]; omega
    have hlast := getElem_mem_storesAt (p := (p : ℤ) + b.copylen data.length p) (l := marker) (i := 3)
      (by decide)
    have := hs _ (by
      rw [writeStores, if_pos hlen]
      exact List.mem_append_right _ hlast)
    dsimp only at this
    omega
  · exact fun h4 s hs => h.mem_writeStores hp data h4 hs

theorem Inv.stores_iff {c : BufferCall} (hc : c.Allowed b) :
    (∀ s ∈ c.stores b, 0 ≤ s.1 ∧ s.1 < b.maxLength) ↔ (c.writes → 4 ≤ b.maxLength) := by
  cases c with
  | write data =>
    obtain ⟨p, hpos, hp⟩ := h.exists_pos
    simpa [BufferCall.stores, BufferCall.writes, hpos] using h.writeStores_iff hp data
  | writeAt data nPos =>
    obtain ⟨h0, hle⟩ := hc
    obtain ⟨p, rfl⟩ := Int.eq_ofNat_of_zero_le h0
    simpa [BufferCall.stores, BufferCall.writes] using h.writeStores_iff (p := p) (by omega) data
  | _ => simp [BufferCall.stores, BufferCall.writes]

end Stores

/-! ### Sequences of calls -/

/-- **The invariant over sequences of calls.** From a buffer with the invariant, it holds after every call, and
`PosLength()` is the rest of the content, exactly if the comparison of `Seek` tells in every call. -/
theorem invariant_iff {b : PtrBuffer} (hb : b.Inv) {calls : List BufferCall}
    (hc : Meets BufferCall.step BufferCall.Allowed b calls) :
    Meets BufferCall.step (fun b c => ∀ b', c.step b = some b' →
        b'.Inv ∧ (b'.posLength : ℤ) = b'.length - b'.pos) b calls ↔
      Meets BufferCall.step BufferCall.SeekOk b calls := by
  refine meets_keeps_iff (P := fun b => b.Inv ∧ (b.posLength : ℤ) = b.length - b.pos)
    (fun b c hb hc => ?_) ⟨hb, hb.posLength_eq⟩ hc
  rw [← hb.1.step_iff hc]
  constructor
  · exact fun hk b' hs => (hk b' hs).1
  · exact fun hk b' hs => ⟨hk b' hs, (hk b' hs).posLength_eq⟩

/-- Four bytes of content in four bytes of memory. -/
def four : PtrBuffer := ofPtr (ascii "abcd") 4 4

theorem inv_four : four.Inv := ⟨⟨by decide, by decide⟩, by decide, by decide⟩

/-- Going two bytes back from the end, and on by five. -/
theorem invariant_iff_four :
    Meets BufferCall.step (fun b c => ∀ b', c.step b = some b' →
        b'.Inv ∧ (b'.posLength : ℤ) = b'.length - b'.pos) four
      [.seek (-2) .kSeekEnd, .seek 5 .kSeekCur] := by
  have ht : Meets BufferCall.step BufferCall.SeekOk four [.seek (-2) .kSeekEnd, .seek 5 .kSeekCur] := by
    refine ⟨tells_of_lt (by decide), fun b hb => ⟨?_, fun _ _ => trivial⟩⟩
    cases hb
    exact tells_of_lt (by decide)
  have hc : Meets BufferCall.step BufferCall.Allowed four [.seek (-2) .kSeekEnd, .seek 5 .kSeekCur] :=
    ⟨trivial, fun _ _ => ⟨trivial, fun _ _ => trivial⟩⟩
  exact (invariant_iff inv_four hc).mpr ht

/-- **`Seek` past `2 ^ 32` leaves the content**: the low 32 bits of the cursor are zero. -/
theorem seek_leaves_content :
    four.Inv ∧ four.maxLength < 2 ^ 63 ∧ ∃ b', (BufferCall.seek (2 ^ 32) .kSeekStart).step four = some b' ∧
      b'.pos = 4294967296 ∧ b'.length = 4 ∧ b'.posLength = 18446744069414584324 ∧ ¬ b'.Inv := by
  refine ⟨inv_four, by decide, _, rfl, by decide, by decide, by decide, fun h => ?_⟩
  exact absurd h.posLe (by decide)

/-- **Writes stay in the memory.** In a sequence of calls on a new buffer in which the comparison of `Seek`
always tells, every byte is stored below the capacity exactly if no call writes to a buffer of less than 4
bytes. -/
theorem stores_in_memory_iff {b : PtrBuffer} (hb : Built b) {calls : List BufferCall}
    (hc : Meets BufferCall.step BufferCall.Allowed b calls) (hs : Meets BufferCall.step BufferCall.SeekOk b calls) :
    Meets BufferCall.step (fun b c => ∀ s ∈ c.stores b, 0 ≤ s.1 ∧ s.1 < b.maxLength) b calls ↔
      Meets BufferCall.step (fun b c => c.writes → 4 ≤ b.maxLength) b calls :=
  meets_iff_of_inv (fun _ _ b' hb hd hs => (hb.step_iff hd.1).mpr hd.2 b' hs)
    (fun _ _ hb hd => hb.stores_iff hd.1) hb.inv (hc.and hs)

/-- A write to eight bytes. -/
theorem stores_in_memory_iff_eight :
    Meets BufferCall.step (fun b c => ∀ s ∈ c.stores b, 0 ≤ s.1 ∧ s.1 < b.maxLength)
      (ofPtr (List.replicate 8 0) 0 8) [.write (ascii "abc")] := by
  have hb : Built (ofPtr (List.replicate 8 0) 0 8) := .ofPtr _ (by decide) (by decide) (by decide)
  exact (stores_in_memory_iff hb (show Meets BufferCall.step BufferCall.Allowed _ [.write (ascii "abc")] from
    ⟨trivial, fun _ _ => trivial⟩) ⟨tells_of_lt (by decide), fun _ _ => trivial⟩).mpr
    ⟨fun _ => by decide, fun _ _ => trivial⟩

/-- **A buffer of three bytes is too small for the guard**: the marker is stored behind its end. -/
theorem marker_outside :
    Built (ofPtr (List.replicate 3 0) 0 3) ∧ (BufferCall.write (ascii "a")).Allowed (ofPtr (List.replicate 3 0) 0 3) ∧
      ((4 : ℤ), (0x0D : Byte)) ∈ (BufferCall.write (ascii "a")).stores (ofPtr (List.replicate 3 0) 0 3) ∧
      ¬ (4 : ℤ) < (ofPtr (List.replicate 3 0) 0 3).maxLength := by
  exact ⟨.ofPtr _ (by decide) (by decide) (by decide), trivial, by decide, by decide⟩

end PtrBuffer

end MTAppenderFile.Comm.Ptr
