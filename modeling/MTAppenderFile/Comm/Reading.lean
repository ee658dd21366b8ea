import MTAppenderFile.Comm.Auto
import MTAppenderFile.Comm.Calls

/-! # Positional reads

The positional `Read` of a `PtrBuffer` or an `AutoBuffer` takes the number of bytes from the position it is
given and the bytes from the cursor. It gives the content at the position (`ReadsContent`) exactly if the
content is the same at the cursor (`Repeats`): when there is nothing to read, when the cursor stands there, or
by chance (`read_at_iff`). So does the read that follows a positional write, as the write leaves the cursor. -/

namespace MTAppenderFile.Comm.Reading

open MTAppenderFile.Lib.Block
open MTAppenderFile.Comm.CTypes
open MTAppenderFile.Comm.Ptr
open MTAppenderFile.Comm.Auto

/-- **A read of up to `n` bytes at `p`**, which copies from `k` on: it returns the number of content bytes from
`p` on, at most `n`, delivers these, and copies nothing from behind the content. -/
def ReadsContent (c : Bytes) (k p n : ℕ) (out : Option (ℕ × Bytes)) : Prop :=
  out = some (min n (c.length - p), (c.drop p).take n) ∧ k + min n (c.length - p) ≤ c.length

/-- There are `r` bytes in the content from `k` on, and they are those from `p` on. -/
def Repeats (c : Bytes) (k p r : ℕ) : Prop := k + r ≤ c.length ∧ (c.drop k).take r = (c.drop p).take r

instance (c : Bytes) (k p r : ℕ) : Decidable (Repeats c k p r) := inferInstanceAs (Decidable (_ ∧ _))

theorem repeats_self {c : Bytes} {p r : ℕ} (h : p + r ≤ c.length) : Repeats c p p r := ⟨h, rfl⟩

theorem readMem_eq {m : Bytes} {len k r : ℕ} (hm : len ≤ m.length) (hk : k + r ≤ len) :
    readMem m k r = some (((m.take len).drop k).take r) := by
  rw [readMem, if_pos ⟨by omega, by omega⟩, List.drop_take, List.take_take, Nat.min_eq_left (by omega),
    Int.toNat_natCast]

theorem readsContent_iff {m : Bytes} {len k p n : ℕ} (hm : len ≤ m.length) :
    ReadsContent (m.take len) k p n
        ((readMem m k (min n (len - p))).map fun data => (min n (len - p), data)) ↔
      Repeats (m.take len) k p (min n (len - p)) := by
  have hl : (m.take len).length = len := List.length_take_of_le hm
  have ht : ((m.take len).drop p).take n = ((m.take len).drop p).take (min n (len - p)) := by
    have hd : ((m.take len).drop p).length = len - p := by rw [List.length_drop, hl]
    rw [← hd, ← List.take_eq_take_min]
  rw [ReadsContent, Repeats, hl, ht, and_comm]
  refine and_congr_right fun hk => ?_
  rw [readMem_eq hm hk, Option.map_some, Option.some_inj, Prod.mk_inj, and_iff_right rfl]

/-- **A read of the bytes that were written**, which copies from `k` on. -/
def ReadsBack (c : Bytes) (k : ℕ) (data : Bytes) (out : Option (ℕ × Bytes)) : Prop :=
  out = some (data.length, data) ∧ k + data.length ≤ c.length

theorem readsBack_iff {c data : Bytes} {k p : ℕ} {out : Option (ℕ × Bytes)}
    (hl : p + data.length ≤ c.length) (hd : (c.drop p).take data.length = data) :
    ReadsBack c k data out ↔ ReadsContent c k p data.length out := by
  rw [ReadsBack, ReadsContent, Nat.min_eq_left (by omega), hd]

/-! ### PtrBuffer -/

section Ptr

variable {b : PtrBuffer} (h : b.Inv) (hm : b.parray.length = b.maxLength) {p : ℕ} (hp : p ≤ b.length)

include h hp

theorem ptr_readAt_eq (n : ℕ) :
    b.readAt n p = (readMem b.parray b.pos.toNat (min n (b.length - p))).map fun data =>
      (min n (b.length - p), data) := by
  have hle := h.le
  have hmax := h.maxLt
  have hpos := Int.toNat_of_nonneg h.nonneg
  have hs : sizeT ((b.length : ℤ) - p) = b.length - p := by
    rw [sizeT_of_lt (by omega) (by omega)]; omega
  rw [PtrBuffer.readAt, hs, Nat.min_comm, hpos]

include hm

theorem ptr_read_iff (n : ℕ) :
    ReadsContent b.content b.pos.toNat p n (b.readAt n p) ↔
      Repeats b.content b.pos.toNat p (min n (b.length - p)) := by
  rw [ptr_readAt_eq h hp n]
  exact readsContent_iff (by rw [hm]; exact h.le)

theorem ptr_readsBack_iff_of_fits {data : Bytes} (hd : p + data.length ≤ b.maxLength) :
    ReadsBack (b.writeAt data p).content b.pos.toNat data ((b.writeAt data p).readAt data.length p) ↔
      Repeats (b.writeAt data p).content b.pos.toNat p data.length := by
  have hw := h.writeAt hp data
  have hroom : b.room data p = data.length := by unfold PtrBuffer.room; omega
  have hlen := h.length_writeAt hp data
  rw [hroom] at hlen
  have hmem : (b.writeAt data p).parray.length = (b.writeAt data p).maxLength := by
    rw [PtrBuffer.writeAt, length_storeAll, hm]
  have hc : (b.writeAt data p).content.length = (b.writeAt data p).length :=
    List.length_take_of_le (by rw [hmem]; exact hw.le)
  have hcont : ((b.writeAt data p).content.drop p).take data.length = data := by
    have hst : b.writeStores data p = storesAt p data ++ storesAt (p + data.length)
        (if b.lengthAfter data.length p < sizeT (b.maxLength - 4) then marker else []) := by
      rw [PtrBuffer.writeStores, h.copylen_eq hp, hroom, List.take_length]
      split_ifs <;> rfl
    rw [PtrBuffer.content, hlen, PtrBuffer.writeAt, hst]
    exact take_drop_written (by omega) (by omega)
  have hiff := ptr_read_iff hw hmem (p := p) (by omega) data.length
  rw [Nat.min_eq_left (by omega)] at hiff
  rw [readsBack_iff (by omega) hcont]
  exact hiff

/-- The read behind a positional write. Data that does not fit is not read back, and nothing of its length is in
the content behind its position. -/
theorem ptr_readsBack_iff (data : Bytes) :
    ReadsBack (b.writeAt data p).content b.pos.toNat data ((b.writeAt data p).readAt data.length p) ↔
      Repeats (b.writeAt data p).content b.pos.toNat p data.length := by
  by_cases hd : p + data.length ≤ b.maxLength
  · exact ptr_readsBack_iff_of_fits h hm hp hd
  · have hw := h.writeAt hp data
    have hle : (b.writeAt data p).length ≤ b.maxLength := hw.le
    have hlen := h.length_writeAt hp data
    have hc : (b.writeAt data p).content.length ≤ (b.writeAt data p).length := List.length_take_le _ _
    refine iff_of_false (fun hr => ?_) fun hr => ?_
    · have hout := (ptr_readAt_eq hw (p := p) (by omega) data.length).symm.trans hr.1
      obtain ⟨_, -, hout⟩ := Option.map_eq_some_iff.mp hout
      have hn : min data.length ((b.writeAt data p).length - p) = data.length := congrArg Prod.fst hout
      omega
    · have hn := congrArg List.length hr.2
      have hk := hr.1
      rw [List.length_take, List.length_take, List.length_drop, List.length_drop] at hn
      omega

end Ptr

/-! ### AutoBuffer -/

/-- **An `AutoBuffer` that holds its content**: the cursor in the content, the content in the capacity, and the
block as long as the capacity. -/
structure Holds (b : AutoBuffer) : Prop where
  nonneg : 0 ≤ b.pos
  posLe : b.pos ≤ b.length
  le : b.length ≤ b.capacity
  mem : (b.parray.getD []).length = b.capacity
  maxLt : b.capacity < 2 ^ 64

section Auto

variable {b : AutoBuffer} (h : Holds b) {p : ℕ} (hp : p ≤ b.length)

include h hp

theorem auto_readAt_eq (n : ℕ) :
    b.readAt p n = (readMem (b.parray.getD []) b.pos.toNat (min n (b.length - p))).map fun data =>
      (min n (b.length - p), data) := by
  have hle := h.le
  have hmax := h.maxLt
  have hpos := Int.toNat_of_nonneg h.nonneg
  have hs : sizeT ((b.length : ℤ) - p) = b.length - p := by
    rw [sizeT_of_lt (by omega) (by omega)]; omega
  rw [AutoBuffer.readAt, hs, Nat.min_comm, hpos]

theorem auto_read_iff (n : ℕ) :
    ReadsContent b.content b.pos.toNat p n (b.readAt p n) ↔
      Repeats b.content b.pos.toNat p (min n (b.length - p)) := by
  rw [auto_readAt_eq h hp n]
  exact readsContent_iff (by rw [h.mem]; exact h.le)

theorem auto_readTo_iff (n : ℕ) :
    (ReadsContent b.content b.pos.toNat p n (b.readAt p n) ∧ ∀ ok rhs, b.readTo ok p rhs n =
        (rhs.write ok ((b.content.drop p).take n)).map fun rhs => (min n (b.content.length - p), rhs)) ↔
      Repeats b.content b.pos.toNat p (min n (b.length - p)) := by
  rw [← auto_read_iff h hp n, and_iff_left_iff_imp]
  rintro ⟨hr, -⟩ ok rhs
  rw [AutoBuffer.readTo, hr, Option.map_eq_bind]
  rfl

end Auto

theorem fitSize_spec (ok : Bool) (b : AutoBuffer) (n : ℕ) :
    (b.fitSize ok n).2.pos = b.pos ∧ (b.fitSize ok n).2.length = b.length := by
  unfold AutoBuffer.fitSize
  split_ifs <;> exact ⟨rfl, rfl⟩

theorem fitSize_of_le {ok : Bool} {b : AutoBuffer} {n : ℕ} (hn : n ≤ b.capacity) :
    b.fitSize ok n = (true, b) := if_neg (Nat.not_lt.mpr hn)

section Write

variable {b : AutoBuffer} (h : Holds b) {ok : Bool}

include h

theorem length_fitSize {n : ℕ} (hn : n ≤ max b.capacity (AutoBuffer.mallocsize b.mallocUnitsize n)) {m : Bytes}
    (hm : (b.fitSize ok n).2.parray = some m) :
    m.length = (b.fitSize ok n).2.capacity ∧ max n b.capacity ≤ m.length ∧ m.length < 2 ^ 64 := by
  have hmem := h.mem
  have hmax := h.maxLt
  unfold AutoBuffer.fitSize at hm ⊢
  split_ifs at hm ⊢ with hgrow hok
  · cases hm
    have hlt : AutoBuffer.mallocsize b.mallocUnitsize n < 2 ^ 64 := by
      unfold AutoBuffer.mallocsize sizeT; omega
    rw [length_resize]
    exact ⟨rfl, by omega, hlt⟩
  · have hb : b.parray = some m := hm
    rw [hb, Option.getD_some] at hmem
    exact ⟨hmem, by omega, by omega⟩

variable {p : ℕ} (hp : p ≤ b.length)

include hp

theorem auto_writeAt_nil : b.writeAt ok p [] = some b := by
  have hle := h.le
  have hmax := h.maxLt
  have hn : sizeT ((p : ℤ) + ([] : Bytes).length) = p := sizeT_natCast (by simp; omega)
  have hlen : max p b.length = b.length := Nat.max_eq_right hp
  rw [AutoBuffer.writeAt, hn, fitSize_of_le (hp.trans hle), if_pos rfl, hlen]

variable {data : Bytes} (hd : p + data.length < 2 ^ 64)
  (hfit : p + data.length ≤ max b.capacity (AutoBuffer.mallocsize b.mallocUnitsize (p + data.length)))
  {b' : AutoBuffer} (hw : b.writeAt ok p data = some b')

include hd hfit hw

/-- **What a positional write leaves**: a buffer that holds its content, the cursor, and the data at its
position. -/
theorem auto_writeAt_spec :
    Holds b' ∧ b'.pos = b.pos ∧ p + data.length ≤ b'.length ∧
      (b'.content.drop p).take data.length = data := by
  have hn : sizeT ((p : ℤ) + data.length) = p + data.length := by
    rw [sizeT_of_lt (by omega) (by omega)]; omega
  have hnonneg := h.nonneg
  have hposle := h.posLe
  have hle := h.le
  by_cases hnil : data = []
  · subst hnil
    cases (auto_writeAt_nil h hp).symm.trans hw
    exact ⟨h, rfl, hp, List.take_zero⟩
  · obtain ⟨hpos, hlen⟩ := fitSize_spec ok b (p + data.length)
    unfold AutoBuffer.writeAt at hw
    simp only [hn, hlen, if_neg hnil] at hw
    obtain ⟨m, hm, hb⟩ := Option.map_eq_some_iff.mp hw
    obtain ⟨hmem, hroom, hlt⟩ := length_fitSize h hfit hm
    have hpar : b'.parray = some (storeAll m (storesAt p data)) := by rw [← hb]
    have hlen' : b'.length = max (p + data.length) b.length := by rw [← hb]
    have hpos' : b'.pos = b.pos := by rw [← hb]; exact hpos
    have hcap' : b'.capacity = m.length := by rw [← hb]; exact hmem.symm
    refine ⟨⟨by omega, by omega, by omega, ?_, by omega⟩, hpos', by omega, ?_⟩
    · rw [hpar, Option.getD_some, length_storeAll, hcap']
    · have hback := take_drop_written (r := []) (show p + data.length ≤ m.length by omega)
        (Nat.le_max_left _ b.length)
      rw [AutoBuffer.content, hpar, hlen', Option.getD_some]
      simpa using hback

theorem auto_readsBack_iff :
    ReadsBack b'.content b.pos.toNat data (b'.readAt p data.length) ↔
      Repeats b'.content b.pos.toNat p data.length := by
  obtain ⟨h', hpos, hlen, hcont⟩ := auto_writeAt_spec h hp hd hfit hw
  have hc : b'.content.length = b'.length :=
    List.length_take_of_le (by rw [h'.mem]; exact h'.le)
  have hiff := auto_read_iff h' (p := p) (by omega) data.length
  rw [Nat.min_eq_left (by omega), hpos] at hiff
  rw [readsBack_iff (by omega) hcont]
  exact hiff

end Write

/-! ### Both -/

/-- **What positional reads give.** A read at a position in the content gives the content there, and a read
behind a positional write the data, exactly if the content from the cursor on is the same. The data written to an
`AutoBuffer` fits in the capacity that it grows to. -/
theorem read_at_iff (p n : ℕ) (data : Bytes) :
    (∀ b : PtrBuffer, b.Inv → b.parray.length = b.maxLength → p < b.length →
      (ReadsContent b.content b.pos.toNat p n (b.readAt n p) ↔
        Repeats b.content b.pos.toNat p (min n (b.length - p)))) ∧
    (∀ b : AutoBuffer, Holds b → p ≤ b.length →
      (ReadsContent b.content b.pos.toNat p n (b.readAt p n) ∧ (∀ ok rhs, b.readTo ok p rhs n =
          (rhs.write ok ((b.content.drop p).take n)).map fun rhs => (min n (b.content.length - p), rhs)) ↔
        Repeats b.content b.pos.toNat p (min n (b.length - p)))) ∧
    (∀ b : PtrBuffer, b.Inv → b.parray.length = b.maxLength → p ≤ b.length →
      (ReadsBack (b.writeAt data p).content b.pos.toNat data ((b.writeAt data p).readAt data.length p) ↔
        Repeats (b.writeAt data p).content b.pos.toNat p data.length)) ∧
    (∀ (b b' : AutoBuffer) (ok : Bool), Holds b → p ≤ b.length → p + data.length < 2 ^ 64 →
      p + data.length ≤ max b.capacity (AutoBuffer.mallocsize b.mallocUnitsize (p + data.length)) →
      b.writeAt ok p data = some b' →
      (ReadsBack b'.content b.pos.toNat data (b'.readAt p data.length) ↔
        Repeats b'.content b.pos.toNat p data.length)) := by
  refine ⟨fun b h hm hp => ?_, fun b h hp => ?_, fun b h hm hp => ?_, fun b b' ok h hp hd hfit hw => ?_⟩
  · exact ptr_read_iff h hm (Nat.le_of_lt hp) n
  · exact auto_readTo_iff h hp n
  · exact ptr_readsBack_iff h hm hp data
  · exact auto_readsBack_iff h hp hd hfit hw

/-- Two bytes in a block of eight, with the cursor at `k`. -/
def two (k : ℤ) : AutoBuffer := ⟨some (ascii "ab" ++ List.replicate 6 0), k, 2, 8, 8⟩

theorem holds_two : Holds (two 0) := ⟨by decide, by decide, by decide, by decide, by decide⟩

/-- Reads at the cursor. -/
theorem read_at_iff_cursor :
    ReadsContent (ascii "abcd") 0 0 3 (PtrBuffer.four.readAt 3 0) ∧
      ReadsContent (ascii "ab") 0 0 5 ((two 0).readAt 0 5) ∧
      ReadsBack (ascii "xycd") 0 (ascii "xy") ((PtrBuffer.four.writeAt (ascii "xy") 0).readAt 2 0) ∧
      ∃ b', (two 0).writeAt true 0 (ascii "x") = some b' ∧ ReadsBack (ascii "xb") 0 (ascii "x") (b'.readAt 0 1) := by
  obtain ⟨h1, -, h3, -⟩ := read_at_iff 0 3 (ascii "xy")
  obtain ⟨-, h2, -, h4⟩ := read_at_iff 0 5 (ascii "x")
  refine ⟨(h1 PtrBuffer.four PtrBuffer.inv_four (by decide) (by decide)).mpr (repeats_self (by decide)),
    ((h2 (two 0) holds_two (by decide)).mpr (repeats_self (by decide))).1,
    (h3 PtrBuffer.four PtrBuffer.inv_four (by decide) (by decide)).mpr (by decide), _, rfl, ?_⟩
  exact (h4 (two 0) _ true holds_two (by decide) (by decide) (by decide) rfl).mpr (by decide)

/-- **A read away from the cursor gives other bytes**: at `2` those at the start, and with the cursor at the end
those behind the content. -/
theorem reads_at_cursor :
    PtrBuffer.four.Inv ∧ PtrBuffer.four.readAt 1 2 = some (1, ascii "a") ∧
      (PtrBuffer.four.content.drop 2).take 1 = ascii "c" ∧
      ¬ ReadsContent PtrBuffer.four.content 0 2 1 (PtrBuffer.four.readAt 1 2) ∧
      Holds (two 2) ∧ (two 2).readAt 0 2 = some (2, [0, 0]) ∧ (two 2).content = ascii "ab" := by
  refine ⟨PtrBuffer.inv_four, by decide, by decide, fun h => ?_,
    ⟨by decide, by decide, by decide, by decide, by decide⟩, by decide, by decide⟩
  exact absurd h.1 (by decide)

end MTAppenderFile.Comm.Reading
