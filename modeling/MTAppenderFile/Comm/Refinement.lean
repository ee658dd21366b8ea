import MTAppenderFile.Lib.Cursor
import MTAppenderFile.Comm.Reading

/-! # AutoBuffers as lists with a cursor

To its user an `AutoBuffer` is a list of bytes with a cursor (`Cursored`). Calls on several buffers (`AutoCall`),
of which some go from one buffer to another, do to these lists what `execText` says, as long as `realloc`
succeeds and no size comes near the range of the integers (`Allowed`).

A buffer represents a list (`Rep`) by the first `Length()` bytes of a block of `Capacity()` bytes. Every call
either grows the block, which keeps what it represents (`Rep.fitSize`), or stores in it and sets length and
cursor (`Rep.set`). -/

namespace MTAppenderFile.Comm.Refinement

open MTAppenderFile.Lib.Block
open MTAppenderFile.Lib.Run
open MTAppenderFile.Lib.Cursor
open MTAppenderFile.Comm.CTypes
open MTAppenderFile.Comm.Auto
open MTAppenderFile.Comm.Reading

/-- A call on the buffer `i`, or from it to the buffer `j`. -/
inductive AutoCall (ι : Type*)
  | write (i : ι) (data : Bytes)
  | writeAt (i : ι) (pos : ℤ) (data : Bytes)
  | writeSeek (i : ι) (seek : TSeek) (data : Bytes)
  | allocWrite (i : ι) (readytowrite : ℕ) (changelength : Bool)
  | addCapacity (i : ι) (len : ℕ)
  | move (i : ι) (moveLen : ℤ)
  | seek (i : ι) (offset : ℤ) (eorigin : TSeek)
  | length (i : ι) (pos : ℤ) (lenght : ℕ)
  | read (i : ι) (len : ℕ)
  | readInto (i j : ι) (len : ℕ)
  | attach (i j : ι)
  | detach (i : ι)
  | reset (i : ι)

/-- What a call gives to its caller: a number, and bytes. -/
abbrev Output := Option (ℕ × Bytes)

section Calls

variable {ι : Type*} [DecidableEq ι]

/-- The buffers after a call, and its output; `ok` says whether `realloc` succeeds. -/
def exec (ok : Bool) (b : ι → AutoBuffer) : AutoCall ι → Option ((ι → AutoBuffer) × Output)
  | .write i data => ((b i).write ok data).map fun b' => (Function.update b i b', none)
  | .writeAt i pos data => ((b i).writeAt ok pos data).map fun b' => (Function.update b i b', none)
  | .writeSeek i seek data => ((b i).writeSeek ok seek data).map fun b' => (Function.update b i b', none)
  | .allocWrite i n changelength => some (Function.update b i ((b i).allocWrite ok n changelength), none)
  | .addCapacity i len => some (Function.update b i ((b i).addCapacity ok len), none)
  | .move i moveLen => ((b i).move ok moveLen).map fun b' => (Function.update b i b', none)
  | .seek i offset eorigin => some (Function.update b i ((b i).seek offset eorigin), none)
  | .length i pos lenght => some (Function.update b i ((b i).setLength pos lenght), none)
  | .read i len => ((b i).read len).map fun r => (Function.update b i r.2, some r.1)
  | .readInto i j len => ((b i).readInto ok (b j) len).map fun r =>
      (Function.update (Function.update b i r.2.1) j r.2.2, some (r.1, []))
  | .attach i j => some (Function.update (Function.update b i ((b i).attach (b j)).1) j ((b i).attach (b j)).2, none)
  | .detach i => some (Function.update b i (b i).detach.2.2,
      some ((b i).detach.2.1, ((b i).detach.1.getD []).take (b i).detach.2.1))
  | .reset i => some (Function.update b i (b i).reset, none)

/-- One call, with the outputs so far. -/
def step (s : (ι → AutoBuffer) × List Output) (c : Bool × AutoCall ι) : Option ((ι → AutoBuffer) × List Output) :=
  (exec c.1 s.1 c.2).map fun r => (r.1, s.2 ++ [r.2])

/-- The position in the list that a `TSeek` names. -/
def origin (s : Cursored Byte) : TSeek → ℕ
  | .ESeekStart => 0
  | .ESeekCur => s.cursor
  | .ESeekEnd => s.content.length

/-- **What the calls do to the lists**, and what they give to the caller. -/
def execText (a : ι → Cursored Byte) : AutoCall ι → (ι → Cursored Byte) × Output
  | .write i data => (Function.update a i ((a i).write data), none)
  | .writeAt i pos data => (Function.update a i ((a i).writeAt pos.toNat data), none)
  | .writeSeek i seek data => (Function.update a i ((a i).writeAt (origin (a i) seek) data), none)
  | .allocWrite _ _ _ => (a, none)
  | .addCapacity _ _ => (a, none)
  | .move i moveLen => (Function.update a i (if 0 < moveLen then (a i).prepend moveLen.toNat 0
      else (a i).dropFront (-moveLen).toNat), none)
  | .seek i offset eorigin => (Function.update a i ((a i).seekTo (origin (a i) eorigin + offset)), none)
  | .length i pos lenght => (Function.update a i ((a i).setLength pos lenght), none)
  | .read i len => (Function.update a i ((a i).skip len), some (((a i).ahead len).length, (a i).ahead len))
  | .readInto i j len => (Function.update (Function.update a i ((a i).skip len)) j ((a j).write ((a i).ahead len)),
      some (((a i).ahead len).length, []))
  | .attach i j => (Function.update (Function.update a i (a j)) j .empty, none)
  | .detach i => (Function.update a i .empty, some ((a i).content.length, (a i).content))
  | .reset i => (Function.update a i .empty, none)

/-- One call on the lists, with the outputs so far. -/
def stepText (s : (ι → Cursored Byte) × List Output) (c : Bool × AutoCall ι) :
    (ι → Cursored Byte) × List Output :=
  ((execText s.1 c.2).1, s.2 ++ [(execText s.1 c.2).2])

/-- The calls in question: positions are in the content, sizes and offsets below `2 ^ 61`, and two buffers of a
call are not the same one. An `AllocWrite` that changes the length is not among them: the bytes that it adds to
the content are whatever is in the block. -/
def Allowed (b : ι → AutoBuffer) : AutoCall ι → Prop
  | .write i data => (b i).pos + data.length < 2 ^ 61
  | .writeAt i pos data => 0 ≤ pos ∧ pos ≤ (b i).length ∧ pos + data.length < 2 ^ 61
  | .writeSeek i seek data => (b i).seekPos seek + data.length < 2 ^ 61
  | .allocWrite i n changelength => (b i).pos + n < 2 ^ 61 ∧ changelength = false
  | .addCapacity i len => (b i).capacity + len < 2 ^ 61
  | .move i moveLen => -2 ^ 61 < moveLen ∧ (b i).length + moveLen < 2 ^ 61
  | .seek i offset eorigin => (-2 ^ 61 < offset ∧ offset < 2 ^ 61) ∧
      -2 ^ 61 < (b i).seekPos eorigin + offset ∧ (b i).seekPos eorigin + offset < 2 ^ 61
  | .length i pos lenght => 0 ≤ pos ∧ pos ≤ lenght ∧ lenght ≤ (b i).length
  | .read _ _ => True
  | .readInto i j len => i ≠ j ∧ (b j).pos + min len ((b i).length - (b i).pos.toNat) < 2 ^ 61
  | .attach i j => i ≠ j
  | .detach _ => True
  | .reset _ => True

instance (b : ι → AutoBuffer) : ∀ call : AutoCall ι, Decidable (Allowed b call)
  | .write _ _ | .writeSeek _ _ _ | .addCapacity _ _ => inferInstanceAs (Decidable (_ < _))
  | .writeAt _ _ _ | .allocWrite _ _ _ | .move _ _ | .seek _ _ _ | .length _ _ _ | .readInto _ _ _ =>
    inferInstanceAs (Decidable (_ ∧ _))
  | .attach _ _ => inferInstanceAs (Decidable (_ ≠ _))
  | .read _ _ | .detach _ | .reset _ => inferInstanceAs (Decidable True)

end Calls

/-! ### One buffer -/

/-- **The buffer represents the list**, and its block and unit are far from the range of the integers. -/
structure Rep (b : AutoBuffer) (c : Cursored Byte) : Prop extends Holds b where
  content : b.content = c.content
  cursor : b.pos = c.cursor
  unitPos : 0 < b.mallocUnitsize
  unitLt : b.mallocUnitsize < 2 ^ 61
  capLt : b.capacity < 2 ^ 62

theorem rep_empty {unit : ℕ} (hpos : 0 < unit) (hlt : unit < 2 ^ 61) : Rep (.empty unit) .empty :=
  ⟨⟨Int.le_refl 0, Int.le_refl 0, Nat.le_refl 0, rfl, show 0 < 2 ^ 64 by decide⟩, rfl, rfl, hpos, hlt,
    show 0 < 2 ^ 62 by decide⟩

theorem memcpyTo_eq {b : AutoBuffer} {p : ℕ} (data : Bytes) (hp : p + data.length ≤ (b.parray.getD []).length) :
    ∃ m, b.memcpyTo p data = some { b with parray := m } ∧ m.getD [] = overwrite (b.parray.getD []) p data := by
  by_cases hnil : data = []
  · refine ⟨b.parray, if_pos hnil, ?_⟩
    rw [hnil, overwrite_nil]
  · have hlen := List.length_pos_iff.mpr hnil
    cases hm : b.parray with
    | none =>
      rw [hm, Option.getD_none, List.length_nil] at hp
      omega
    | some m =>
      rw [hm, Option.getD_some] at hp
      refine ⟨some (storeAll m (storesAt p data)), ?_, ?_⟩
      · rw [AutoBuffer.memcpyTo, if_neg hnil, hm]
        rfl
      · rw [Option.getD_some, Option.getD_some, storeAll_storesAt data m p hp]

theorem clamp_eq {b : AutoBuffer} {p : ℤ} (hb : b.length < 2 ^ 63) (hp : p < 2 ^ 63) :
    b.clamp p = { b with pos := (min p.toNat b.length : ℕ) } := by
  have hoff : offT (b.length : ℤ) = b.length := offT_of_lt (by omega) (by omega)
  have hpos : (if sizeT (if p < 0 then 0 else p) > b.length then offT (b.length : ℤ) else if p < 0 then 0 else p) =
      (min p.toNat b.length : ℕ) := by
    by_cases h0 : p < 0
    · have hz : sizeT 0 = 0 := rfl
      rw [if_pos h0, hz, if_neg (Nat.not_lt_zero _)]
      omega
    · rw [if_neg h0, sizeT_of_lt (by omega) (by omega), hoff]
      split_ifs <;> omega
  rw [AutoBuffer.clamp, hpos]

theorem setLength_eq {b : AutoBuffer} {p : ℤ} {n : ℕ} (hn : n < 2 ^ 63) (hp : p < 2 ^ 63) :
    b.setLength p n = { b with pos := (min p.toNat n : ℕ), length := n } :=
  clamp_eq (b := { b with length := n }) hn hp

section Rep

variable {b : AutoBuffer} {c : Cursored Byte} (h : Rep b c)

include h

theorem Rep.length_eq : c.content.length = b.length := by
  rw [← h.content]
  exact List.length_take_of_le (by rw [h.mem]; exact h.le)

theorem Rep.cursor_le : c.cursor ≤ b.length := by
  rw [← h.length_eq]
  exact c.le

/-- **Another content of the same block.** -/
theorem Rep.set {m : Option Bytes} {pos : ℤ} {length : ℕ} {c' : Cursored Byte}
    (hm : (m.getD []).length = b.capacity) (hl : length ≤ b.capacity) (hc : (m.getD []).take length = c'.content)
    (hpos : pos = c'.cursor) : Rep { b with parray := m, pos := pos, length := length } c' := by
  have hlen : c'.content.length = length := by
    rw [← hc]
    exact List.length_take_of_le (by omega)
  have hle := c'.le
  refine ⟨⟨?_, ?_, hl, hm, h.maxLt⟩, hc, hpos, h.unitPos, h.unitLt, h.capLt⟩
  · simp only [hpos]; omega
  · simp only [hpos]; omega

/-- **Growing keeps the content.** -/
theorem Rep.fitSize {n : ℕ} (hn : n < 2 ^ 61) :
    Rep (b.fitSize true n).2 c ∧ (b.fitSize true n).1 = true ∧ n ≤ (b.fitSize true n).2.capacity := by
  have hu := h.unitLt
  by_cases hgrow : n > b.capacity
  · obtain ⟨hfit, hlt⟩ := AutoBuffer.mallocsize_spec h.unitPos (show n + b.mallocUnitsize < 2 ^ 63 by omega)
    have hmem := h.mem
    have hle := h.le
    rw [AutoBuffer.fitSize, if_pos hgrow, if_pos rfl]
    generalize AutoBuffer.mallocsize b.mallocUnitsize n = cap at hfit hlt ⊢
    have hcap : cap < 2 ^ 62 := by omega
    have hlen : b.length ≤ cap := by omega
    have hc : (resize (b.parray.getD []) cap).take b.length = c.content := by
      rw [take_resize (by omega) hlen, ← h.content, AutoBuffer.content]
    exact ⟨⟨⟨h.nonneg, h.posLe, hlen, length_resize _ _, show cap < 2 ^ 64 by omega⟩, hc, h.cursor, h.unitPos,
      h.unitLt, hcap⟩, rfl, hfit⟩
  · have hn' : n ≤ b.capacity := by omega
    rw [fitSize_of_le hn']
    exact ⟨h, rfl, hn'⟩

theorem Rep.seekPos_eq (e : TSeek) : b.seekPos e = origin c e := by
  have hle := h.le
  have hcap := h.capLt
  cases e with
  | ESeekStart => rfl
  | ESeekCur => exact h.cursor
  | ESeekEnd =>
    rw [AutoBuffer.seekPos, offT_of_lt (by omega) (by omega), origin, h.length_eq]

theorem Rep.clamp {p : ℤ} (hp : p < 2 ^ 63) : Rep (b.clamp p) (c.seekTo p) := by
  have hle := h.le
  have hcap := h.capLt
  rw [clamp_eq (by omega) hp]
  exact h.set h.mem h.le h.content (by rw [← h.length_eq]; rfl)

/-- **`Seek`.** -/
theorem Rep.seek {off : ℤ} {e : TSeek} (hlo : -2 ^ 62 < b.seekPos e + off) (hhi : b.seekPos e + off < 2 ^ 62) :
    Rep (b.seek off e) (c.seekTo (origin c e + off)) := by
  have hle := h.le
  have hcap := h.capLt
  rw [← h.seekPos_eq e]
  have hseek : b.seek off e = b.clamp (b.seekPos e + off) := by
    cases e with
    | ESeekStart => rw [AutoBuffer.seek, AutoBuffer.seekPos, Int.zero_add]
    | ESeekCur => rw [AutoBuffer.seek, ← AutoBuffer.seekPos, offT_of_lt (by omega) (by omega)]
    | ESeekEnd =>
      rw [AutoBuffer.seekPos, offT_of_lt (by omega) (by omega)] at hlo hhi ⊢
      rw [AutoBuffer.seek, offT_of_lt (by omega) (by omega)]
  rw [hseek]
  exact h.clamp (by omega)

/-- **A positional write.** -/
theorem Rep.writeAt {p : ℕ} (hp : p ≤ b.length) (data : Bytes) (hd : p + data.length < 2 ^ 61) :
    ∃ b', b.writeAt true p data = some b' ∧ Rep b' (c.writeAt p data) := by
  obtain ⟨g, -, hfit⟩ := h.fitSize hd
  have hn : sizeT ((p : ℤ) + data.length) = p + data.length := sizeT_natCast (by omega)
  have hlen : (b.fitSize true (p + data.length)).2.length = b.length := (fitSize_spec ..).2
  have hw : b.writeAt true p data = AutoBuffer.memcpyTo { (b.fitSize true (p + data.length)).2 with
      length := max b.length (p + data.length) } p data := by
    rw [AutoBuffer.writeAt, hn, hlen, Nat.max_comm]
    rfl
  generalize (b.fitSize true (p + data.length)).2 = b₁ at g hfit hlen hw
  have hmem := g.mem
  have hle := g.le
  obtain ⟨m, hs, hm⟩ := memcpyTo_eq (b := { b₁ with length := max b.length (p + data.length) }) (p := p) data
    (by dsimp only; omega)
  refine ⟨_, hw.trans hs, g.set ?_ (show max b.length (p + data.length) ≤ b₁.capacity by omega) ?_ g.cursor⟩
  · rw [hm, length_overwrite (by dsimp only; omega), hmem]
  · rw [hm, take_max_overwrite data hp (by dsimp only; omega), ← hlen]
    exact congrArg (fun m => overwrite m p data) g.content

/-- **A write at the cursor.** -/
theorem Rep.write {data : Bytes} (hd : b.pos + data.length < 2 ^ 61) :
    ∃ b', b.write true data = some b' ∧ Rep b' (c.write data) := by
  have hcur := h.cursor
  obtain ⟨b', hw, h'⟩ := h.writeAt h.cursor_le data (by omega)
  have hpos : b'.seekPos .ESeekCur = c.cursor := h'.cursor
  have hoff : offT (data.length : ℤ) = data.length := offT_of_lt (by omega) (by omega)
  refine ⟨b'.seek data.length .ESeekCur, ?_, h'.seek (by omega) (by omega)⟩
  rw [AutoBuffer.write, hcur, hw, Option.map_some, hoff]

theorem Rep.writeSeek {data : Bytes} {e : TSeek} (hd : b.seekPos e + data.length < 2 ^ 61) :
    ∃ b', b.writeSeek true e data = some b' ∧ Rep b' (c.writeAt (origin c e) data) := by
  have hpos := h.seekPos_eq e
  have hle : origin c e ≤ b.length := by
    cases e with
    | ESeekStart => exact Nat.zero_le _
    | ESeekCur => exact h.cursor_le
    | ESeekEnd => exact Nat.le_of_eq h.length_eq
  obtain ⟨b', hw, h'⟩ := h.writeAt hle data (by omega)
  refine ⟨b', ?_, h'⟩
  rw [AutoBuffer.writeSeek, AutoBuffer.writeFrom, hpos, hw]
  rfl

/-- **`Length(_pos, _lenght)`** of a part of the content. -/
theorem Rep.setLength {p : ℤ} {n : ℕ} (hp : p < 2 ^ 63) (hn : n ≤ b.length) :
    Rep (b.setLength p n) (c.setLength p n) := by
  have hle := h.le
  have hcap := h.capLt
  have hc : (b.parray.getD []).take n = c.content.take n := by
    rw [← h.content, AutoBuffer.content, List.take_take, Nat.min_eq_left hn]
  have hlen : (c.content.take n).length = n := List.length_take_of_le (by rw [h.length_eq]; exact hn)
  rw [setLength_eq (by omega) hp]
  exact h.set h.mem (hn.trans hle) hc (congrArg (fun k => ((min p.toNat k : ℕ) : ℤ)) hlen.symm)

theorem Rep.readMem_eq {k r : ℕ} (hk : k + r ≤ b.length) :
    readMem (b.parray.getD []) k r = some ((c.content.drop k).take r) := by
  rw [Reading.readMem_eq (by rw [h.mem]; exact h.le) hk, ← h.content, AutoBuffer.content]

/-- The two stores of a `Move` to the right: the content `k` bytes further, and `k` zeros in front. -/
theorem Rep.shift_right {k : ℕ} (hfit : b.length + k ≤ b.capacity) :
    ∃ m, ((b.memcpyTo k c.content).bind fun b => b.memcpyTo 0 (List.replicate k 0)) = some { b with parray := m } ∧
      (m.getD []).length = b.capacity ∧ (m.getD []).take (b.length + k) = List.replicate k 0 ++ c.content := by
  have hmem := h.mem
  have hc := h.length_eq
  have hz : (List.replicate k (0 : Byte)).length = k := List.length_replicate
  obtain ⟨m₁, hs₁, hm₁⟩ := memcpyTo_eq (b := b) (p := k) c.content (by omega)
  have hlen₁ : (m₁.getD []).length = b.capacity := by
    rw [hm₁, length_overwrite (by omega), hmem]
  obtain ⟨m₂, hs₂, hm₂⟩ := memcpyTo_eq (b := { b with parray := m₁ }) (p := 0) (List.replicate k 0)
    (by dsimp only; omega)
  have hd : k + b.length - k = b.length := Nat.add_sub_cancel_left ..
  refine ⟨m₂, ?_, ?_, ?_⟩
  · rw [hs₁, Option.bind_some]
    exact hs₂
  · rw [hm₂, length_overwrite (by dsimp only; omega)]
    exact hlen₁
  · rw [hm₂, overwrite_zero, hz, hm₁, drop_overwrite _ (by omega), Nat.add_comm, List.take_append, hz, hd,
      List.take_of_length_le (by omega), ← hc, List.take_left]

/-- **`Move` to the right.** -/
theorem Rep.move_right {k : ℕ} (hk : 0 < k) (hl : b.length + k < 2 ^ 61) :
    ∃ b', b.move true k = some b' ∧ Rep b' (c.prepend k 0) := by
  obtain ⟨g, hok, hfit⟩ := h.fitSize hl
  have hn : sizeT ((b.length : ℤ) + k) = b.length + k := sizeT_natCast (by omega)
  obtain ⟨hpos, hlen⟩ := fitSize_spec true b (b.length + k)
  rcases hf : b.fitSize true (b.length + k) with ⟨fits, b₁⟩
  rw [hf] at g hok hfit hpos hlen
  dsimp only at g hok hfit hpos hlen
  have hcur := g.cursor
  have hle := g.cursor_le
  have hread := g.readMem_eq (k := 0) (r := b₁.length) (by omega)
  rw [Nat.cast_zero, List.drop_zero, ← g.length_eq, List.take_length, g.length_eq] at hread
  obtain ⟨m, hs, hm, hcont⟩ := g.shift_right (k := k) (by omega)
  have hsz : sizeT ((b₁.length : ℤ) + k) = b₁.length + k := sizeT_natCast (n := b₁.length + k) (by omega)
  have hoff : offT (b₁.pos + k) = (c.cursor + k : ℕ) := by
    rw [offT_of_lt (by omega) (by omega)]; omega
  have hmin : min ((c.cursor + k : ℕ) : ℤ).toNat (b₁.length + k) = c.cursor + k := by omega
  have hset := setLength_eq (b := { b₁ with parray := m }) (p := (c.cursor + k : ℕ)) (n := b₁.length + k)
    (by omega) (by omega)
  rw [hmin] at hset
  have hrep : Rep { b₁ with parray := m, pos := (c.cursor + k : ℕ), length := b₁.length + k } (c.prepend k 0) :=
    g.set hm (by omega) hcont rfl
  refine ⟨_, ?_, hrep⟩
  rw [AutoBuffer.move, if_pos (by omega), hn, hf]
  simp only [hok, if_true, hread, Int.toNat_natCast, Option.bind_eq_bind, Option.bind_some]
  rw [← Option.bind_assoc, hs, Option.bind_some, hsz, hoff, hset]

/-- **`Move` to the left.** -/
theorem Rep.move_left {k : ℕ} (hk : k < 2 ^ 61) :
    ∃ b', b.move true (-k) = some b' ∧ Rep b' (c.dropFront k) := by
  have hmem := h.mem
  have hle := h.le
  have hcap := h.capLt
  have hcur := h.cursor
  have hcl := h.cursor_le
  have hc := h.length_eq
  have hlen : (c.content.drop k).length = b.length - min k b.length := by
    rw [List.length_drop, hc]; omega
  have hread := h.readMem_eq (k := min k b.length) (r := b.length - min k b.length) (by omega)
  have hdrop : (c.content.drop (min k b.length)).take (b.length - min k b.length) = c.content.drop k := by
    rw [← hlen, ← hc]
    rcases Nat.le_total k c.content.length with hkl | hkl
    · rw [Nat.min_eq_left hkl, List.take_length]
    · rw [List.drop_eq_nil_of_le hkl, List.length_nil, List.take_zero]
  rw [hdrop] at hread
  obtain ⟨m, hs, hm⟩ := memcpyTo_eq (b := b) (p := 0) (c.content.drop k) (by omega)
  have hmlen : (m.getD []).length = b.capacity := by
    rw [hm, length_overwrite (by omega), hmem]
  have hcont : (m.getD []).take (b.length - min k b.length) = (c.dropFront k).content := by
    rw [hm, overwrite_zero, ← hlen, List.take_left]
    rfl
  have hsz : sizeT (-(-(k : ℤ))) = k := by rw [Int.neg_neg, sizeT_natCast (by omega)]
  have hpos : (if min k b.length < sizeT b.pos then offT (b.pos - (min k b.length : ℕ)) else 0) =
      (c.cursor - k : ℕ) := by
    rw [hcur, sizeT_natCast (by omega), offT_of_lt (by omega) (by omega)]
    split_ifs <;> omega
  have hmin : min ((c.cursor - k : ℕ) : ℤ).toNat (b.length - min k b.length) = c.cursor - k := by omega
  have hset := setLength_eq (b := { b with parray := m }) (p := (c.cursor - k : ℕ))
    (n := b.length - min k b.length) (by omega) (by omega)
  rw [hmin] at hset
  refine ⟨_, ?_, h.set hmlen (by omega) hcont rfl⟩
  rw [AutoBuffer.move, if_neg (by omega), hsz]
  simp only [hread, Option.bind_eq_bind, Option.bind_some]
  rw [← Nat.cast_zero, hs, Option.bind_some]
  dsimp only
  rw [Nat.cast_zero, hpos, hset]
  rfl

theorem Rep.readAt (n : ℕ) : b.readAt b.pos n = some ((c.ahead n).length, c.ahead n) := by
  have hcl := h.cursor_le
  have hlen : (c.ahead n).length = min n (b.length - c.cursor) := by rw [Cursored.length_ahead, h.length_eq]
  rw [h.cursor, auto_readAt_eq h.toHolds hcl n, h.cursor, Int.toNat_natCast, h.readMem_eq (by omega), Option.map_some,
    ← hlen]
  have hahead : (c.content.drop c.cursor).take (c.ahead n).length = c.ahead n := by
    rw [Cursored.ahead, List.length_take, ← List.take_eq_take_min]
  rw [hahead]

theorem Rep.skip (n : ℕ) : Rep (b.seek (offT (c.ahead n).length) .ESeekCur) (c.skip n) := by
  have hle := h.le
  have hcap := h.capLt
  have hcl := h.cursor_le
  have hpos := h.seekPos_eq .ESeekCur
  have hlen : (c.ahead n).length ≤ b.length - c.cursor := by
    rw [Cursored.length_ahead, h.length_eq]; omega
  rw [offT_of_lt (by omega) (by omega)]
  exact h.seek (by omega) (by rw [hpos, origin]; omega)

/-- **A read at the cursor**, which moves behind what it gives. -/
theorem Rep.read (n : ℕ) :
    ∃ b', b.read n = some (((c.ahead n).length, c.ahead n), b') ∧ Rep b' (c.skip n) := by
  refine ⟨_, ?_, h.skip n⟩
  rw [AutoBuffer.read, h.readAt n, Option.map_some]

/-- **A read at the cursor into another buffer.** -/
theorem Rep.readInto {b₂ : AutoBuffer} {c₂ : Cursored Byte} (h₂ : Rep b₂ c₂) {n : ℕ}
    (hd : b₂.pos + (c.ahead n).length < 2 ^ 61) :
    ∃ b' b₂', b.readInto true b₂ n = some ((c.ahead n).length, b', b₂') ∧ Rep b' (c.skip n) ∧
      Rep b₂' (c₂.write (c.ahead n)) := by
  obtain ⟨b₂', hw, h₂'⟩ := h₂.write hd
  refine ⟨_, b₂', ?_, h.skip n, h₂'⟩
  rw [AutoBuffer.readInto, AutoBuffer.readTo, h.readAt n]
  simp only [hw, Option.bind_eq_bind, Option.bind_some, Option.map_some]

theorem Rep.reset : Rep b.reset .empty :=
  ⟨⟨Int.le_refl 0, Int.le_refl 0, Nat.le_refl 0, rfl, show 0 < 2 ^ 64 by decide⟩, rfl, rfl, h.unitPos, h.unitLt,
    show 0 < 2 ^ 62 by decide⟩

theorem Rep.attach {b₂ : AutoBuffer} {c₂ : Cursored Byte} (h₂ : Rep b₂ c₂) : Rep (b.attach b₂).1 c₂ :=
  ⟨⟨h₂.nonneg, h₂.posLe, h₂.le, h₂.mem, h₂.maxLt⟩, h₂.content, h₂.cursor, h.unitPos, h.unitLt, h₂.capLt⟩

end Rep

/-! ### Calls on several buffers -/

section Calls

variable {ι : Type*} [DecidableEq ι] {b : ι → AutoBuffer} {a : ι → Cursored Byte} (h : ∀ i, Rep (b i) (a i))

include h

theorem rep_update {i : ι} {b' : AutoBuffer} {c' : Cursored Byte} (h' : Rep b' c') :
    ∀ k, Rep (Function.update b i b' k) (Function.update a i c' k) := by
  intro k
  by_cases hk : k = i
  · subst hk
    rw [Function.update_self, Function.update_self]
    exact h'
  · rw [Function.update_of_ne hk, Function.update_of_ne hk]
    exact h k

theorem rep_update_left {i : ι} {b' : AutoBuffer} (h' : Rep b' (a i)) : ∀ k, Rep (Function.update b i b' k) (a k) := by
  have h₁ := rep_update h (i := i) h'
  rwa [Function.update_eq_self] at h₁

/-- **One call.** It can be made, leaves buffers that represent the lists that it leads to, and gives what it gives
on the lists. -/
theorem exec_rep {call : AutoCall ι} (hc : Allowed b call) :
    ∃ b', exec true b call = some (b', (execText a call).2) ∧ ∀ i, Rep (b' i) ((execText a call).1 i) := by
  cases call with
  | write i data =>
    obtain ⟨b', hw, h'⟩ := (h i).write hc
    exact ⟨_, by rw [exec, hw]; rfl, rep_update h h'⟩
  | writeAt i pos data =>
    obtain ⟨h0, hp, hd⟩ := hc
    lift pos to ℕ using h0
    obtain ⟨b', hw, h'⟩ := (h i).writeAt (p := pos) (by omega) data (by omega)
    exact ⟨_, by rw [exec, hw]; rfl, rep_update h h'⟩
  | writeSeek i seek data =>
    obtain ⟨b', hw, h'⟩ := (h i).writeSeek hc
    exact ⟨_, by rw [exec, hw]; rfl, rep_update h h'⟩
  | allocWrite i n changelength =>
    obtain ⟨hn, rfl⟩ := hc
    have hpos := (h i).cursor
    have hs : sizeT ((b i).pos + n) = (a i).cursor + n := by
      rw [hpos]
      exact sizeT_natCast (by omega)
    refine ⟨_, rfl, rep_update_left h ?_⟩
    rw [AutoBuffer.allocWrite, hs]
    exact ((h i).fitSize (by omega)).1
  | addCapacity i len =>
    have hlt : (b i).capacity + len < 2 ^ 61 := hc
    have hs : sizeT (((b i).capacity : ℤ) + len) = (b i).capacity + len := sizeT_natCast (by omega)
    refine ⟨_, rfl, rep_update_left h ?_⟩
    rw [AutoBuffer.addCapacity, hs]
    exact ((h i).fitSize hc).1
  | move i moveLen =>
    obtain ⟨hlo, hhi⟩ := hc
    by_cases hpos : 0 < moveLen
    · lift moveLen to ℕ using Int.le_of_lt hpos
      obtain ⟨b', hm, h'⟩ := (h i).move_right (k := moveLen) (by omega) (by omega)
      refine ⟨_, by rw [exec, hm]; rfl, ?_⟩
      rw [execText, if_pos hpos, Int.toNat_natCast]
      exact rep_update h h'
    · obtain ⟨k, hk⟩ := Int.eq_ofNat_of_zero_le (show 0 ≤ -moveLen by omega)
      have hneg : moveLen = -(k : ℤ) := by omega
      subst hneg
      obtain ⟨b', hm, h'⟩ := (h i).move_left (k := k) (by omega)
      refine ⟨_, by rw [exec, hm]; rfl, ?_⟩
      rw [execText, if_neg hpos, Int.neg_neg, Int.toNat_natCast]
      exact rep_update h h'
  | seek i offset eorigin =>
    obtain ⟨-, hlo, hhi⟩ := hc
    exact ⟨_, rfl, rep_update h ((h i).seek (by omega) (by omega))⟩
  | length i pos lenght =>
    obtain ⟨-, hp, hn⟩ := hc
    have hle := (h i).le
    have hcap := (h i).capLt
    exact ⟨_, rfl, rep_update h ((h i).setLength (by omega) hn)⟩
  | read i len =>
    obtain ⟨b', hr, h'⟩ := (h i).read len
    exact ⟨_, by rw [exec, hr]; rfl, rep_update h h'⟩
  | readInto i j len =>
    obtain ⟨hne, hd⟩ := hc
    have hlen : ((a i).ahead len).length = min len ((b i).length - (b i).pos.toNat) := by
      rw [Cursored.length_ahead, (h i).length_eq, (h i).cursor, Int.toNat_natCast]
    obtain ⟨b', b₂', hr, h', h₂'⟩ := (h i).readInto (h j) (n := len) (by omega)
    exact ⟨_, by rw [exec, hr]; rfl, rep_update (rep_update h h') h₂'⟩
  | attach i j =>
    exact ⟨_, rfl, rep_update (rep_update h ((h i).attach (h j))) (h j).reset⟩
  | detach i =>
    refine ⟨_, ?_, rep_update h (h i).reset⟩
    rw [exec, execText, (h i).length_eq, ← (h i).content]
    rfl
  | reset i => exact ⟨_, rfl, rep_update h (h i).reset⟩

/-- **A run of calls**, from any buffers that represent lists. -/
theorem run_rep {cs : List (Bool × AutoCall ι)}
    (hm : Meets step (fun s c => c.1 = true ∧ Allowed s.1 c.2) (b, []) cs) :
    ∃ s, run step (b, []) cs = some s ∧ (∀ i, Rep (s.1 i) ((cs.foldl stepText (a, [])).1 i)) ∧
      s.2 = (cs.foldl stepText (a, [])).2 := by
  refine run_refines (R := fun s t => (∀ i, Rep (s.1 i) (t.1 i)) ∧ s.2 = t.2) (t := (a, [])) ?_ ⟨h, rfl⟩ hm
  rintro s t ⟨ok, call⟩ ⟨hr, ho⟩ ⟨rfl, hc⟩
  obtain ⟨b', he, hr'⟩ := exec_rep hr hc
  exact ⟨_, by rw [step, he, Option.map_some], hr', by rw [stepText, ho]⟩

end Calls

/-- **AutoBuffers refine lists with a cursor.** Whatever the units, every run of calls on fresh buffers can be
made as long as `realloc` succeeds. It gives what the calls give on the lists, and leaves the contents and cursors
that they leave there, with the cursor in the content and the content in the capacity. -/
theorem refines_cursored {ι : Type*} [DecidableEq ι] {unit : ι → ℕ} (hu : ∀ i, 0 < unit i ∧ unit i < 2 ^ 61)
    {cs : List (Bool × AutoCall ι)}
    (hm : Meets step (fun s c => c.1 = true ∧ Allowed s.1 c.2) (fun i => .empty (unit i), []) cs) :
    ∃ s, run step (fun i => .empty (unit i), []) cs = some s ∧ s.2 = (cs.foldl stepText (fun _ => .empty, [])).2 ∧
      ∀ i, (s.1 i).content = ((cs.foldl stepText (fun _ => .empty, [])).1 i).content ∧
        (s.1 i).pos = ((cs.foldl stepText (fun _ => .empty, [])).1 i).cursor ∧
        0 ≤ (s.1 i).pos ∧ (s.1 i).pos ≤ (s.1 i).length ∧ (s.1 i).length = (s.1 i).content.length ∧
        (s.1 i).length ≤ (s.1 i).capacity := by
  obtain ⟨s, hs, hr, ho⟩ := run_rep (fun i => rep_empty (hu i).1 (hu i).2) hm
  refine ⟨s, hs, ho, fun i => ?_⟩
  have h := hr i
  exact ⟨h.content, h.cursor, h.nonneg, h.posLe, by rw [h.content, h.length_eq], h.le⟩

/-- Two bytes, a zero in front of them, and the last byte read into another buffer. -/
theorem refines_cursored_two :
    ∃ s, run step (fun _ : Bool => .empty 8, []) [(true, .write false (ascii "ab")), (true, .move false 1),
        (true, .seek false (-1) .ESeekEnd), (true, .readInto false true 5)] = some s ∧
      (s.1 false).content = 0 :: ascii "ab" ∧ (s.1 true).content = ascii "b" := by
  have hm : Meets step (fun s c => c.1 = true ∧ Allowed s.1 c.2) (fun _ : Bool => .empty 8, [])
      [(true, .write false (ascii "ab")), (true, .move false 1), (true, .seek false (-1) .ESeekEnd),
        (true, .readInto false true 5)] := by
    refine meets_of_step ⟨rfl, ?_⟩ rfl (meets_of_step ⟨rfl, ?_⟩ rfl (meets_of_step ⟨rfl, ?_⟩ rfl
      (meets_of_step ⟨rfl, ?_⟩ rfl trivial))) <;> decide
  obtain ⟨s, hs, -, h⟩ := refines_cursored (fun _ => ⟨by decide, by decide⟩) hm
  exact ⟨s, hs, (h false).1.trans (by decide), (h true).1.trans (by decide)⟩

end MTAppenderFile.Comm.Refinement
