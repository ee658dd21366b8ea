import MTAppenderFile.Comm.Refinement

/-! # AutoBuffers without memory

A growth that fails frees the block and leaves the length and the capacity as they are. What is left is a capacity
without memory, and the next call that stores within it stores through `NULL` (`StoresNull`).

`Write` does not look at what `__FitSize` returns, and stores at once; an `AllocWrite` that changes the length leaves
a length without memory. `AddCapacity`, `Move` and the other `AllocWrite` do no harm to a buffer that has neither
content nor capacity. So a run of calls goes well exactly if every other growth in it succeeds (`null_empty_iff`). -/

namespace MTAppenderFile.Comm.Allocation

open MTAppenderFile.Lib.Block
open MTAppenderFile.Lib.Run
open MTAppenderFile.Comm.CTypes
open MTAppenderFile.Comm.Auto
open MTAppenderFile.Comm.Reading
open MTAppenderFile.Comm.Refinement

/-- The pointer is `NULL` only if there is neither content nor capacity. -/
def NullEmpty (b : AutoBuffer) : Prop := b.parray = none → b.length = 0 ∧ b.capacity = 0

/-- The same, with the cursor of an empty content at its start. -/
structure Sound (b : AutoBuffer) : Prop where
  null : NullEmpty b
  cursor : b.length = 0 → b.pos = 0

/-- `Write(_pos, …)` stores through `NULL`: the pointer is `NULL` behind `__FitSize`, and there is something to
store. -/
def WritesNull (ok : Bool) (b : AutoBuffer) (pos : ℤ) (data : Bytes) : Prop :=
  (b.fitSize ok (sizeT (pos + data.length))).2.parray = none ∧ data ≠ []

section Calls

variable {ι : Type*}

/-- The calls in question: what the assertions of the code demand, with arguments in the range of their types. -/
def Permitted (b : ι → AutoBuffer) : AutoCall ι → Prop
  | .write _ data => data.length < 2 ^ 64
  | .writeAt i pos data => 0 ≤ pos ∧ pos ≤ (b i).length ∧ data.length < 2 ^ 64
  | .writeSeek _ _ data => data.length < 2 ^ 64
  | .allocWrite _ n _ => n < 2 ^ 64
  | .addCapacity _ len => len < 2 ^ 64
  | .move _ moveLen => -2 ^ 63 ≤ moveLen ∧ moveLen < 2 ^ 63
  | .seek _ offset _ => -2 ^ 63 ≤ offset ∧ offset < 2 ^ 63
  | .length i pos lenght => 0 ≤ pos ∧ pos ≤ lenght ∧ lenght ≤ (b i).capacity ∧ pos < 2 ^ 63
  | .read _ len => len < 2 ^ 64
  | .readInto i j len => i ≠ j ∧ len < 2 ^ 64
  | .attach _ _ => True
  | .detach _ => True
  | .reset _ => True

/-- The buffer that a call lets grow, and what it asks `__FitSize` for. -/
def request (b : ι → AutoBuffer) : AutoCall ι → Option (ι × ℕ)
  | .write i data => some (i, sizeT ((b i).pos + data.length))
  | .writeAt i pos data => some (i, sizeT (pos + data.length))
  | .writeSeek i seek data => some (i, sizeT ((b i).seekPos seek + data.length))
  | .allocWrite i n _ => some (i, sizeT ((b i).pos + n))
  | .addCapacity i len => some (i, sizeT ((b i).capacity + len))
  | .move i moveLen => if 0 < moveLen then some (i, sizeT ((b i).length + moveLen)) else none
  | .readInto i j len => ((b i).readAt (b i).pos len).map fun r => (j, sizeT ((b j).pos + r.2.length))
  | _ => none

/-- The calls that leave the length when the growth fails. -/
def leavesLength : AutoCall ι → Bool
  | .allocWrite _ _ changelength => !changelength
  | .addCapacity _ _ => true
  | .move _ _ => true
  | _ => false

/-- **A call stores through `NULL`.** -/
def StoresNull (ok : Bool) (b : ι → AutoBuffer) : AutoCall ι → Prop
  | .write i data => WritesNull ok (b i) (b i).pos data
  | .writeAt i pos data => WritesNull ok (b i) pos data
  | .writeSeek i seek data => WritesNull ok (b i) ((b i).seekPos seek) data
  | .move i moveLen =>
    if 0 < moveLen then
      ((b i).fitSize ok (sizeT ((b i).length + moveLen))).1 = true ∧
        ((b i).fitSize ok (sizeT ((b i).length + moveLen))).2.parray = none
    else (b i).parray = none ∧ sizeT (-moveLen) < (b i).length
  | .readInto i j len => ∃ r, (b i).readAt (b i).pos len = some r ∧ WritesNull ok (b j) (b j).pos r.2
  | _ => False

/-- **The growth succeeds**, if the call has one that matters: on a buffer without content and capacity, some calls
can fail. -/
def Grows (ok : Bool) (b : ι → AutoBuffer) (call : AutoCall ι) : Prop :=
  ∀ i n, request b call = some (i, n) → (b i).capacity < n →
    ok = true ∨ leavesLength call = true ∧ (b i).length = 0 ∧ (b i).capacity = 0

theorem Grows.succeeds {ok : Bool} {b : ι → AutoBuffer} {call : AutoCall ι} (hg : Grows ok b call)
    (hl : leavesLength call = false) {i : ι} {n : ℕ} (hreq : request b call = some (i, n)) (hlt : (b i).capacity < n) :
    ok = true :=
  (hg i n hreq hlt).resolve_right fun h => Bool.false_ne_true (hl.symm.trans h.1)

end Calls

/-! ### One buffer -/

theorem offT_lt (x : ℤ) : offT x < 2 ^ 64 := by
  have h := Int.bmod_lt (x := x) (m := 2 ^ 64) (by decide)
  have hm : ((2 ^ 64 : ℕ) + 1 : ℤ) / 2 < 2 ^ 64 := by decide
  unfold offT
  omega

theorem sound_of_holds {b : AutoBuffer} (h : Holds b) : Sound b := by
  have hmem := h.mem
  have hle := h.le
  refine ⟨fun hn => ?_, fun hl => ?_⟩
  · rw [hn, Option.getD_none, List.length_nil] at hmem
    omega
  · have h0 := h.nonneg
    have h1 := h.posLe
    omega

theorem fitSize_of_failed {b : AutoBuffer} {n : ℕ} (h : b.capacity < n) :
    b.fitSize false n = (false, { b with parray := none }) := by
  rw [AutoBuffer.fitSize, if_pos h, if_neg Bool.false_ne_true]

theorem nullEmpty_seek {b : AutoBuffer} {off : ℤ} {e : TSeek} : NullEmpty (b.seek off e) ↔ NullEmpty b := by
  cases e <;> rfl

theorem clamp_pos {b : AutoBuffer} {p : ℤ} (hp : p < 2 ^ 64) (hl : b.length = 0) : (b.clamp p).pos = 0 := by
  have hz : sizeT 0 = 0 := rfl
  have ho : offT ((0 : ℕ) : ℤ) = 0 := rfl
  simp only [AutoBuffer.clamp, hl, ho]
  by_cases h0 : p < 0
  · rw [if_pos h0, hz, if_neg (Nat.lt_irrefl 0)]
  · rw [if_neg h0, sizeT_of_lt (by omega) hp]
    split_ifs <;> omega

/-- A store changes no field, and the pointer is `NULL` if it was. -/
theorem memcpyTo_cases {b b' : AutoBuffer} {p : ℤ} {data : Bytes} (h : b.memcpyTo p data = some b') :
    ∃ m, b' = { b with parray := m } ∧ (m = none ↔ b.parray = none) := by
  unfold AutoBuffer.memcpyTo at h
  split_ifs at h
  · cases h
    exact ⟨b.parray, rfl, Iff.rfl⟩
  · obtain ⟨m, hm, rfl⟩ := Option.map_eq_some_iff.mp h
    exact ⟨_, rfl, iff_of_false nofun (by rw [hm]; nofun)⟩

theorem sound_reset (b : AutoBuffer) : Sound b.reset := ⟨fun _ => ⟨rfl, rfl⟩, fun _ => rfl⟩

theorem sound_attach (b : AutoBuffer) {b₂ : AutoBuffer} (h : Sound b₂) : Sound (b.attach b₂).1 :=
  ⟨h.null, h.cursor⟩

theorem sound_setLength {b : AutoBuffer} {p : ℤ} {n : ℕ} (hn : b.parray = none → n = 0 ∧ b.capacity = 0)
    (hp : p < 2 ^ 64) : Sound (b.setLength p n) := ⟨hn, clamp_pos (b := { b with length := n }) hp⟩

theorem writeAt_failed {b : AutoBuffer} {p : ℤ} {data : Bytes} (h : b.capacity < sizeT (p + data.length)) :
    WritesNull false b p data ∨ ∃ b', b.writeAt false p data = some b' ∧ ¬ NullEmpty b' := by
  rw [WritesNull, AutoBuffer.writeAt, fitSize_of_failed h]
  by_cases hnil : data = []
  · refine .inr ⟨_, if_pos hnil, fun hne => ?_⟩
    have hl : max (sizeT (p + data.length)) b.length = 0 := (hne rfl).1
    omega
  · exact .inl ⟨rfl, hnil⟩

theorem readInto_eq {ok : Bool} {b rhs : AutoBuffer} {len : ℕ} {r : ℕ × Bytes} (hr : b.readAt b.pos len = some r) :
    b.readInto ok rhs len = (rhs.write ok r.2).map fun rhs => (r.1, b.seek (offT r.1) .ESeekCur, rhs) := by
  rw [AutoBuffer.readInto, AutoBuffer.readTo, hr]
  obtain ⟨readlen, data⟩ := r
  simp only [Option.bind_eq_bind, Option.bind_some]
  cases rhs.write ok data <;> rfl

theorem length_of_readAt {b : AutoBuffer} {p : ℤ} {len : ℕ} {r : ℕ × Bytes} (hr : b.readAt p len = some r) :
    r.2.length ≤ len := by
  obtain ⟨data, hd, rfl⟩ := Option.map_eq_some_iff.mp hr
  unfold readMem at hd
  split_ifs at hd
  cases hd
  exact (List.length_take_le _ _).trans (Nat.min_le_right _ _)

section Sound

variable {b : AutoBuffer} (h : Sound b)

include h

theorem Sound.clamp {p : ℤ} (hp : p < 2 ^ 64) : Sound (b.clamp p) := ⟨h.null, clamp_pos hp⟩

theorem Sound.seek {off : ℤ} {e : TSeek} (ho : off < 2 ^ 64) : Sound (b.seek off e) := by
  cases e with
  | ESeekStart => exact h.clamp ho
  | ESeekCur => exact h.clamp (offT_lt _)
  | ESeekEnd => exact h.clamp (offT_lt _)

/-- **A growth that succeeds**, or none: `NULL` is then left only to a call that asks for nothing. -/
theorem Sound.fitSize {ok : Bool} {n : ℕ} (hn : b.capacity < n → ok = true) :
    Sound (b.fitSize ok n).2 ∧ (b.fitSize ok n).1 = true ∧ ((b.fitSize ok n).2.parray = none → n = 0) := by
  by_cases hgrow : b.capacity < n
  · rw [hn hgrow, AutoBuffer.fitSize, if_pos hgrow, if_pos rfl]
    have hsome : ∀ (m : Bytes) (p : Prop), some m = none → p := fun m _ hm => absurd hm (Option.some_ne_none m)
    exact ⟨⟨hsome _ _, h.cursor⟩, rfl, hsome _ _⟩
  · rw [fitSize_of_le (by omega)]
    refine ⟨h, rfl, fun hnull => ?_⟩
    have hcap := (h.null hnull).2
    omega

theorem Sound.grow {ok : Bool} {n : ℕ} (hn : b.capacity < n → ok = true) :
    Sound { (b.fitSize ok n).2 with length := max n (b.fitSize ok n).2.length } := by
  obtain ⟨g, -, hnull⟩ := h.fitSize hn
  refine ⟨fun hp => ?_, fun hl => g.cursor ?_⟩
  · have hl := (g.null hp).1
    have hz := hnull hp
    refine ⟨?_, (g.null hp).2⟩
    show max n (b.fitSize ok n).2.length = 0
    omega
  · have hmax : max n (b.fitSize ok n).2.length = 0 := hl
    omega

variable {ok : Bool} {p : ℤ} {data : Bytes}

/-- **A write with its growth.** -/
theorem Sound.writeAt (hp : b.length = 0 → p = 0) (hd : data.length < 2 ^ 64)
    (hn : b.capacity < sizeT (p + data.length) → ok = true) :
    ¬ WritesNull ok b p data ∧ ∀ b', b.writeAt ok p data = some b' → Sound b' := by
  obtain ⟨-, -, hnull⟩ := h.fitSize hn
  have hgrow := h.grow hn
  refine ⟨fun ⟨hw, hne⟩ => hne ?_, fun b' hw => ?_⟩
  · -- nothing is asked for, of a buffer that is empty
    have hz := hnull hw
    rw [fitSize_of_le (by omega)] at hw
    rw [hp (h.null hw).1, Int.zero_add, sizeT_natCast hd] at hz
    exact List.length_eq_zero_iff.mp hz
  · unfold AutoBuffer.writeAt at hw
    dsimp only at hw
    split_ifs at hw with hnil
    · cases hw
      exact hgrow
    · obtain ⟨m, -, rfl⟩ := Option.map_eq_some_iff.mp hw
      exact ⟨fun hm => absurd hm (Option.some_ne_none _), hgrow.cursor⟩

/-- **A write at the cursor with its growth.** -/
theorem Sound.write (hd : data.length < 2 ^ 64) (hn : b.capacity < sizeT (b.pos + data.length) → ok = true) :
    ¬ WritesNull ok b b.pos data ∧ ∀ b', b.write ok data = some b' → Sound b' := by
  obtain ⟨hnull, hs⟩ := h.writeAt h.cursor hd hn
  refine ⟨hnull, fun b' hb => ?_⟩
  obtain ⟨b₁, h₁, rfl⟩ := Option.map_eq_some_iff.mp hb
  exact (hs b₁ h₁).seek (offT_lt _)

/-- **`Move` to the right, with its growth.** -/
theorem Sound.move_right {m : ℤ} (hpos : 0 < m) (hm : m < 2 ^ 63)
    (hn : b.capacity < sizeT (b.length + m) → ok = true) :
    (b.fitSize ok (sizeT (b.length + m))).2.parray ≠ none ∧ ∀ b', b.move ok m = some b' → Sound b' := by
  obtain ⟨g, hok, hnull⟩ := h.fitSize hn
  have hne : (b.fitSize ok (sizeT (b.length + m))).2.parray ≠ none := fun hnone => by
    have hz := hnull hnone
    rw [fitSize_of_le (by omega)] at hnone
    rw [(h.null hnone).1, sizeT_of_lt (by omega) (by omega)] at hz
    omega
  refine ⟨hne, fun b' hb => ?_⟩
  rw [AutoBuffer.move, if_pos hpos] at hb
  rcases hf : b.fitSize ok (sizeT (b.length + m)) with ⟨fits, b₁⟩
  rw [hf] at hb hok hne
  dsimp only at hb hok hne
  rw [if_pos hok] at hb
  obtain ⟨data, -, hb⟩ := Option.bind_eq_some_iff.mp hb
  obtain ⟨b₂, h₂, hb⟩ := Option.bind_eq_some_iff.mp hb
  obtain ⟨b₃, h₃, hb⟩ := Option.bind_eq_some_iff.mp hb
  obtain ⟨m₂, rfl, hm₂⟩ := memcpyTo_cases h₂
  obtain ⟨m₃, rfl, hm₃⟩ := memcpyTo_cases h₃
  cases hb
  exact sound_setLength (fun hnone => absurd (hm₂.mp (hm₃.mp hnone)) hne) (offT_lt _)

/-- **`Move` to the left.** -/
theorem Sound.move_left {m : ℤ} (hneg : ¬ 0 < m) {b' : AutoBuffer} (hb : b.move ok m = some b') : Sound b' := by
  rw [AutoBuffer.move, if_neg hneg] at hb
  obtain ⟨data, -, hb⟩ := Option.bind_eq_some_iff.mp hb
  obtain ⟨b₁, h₁, hb⟩ := Option.bind_eq_some_iff.mp hb
  obtain ⟨m₁, rfl, hm₁⟩ := memcpyTo_cases h₁
  cases hb
  refine sound_setLength (fun hnone => ?_) (by split_ifs; exacts [offT_lt _, by decide])
  obtain ⟨hl, hc⟩ := h.null (hm₁.mp hnone)
  exact ⟨by dsimp only; omega, hc⟩

/-- **`Move`**; to the right its growth can fail on a buffer without content and capacity. -/
theorem Sound.move {m : ℤ} (hm : m < 2 ^ 63)
    (hn : 0 < m → b.capacity < sizeT (b.length + m) → ok = true ∨ b.length = 0 ∧ b.capacity = 0) :
    ¬ (if 0 < m then
        (b.fitSize ok (sizeT (b.length + m))).1 = true ∧ (b.fitSize ok (sizeT (b.length + m))).2.parray = none
      else b.parray = none ∧ sizeT (-m) < b.length) ∧
      ∀ b', b.move ok m = some b' → Sound b' := by
  by_cases hpos : 0 < m
  · rw [if_pos hpos]
    by_cases hfail : b.capacity < sizeT (b.length + m) ∧ ok = false
    · obtain ⟨hlt, rfl⟩ := hfail
      have hzero := (hn hpos hlt).resolve_left Bool.false_ne_true
      rw [AutoBuffer.move, if_pos hpos, fitSize_of_failed hlt]
      refine ⟨fun hs => Bool.false_ne_true hs.1, fun b' hb => ?_⟩
      cases hb
      exact ⟨fun _ => hzero, h.cursor⟩
    · have hok : b.capacity < sizeT (b.length + m) → ok = true := fun hlt => by
        by_contra hok
        exact hfail ⟨hlt, Bool.eq_false_of_not_eq_true hok⟩
      obtain ⟨hnull, hs⟩ := h.move_right hpos hm hok
      exact ⟨fun hs => hnull hs.2, hs⟩
  · rw [if_neg hpos]
    refine ⟨fun hs => ?_, fun b' hb => h.move_left hpos hb⟩
    have hl := (h.null hs.1).1
    omega

theorem Sound.fitSize_of_spare {n : ℕ}
    (hn : b.capacity < n → ok = true ∨ b.length = 0 ∧ b.capacity = 0) : Sound (b.fitSize ok n).2 := by
  cases ok with
  | true => exact (h.fitSize fun _ => rfl).1
  | false =>
    by_cases hgrow : b.capacity < n
    · have hzero := (hn hgrow).resolve_left Bool.false_ne_true
      rw [fitSize_of_failed hgrow]
      exact ⟨fun _ => hzero, h.cursor⟩
    · exact (h.fitSize fun hlt => absurd hlt hgrow).1

end Sound

/-! ### Calls -/

section Calls

variable {ι : Type*} [DecidableEq ι] {ok : Bool} {b : ι → AutoBuffer} {call : AutoCall ι}

theorem sound_update (h : ∀ i, Sound (b i)) {i : ι} {b' : AutoBuffer} (h' : Sound b') :
    ∀ k, Sound (Function.update b i b' k) :=
  (Function.forall_update_iff b fun _ b => Sound b).mpr ⟨h', fun k _ => h k⟩

/-- **A call with its growth.** -/
theorem exec_sound (h : ∀ i, Sound (b i)) (hc : Permitted b call) (hg : Grows ok b call) :
    ¬ StoresNull ok b call ∧ ∀ r, exec ok b call = some r → ∀ i, Sound (r.1 i) := by
  cases call with
  | write i data =>
    obtain ⟨hnull, hs⟩ := (h i).write hc (hg.succeeds rfl rfl)
    refine ⟨hnull, fun r hr => ?_⟩
    obtain ⟨b', hw, rfl⟩ := Option.map_eq_some_iff.mp hr
    exact sound_update h (hs b' hw)
  | writeAt i pos data =>
    obtain ⟨h0, hp, hd⟩ := hc
    obtain ⟨hnull, hs⟩ := (h i).writeAt (p := pos) (by omega) hd (hg.succeeds rfl rfl)
    refine ⟨hnull, fun r hr => ?_⟩
    obtain ⟨b', hw, rfl⟩ := Option.map_eq_some_iff.mp hr
    exact sound_update h (hs b' hw)
  | writeSeek i seek data =>
    have hp : (b i).length = 0 → (b i).seekPos seek = 0 := by
      intro hl
      cases seek with
      | ESeekStart => rfl
      | ESeekCur => exact (h i).cursor hl
      | ESeekEnd => rw [AutoBuffer.seekPos, hl]; rfl
    obtain ⟨hnull, hs⟩ := (h i).writeAt hp hc (hg.succeeds rfl rfl)
    refine ⟨hnull, fun r hr => ?_⟩
    obtain ⟨b', hf, rfl⟩ := Option.map_eq_some_iff.mp hr
    obtain ⟨x, hx, rfl⟩ := Option.map_eq_some_iff.mp hf
    obtain ⟨b₁, hw, rfl⟩ := Option.map_eq_some_iff.mp hx
    exact sound_update h (hs b₁ hw)
  | allocWrite i n changelength =>
    refine ⟨id, fun r hr => ?_⟩
    cases hr
    refine sound_update h ?_
    cases changelength with
    | true => exact (h i).grow (hg.succeeds rfl rfl)
    | false => exact (h i).fitSize_of_spare fun hlt => (hg i _ rfl hlt).imp_right And.right
  | addCapacity i len =>
    refine ⟨id, fun r hr => ?_⟩
    cases hr
    exact sound_update h ((h i).fitSize_of_spare fun hlt => (hg i _ rfl hlt).imp_right And.right)
  | move i moveLen =>
    obtain ⟨hnull, hs⟩ := (h i).move hc.2 fun hpos hlt => (hg i _ (if_pos hpos) hlt).imp_right And.right
    refine ⟨hnull, fun r hr => ?_⟩
    obtain ⟨b', hm, rfl⟩ := Option.map_eq_some_iff.mp hr
    exact sound_update h (hs b' hm)
  | seek i offset eorigin =>
    refine ⟨id, fun r hr => ?_⟩
    cases hr
    exact sound_update h ((h i).seek (by have := hc.2; omega))
  | length i pos lenght =>
    obtain ⟨-, -, hle, hp⟩ := hc
    refine ⟨id, fun r hr => ?_⟩
    cases hr
    refine sound_update h (sound_setLength (fun hnone => ?_) (by omega))
    have hcap := ((h i).null hnone).2
    exact ⟨by omega, hcap⟩
  | read i len =>
    refine ⟨id, fun r hr => ?_⟩
    obtain ⟨s, hs, rfl⟩ := Option.map_eq_some_iff.mp hr
    obtain ⟨x, -, rfl⟩ := Option.map_eq_some_iff.mp hs
    exact sound_update h ((h i).seek (e := .ESeekCur) (offT_lt x.1))
  | readInto i j len =>
    have hw : ∀ r, (b i).readAt (b i).pos len = some r → ¬ WritesNull ok (b j) (b j).pos r.2 ∧
        ∀ b', (b j).write ok r.2 = some b' → Sound b' := fun r hr => by
      have hlen := length_of_readAt hr
      have hlt := hc.2
      exact (h j).write (by omega) (hg.succeeds rfl (by rw [request, hr]; rfl))
    refine ⟨?_, fun r hr => ?_⟩
    · rintro ⟨r, hr, hn⟩
      exact (hw r hr).1 hn
    obtain ⟨s, hs, rfl⟩ := Option.map_eq_some_iff.mp hr
    cases hra : (b i).readAt (b i).pos len with
    | none =>
      rw [AutoBuffer.readInto, AutoBuffer.readTo, hra] at hs
      cases hs
    | some d =>
      rw [readInto_eq hra] at hs
      obtain ⟨b', hb, rfl⟩ := Option.map_eq_some_iff.mp hs
      have hi := sound_update h (i := i) ((h i).seek (e := .ESeekCur) (offT_lt d.1))
      exact sound_update hi ((hw d hra).2 b' hb)
  | attach i j =>
    refine ⟨id, fun r hr => ?_⟩
    cases hr
    exact sound_update (sound_update h (sound_attach (b i) (h j))) (sound_reset _)
  | detach i =>
    refine ⟨id, fun r hr => ?_⟩
    cases hr
    exact sound_update h (sound_reset _)
  | reset i =>
    refine ⟨id, fun r hr => ?_⟩
    cases hr
    exact sound_update h (sound_reset _)

theorem nullEmpty_of_update {i : ι} {b' : AutoBuffer} (h : ∀ k, NullEmpty (Function.update b i b' k)) :
    NullEmpty b' := by
  have hi := h i
  rwa [Function.update_self] at hi

/-- **A call that does no harm has its growth.** -/
theorem grows_of_unharmed (hs : ¬ StoresNull ok b call) (hr : ∀ r, exec ok b call = some r → ∀ i, NullEmpty (r.1 i)) :
    Grows ok b call := by
  intro i n hreq hlt
  cases ok with
  | true => exact .inl rfl
  | false =>
    right
    cases call with
    | write i' data =>
      cases hreq
      rcases writeAt_failed hlt with hw | ⟨b', hw, hne⟩
      · exact absurd hw hs
      · have he : exec false b (.write i data) =
            some (Function.update b i (b'.seek (offT data.length) .ESeekCur), none) := by
          rw [exec, AutoBuffer.write, hw]
          rfl
        exact absurd (nullEmpty_seek.mp (nullEmpty_of_update (hr _ he))) hne
    | writeAt i' pos data =>
      cases hreq
      rcases writeAt_failed hlt with hw | ⟨b', hw, hne⟩
      · exact absurd hw hs
      · exact absurd (nullEmpty_of_update (hr _ (by rw [exec, hw]; rfl))) hne
    | writeSeek i' seek data =>
      cases hreq
      rcases writeAt_failed hlt with hw | ⟨b', hw, hne⟩
      · exact absurd hw hs
      · have he : exec false b (.writeSeek i seek data) = some (Function.update b i b', none) := by
          rw [exec, AutoBuffer.writeSeek, AutoBuffer.writeFrom, hw]
          rfl
        exact absurd (nullEmpty_of_update (hr _ he)) hne
    | allocWrite i' n' changelength =>
      cases hreq
      have hne := nullEmpty_of_update (hr _ rfl)
      rw [AutoBuffer.allocWrite, fitSize_of_failed hlt] at hne
      cases changelength with
      | true =>
        have hl : max (sizeT ((b i).pos + n')) (b i).length = 0 := (hne rfl).1
        omega
      | false => exact ⟨rfl, hne rfl⟩
    | addCapacity i' len =>
      cases hreq
      have hne := nullEmpty_of_update (hr _ rfl)
      rw [AutoBuffer.addCapacity, fitSize_of_failed hlt] at hne
      exact ⟨rfl, hne rfl⟩
    | move i' moveLen =>
      obtain ⟨hpos, he⟩ := Option.ite_none_right_eq_some.mp hreq
      cases he
      have hne := nullEmpty_of_update (hr (_, none) (by
        rw [exec, AutoBuffer.move, if_pos hpos, fitSize_of_failed hlt]
        rfl))
      exact ⟨rfl, hne rfl⟩
    | readInto i' j len =>
      obtain ⟨d, hd, he⟩ := Option.map_eq_some_iff.mp hreq
      cases he
      rcases writeAt_failed hlt with hw | ⟨b', hw, hne⟩
      · exact absurd ⟨d, hd, hw⟩ hs
      · have he : exec false b (.readInto i' i len) =
            some (Function.update (Function.update b i' ((b i').seek (offT d.1) .ESeekCur)) i
              (b'.seek (offT d.2.length) .ESeekCur), some (d.1, [])) := by
          rw [exec, readInto_eq hd, AutoBuffer.write, hw]
          rfl
        exact absurd (nullEmpty_seek.mp (nullEmpty_of_update (hr _ he))) hne
    | _ => cases hreq

end Calls

/-- **Buffers that run out of memory.** In a run of calls on buffers that hold their content, no call stores through
`NULL` and no buffer is left `NULL` with a length or a capacity exactly if every growth succeeds that matters. -/
theorem null_empty_iff {ι : Type*} [DecidableEq ι] {b : ι → AutoBuffer} (h : ∀ i, Holds (b i))
    {cs : List (Bool × AutoCall ι)} (hc : Meets step (fun s c => Permitted s.1 c.2) (b, []) cs) :
    Meets step (fun s c => ¬ StoresNull c.1 s.1 c.2 ∧ ∀ s', step s c = some s' → ∀ i, NullEmpty (s'.1 i)) (b, []) cs ↔
      Meets step (fun s c => Grows c.1 s.1 c.2) (b, []) cs := by
  refine meets_iff_of_keeps (P := fun s => ∀ i, Sound (s.1 i)) ?_ ?_ (fun i => sound_of_holds (h i)) hc
  · rintro s ⟨ok, call⟩ hs hc
    constructor
    · rintro ⟨hn, hr⟩
      exact grows_of_unharmed hn fun r he => hr _ (by rw [step, he]; rfl)
    · intro hg
      obtain ⟨hn, hr⟩ := exec_sound hs hc hg
      refine ⟨hn, fun s' he => ?_⟩
      obtain ⟨r, hx, rfl⟩ := Option.map_eq_some_iff.mp he
      exact fun i => (hr r hx i).null
  · rintro s ⟨ok, call⟩ s' hs hc hg he
    obtain ⟨r, hx, rfl⟩ := Option.map_eq_some_iff.mp he
    exact (exec_sound hs hc hg).2 r hx

/-- A byte in a block of four, with the cursor behind it. -/
def one : AutoBuffer := ⟨some [0x61, 0, 0, 0], 1, 1, 4, 4⟩

theorem holds_one : Holds one := ⟨by decide, by decide, by decide, by decide, by decide⟩

/-- A write that need not grow the buffer while there is no memory left, and one that does with memory. -/
theorem null_empty_iff_two :
    Meets step (fun s c => ¬ StoresNull c.1 s.1 c.2 ∧ ∀ s', step s c = some s' → ∀ i, NullEmpty (s'.1 i))
      (fun _ : Unit => one, []) [(false, .write () (ascii "b")), (true, .write () (ascii "cde"))] := by
  have hc : Meets step (fun s c => Permitted s.1 c.2) (fun _ : Unit => one, [])
      [(false, .write () (ascii "b")), (true, .write () (ascii "cde"))] :=
    meets_of_step (show 1 < 2 ^ 64 by decide) rfl (meets_of_step (show 3 < 2 ^ 64 by decide) rfl trivial)
  refine (null_empty_iff (fun _ => holds_one) hc).mpr ?_
  refine meets_of_step (fun _ _ hreq hlt => ?_) rfl (meets_of_step (fun _ _ _ _ => .inl rfl) rfl trivial)
  cases hreq
  exact absurd hlt (by decide)

/-- **A capacity without memory.** An `AddCapacity` that fails leaves a byte of content and a capacity of four at
`NULL`; a write within that capacity then stores through `NULL`, and so does a write whose own growth fails. -/
theorem capacity_without_memory :
    Holds one ∧ ∃ s, step (fun _ : Unit => one, []) (false, .addCapacity () 4) = some s ∧
      Permitted (fun _ : Unit => one) (.addCapacity () 4) ∧
      (s.1 ()).parray = none ∧ (s.1 ()).length = 1 ∧ (s.1 ()).capacity = 4 ∧
      Permitted s.1 (.write () (ascii "b")) ∧ StoresNull true s.1 (.write () (ascii "b")) ∧
      StoresNull false (fun _ : Unit => one) (.write () (ascii "bcde")) ∧
      ¬ Meets step (fun s c => ¬ StoresNull c.1 s.1 c.2 ∧ ∀ s', step s c = some s' → ∀ i, NullEmpty (s'.1 i))
        (fun _ : Unit => one, []) [(false, .addCapacity () 4)] := by
  have hs : step (fun _ : Unit => one, []) (false, .addCapacity () 4) =
      some (Function.update (fun _ => one) () { one with parray := none }, [none]) := rfl
  refine ⟨holds_one, _, hs, show 4 < 2 ^ 64 by decide, rfl, rfl, rfl, show 1 < 2 ^ 64 by decide, ⟨rfl, by decide⟩,
    ⟨rfl, by decide⟩, fun h => ?_⟩
  exact absurd (h.1.2 _ hs () rfl).1 (by decide)

end MTAppenderFile.Comm.Allocation
