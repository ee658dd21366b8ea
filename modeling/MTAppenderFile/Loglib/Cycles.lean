import MTAppenderFile.Lib.Run
import MTAppenderFile.Loglib.Buffer

/-! # The log buffer over cycles of writes and flushes

After a first `Flush` an `MTAppenderFileLogBuffer` over `max` bytes is a log that keeps the first `max` bytes:
in every sequence of writes and flushes its content is the data written since the last flush, cut to `max`
(`Since`, `bounded_log`). Whatever the memory held before, the first byte is NUL exactly while the buffer is
empty, so `Flush` takes its shortcut only then. -/

namespace MTAppenderFile.Loglib.Cycles

open MTAppenderFile.Lib.Block
open MTAppenderFile.Lib.Run
open MTAppenderFile.Comm.CTypes
open MTAppenderFile.Comm.Auto
open MTAppenderFile.Comm.Ptr
open MTAppenderFile.Loglib.Buffer

/-- A call on the buffer: `Write(_data, _length)`, or `Flush` into a fresh `AutoBuffer`. -/
inductive LogOp
  | write (data : Bytes)
  | flush

namespace LogOp

/-- The buffer after the call. -/
def step (lb : LogBuffer) : LogOp → Option LogBuffer
  | write data => some (lb.write data).2
  | flush => (lb.flush (.empty 128)).map Prod.fst

/-- What the call stores, in program order: the byte that `__Clear` zeroes, and the stores of the
`PtrBuffer`. -/
def stores (lb : LogBuffer) : LogOp → List (ℤ × Byte)
  | write data =>
    if data = [] then []
    else if lb.buff.length = 0 then
      (0, 0) :: lb.clear.buff.writeStores data lb.clear.buff.pos
    else lb.buff.writeStores data lb.buff.pos
  | flush => [(0, 0)]

/-- The data has no NUL byte and is shorter than `2 ^ 31`. -/
def Plain : LogOp → Prop
  | write data => (0 : Byte) ∉ data ∧ data.length < 2 ^ 31
  | flush => True

end LogOp

/-- The data written since the last flush. -/
def sinceFlush (ops : List LogOp) : Bytes :=
  ops.foldl (fun acc op => match op with
    | .write data => acc ++ data
    | .flush => []) []

theorem sinceFlush_write (ops : List LogOp) (data : Bytes) :
    sinceFlush (ops ++ [.write data]) = sinceFlush ops ++ data := by
  rw [sinceFlush, List.foldl_append]; rfl

theorem sinceFlush_flush (ops : List LogOp) : sinceFlush (ops ++ [.flush]) = [] := by
  rw [sinceFlush, List.foldl_append]; rfl

/-! ### What the calls store -/

/-- The memory after a call is the memory before it with the stores of the call. -/
theorem parray_step {lb lb' : LogBuffer} {op : LogOp} (h : op.step lb = some lb') :
    lb'.buff.parray = storeAll lb.buff.parray (op.stores lb) := by
  have hclear : lb.clear.buff.parray = storeAll lb.buff.parray [(0, 0)] := rfl
  cases op with
  | write data =>
    cases h
    rw [LogBuffer.write, LogOp.stores]
    by_cases hne : data = []
    · rw [if_pos hne, if_pos hne, storeAll_nil]
    · rw [if_neg hne, if_neg hne]
      by_cases h0 : lb.buff.length = 0
      · rw [if_pos h0, if_pos h0, ← List.singleton_append, storeAll_append, ← hclear]
        exact PtrBuffer.parray_write _ _
      · rw [if_neg h0, if_neg h0]
        exact PtrBuffer.parray_write _ _
  | flush =>
    obtain ⟨⟨lb₁, buff⟩, hf, rfl⟩ := Option.map_eq_some_iff.mp h
    obtain ⟨n, -, hf⟩ := Option.bind_eq_some_iff.mp hf
    split_ifs at hf
    · cases hf
      exact hclear
    · obtain ⟨data, -, hf⟩ := Option.bind_eq_some_iff.mp hf
      obtain ⟨_, -, hf⟩ := Option.bind_eq_some_iff.mp hf
      cases hf
      exact hclear

/-- **A call on a good buffer stores below the capacity.** -/
theorem stores_inside {lb : LogBuffer} (h : lb.Good) (op : LogOp) :
    ∀ s ∈ op.stores lb, 0 ≤ s.1 ∧ s.1 < lb.buff.maxLength := by
  have h4 := h.four
  have hstores : ∀ data, ∀ s ∈ lb.buff.writeStores data lb.buff.pos, 0 ≤ s.1 ∧ s.1 < lb.buff.maxLength := by
    intro data s hs
    rw [h.pos] at hs
    exact h.sized.mem_writeStores (Nat.le_refl _) data h4 hs
  intro s hs
  cases op with
  | write data =>
    rw [LogOp.stores] at hs
    by_cases hne : data = []
    · rw [if_pos hne] at hs
      exact absurd hs List.not_mem_nil
    rw [if_neg hne] at hs
    by_cases h0 : lb.buff.length = 0
    · rw [if_pos h0, h.clear_of_empty h0] at hs
      rcases List.mem_cons.mp hs with rfl | hs
      · exact ⟨Int.le_refl 0, by omega⟩
      · exact hstores data s hs
    · rw [if_neg h0] at hs
      exact hstores data s hs
  | flush =>
    cases List.mem_singleton.mp hs
    exact ⟨Int.le_refl 0, by omega⟩

/-! ### Runs -/

/-- The invariant of a run: a good buffer that holds what was written since the last flush, cut to its
capacity. -/
structure Since (max : ℕ) (ops : List LogOp) (lb : LogBuffer) : Prop extends lb.Good where
  cap : lb.buff.maxLength = max
  content : lb.content = (sinceFlush ops).take max

section Since

variable {max : ℕ} {ops : List LogOp} {lb : LogBuffer} (h : Since max ops lb)

include h

theorem Since.flush_eq :
    ∃ buff, lb.flush (.empty 128) = some (lb.clear, buff) ∧ buff.ptrBytes =
      if (sinceFlush ops).take max = [] then none else some ((sinceFlush ops).take max) := by
  obtain ⟨buff, hf, hb⟩ := LogBuffer.flush_eq h.toWF 128 (by decide) (by decide)
  simp only [h.toGood.shortcut_iff, h.content] at hb
  exact ⟨buff, hf, hb⟩

variable (hmax : max < 2 ^ 31)

include hmax

theorem Since.write {data : Bytes} (hd : (LogOp.write data).Plain) :
    Since max (ops ++ [.write data]) (lb.write data).2 := by
  by_cases hne : data = []
  · have hw : (lb.write data).2 = lb := by rw [LogBuffer.write, if_pos hne]
    rw [hw]
    exact ⟨h.toGood, h.cap, by rw [sinceFlush_write, hne, List.append_nil, h.content]⟩
  · have hle := h.le
    have hcap := h.cap
    have hlen : lb.buff.length + data.length < 2 ^ 32 := by have := hd.2; omega
    have h0 : data.head? ≠ some 0 := fun h0 => hd.1 (List.mem_of_mem_head? h0)
    refine ⟨h.toGood.write hne hlen h0, (h.toGood.maxLength_write hne hlen).trans hcap, ?_⟩
    rw [h.toGood.content_write hne hlen, hcap, h.content, sinceFlush_write, List.take_append,
      List.take_append, List.take_take, Nat.min_self]
    congr 2
    rw [List.length_take]
    omega

/-- **One call** is defined and keeps the invariant. -/
theorem Since.step {op : LogOp} (hop : op.Plain) :
    ∃ lb', op.step lb = some lb' ∧ Since max (ops ++ [op]) lb' := by
  cases op with
  | write data => exact ⟨_, rfl, h.write hmax hop⟩
  | flush =>
    obtain ⟨buff, hf, -⟩ := h.flush_eq
    refine ⟨lb.clear, by rw [LogOp.step, hf]; rfl, LogBuffer.good_clear h.toWF h.four, ?_, ?_⟩
    · rw [LogBuffer.maxLength_clear, h.cap]
    · rw [LogBuffer.content_clear, sinceFlush_flush, List.take_nil]

end Since

theorem since_first {m : Bytes} {max : ℕ} (h4 : 4 ≤ max) (hmax : max < 2 ^ 31) (hm : m.length = max) :
    ∃ lb, LogOp.flush.step (.ofBlock m max) = some lb ∧ Since max [] lb := by
  have hwf : (LogBuffer.ofBlock m max).buff.WF :=
    ⟨Int.le_refl 0, Int.natCast_nonneg _, Nat.le_refl _, hm, by
      rw [LogBuffer.maxLength_ofBlock]; omega⟩
  obtain ⟨buff, hf, -⟩ := LogBuffer.flush_eq hwf 128 (by decide) (by decide)
  refine ⟨_, by rw [LogOp.step, hf]; rfl, LogBuffer.good_clear hwf h4, LogBuffer.maxLength_clear _, ?_⟩
  rw [LogBuffer.content_clear]
  exact List.take_nil.symm

/-- **The bounded log.** After a first flush of a buffer over any `max` bytes, in every sequence of writes and
flushes: the next flush hands over the first `max` bytes of the data written since the last one, and nothing if
there are none, and leaves an empty buffer with the cursor at the start; the next write returns `false` exactly
for no data; and every store of the next call is below `max`, as is that of the first flush. -/
theorem bounded_log {m : Bytes} {max : ℕ} (h4 : 4 ≤ max) (hmax : max < 2 ^ 31) (hm : m.length = max)
    {ops : List LogOp} (hops : ∀ op ∈ ops, op.Plain) :
    (∀ s ∈ LogOp.flush.stores (.ofBlock m max), 0 ≤ s.1 ∧ s.1 < max) ∧
    ∃ lb, run LogOp.step (.ofBlock m max) (.flush :: ops) = some lb ∧
      (∃ lb' buff, lb.flush (.empty 128) = some (lb', buff) ∧
        buff.ptrBytes = (if sinceFlush ops = [] then none else some ((sinceFlush ops).take max)) ∧
        lb'.buff.pos = 0 ∧ lb'.buff.length = 0) ∧
      (∀ data, (lb.write data).1 = false ↔ data = []) ∧
      ∀ op : LogOp, op.Plain → ∀ s ∈ op.stores lb, 0 ≤ s.1 ∧ s.1 < max := by
  obtain ⟨lb₀, hs₀, h₀⟩ := since_first h4 hmax hm
  obtain ⟨lb, hr, h⟩ := run_total (P := Since max) h₀
    (fun ops lb op h (hop : op.Plain) => h.step hmax hop) (meets_of_forall hops)
  have hnil : (sinceFlush ops).take max = [] ↔ sinceFlush ops = [] := by
    rw [List.take_eq_nil_iff, or_iff_right (by omega)]
  refine ⟨fun s hs => ?_, lb, run_of_step hs₀ hr, ?_, fun data => ?_, fun op _ => ?_⟩
  · cases List.mem_singleton.mp hs
    exact ⟨Int.le_refl 0, by omega⟩
  · obtain ⟨buff, hf, hb⟩ := h.flush_eq
    simp only [hnil] at hb
    exact ⟨lb.clear, buff, hf, hb, by rw [LogBuffer.clear_eq], LogBuffer.length_clear lb⟩
  · by_cases hne : data = []
    · exact iff_of_true (by rw [LogBuffer.write, if_pos hne]) hne
    · exact iff_of_false (by rw [h.toGood.write_eq hne]; simp) hne
  · rw [← h.cap]
    exact stores_inside h.toGood op

/-- Two writes to five bytes of memory that were not zero. -/
theorem bounded_log_five :
    ∃ lb, run LogOp.step (.ofBlock (ascii "xxxxx") 5) [.flush, .write (ascii "abc"), .write (ascii "def")] =
        some lb ∧ ∃ lb' buff, lb.flush (.empty 128) = some (lb', buff) ∧
          buff.ptrBytes = some (ascii "abcde") := by
  have hops : ∀ op ∈ [LogOp.write (ascii "abc"), .write (ascii "def")], op.Plain := by
    simp only [List.forall_mem_cons, LogOp.Plain, List.not_mem_nil, false_imp_iff, implies_true]
    decide
  obtain ⟨-, lb, hr, ⟨lb', buff, hf, hb, -⟩, -⟩ := bounded_log (m := ascii "xxxxx") (by decide)
    (by decide) rfl hops
  exact ⟨lb, hr, lb', buff, hf, hb.trans (by decide)⟩

end MTAppenderFile.Loglib.Cycles
