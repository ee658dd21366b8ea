import MTAppenderFile.Lib.Delim
import MTAppenderFile.Loglib.Exactness

/-! # What a reader of the mapping gets

A reader of the `.mmap2` file does not have the cursor: it takes everything before the first
`\0\0\0` (`reader`).

After an append below 4/5 of the block that place is exactly the end of the content, because the
records have no NUL byte, the append fits with its end marker, and the marker is written over whatever
an earlier cycle left there; so the reader gets the records appended since the last flush
(`reader_after_append`).

After a flush it gets nothing only if the bytes at offsets 1 and 2 were zero before: `__Clear` zeroes
the first byte alone (`reader_after_flush_iff`). -/

namespace MTAppenderFile.Loglib.Mapping

open MTAppenderFile.Lib.Block
open MTAppenderFile.Lib.Delim
open MTAppenderFile.Lib.Run
open MTAppenderFile.Comm.CTypes
open MTAppenderFile.Comm.Ptr
open MTAppenderFile.Loglib.Base
open MTAppenderFile.Loglib.Buffer
open MTAppenderFile.Loglib.Files
open MTAppenderFile.Loglib.Formatter
open MTAppenderFile.Loglib.Appender
open MTAppenderFile.Loglib.Session
open MTAppenderFile.Loglib.Lifecycle
open MTAppenderFile.Loglib.Exactness

/-- The three zero bytes that end the content. -/
def zeros3 : Bytes := List.replicate 3 0

/-- **The reader of the mapping.** -/
def reader (m : Bytes) : Bytes := before zeros3 m

theorem marker_eq : marker = zeros3 ++ [0x0D] := rfl

/-! ### After an append -/

/-- Appends of bodies that are not empty, and flushes with any outcome. -/
def AppendOrFlush : Op → Prop
  | .append _ (some body) => body.bytes ≠ []
  | .task _ => True
  | .flushSync _ => True
  | _ => False

theorem appendOrFlush_cases {op : Op} (h : AppendOrFlush op) :
    (∃ env body, op = .append env (some body) ∧ body.bytes ≠ []) ∨
      ∃ env, op = .task env ∨ op = .flushSync env := by
  cases op with
  | append env log =>
    cases log with
    | none => exact h.elim
    | some body => exact .inl ⟨env, body, rfl, h⟩
  | task env => exact .inr ⟨env, .inl rfl⟩
  | flushSync env => exact .inr ⟨env, .inr rfl⟩
  | _ => exact h.elim

/-- The records appended since the last flush. -/
def sinceFlush (ops : List Op) : Bytes :=
  ops.foldl (fun acc op => match op with
    | .append _ (some body) => acc ++ formatRecord body.bytes
    | _ => []) []

/-- The invariant of a run of appends and flushes: while the buffer is below 4/5 of the block, its
content is the records since the last flush. -/
structure Since (ops : List Op) (p : Proc) (lb : LogBuffer) : Prop extends AsyncSession p lb where
  nul : (0 : Byte) ∉ sinceFlush ops
  content : lb.buff.length < 153600 * 4 / 5 → lb.content = sinceFlush ops

theorem Since.append {ops : List Op} {p : Proc} {lb : LogBuffer} (h : Since ops p lb) (lc : Libc)
    (env : FileEnv) {body : CStr} (hne : body.bytes ≠ []) :
    ∃ p' lb', step lc p (.append env (some body)) = some p' ∧
      Since (ops ++ [.append env (some body)]) p' lb' := by
  have hs : sinceFlush (ops ++ [.append env (some body)]) =
      sinceFlush ops ++ formatRecord body.bytes := by
    rw [sinceFlush, List.foldl_append]; rfl
  have hnul : (0 : Byte) ∉ sinceFlush (ops ++ [.append env (some body)]) := by
    rw [hs, List.mem_append, not_or]
    exact ⟨h.nul, nul_notMem_formatRecord body⟩
  by_cases hlt : lb.buff.length < 153600 * 4 / 5
  · obtain ⟨p', hstep, he, hc⟩ := append_effect h.toAsyncSession lc env body hne hlt
    exact ⟨p', _, hstep, h.kept he, hnul, fun _ => by rw [hc, h.content hlt, hs]⟩
  · -- the length does not fall, so the bound does not hold afterwards either
    obtain ⟨p', entry, hstep, he, hent, h0, hl, -⟩ :=
      appendEx_async_effect env h.toOpened h.mode (printed_none lc p.statics hne)
    have hle := h.length_le
    have hcap := h.cap
    have hlen : (lb.write entry).2.buff.length = min (lb.buff.length + entry.length)
        lb.buff.maxLength := by
      rw [h.good.write_eq hent]
      exact h.good.toAtEnd.length_write h.good.four (by omega)
    exact ⟨p', _, hstep, h.kept he, hnul, fun hlt' => by omega⟩

theorem Since.flush {ops : List Op} {p : Proc} {lb : LogBuffer} (h : Since ops p lb) (lc : Libc)
    (env : FileEnv) {op : Op} (hop : op = .task env ∨ op = .flushSync env) :
    ∃ p' lb', step lc p op = some p' ∧ Since (ops ++ [op]) p' lb' := by
  obtain ⟨p', hs, he⟩ := flush_effect h.toAsyncSession lc env op hop
  have hnil : sinceFlush (ops ++ [op]) = [] := by
    rw [sinceFlush, List.foldl_append]
    rcases hop with rfl | rfl <;> rfl
  exact ⟨p', _, hs, h.writes he, by simp [hnil], fun _ => by rw [hnil, LogBuffer.content_clear]⟩

theorem Since.step {ops : List Op} {p : Proc} {lb : LogBuffer} (h : Since ops p lb) (lc : Libc)
    {op : Op} (hop : AppendOrFlush op) :
    ∃ p' lb', Appender.step lc p op = some p' ∧ Since (ops ++ [op]) p' lb' := by
  rcases appendOrFlush_cases hop with ⟨env, body, rfl, hne⟩ | ⟨env, hflush⟩
  · exact h.append lc env hne
  · exact h.flush lc env hflush

/-- **Every run of appends and flushes** keeps the invariant. -/
theorem since_run {lc : Libc} {p : Proc} (hp : JustOpened lc p) {ops : List Op}
    (hops : Meets (step lc) (fun _ => AppendOrFlush) p ops) :
    ∃ p' lb, run (step lc) p ops = some p' ∧ Since ops p' lb := by
  obtain ⟨lb₀, h₀, hc₀⟩ := hp.session
  obtain ⟨p', hr, lb, h⟩ := run_total (P := fun ops q => ∃ lb, Since ops q lb)
    ⟨lb₀, h₀, by simp [sinceFlush], fun _ => hc₀⟩
    (fun ops q op ⟨lb, h⟩ hop => by
      obtain ⟨q', lb', hs, h'⟩ := h.step lc hop
      exact ⟨q', hs, lb', h'⟩)
    hops
  exact ⟨p', lb, hr, h⟩

/-- The block after an append that fits with its marker: the content, the marker, and what was behind
them. -/
theorem parray_append {lb : LogBuffer} (h : lb.Good) (data : Bytes) (hne : data ≠ [])
    (hf : lb.buff.length + data.length + 4 < lb.buff.maxLength) :
    (lb.write data).2.buff.parray =
      lb.content ++ data ++ (marker ++ lb.buff.parray.drop (lb.buff.length + data.length + 4)) := by
  have hmax := h.maxLt
  rw [h.write_eq hne, h.toAtEnd.parray_write h.four (by omega) hf, overwrite]
  simp only [List.append_assoc, List.length_append, length_marker, Nat.add_assoc]
  rfl

theorem firstAt_content {c : Bytes} (rest : Bytes) (hc : (0 : Byte) ∉ c) :
    FirstAt zeros3 (c ++ (marker ++ rest)) c.length := by
  refine ⟨?_, fun i hi => not_start_of_notMem hc hi⟩
  rw [List.drop_left, marker_eq, List.append_assoc]
  exact List.prefix_append _ _

/-- **The mapped format after an append.** After every run of appends and flushes, an append that finds
the buffer below 4/5 of the block leaves the first three zero bytes exactly at `Length()`, with `'\r'`
behind them and inside the block; a reader gets the records appended since the last flush. -/
theorem reader_after_append {lc : Libc} {p : Proc} (hp : JustOpened lc p) {ops : List Op}
    (hops : Meets (step lc) (fun _ => AppendOrFlush) p ops) (env : FileEnv) (body : CStr)
    (hne : body.bytes ≠ []) {q : Proc} (hq : run (step lc) p ops = some q)
    (hlt : bufferLength q < 153600 * 4 / 5) :
    ∃ q', step lc q (.append env (some body)) = some q' ∧
      FirstAt zeros3 q'.block (bufferLength q') ∧
      q'.block[bufferLength q' + 3]? = some 0x0D ∧
      bufferLength q' + 4 ≤ q'.block.length ∧ q'.block.length = 153600 ∧
      reader q'.block = sinceFlush (ops ++ [.append env (some body)]) := by
  obtain ⟨q₁, lb, hr, h⟩ := since_run hp hops
  cases hr.symm.trans hq
  rw [h.bufferLength] at hlt
  obtain ⟨q', hs, he, hc⟩ := append_effect h.toAsyncSession lc env body hne hlt
  obtain ⟨q₂, lb₂, hs₂, h₂⟩ := h.append lc env hne
  cases hs.symm.trans hs₂
  have hsince : sinceFlush (ops ++ [.append env (some body)]) =
      lb.content ++ formatRecord body.bytes := by
    rw [h.content hlt, sinceFlush, List.foldl_append]; rfl
  have hf := record_fits hlt body.bytes
  have hpar := parray_append h.good _ (formatRecord_ne_nil body.bytes) (by rw [h.cap]; exact hf)
  have hnul := h₂.nul
  rw [hsince] at hnul ⊢
  have hlen : bufferLength q' = (lb.content ++ formatRecord body.bytes).length := by
    rw [he.live.bufferLength, ← he.live.good.length_content]
    exact congrArg List.length hc
  have hblock : q'.block.length = 153600 := by
    rw [he.live.block_eq, he.live.good.mem, he.live.cap]
  have hfirst := firstAt_content (lb.buff.parray.drop (lb.buff.length +
    (formatRecord body.bytes).length + 4)) hnul
  rw [← hpar, ← he.live.block_eq, ← hlen] at hfirst
  have hle : bufferLength q' + 4 ≤ q'.block.length := by
    rw [hlen, hblock, List.length_append, h.good.length_content]; omega
  refine ⟨q', hs, hfirst, ?_, hle, hblock, ?_⟩
  · rw [he.live.block_eq, hpar, hlen, List.getElem?_append_right (by omega)]
    simp [marker]
  · rw [reader, hfirst.before_eq (by omega), he.live.block_eq, hpar, hlen, List.take_left]

theorem reader_after_append_fresh :
    ∃ p q', JustOpened utc p ∧ step utc p (.append .ok (some textA)) = some q' ∧
      FirstAt zeros3 q'.block (bufferLength q') ∧ reader q'.block = ascii "a\n" := by
  obtain ⟨p, hp, -, -⟩ := fresh_open utc ⟨ascii "d", by decide⟩ ⟨ascii "n", by decide⟩
  obtain ⟨lb, h, h0⟩ := hp.session
  have hlt : bufferLength p < 153600 * 4 / 5 := by
    rw [h.bufferLength, h.good.content_eq_nil_iff.mp h0]; decide
  obtain ⟨q', hs, hfirst, -, -, -, hread⟩ := reader_after_append hp
    (show Meets (step utc) (fun _ => AppendOrFlush) p [] from trivial) .ok textA (by decide) rfl hlt
  exact ⟨p, q', hp, hs, hfirst, by rw [hread]; decide⟩

/-! ### After a flush -/

/-- The operations that flush the buffer. -/
def Flushes (p : Proc) : Op → Prop
  | .task _ => p.mlog.sgLogClose = false
  | .flushSync _ => p.mlog.sgLogClose = false ∧ p.mlog.sgMode = .async
  | .open _ _ _ _ _ => p.mlog.sgLogClose = true
  | _ => False

/-- The block that an operation flushes, before it does. -/
def blockBefore (p : Proc) : Op → Bytes
  | .open oenv _ _ filedir filename =>
    openBlock oenv p.files (mmapFilePath filedir.bytes filename.bytes)
  | _ => p.block

/-- A reader of a block whose first byte alone was zeroed. -/
theorem reader_cleared_iff (m : Bytes) :
    reader (overwrite m 0 [0]) = [] ↔ m[1]? = some 0 ∧ m[2]? = some 0 := by
  have he : overwrite m 0 [0] = 0 :: m.drop 1 := by simp [overwrite]
  rw [reader, he, before_eq_nil_iff, zeros3, replicate_prefix_iff]
  constructor
  · rintro (h | h)
    · simp at h
    · exact ⟨by simpa using h 1 (by decide), by simpa using h 2 (by decide)⟩
  · rintro ⟨h1, h2⟩
    refine .inr fun i hi => ?_
    obtain rfl | rfl | rfl : i = 0 ∨ i = 1 ∨ i = 2 := by omega
    · rfl
    · simpa using h1
    · simpa using h2

theorem block_after_flush {lc : Libc} {p p' : Proc} (hp : Reachable lc p) {op : Op}
    (hf : Flushes p op) (hs : step lc p op = some p') :
    p'.block = overwrite (blockBefore p op) 0 [0] := by
  have htask : ∀ env, p.mlog.sgLogClose = false → logThreadTask lc env p = some p' →
      p'.block = overwrite p.block 0 [0] := by
    intro env hc hs
    obtain ⟨lb, h⟩ := hp.opened hc
    obtain ⟨p₁, hp₁, he⟩ := logThreadTask_effect h.toLive lc env
    cases hp₁.symm.trans hs
    rw [he.live.block_eq, h.toLive.block_eq, LogBuffer.parray_clear h.good.toWF h.good.four]
  cases op with
  | task env => exact htask env hf hs
  | flushSync env =>
    obtain ⟨hc, hmode⟩ := hf
    rw [step, logAppenderFlushSync_eq, if_neg (by simp [hmode])] at hs
    exact htask env hc hs
  | «open» oenv env mode dir name =>
    have hclosed := hp.closed hf
    obtain ⟨p₁, hp₁, ho, -⟩ :=
      logAppenderOpen_spec hclosed lc oenv (mmapOk_of_open hclosed hs) env mode dir name
    cases hp₁.symm.trans hs
    have hm := length_openBlock oenv p.files (mmapFilePath dir.bytes name.bytes)
    rw [ho.toLive.block_eq, LogBuffer.parray_clear (wf_ofBlock hm) (by simp)]
    rfl
  | _ => exact hf.elim

/-- **The mapped format after a flush.** After every flush of every run, a reader gets nothing if and
only if the bytes at offsets 1 and 2 of the mapping were zero before the flush. -/
theorem reader_after_flush_iff {lc : Libc} {p p' : Proc} (hp : Reachable lc p) {op : Op}
    (hf : Flushes p op) (hs : step lc p op = some p') :
    reader p'.block = [] ↔ (blockBefore p op)[1]? = some 0 ∧ (blockBefore p op)[2]? = some 0 := by
  have hb := block_after_flush hp hf hs
  rw [hb, reader_cleared_iff]

theorem reader_after_flush_iff_newline :
    ∃ p p', Reachable utc p ∧ buffered p = ascii "\n" ∧ step utc p (.task .ok) = some p' ∧
      reader p.block = ascii "\n" ∧ reader p'.block = [] := by
  let newline : CStr := ⟨ascii "\n", by decide⟩
  have hrec : formatRecord newline.bytes = [0x0A] := by decide
  obtain ⟨p₀, hp₀, -, -⟩ := fresh_open utc ⟨ascii "d", by decide⟩ ⟨ascii "n", by decide⟩
  obtain ⟨lb, h, h0⟩ := hp₀.session
  have hl0 := h.good.content_eq_nil_iff.mp h0
  obtain ⟨p, hs, he, hc⟩ := append_effect h utc .ok newline (by decide) (by omega)
  obtain ⟨share, files, statics, hr⟩ := hp₀.reachable
  have hp : Reachable utc p := ⟨share, files, statics, hr.tail trivial hs⟩
  obtain ⟨p', hs', -⟩ := flush_effect (h.kept he) utc .ok (.task .ok) (.inl rfl)
  have hpar := parray_append h.good [0x0A] (by simp) (by rw [h.cap, hl0]; decide)
  rw [← hrec, h0, hrec] at hpar
  have hblock : p.block = 0x0A :: (marker ++ lb.buff.parray.drop (lb.buff.length + 1 + 4)) := by
    rw [he.live.block_eq, hrec]
    exact hpar
  refine ⟨p, p', hp, ?_, hs', ?_, ?_⟩
  · rw [he.live.buffered, hc, h0, hrec]
    decide
  · have h1 : ¬ zeros3 <+: p.block := by simp [hblock, zeros3]
    rw [hblock, reader, before_of_not_start (by rwa [hblock] at h1), marker_eq, List.append_assoc,
      before_of_start (List.prefix_append _ _)]
    decide
  · refine (reader_after_flush_iff hp (show Flushes p (.task .ok) from he.flag.trans h.flag) hs').mpr ?_
    have hbefore : blockBefore p (.task .ok) = p.block := rfl
    rw [hbefore, hblock]
    exact ⟨rfl, rfl⟩

/-- After one append and one flush a reader still gets two bytes. -/
theorem reader_after_flush_stale :
    ∃ p p', JustOpened utc p ∧
      run (step utc) p [.append .ok (some textA), .task .ok] = some p' ∧
      reader p'.block = [0, 0x0A] := by
  obtain ⟨p, hp, -, -⟩ := fresh_open utc ⟨ascii "d", by decide⟩ ⟨ascii "n", by decide⟩
  obtain ⟨lb, h, h0⟩ := hp.session
  have hl0 := h.good.content_eq_nil_iff.mp h0
  obtain ⟨p₁, hs₁, he₁, -⟩ := append_effect h utc .ok textA (by decide) (by omega)
  obtain ⟨p₂, hs₂, he₂⟩ := flush_effect (h.kept he₁) utc .ok (.task .ok) (.inl rfl)
  refine ⟨p, p₂, hp, run_of_step hs₁ (run_of_step hs₂ rfl), ?_⟩
  have hrec : formatRecord textA.bytes = [0x61, 0x0A] := by decide
  have hpar := parray_append h.good [0x61, 0x0A] (by simp) (by
    rw [h.cap, hl0]; decide)
  rw [he₂.live.block_eq, LogBuffer.parray_clear he₁.live.good.toWF he₁.live.good.four, hrec, hpar, h0]
  generalize List.drop _ lb.buff.parray = rest
  have hclear : overwrite ([] ++ [0x61, 0x0A] ++ (marker ++ rest)) 0 [0] =
      0 :: 0x0A :: (zeros3 ++ 0x0D :: rest) := by simp [overwrite, marker, zeros3]
  have h1 : ¬ zeros3 <+: 0 :: 0x0A :: (zeros3 ++ 0x0D :: rest) := by simp [zeros3]
  have h2 : ¬ zeros3 <+: 0x0A :: (zeros3 ++ 0x0D :: rest) := by simp [zeros3]
  rw [hclear, reader, before_of_not_start h1, before_of_not_start h2,
    before_of_start (List.prefix_append _ _)]

end MTAppenderFile.Loglib.Mapping
