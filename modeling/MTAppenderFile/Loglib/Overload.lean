import MTAppenderFile.Loglib.Mapping

/-! # Whole lines under overload

From 4/5 of the block on, every append writes a warning line in place of its record (`overloadText`).
Nobody drains the buffer meanwhile, so the warnings fill it up, and `PtrBuffer::Write` cuts the last one.

A run of appends and flushes carries along the lines that its appends write (`lineOf`), and what the flushes hand over
to `__log2file` (`chunkStep`). Each chunk is made of whole lines of the appends since the flush before exactly if every
append finds the buffer below 4/5, or full, or with room for the warning (`whole_lines_iff`). -/

namespace MTAppenderFile.Loglib.Overload

open MTAppenderFile.Lib.Block
open MTAppenderFile.Lib.Delim
open MTAppenderFile.Lib.Run
open MTAppenderFile.Comm.CTypes
open MTAppenderFile.Comm.Auto
open MTAppenderFile.Comm.Ptr
open MTAppenderFile.Loglib.Base
open MTAppenderFile.Loglib.Buffer
open MTAppenderFile.Loglib.Files
open MTAppenderFile.Loglib.Formatter
open MTAppenderFile.Loglib.Appender
open MTAppenderFile.Loglib.Session
open MTAppenderFile.Loglib.Lifecycle
open MTAppenderFile.Loglib.Exactness
open MTAppenderFile.Loglib.Mapping

/-! ### The warning -/

/-- The warning that a buffer of the length `len` is overloaded, without its newline. -/
def overloadBody (len : ℕ) : Bytes :=
  ascii "[F][ sg_buffer_async.Length() >= BUFFER_BLOCK_LENTH*4/5, len: " ++ decimal (int32 len)

/-- The warning line. -/
def overloadText (len : ℕ) : Bytes := overloadBody len ++ ascii "\n"

theorem getLast?_formatRecord (body : Bytes) : (formatRecord body).getLast? = some 0x0A := by
  unfold formatRecord
  split_ifs with h
  · exact h
  · exact List.getLast?_concat

theorem decimal_int32 {len : ℕ} (h : len ≤ 153600) :
    decimal (int32 len) = (Nat.toDigits 10 len).map fun c => UInt8.ofNat c.toNat := by
  have hi : int32 len = len := by rw [int32, Int.bmod_def]; split_ifs <;> omega
  rw [hi]
  rfl

theorem length_overloadText {len : ℕ} (h : 122880 ≤ len) (h' : len ≤ 153600) :
    (overloadText len).length = 69 := by
  have hle : (Nat.toDigits 10 len).length ≤ 6 :=
    (Nat.length_toDigits_le_iff (by decide) (by decide)).mpr (by omega)
  have hlt : ¬ (Nat.toDigits 10 len).length ≤ 5 := fun h0 => by
    have := (Nat.length_toDigits_le_iff (by decide) (by decide)).mp h0
    omega
  have hp : (ascii "[F][ sg_buffer_async.Length() >= BUFFER_BLOCK_LENTH*4/5, len: ").length = 62 := by
    decide +kernel
  have hn : (ascii "\n").length = 1 := rfl
  rw [overloadText, overloadBody, List.length_append, List.length_append, decimal_int32 h', hp, hn,
    List.length_map]
  omega

theorem newline_notMem_overloadBody {len : ℕ} (h : len ≤ 153600) : (0x0A : Byte) ∉ overloadBody len := by
  rw [overloadBody, decimal_int32 h, List.mem_append, not_or]
  refine ⟨by decide +kernel, fun hm => ?_⟩
  obtain ⟨c, hc, he⟩ := List.mem_map.mp hm
  have hd := Nat.isDigit_of_mem_toDigits (by decide) (by decide) hc
  simp only [Char.isDigit, Bool.and_eq_true, decide_eq_true_eq, ge_iff_le, UInt32.le_iff_toNat_le] at hd
  have hc48 : 48 ≤ c.toNat := hd.1
  have hc57 : c.toNat ≤ 57 := hd.2
  have hmod := congrArg UInt8.toNat he
  rw [UInt8.toNat_ofNat', Nat.mod_eq_of_lt (by omega)] at hmod
  have h10 : c.toNat = 10 := hmod
  omega

theorem content_overloadLine {b : PtrBuffer} (hm : b.parray.length = 16 * 1024)
    (hcap : b.maxLength = 16 * 1024) {len : ℕ} (h : 122880 ≤ len) (h' : len ≤ 153600) :
    (overloadLine b len).content = overloadText len := by
  have hl := length_overloadText h h'
  have ht : ascii "[F][ sg_buffer_async.Length() >= BUFFER_BLOCK_LENTH*4/5, len: " ++
      decimal (int32 len) ++ ascii "\n" = overloadText len := rfl
  rw [overloadLine, ht]
  generalize overloadText len = text at hl
  have hs : snprintf (16 * 1024) text = (text ++ [0], 69) := by
    rw [snprintf, List.take_of_length_le (by omega), if_pos (by omega), hl]; rfl
  have hz : sizeT 69 = 69 := by decide
  have hst : storeAll b.parray (storesAt 0 (text ++ [0])) = overwrite b.parray 0 (text ++ [0]) :=
    storeAll_storesAt _ _ 0 (by simp; omega)
  have htake := take_overwrite_append (m := b.parray) (p := 0) (l := text) (r := [0]) (Nat.zero_le _)
  rw [hs]
  simp only [hz]
  rw [hst, show (69 : ℤ) = ((69 : ℕ) : ℤ) from rfl, PtrBuffer.setLength_eq (by decide),
    PtrBuffer.content, hcap]
  simpa [hl] using htake

/-! ### Appends and flushes -/

/-- The line that an append of `body` writes to a buffer of the length `len`. -/
def lineOf (body : Bytes) (len : ℕ) : Bytes :=
  if len ≥ 122880 then overloadText len else formatRecord body

theorem getLast?_lineOf (body : Bytes) (len : ℕ) : (lineOf body len).getLast? = some 0x0A := by
  unfold lineOf
  split_ifs
  · exact List.getLast?_concat
  · exact getLast?_formatRecord body

/-- **An append** writes its line to the buffer, as far as there is room. -/
theorem append_line {p : Proc} {lb : LogBuffer} (h : AsyncSession p lb) (lc : Libc) (env : FileEnv)
    {body : CStr} (hne : body.bytes ≠ []) :
    ∃ p' lb', step lc p (.append env (some body)) = some p' ∧ AsyncSession p' lb' ∧
      lb'.content = (lb.content ++ lineOf body.bytes lb.buff.length).take 153600 := by
  obtain ⟨logBuff, hf, -, hcap, hc⟩ := logFormater_none lc p.statics hne
  have hr := (logFormater_temp hf).2
  have hle := h.length_le
  have hent := isRecord_entryOf hr lb.buff.length
  have hlen := hent.length_content_le
  have hline : (entryOf logBuff lb.buff.length).content = lineOf body.bytes lb.buff.length := by
    unfold entryOf lineOf
    split_ifs with hge
    · exact content_overloadLine (hr.mem.trans hr.cap) hcap hge (by omega)
    · exact hc
  have hs := appenderAsync_eq h.toLive hf hr
  have hd : lb.buff.length + (entryOf logBuff lb.buff.length).content.length < 2 ^ 32 := by omega
  have he := h.effect_buff (h.good.write hent.content_ne_nil hd hent.head?_content)
    (h.good.maxLength_write hent.content_ne_nil hd)
  refine ⟨_, _, ?_, h.kept he, ?_⟩
  · rw [step, logAppenderAppend, logAppenderAppendEx, if_neg (by simp [h.flag]),
      if_neg (by simp [h.mode]), hs]
  · rw [h.good.content_write hent.content_ne_nil hd, h.cap, hline]

/-- The bytes that a flush hands over to `__log2file`. -/
def drained (p : Proc) : Option Bytes := (flushLogBuff p.mlog).bind fun r => r.2.ptrBytes

/-- The bytes that an append or a flush hands over to `__log2file`, in async mode. -/
def handed (p : Proc) : Op → Option Bytes
  | .task _ => drained p
  | .flushSync _ => if p.mlog.sgMode = .sync then none else drained p
  | _ => none

/-- The line that an append writes. -/
def lineAt (p : Proc) : Op → Option Bytes
  | .append _ (some body) => some (lineOf body.bytes (bufferLength p))
  | _ => none

/-- The process, the lines of the appends since the last flush, and the chunks that have been handed over to
`__log2file`, each with the lines of the appends since the flush before. -/
structure Chunked where
  proc : Proc
  lines : List Bytes
  chunks : List (List Bytes × Bytes)

/-- One operation. -/
def chunkStep (lc : Libc) (x : Chunked) (op : Op) : Option Chunked :=
  (step lc x.proc op).map fun p =>
    match handed x.proc op with
    | some data => ⟨p, [], x.chunks ++ [(x.lines, data)]⟩
    | none => ⟨p, x.lines ++ (lineAt x.proc op).toList, x.chunks⟩

/-- An append finds the buffer below 4/5 of the block, or with room for the warning, or full. -/
def LineFits (p : Proc) : Op → Prop
  | .append _ _ => bufferLength p < 153600 * 4 / 5 ∨
      bufferLength p + (overloadText (bufferLength p)).length ≤ 153600 ∨ bufferLength p = 153600
  | _ => True

/-- Each chunk is made of whole lines of the appends since the flush before. -/
def WholeChunks (x : Chunked) : Prop := ∀ c ∈ x.chunks, WholeLines c.1 c.2

/-- So is the content of the buffer. -/
def Whole (x : Chunked) : Prop := WholeChunks x ∧ WholeLines x.lines (buffered x.proc)

/-- A cut line has been handed over, or is at the end of a full buffer. -/
def Cut (x : Chunked) : Prop :=
  ¬ WholeChunks x ∨ bufferLength x.proc = 153600 ∧ (buffered x.proc).getLast? ≠ some 0x0A

section Steps

variable {lc : Libc} {x x' : Chunked} {lb : LogBuffer} {op : Op}

theorem drained_eq {p : Proc} (h : Live p lb) :
    drained p = if lb.content = [] then none else some lb.content := by
  obtain ⟨tmp, hf, ht⟩ := flushLogBuff_eq h
  rw [drained, hf, Option.bind_some, ht]

/-- What an append or a flush does: an append puts a line in the buffer, a flush hands over its content, or finds
none. -/
theorem chunkStep_cases (h : AsyncSession x.proc lb) (hop : AppendOrFlush op)
    (hs : chunkStep lc x op = some x') :
    ∃ lb', AsyncSession x'.proc lb' ∧
      ((∃ env body, op = .append env (some body) ∧ body.bytes ≠ [] ∧
          x'.lines = x.lines ++ [lineOf body.bytes lb.buff.length] ∧ x'.chunks = x.chunks ∧
          lb'.content = (lb.content ++ lineOf body.bytes lb.buff.length).take 153600) ∨
        (∀ p, LineFits p op) ∧ lb'.content = [] ∧
          (lb.content = [] ∧ x'.lines = x.lines ∧ x'.chunks = x.chunks ∨
            lb.content ≠ [] ∧ x'.lines = [] ∧ x'.chunks = x.chunks ++ [(x.lines, lb.content)])) := by
  obtain ⟨p', hstep, rfl⟩ := Option.map_eq_some_iff.mp hs
  rcases appendOrFlush_cases hop with ⟨env, body, rfl, hne⟩ | ⟨env, hflush⟩
  · obtain ⟨p₁, lb', hs₁, h', hc⟩ := append_line h lc env hne
    cases hs₁.symm.trans hstep
    refine ⟨lb', h', .inl ⟨env, body, rfl, hne, ?_, rfl, hc⟩⟩
    rw [← h.bufferLength]
    rfl
  · obtain ⟨p₁, hs₁, he⟩ := flush_effect h lc env op hflush
    cases hs₁.symm.trans hstep
    have hfits : ∀ p, LineFits p op := by rcases hflush with rfl | rfl <;> exact fun _ => trivial
    have hline : lineAt x.proc op = none := by rcases hflush with rfl | rfl <;> rfl
    have hhanded : handed x.proc op = if lb.content = [] then none else some lb.content := by
      rw [← drained_eq h.toLive]
      rcases hflush with rfl | rfl
      · rfl
      · simp [handed, h.mode]
    rw [hhanded, hline]
    by_cases h0 : lb.content = []
    · rw [if_pos h0]
      exact ⟨_, h.writes he, .inr ⟨hfits, LogBuffer.content_clear lb, .inl ⟨h0, List.append_nil _, rfl⟩⟩⟩
    · rw [if_neg h0]
      exact ⟨_, h.writes he, .inr ⟨hfits, LogBuffer.content_clear lb, .inr ⟨h0, rfl, rfl⟩⟩⟩

/-- A session in async mode, in which every line ends with a newline. -/
def InSession (x : Chunked) : Prop :=
  (∃ lb, AsyncSession x.proc lb) ∧ ∀ line ∈ x.lines, line.getLast? = some 0x0A

theorem InSession.step (h : InSession x) (hop : AppendOrFlush op) (hs : chunkStep lc x op = some x') :
    InSession x' := by
  obtain ⟨⟨lb, h⟩, hl⟩ := h
  obtain ⟨lb', h', ⟨_, body, -, -, hx, -⟩ | ⟨-, -, ⟨-, hx, -⟩ | ⟨-, hx, -⟩⟩⟩ := chunkStep_cases h hop hs
  · refine ⟨⟨lb', h'⟩, fun line hm => ?_⟩
    rw [hx, List.mem_append, List.mem_singleton] at hm
    rcases hm with hm | rfl
    · exact hl line hm
    · exact getLast?_lineOf _ _
  · exact ⟨⟨lb', h'⟩, by rwa [hx]⟩
  · exact ⟨⟨lb', h'⟩, by simp [hx]⟩

theorem lineFits_append {p : Proc} (h : AsyncSession p lb) {env : FileEnv} {body : CStr} :
    LineFits p (.append env (some body)) ↔
      lb.content.length + (lineOf body.bytes lb.buff.length).length ≤ 153600 ∨
        lb.content.length = 153600 := by
  have hle := h.length_le
  rw [LineFits, h.bufferLength, h.good.length_content, lineOf]
  split_ifs with hge
  · rw [length_overloadText hge (by omega)]
    omega
  · have := length_formatRecord_le body.bytes
    omega

/-- **Whole lines stay whole** in a step that meets the condition. -/
theorem Whole.step (hw : Whole x) (h : InSession x) (hop : AppendOrFlush op) (hfit : LineFits x.proc op)
    (hs : chunkStep lc x op = some x') : Whole x' := by
  obtain ⟨⟨lb, h⟩, -⟩ := h
  obtain ⟨hchunks, hbuf⟩ := hw
  rw [h.buffered] at hbuf
  obtain ⟨lb', h', ⟨env, body, rfl, hne, hx, hxc, hc⟩ | ⟨-, hc, ⟨-, -, hxc⟩ | ⟨-, -, hxc⟩⟩⟩ :=
    chunkStep_cases h hop hs
  · refine ⟨by unfold WholeChunks; rw [hxc]; exact hchunks, ?_⟩
    rw [h'.buffered, hc, hx]
    rcases (lineFits_append h).mp hfit with hl | hl
    · rw [List.take_of_length_le (by rw [List.length_append]; exact hl)]
      exact hbuf.append _
    · -- a full buffer leaves the line out
      rw [List.take_append_of_le_length (by omega), List.take_of_length_le (by omega)]
      exact hbuf.skip _
  · refine ⟨by unfold WholeChunks; rw [hxc]; exact hchunks, ?_⟩
    rw [h'.buffered, hc]
    exact wholeLines_nil _
  · refine ⟨fun c hm => ?_, ?_⟩
    · rw [hxc, List.mem_append, List.mem_singleton] at hm
      rcases hm with hm | rfl
      · exact hchunks c hm
      · exact hbuf
    · rw [h'.buffered, hc]
      exact wholeLines_nil _

/-- **An append that breaks the condition** cuts its line. -/
theorem cut_of_not_lineFits (h : InSession x) (hop : AppendOrFlush op) (hfit : ¬ LineFits x.proc op)
    (hs : chunkStep lc x op = some x') : Cut x' := by
  obtain ⟨⟨lb, h⟩, -⟩ := h
  have hle := h.length_le
  have hlen : lb.content.length = lb.buff.length := h.good.length_content
  obtain ⟨lb', h', ⟨env, body, rfl, hne, -, -, hc⟩ | ⟨hall, -⟩⟩ := chunkStep_cases h hop hs
  · rw [LineFits, h.bufferLength] at hfit
    have hge : lb.buff.length ≥ 122880 := by omega
    have hw := length_overloadText hge (by omega)
    have hb : (overloadBody lb.buff.length).length = 68 := by
      rw [overloadText, List.length_append] at hw
      exact Nat.add_right_cancel (m := 1) hw
    rw [lineOf, if_pos hge, List.take_append, List.take_of_length_le (by omega), hlen] at hc
    have hcut : lb'.content.getLast? ≠ some 0x0A := by
      rw [hc]
      exact getLast?_cut (newline_notMem_overloadBody (by omega)) (by omega) (by omega)
    refine .inr ⟨?_, by rwa [h'.buffered]⟩
    have hlen' : lb'.content.length = lb'.buff.length := h'.good.length_content
    rw [h'.bufferLength, ← hlen', hc, List.length_append, List.length_take, hlen]
    omega
  · exact absurd (hall x.proc) hfit

/-- **A cut line** stays in the buffer until it is handed over. -/
theorem Cut.step (hcut : Cut x) (h : InSession x) (hop : AppendOrFlush op)
    (hs : chunkStep lc x op = some x') : Cut x' := by
  obtain ⟨⟨lb, h⟩, hl⟩ := h
  have hchunks : (∀ c ∈ x.chunks, c ∈ x'.chunks) → ¬ WholeChunks x → Cut x' := fun hsub hn =>
    .inl fun hw => hn fun c hm => hw c (hsub c hm)
  have hlen : lb.content.length = lb.buff.length := h.good.length_content
  rw [Cut, h.bufferLength, h.buffered] at hcut
  obtain ⟨lb', h', ⟨env, body, rfl, hne, hx, hxc, hc⟩ | ⟨-, hc, ⟨h0, -, hxc⟩ | ⟨h0, -, hxc⟩⟩⟩ :=
    chunkStep_cases h hop hs
  · rcases hcut with hn | ⟨hfull, hn⟩
    · exact hchunks (fun c hm => by rwa [hxc]) hn
    · -- nothing is added to a full buffer
      have hlen' : lb'.content.length = lb'.buff.length := h'.good.length_content
      rw [List.take_append_of_le_length (by omega), List.take_of_length_le (by omega)] at hc
      refine .inr ⟨?_, ?_⟩
      · rw [h'.bufferLength, ← hlen', hc, hlen, hfull]
      · rwa [h'.buffered, hc]
  · rcases hcut with hn | ⟨hfull, -⟩
    · exact hchunks (fun c hm => by rwa [hxc]) hn
    · rw [← hlen, h0] at hfull
      cases hfull
  · rcases hcut with hn | ⟨-, hn⟩
    · exact hchunks (fun c hm => by rw [hxc]; exact List.mem_append_left _ hm) hn
    · refine .inl fun hw => hn ?_
      refine (hw (x.lines, lb.content) ?_).getLast? hl h0
      rw [hxc]
      exact List.mem_append_right _ (List.mem_singleton_self _)

end Steps

/-! ### Runs -/

section Runs

variable {lc : Libc} {p : Proc} {ops : List Op}

theorem InSession.total {x : Chunked} (h : InSession x) (lc : Libc) {op : Op}
    (hop : AppendOrFlush op) : ∃ x', chunkStep lc x op = some x' := by
  obtain ⟨⟨lb, h⟩, -⟩ := h
  suffices hs : ∃ p', Appender.step lc x.proc op = some p' by
    obtain ⟨p', hs⟩ := hs
    exact ⟨_, by rw [chunkStep, hs]; rfl⟩
  rcases appendOrFlush_cases hop with ⟨env, body, rfl, hne⟩ | ⟨env, hflush⟩
  · obtain ⟨p', -, hs, -⟩ := append_line h lc env hne
    exact ⟨p', hs⟩
  · obtain ⟨p', hs, -⟩ := flush_effect h lc env op hflush
    exact ⟨p', hs⟩

theorem inSession_run (lc : Libc) {x : Chunked} (h : InSession x) (hops : ∀ op ∈ ops, AppendOrFlush op) :
    ∃ x', run (chunkStep lc) x ops = some x' ∧ InSession x' :=
  run_total (P := fun _ x => InSession x) h
    (fun _ x op h hop => by
      obtain ⟨x', hs⟩ := h.total lc hop
      exact ⟨x', hs, h.step hop hs⟩)
    (meets_of_forall (D := AppendOrFlush) hops)

/-- **A run from an empty buffer** keeps whole lines if its appends meet the condition, and otherwise ends
with a cut line. -/
theorem whole_or_cut {x x' : Chunked} (h : InSession x) (hw : Whole x)
    (hops : ∀ op ∈ ops, AppendOrFlush op) (hr : run (chunkStep lc) x ops = some x') :
    (Meets (chunkStep lc) (fun x => LineFits x.proc) x ops → Whole x') ∧
      (¬ Meets (chunkStep lc) (fun x => LineFits x.proc) x ops → Cut x') := by
  have hm : Meets (chunkStep lc) (fun _ => AppendOrFlush) x ops := meets_of_forall hops
  constructor
  · intro hfit
    exact ((reach_of_run (hm.and hfit) hr).inv (P := fun x => InSession x ∧ Whole x) ⟨h, hw⟩
      fun _ _ _ h hc hs => ⟨h.1.step hc.1 hs, h.2.step h.1 hc.1 hc.2 hs⟩).2
  · intro hfit
    exact (meets_or_of_run (P := InSession) (Q := Cut) (fun _ _ _ h hc hs => h.step hc hs)
      (fun _ _ _ h hc hd hs => cut_of_not_lineFits h hc hd hs)
      (fun _ _ _ h hq hc hs => hq.step h hc hs) h hm hr).resolve_left hfit

theorem Cut.handed {x y : Chunked} (hcut : Cut y) (hy : InSession y) {env : FileEnv}
    (hs : chunkStep lc y (.task env) = some x) : ¬ WholeChunks x := by
  have htask : AppendOrFlush (.task env) := trivial
  obtain ⟨⟨lb, h⟩, -⟩ := id hy
  obtain ⟨lb', hx, ⟨_, _, hop, -⟩ | ⟨-, h0, -⟩⟩ := chunkStep_cases h htask hs
  · cases hop
  rcases hcut.step hy htask hs with hn | ⟨hfull, -⟩
  · exact hn
  · rw [hx.bufferLength, hx.good.content_eq_nil_iff.mp h0] at hfull
    cases hfull

/-- An appender that was just opened, before any append. -/
def start (p : Proc) : Chunked := ⟨p, [], []⟩

theorem inSession_start {lb : LogBuffer} (h : AsyncSession p lb) : InSession (start p) := ⟨⟨lb, h⟩, by simp [start]⟩

/-- **Whole lines and the overload of the buffer.** From an appender just opened in async mode, in every run
of appends and flushes that ends with a flush: each chunk that the flushes hand over to `__log2file` is made
of whole lines of the appends since the flush before exactly if every append found the buffer below 4/5 of the block,
or with room for the warning, or full. -/
theorem whole_lines_iff (hp : JustOpened lc p) (hops : ∀ op ∈ ops, AppendOrFlush op) (env : FileEnv) :
    ∃ x, run (chunkStep lc) (start p) (ops ++ [.task env]) = some x ∧
      (WholeChunks x ↔ Meets (chunkStep lc) (fun x => LineFits x.proc) (start p) ops) := by
  obtain ⟨lb, h, hc⟩ := hp.session
  have hin := inSession_start h
  have hw : Whole (start p) := by
    refine ⟨fun _ hd => (by cases hd), ?_⟩
    rw [show buffered (start p).proc = lb.content from h.buffered, hc]
    exact wholeLines_nil _
  obtain ⟨y, hr, hy⟩ := inSession_run lc hin hops
  have htask : AppendOrFlush (.task env) := trivial
  obtain ⟨x, hs⟩ := hy.total lc htask
  refine ⟨x, run_trans hr (run_of_step hs rfl), ?_⟩
  obtain ⟨hwhole, hcut⟩ := whole_or_cut hin hw hops hr
  constructor
  · intro hchunks
    by_contra hm
    exact (hcut hm).handed hy hs hchunks
  · intro hm
    exact ((hwhole hm).step hy htask trivial hs).1

theorem chunkStep_append {x : Chunked} {lb : LogBuffer} (h : AsyncSession x.proc lb)
    (hlt : lb.buff.length < 153600 * 4 / 5) :
    ∃ p' lb', chunkStep utc x (.append .ok (some textA)) = some ⟨p', x.lines ++ [ascii "a\n"], x.chunks⟩ ∧
      AsyncSession p' lb' ∧ lb'.content = lb.content ++ ascii "a\n" := by
  have hline : lineOf textA.bytes lb.buff.length = ascii "a\n" := by
    rw [lineOf, if_neg (by omega)]
    decide
  have hne : textA.bytes ≠ [] := by decide
  obtain ⟨p', lb', hs, h', hc⟩ := append_line h utc .ok hne
  have hl : lb.content.length = lb.buff.length := h.good.length_content
  refine ⟨p', lb', ?_, h', ?_⟩
  · rw [chunkStep, hs, ← hline, ← h.bufferLength]
    rfl
  · have h2 : (ascii "a\n").length = 2 := rfl
    rw [hc, hline, List.take_of_length_le]
    rw [List.length_append, hl, h2]
    omega

theorem chunkStep_task {x : Chunked} {lb : LogBuffer} (h : AsyncSession x.proc lb) (hne : lb.content ≠ []) :
    ∃ p' lb', chunkStep utc x (.task .ok) = some ⟨p', [], x.chunks ++ [(x.lines, lb.content)]⟩ ∧
      AsyncSession p' lb' ∧ lb'.content = [] := by
  obtain ⟨p', hs, he⟩ := flush_effect h utc .ok (.task .ok) (.inl rfl)
  refine ⟨p', _, ?_, h.writes he, LogBuffer.content_clear lb⟩
  rw [chunkStep, hs, handed, drained_eq h.toLive, if_neg hne]
  rfl

theorem whole_lines_iff_appends :
    ∃ p x, JustOpened utc p ∧
      run (chunkStep utc) (start p)
        ([.append .ok (some textA), .append .ok (some textA), .task .ok, .append .ok (some textA)] ++ [.task .ok]) =
          some x ∧
      WholeChunks x ∧ x.chunks.map Prod.snd = [ascii "a\na\n", ascii "a\n"] := by
  obtain ⟨p, hp, -, -⟩ := fresh_open utc textA textA
  obtain ⟨lb, h, hc⟩ := hp.session
  have hlen : ∀ {p : Proc} {lb : LogBuffer}, AsyncSession p lb → lb.buff.length = lb.content.length :=
    fun h => h.good.length_content.symm
  have happ : AppendOrFlush (.append .ok (some textA)) := show textA.bytes ≠ [] by decide
  have hops : ∀ op ∈ ([.append .ok (some textA), .append .ok (some textA), .task .ok,
      .append .ok (some textA)] : List Op), AppendOrFlush op := fun op hop => by
    simp only [List.mem_cons, List.not_mem_nil, or_false] at hop
    obtain rfl | rfl | rfl | rfl := hop
    exacts [happ, happ, trivial, happ]
  obtain ⟨p₁, lb₁, hs₁, h₁, hc₁⟩ := chunkStep_append (x := start p) h (by rw [hlen h, hc]; decide)
  obtain ⟨p₂, lb₂, hs₂, h₂, hc₂⟩ := chunkStep_append (x := ⟨p₁, _, _⟩) h₁ (by rw [hlen h₁, hc₁, hc]; decide)
  rw [hc₁, hc] at hc₂
  obtain ⟨p₃, lb₃, hs₃, h₃, hc₃⟩ := chunkStep_task (x := ⟨p₂, _, _⟩) h₂ (by rw [hc₂]; decide)
  obtain ⟨p₄, lb₄, hs₄, h₄, hc₄⟩ := chunkStep_append (x := ⟨p₃, _, _⟩) h₃ (by rw [hlen h₃, hc₃]; decide)
  rw [hc₃] at hc₄
  obtain ⟨p₅, lb₅, hs₅, -, -⟩ := chunkStep_task (x := ⟨p₄, _, _⟩) h₄ (by rw [hc₄]; decide)
  have hfits : ∀ {x : Chunked} {lb : LogBuffer}, AsyncSession x.proc lb → lb.content.length ≤ 2 →
      LineFits x.proc (.append .ok (some textA)) := fun h hl => by
    refine .inl ?_
    rw [h.bufferLength, hlen h]
    omega
  obtain ⟨x, hr, hiff⟩ := whole_lines_iff hp hops .ok
  have hnil : ∀ x, run (chunkStep utc) x [] = some x := fun _ => rfl
  have hrun := run_of_step hs₁ (run_of_step hs₂ (run_of_step hs₃ (run_of_step hs₄ (run_of_step hs₅ (hnil _)))))
  cases hr.symm.trans hrun
  refine ⟨p, _, hp, hr, hiff.mpr ?_, ?_⟩
  · refine meets_of_step (hfits (x := start p) h ?_) hs₁ (meets_of_step (hfits h₁ ?_) hs₂
      (meets_of_step trivial hs₃ (meets_of_step (hfits h₃ ?_) hs₄ trivial)))
    · rw [hc]; decide
    · rw [hc₁, hc]; decide
    · rw [hc₃]; decide
  · simp only [start, List.nil_append, List.cons_append, List.map_cons, List.map_nil, hc₂, hc₄]
    rfl

/-- Appends whose lines all have the length `w`. -/
theorem run_appends (lc : Libc) {x : Chunked} {lb : LogBuffer} (h : AsyncSession x.proc lb) {w : ℕ} :
    ∀ n, lb.buff.length + n * w ≤ 153600 →
      (∀ j < n, (lineOf textA.bytes (lb.buff.length + j * w)).length = w) →
      ∃ y lb', run (chunkStep lc) x (List.replicate n (.append .ok (some textA))) = some y ∧
        AsyncSession y.proc lb' ∧ lb'.buff.length = lb.buff.length + n * w
  | 0, _, _ => ⟨x, lb, rfl, h, by omega⟩
  | n + 1, hle, hw => by
    have hn : (n + 1) * w = n * w + w := Nat.succ_mul n w
    obtain ⟨y, lb', hr, hy, hlen⟩ := run_appends lc h n (by omega) fun j hj => hw j (by omega)
    have hne : textA.bytes ≠ [] := by decide
    obtain ⟨p, lb₁, hs, h₁, hc⟩ := append_line hy lc .ok hne
    have hlen₁ : lb₁.content.length = lb₁.buff.length := h₁.good.length_content
    have hlen' : lb'.content.length = lb'.buff.length := hy.good.length_content
    have hwn := hw n (Nat.lt_succ_self n)
    rw [← hlen] at hwn
    refine ⟨⟨p, y.lines ++ (lineAt y.proc (.append .ok (some textA))).toList, y.chunks⟩, lb₁, ?_, h₁, ?_⟩
    · rw [List.replicate_succ']
      exact run_trans hr (run_of_step (by rw [chunkStep, hs]; rfl) rfl)
    · rw [← hlen₁, hc, List.length_take, List.length_append, hwn, hlen', hlen]
      omega

/-- After 61440 records `"a\n"` the buffer is at 4/5 of the block; 445 warnings fit, and the next one is
cut. -/
theorem whole_lines_overloaded :
    ∃ p x, JustOpened utc p ∧
      run (chunkStep utc) (start p)
        (List.replicate (61440 + 446) (.append .ok (some textA)) ++ [.task .ok]) = some x ∧
      ¬ WholeChunks x := by
  obtain ⟨p, hp, -, -⟩ := fresh_open utc textA textA
  obtain ⟨lb, h, hc⟩ := hp.session
  have h0 := h.good.content_eq_nil_iff.mp hc
  have hrec : ∀ len < 122880, (lineOf textA.bytes len).length = 2 := fun len hlt => by
    rw [lineOf, if_neg (by omega)]
    decide
  have hwarn : ∀ len, 122880 ≤ len → len ≤ 153600 → (lineOf textA.bytes len).length = 69 :=
    fun len hge hle => by rw [lineOf, if_pos hge, length_overloadText hge hle]
  obtain ⟨y₁, lb₁, hr₁, h₁, hl₁⟩ := run_appends utc (x := start p) (w := 2) h 61440 (by omega)
    fun j hj => hrec _ (by omega)
  obtain ⟨y₂, lb₂, hr₂, h₂, hl₂⟩ := run_appends utc (w := 69) h₁ 445 (by omega)
    fun j hj => hwarn _ (by omega) (by omega)
  have happend : AppendOrFlush (.append .ok (some textA)) := show textA.bytes ≠ [] by decide
  have hops : ∀ op ∈ List.replicate 61440 (Op.append .ok (some textA)) ++ List.replicate 445 (.append .ok (some textA)),
      AppendOrFlush op := fun op hop => by
    rw [← List.replicate_add] at hop
    rw [List.eq_of_mem_replicate hop]
    exact happend
  obtain ⟨y, hry, hy₂⟩ := inSession_run utc (inSession_start h) hops
  cases (run_trans hr₁ hr₂).symm.trans hry
  have hlen : bufferLength y₂.proc = 153585 := by rw [h₂.bufferLength]; omega
  obtain ⟨y₃, hs₃⟩ := hy₂.total utc happend
  have hcut : Cut y₃ := by
    refine cut_of_not_lineFits hy₂ happend ?_ hs₃
    rw [LineFits, hlen, length_overloadText (by decide) (by decide)]
    decide
  have hy₃ := hy₂.step happend hs₃
  have htask : AppendOrFlush (.task .ok) := trivial
  obtain ⟨x, hs⟩ := hy₃.total utc htask
  refine ⟨p, x, hp, ?_, hcut.handed hy₃ hs⟩
  have hrep : List.replicate (61440 + 446) (Op.append .ok (some textA)) =
      List.replicate 61440 (.append .ok (some textA)) ++
        (List.replicate 445 (.append .ok (some textA)) ++ [.append .ok (some textA)]) := by
    rw [List.replicate_add, ← List.replicate_succ']
  rw [hrep]
  exact run_trans (run_trans hr₁ (run_trans hr₂ (run_of_step hs₃ rfl))) (run_of_step hs rfl)

end Runs

end MTAppenderFile.Loglib.Overload
