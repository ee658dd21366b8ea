import MTAppenderFile.Loglib.Mapping

/-! # Recovery after a crash

After a crash the files are there, the mapped file with the bytes of the mapping, and the process with
the length and the cursor is gone (`crash`). The next `open` of the same file has to add to the log
file exactly what the buffer held.

It lays its buffer over the whole block, takes all of it for the content unless the first byte is NUL,
and writes that back. So it recovers exactly if the buffer was empty, or if as many bytes of the block reach the file
as the buffer held; if every call succeeds in async mode, that is a full buffer (`recovery_iff`). -/

namespace MTAppenderFile.Loglib.Recovery

open MTAppenderFile.Lib.Buffered
open MTAppenderFile.Lib.Run
open MTAppenderFile.Comm.CTypes
open MTAppenderFile.Loglib.Base
open MTAppenderFile.Loglib.Buffer
open MTAppenderFile.Loglib.Files
open MTAppenderFile.Loglib.Formatter
open MTAppenderFile.Loglib.Appender
open MTAppenderFile.Loglib.Session
open MTAppenderFile.Loglib.Lifecycle
open MTAppenderFile.Loglib.Exactness
open MTAppenderFile.Loglib.Mapping

/-- The buffer lies over the mapping. -/
def MmapBacked (p : Proc) : Prop := ∃ mt, p.mlog.sgMmapFile = some mt ∧ mt.isOpen = true

/-- The files that survive a crash: a mapped file has the bytes of the mapping. -/
def survivingFiles (p : Proc) : Disk :=
  match p.mlog.sgMmapFile with
  | some ⟨some path, true⟩ => Function.update p.files path p.block
  | _ => p.files

/-- A new process after a crash. -/
def crash (p : Proc) (useShareThread : Bool) (statics : FormatStatics) : Proc :=
  .create useShareThread (survivingFiles p) statics

/-- How many bytes of a whole block `fwrite` accepts. -/
def blockAccepted (env : FileEnv) : ℕ :=
  match env.fwriteStored with
  | none => 153600
  | some k => min k 153599

/-- How many bytes of a whole block reach the file: in async mode, or if the write fails, with the `fclose`; else with
the `fwrite` alone. -/
def blockStored (env : FileEnv) (mode : AppendMode) : ℕ :=
  if mode = .async ∨ env.fwriteStored ≠ none then
    match env.fcloseStored with
    | none => blockAccepted env
    | some k => min (env.handed + k) (blockAccepted env)
  else min env.handed (blockAccepted env)

theorem fwrite_block {env : FileEnv} {m : Bytes} (hm : m.length = 150 * 1024) :
    (fwrite env m).1 = m.take (blockAccepted env) := by
  rw [fwrite, blockAccepted]
  cases env.fwriteStored with
  | none => exact (List.take_of_length_le (Nat.le_of_eq hm)).symm
  | some k => rw [hm]

theorem blockStored_le (env : FileEnv) (mode : AppendMode) : blockStored env mode ≤ 150 * 1024 := by
  have hb : blockAccepted env ≤ 150 * 1024 := by
    unfold blockAccepted
    split <;> omega
  unfold blockStored
  split_ifs
  · cases env.fcloseStored with
    | none => exact hb
    | some k => exact (Nat.min_le_right _ _).trans hb
  · exact (Nat.min_le_right _ _).trans hb

theorem out_writeOut_block {env : FileEnv} (ht : env.ftellOk = true) (mode : AppendMode) (file : Bytes) {m : Bytes}
    (hm : m.length = 150 * 1024) :
    (writeOut env mode m ⟨file, []⟩).out = file ++ m.take (blockStored env mode) := by
  simp only [writeOut, ht, if_true, true_and, Sink.put, fwrite_block hm, List.nil_append]
  by_cases hc : mode = .async ∨ env.fwriteStored ≠ none
  · rw [if_pos hc, blockStored, if_pos hc, Sink.close]
    cases env.fcloseStored with
    | none => rw [Sink.leaving_none, List.append_assoc, List.take_append_drop]
    | some k =>
      show file ++ _ ++ (List.drop _ _).take k = _
      rw [List.append_assoc, ← List.take_add, List.take_take]
  · rw [if_neg hc, blockStored, if_neg hc, List.take_take]

/-- The first `n` bytes of a block, for different `n`, are different. -/
theorem take_block_iff {m : Bytes} (hm : m.length = 150 * 1024) {n k : ℕ} (hn : n ≤ 150 * 1024) (hk : k ≤ 150 * 1024) :
    m.take k = m.take n ↔ n = k := by
  refine ⟨fun h => ?_, fun h => by rw [h]⟩
  have := congrArg List.length h
  rw [List.length_take_of_le (by omega), List.length_take_of_le (by omega)] at this
  exact this.symm

/-- On a mapping, the mapped file survives with the block, and the log file as it was. -/
theorem survivingFiles_spec {p : Proc} {lb : LogBuffer} (h : Live p lb) (hm : MmapBacked p) :
    survivingFiles p (mmapFilePath p.mlog.sgLogdir p.mlog.sgLogfilename) = lb.buff.parray ∧
      survivingFiles p (logPath p.mlog) = logFile p := by
  obtain ⟨mt, hmt, ho⟩ := hm
  obtain ⟨mt', hmt', hfd⟩ := h.mmap
  cases hmt.symm.trans hmt'
  obtain ⟨fd, isOpen⟩ := mt
  cases ho
  cases hfd rfl
  rw [survivingFiles, hmt]
  simp only [Function.update_self, h.block_eq, true_and]
  exact Function.update_of_ne (mmapFilePath_ne_logfilePath _ _).symm _ _

/-- What the next `open` finds: the block, and the log file as it was. -/
theorem open_after_crash (lc : Libc) {p : Proc} {lb : LogBuffer} (h : Live p lb) (hm : MmapBacked p)
    (useShareThread : Bool) (statics : FormatStatics) (env : FileEnv) (mode : AppendMode)
    (dir name : CStr) (hd : dir.bytes = p.mlog.sgLogdir) (hn : name.bytes = p.mlog.sgLogfilename) :
    ∃ p', step lc (crash p useShareThread statics) (.open .ok env mode dir name) = some p' ∧
      sink p' = openBack env mode p.mlog.sgLogdir lb.buff.parray ⟨logFile p, []⟩ := by
  obtain ⟨p', hs, -, -, -, -, -, -, hsink⟩ := logAppenderOpen_spec
    (closed_create useShareThread (survivingFiles p) statics) lc .ok (fun _ => rfl) env mode
    dir name
  refine ⟨p', hs, ?_⟩
  obtain ⟨hmap, hlog⟩ := survivingFiles_spec h hm
  have hblock : openBlock .ok (survivingFiles p)
      (mmapFilePath p.mlog.sgLogdir p.mlog.sgLogfilename) = lb.buff.parray := by
    rw [openBlock, OpenEnv.ok, if_pos rfl, hmap, resize_of_length (h.good.mem.trans h.cap)]
  rw [hsink, hd, hn]
  simp only [Proc.create, hblock]
  exact congrArg (fun f => openBack env mode _ _ ⟨f, []⟩) hlog

/-- **Recovery after a crash.** In every reachable state on a mapping: after a crash there, the next
`open` of the same file adds to the log file exactly the first `Length()` bytes of the buffer if and
only if the buffer was empty, or the write-back of the whole block gets to `fwrite` and `Length()` bytes of it reach the
file. -/
theorem recovery_iff {lc : Libc} {p : Proc} (hp : Reachable lc p)
    (hopen : p.mlog.sgLogClose = false) (hmmap : MmapBacked p) (useShareThread : Bool)
    (statics : FormatStatics) (env : FileEnv) (mode : AppendMode) (dir name : CStr)
    (hd : dir.bytes = p.mlog.sgLogdir) (hn : name.bytes = p.mlog.sgLogfilename) :
    ∃ p', step lc (crash p useShareThread statics) (.open .ok env mode dir name) = some p' ∧
      (logFile p' = logFile p ++ p.block.take (bufferLength p) ↔
        bufferLength p = 0 ∨ (p.mlog.sgLogdir ≠ [] ∧ env.fopenOk = true ∧ env.ftellOk = true ∧
          bufferLength p = blockStored env mode)) := by
  obtain ⟨lb, h⟩ := hp.opened hopen
  obtain ⟨p', hs, hsink⟩ :=
    open_after_crash lc h.toLive hmmap useShareThread statics env mode dir name hd hn
  refine ⟨p', hs, ?_⟩
  have hle := h.length_le
  have hml := h.good.mem.trans h.cap
  have hf : logFile p' = (openBack env mode p.mlog.sgLogdir lb.buff.parray ⟨logFile p, []⟩).out :=
    congrArg Sink.out hsink
  rw [hf, h.block_eq, h.bufferLength, openBack_eq env mode _ _ rfl, recovered]
  by_cases h0 : lb.buff.length = 0
  · rw [if_pos (h.good.first.mpr h0), writeOut_nil rfl, ite_self, h0]
    simp
  · have hne : lb.buff.parray.take lb.buff.length ≠ [] := fun hc =>
      h0 (h.good.content_eq_nil_iff.mp hc)
    have hneq : logFile p ≠ logFile p ++ lb.buff.parray.take lb.buff.length := fun hc =>
      hne (List.append_right_eq_self.mp hc.symm)
    rw [if_neg fun hf => h0 (h.good.first.mp hf)]
    by_cases hn : p.mlog.sgLogdir = [] ∨ env.fopenOk = false
    · rw [if_pos hn]
      refine iff_of_false hneq ?_
      rintro (hz | ⟨hdir, ho, -, -⟩)
      · exact h0 hz
      · exact hn.elim hdir fun hf => Bool.false_ne_true (hf.symm.trans ho)
    · obtain ⟨hdir, ho⟩ := not_or.mp hn
      rw [if_neg hn]
      by_cases ht : env.ftellOk = true
      · rw [out_writeOut_block ht mode _ hml, List.append_cancel_left_eq,
          take_block_iff hml hle (blockStored_le env mode)]
        have ho' : env.fopenOk = true := by simpa using ho
        simp [h0, hdir, ht, ho']
      · refine iff_of_false (fun hc => hneq ?_) fun hc => ht (hc.resolve_left h0).2.2.1
        rw [← hc]
        simp [writeOut, ht, Sink.close]

/-- A state on a mapping with one record in the buffer. -/
theorem exists_mapped :
    ∃ p lb, Reachable utc p ∧ Opened p lb ∧ MmapBacked p ∧ p.mlog.sgLogdir = textA.bytes ∧
      p.mlog.sgLogfilename = textA.bytes ∧ logFile p = [] ∧ lb.content = ascii "a\n" := by
  obtain ⟨p, hs, ho, hd, hn, hm, -, hmt, hsink⟩ := logAppenderOpen_spec (closed_create true (fun _ => [])
    ⟨0, 0⟩) utc .ok (fun _ => rfl) .ok .async textA textA
  have hrec : openBlock .ok (fun _ => []) (mmapFilePath textA.bytes textA.bytes) =
      resize [] (150 * 1024) := rfl
  simp only [Proc.create, hrec, openBack_of_nil recovered_resize_nil] at hsink
  have h : AsyncSession p _ := ⟨ho, hm, congrArg Sink.held hsink⟩
  have hl0 := h.good.content_eq_nil_iff.mp (LogBuffer.content_clear _)
  obtain ⟨p', hs', he, hc⟩ := append_effect h utc .ok textA (by decide) (by omega)
  refine ⟨p', _, ⟨true, _, _, (Reach.refl.tail (a := .open .ok .ok .async textA textA) trivial hs).tail
    trivial hs'⟩, he.opened h.flag, ?_, he.dir.trans hd, he.name.trans hn, ?_, ?_⟩
  · obtain ⟨mt, hmt, ho⟩ := hmt
    exact ⟨mt, he.mmapFile.trans hmt, ho⟩
  · exact he.logFile.trans (congrArg Sink.out hsink)
  · rw [hc, LogBuffer.content_clear]; decide

theorem recovery_iff_empty :
    ∃ p p', Reachable utc p ∧ MmapBacked p ∧ bufferLength p = 0 ∧
      step utc (crash p true ⟨0, 0⟩) (.open .ok .ok .async textA textA) = some p' ∧
      logFile p' = logFile p ++ p.block.take (bufferLength p) := by
  obtain ⟨p₀, lb, ⟨share, files, statics, hr⟩, h, ⟨mt, hmt, ho⟩, hd, hn, -, -⟩ := exists_mapped
  obtain ⟨p, hs, he⟩ := logThreadTask_effect h.toLive utc .ok
  have hp : Reachable utc p := ⟨share, files, statics, hr.tail (a := .task .ok) trivial hs⟩
  have hb : MmapBacked p := ⟨mt, he.mmapFile.trans hmt, ho⟩
  have hl : bufferLength p = 0 := by rw [he.live.bufferLength, LogBuffer.length_clear]
  obtain ⟨p', hs', hiff⟩ := recovery_iff hp (he.flag.trans h.flag) hb
    true ⟨0, 0⟩ .ok .async textA textA (he.dir.trans hd).symm (he.name.trans hn).symm
  exact ⟨p, p', hp, hb, hl, hs', hiff.mpr (.inl hl)⟩

/-- After a crash with the record `"a\n"` in the buffer, the next `open` writes back the whole block. -/
theorem recovery_writes_whole_block :
    ∃ p p', Reachable utc p ∧ MmapBacked p ∧ p.block.take (bufferLength p) = ascii "a\n" ∧
      logFile p = [] ∧
      step utc (crash p true ⟨0, 0⟩) (.open .ok .ok .async textA textA) = some p' ∧
      (logFile p').length = 153600 ∧
      logFile p' ≠ logFile p ++ p.block.take (bufferLength p) := by
  obtain ⟨p, lb, hp, h, hb, hd, hn, hf, hc⟩ := exists_mapped
  obtain ⟨p', hs, hsink⟩ := open_after_crash utc h.toLive hb true
    ⟨0, 0⟩ .ok .async textA textA hd.symm hn.symm
  have htake : p.block.take (bufferLength p) = ascii "a\n" := by
    rw [h.block_eq, h.bufferLength]; exact hc
  have hl0 : lb.buff.length ≠ 0 := fun h0 =>
    absurd ((h.good.content_eq_nil_iff.mpr h0).symm.trans hc) (by decide)
  have hlen : (logFile p').length = 153600 := by
    have hf' : logFile p' = (openBack .ok .async p.mlog.sgLogdir lb.buff.parray ⟨logFile p, []⟩).out :=
      congrArg Sink.out hsink
    rw [hf', hf, hd, openBack_eq .ok .async _ _ rfl, if_neg (by decide), recovered,
      if_neg fun hz => hl0 (h.good.first.mp hz), out_writeOut_block rfl .async _ (h.good.mem.trans h.cap),
      List.nil_append, List.length_take, h.good.mem, h.cap]
    rfl
  refine ⟨p, p', hp, hb, htake, hf, hs, hlen, fun he => ?_⟩
  rw [he, htake, hf] at hlen
  revert hlen; decide

end MTAppenderFile.Loglib.Recovery
