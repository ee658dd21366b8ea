import MTAppenderFile.Loglib.Exactness

/-! # Write-backs that fail

A write-back should leave the log file extended by the whole content of the buffer, or the log file and
the buffer as they were (`NothingLost`). The code clears the buffer before it opens the file, a
failed `fwrite` leaves what it stored, `fclose` is not checked, and in sync mode the file stays open with what its
`FILE` holds: nothing is lost exactly if there is nothing to write, or if every call down to `fwrite` succeeds
and all of the bytes leave the `FILE` (`nothingLost_iff`). -/

namespace MTAppenderFile.Loglib.Failure

open MTAppenderFile.Lib.Buffered
open MTAppenderFile.Lib.Run
open MTAppenderFile.Comm.CTypes
open MTAppenderFile.Comm.Auto
open MTAppenderFile.Loglib.Base
open MTAppenderFile.Loglib.Buffer
open MTAppenderFile.Loglib.Files
open MTAppenderFile.Loglib.Formatter
open MTAppenderFile.Loglib.Appender
open MTAppenderFile.Loglib.Session
open MTAppenderFile.Loglib.Lifecycle
open MTAppenderFile.Loglib.Exactness

/-- The bytes of the buffer are all in the log file, behind its content and what an open `FILE` held of it; or
they are all still in the buffer, and the log file and its `FILE` are unchanged. -/
def NothingLost (p p' : Proc) : Prop :=
  (logFile p' = (sink p).all ++ buffered p ∧ buffered p' = []) ∨ (sink p' = sink p ∧ buffered p' = buffered p)

/-- An `fclose` that writes at least `n` bytes, or succeeds. -/
def Writes (fclose : Option ℕ) (n : ℕ) : Prop := ∀ k ∈ fclose, n ≤ k

theorem writes_none (n : ℕ) : Writes none n := by rintro k ⟨⟩

/-- `ftell` succeeds, `fwrite` accepts everything, and all of the `n` bytes that the `FILE` then holds leave it:
with the `fwrite`, or in async mode with the `fclose` behind it. -/
def WriteOutOk (env : FileEnv) (mode : AppendMode) (n : ℕ) : Prop :=
  env.ftellOk = true ∧ env.fwriteStored = none ∧
    (n ≤ env.handed ∨ mode = .async ∧ Writes env.fcloseStored (n - env.handed))

/-- A write-back of `n` bytes while the open `FILE` holds `h` bytes succeeds: the log file is open for the day, or
`fclose` writes what it holds and `fopen` succeeds; and the bytes can be written out. -/
def WriteOk (lc : Libc) (env : FileEnv) (mlog : LogAppender) (h n : ℕ) : Prop :=
  mlog.sgLogdir ≠ [] ∧
    if Kept lc env mlog then WriteOutOk env mlog.sgMode (h + n)
    else env.fopenOk = true ∧ Writes env.fcloseOld h ∧ WriteOutOk env mlog.sgMode n

variable {env : FileEnv} {mode : AppendMode} {data : Bytes} {s : Sink Byte}

/-! ### What lands in the file -/

theorem length_all_put_fwrite_le (env : FileEnv) (data : Bytes) (s : Sink Byte) :
    (s.put (fwrite env data).1 env.handed).all.length ≤ s.all.length + data.length := by
  rw [Sink.all_put, List.length_append]
  refine Nat.add_le_add_left ?_ _
  unfold fwrite
  split
  · exact Nat.le_refl _
  · exact List.length_take_le' _ _

theorem length_out_le_all (s : Sink Byte) : s.out.length ≤ s.all.length := (Sink.out_prefix_all s).length_le

theorem length_all_close_le (s : Sink Byte) (o : Option ℕ) : (s.close o).all.length ≤ s.all.length :=
  (Sink.all_close_prefix s o).length_le

theorem length_all_writeOut_le (env : FileEnv) (mode : AppendMode) (data : Bytes) (s : Sink Byte) :
    (writeOut env mode data s).all.length ≤ s.all.length + data.length := by
  have hput := length_all_put_fwrite_le env data s
  rw [writeOut]
  split_ifs
  · exact (length_all_close_le _ _).trans hput
  · exact (length_all_close_le _ _).trans (Nat.le_add_right _ _)
  · exact hput
  · exact Nat.le_add_right _ _

theorem length_all_writeOut_lt (mode : AppendMode) (s : Sink Byte) (hne : data ≠ [])
    (hf : ¬ (env.ftellOk = true ∧ env.fwriteStored = none)) :
    (writeOut env mode data s).all.length < s.all.length + data.length := by
  have hpos := List.length_pos_iff.mpr hne
  rw [writeOut, if_pos (.inr hf)]
  refine (length_all_close_le _ _).trans_lt ?_
  split_ifs with ht
  · cases hw : env.fwriteStored with
    | none => exact absurd ⟨ht, hw⟩ hf
    | some k =>
      rw [Sink.all_put, List.length_append, fwrite, hw, List.length_take]
      omega
  · omega

/-- **The data is behind everything that the sink held**, in the file, exactly if the calls succeed as far as that
takes. -/
theorem out_writeOut_eq_iff (env : FileEnv) (mode : AppendMode) (s : Sink Byte) (hne : data ≠ []) :
    (writeOut env mode data s).out = s.all ++ data ↔ WriteOutOk env mode (s.held.length + data.length) := by
  by_cases hf : env.ftellOk = true ∧ env.fwriteStored = none
  · obtain ⟨ht, hw⟩ := hf
    have hdata : (fwrite env data).1 = data := by rw [fwrite, hw]
    rw [writeOut, WriteOutOk, if_pos ht, hdata]
    cases mode with
    | async =>
      rw [if_pos (.inl rfl), Sink.out_close_put_eq_iff]
      have hle : s.held.length + data.length ≤ env.handed → Writes env.fcloseStored
          (s.held.length + data.length - env.handed) := fun h k _ => by omega
      exact ⟨fun h => ⟨ht, hw, .inr ⟨rfl, h⟩⟩, fun h => h.2.2.elim hle And.right⟩
    | sync =>
      rw [if_neg (by simp [ht, hw]), Sink.out_put_eq_iff]
      simp [ht, hw]
  · have hlt := length_all_writeOut_lt mode s hne hf
    have hout := length_out_le_all (writeOut env mode data s)
    refine iff_of_false (fun h => ?_) fun h => hf ⟨h.1, h.2.1⟩
    have := congrArg List.length h
    rw [List.length_append] at this
    omega

theorem out_writeBack_eq_iff {lc : Libc} {mlog : LogAppender} (hne : data ≠ []) :
    (writeBack lc env mlog data s).out = s.all ++ data ↔ WriteOk lc env mlog s.held.length data.length := by
  have hpos := List.length_pos_iff.mpr hne
  have hlen := s.length_all
  rw [writeBack, WriteOk]
  by_cases hd : mlog.sgLogdir = []
  · rw [if_pos (.inr hd)]
    refine iff_of_false (fun h => ?_) fun h => h.1 hd
    have := congrArg List.length h
    rw [List.length_append] at this
    omega
  rw [if_neg (not_or.mpr ⟨hne, hd⟩)]
  by_cases hk : Kept lc env mlog
  · simp only [hk, true_or, if_true, hd, not_false_eq_true, ne_eq, true_and]
    exact out_writeOut_eq_iff env _ s hne
  · have hcl := length_all_close_le s env.fcloseOld
    simp only [hk, false_or, if_false, hd, not_false_eq_true, ne_eq, true_and]
    by_cases ho : env.fopenOk = true
    · rw [if_pos ho]
      have hiff := out_writeOut_eq_iff env mlog.sgMode (s.close env.fcloseOld) hne
      rw [Sink.held_close, List.length_nil, Nat.zero_add] at hiff
      constructor
      · intro h
        have hlast := length_all_writeOut_le env mlog.sgMode data (s.close env.fcloseOld)
        have hout := length_out_le_all (writeOut env mlog.sgMode data (s.close env.fcloseOld))
        have hl := congrArg List.length h
        rw [List.length_append] at hl
        -- nothing of what the file that is closed held is lost
        have hall : (s.close env.fcloseOld).all = s.all :=
          (Sink.all_close_prefix s env.fcloseOld).eq_of_length (by omega)
        refine ⟨ho, ?_, hiff.mp (by rw [h, hall])⟩
        rw [Sink.all, Sink.held_close, List.append_nil, Sink.close, Sink.all, List.append_cancel_left_eq] at hall
        exact Sink.leaving_eq_iff.mp hall
      · rintro ⟨-, hw, h⟩
        have hall : (s.close env.fcloseOld).all = s.all := by
          rw [Sink.all, Sink.held_close, List.append_nil, Sink.close, Sink.leaving_eq_iff.mpr hw, Sink.all]
        rw [hiff.mpr h, hall]
    · rw [if_neg ho]
      refine iff_of_false (fun h => ?_) fun h => ho h.1
      have hout := length_out_le_all (s.close env.fcloseOld)
      have hl := congrArg List.length h
      rw [List.length_append] at hl
      omega

/-! ### The two operations -/

theorem nothingLost_of_effect {p p' : Proc} {lb : LogBuffer} (h : Live p lb) {s : Sink Byte}
    (he : Effect p p' lb.clear s) :
    NothingLost p p' ↔ s.out = (sink p).all ++ lb.content ∨ (s = sink p ∧ lb.content = []) := by
  rw [NothingLost, he.logFile, he.sink, he.live.buffered, h.buffered, LogBuffer.content_clear]
  simp only [and_true, eq_comm]

theorem task_nothingLost_iff {lc : Libc} {p : Proc} (hp : Reachable lc p) (env : FileEnv) :
    ∃ p', logThreadTask lc env p = some p' ∧
      (NothingLost p p' ↔ buffered p = [] ∨
        WriteOk lc env p.mlog (held p.mlog).length (buffered p).length) := by
  rcases hp.inv with hc | ⟨lb, h⟩
  · have hb : buffered p = [] := by rw [buffered, hc.buff]
    refine ⟨p, ?_, by simp [NothingLost, hb]⟩
    simp [logThreadTask, flushLogBuff, hc.buff, log2fileTmp, AutoBuffer.empty, AutoBuffer.ptrBytes]
  · obtain ⟨p', hs, he⟩ := logThreadTask_effect h.toLive lc env
    refine ⟨p', hs, ?_⟩
    rw [nothingLost_of_effect h.toLive he, h.buffered]
    by_cases hb : lb.content = []
    · simp [hb]
    · rw [out_writeBack_eq_iff hb]
      simp only [hb, and_false, or_false, false_or]
      rfl

/-- **A write-back loses and corrupts nothing** in a reachable state, for an outcome of its calls, if
and only if the buffer is empty, or the call is `flush_sync` in sync mode and does nothing, or every
call succeeds and all of the bytes leave the `FILE`. -/
theorem nothingLost_iff {lc : Libc} {p : Proc} (hp : Reachable lc p) (op : Op) (env : FileEnv)
    (hop : op = .task env ∨ op = .flushSync env) :
    ∃ p', step lc p op = some p' ∧
      (NothingLost p p' ↔ buffered p = [] ∨ (op = .flushSync env ∧ p.mlog.sgMode = .sync) ∨
        WriteOk lc env p.mlog (held p.mlog).length (buffered p).length) := by
  obtain ⟨p', hs, hiff⟩ := task_nothingLost_iff hp env
  rcases hop with rfl | rfl
  · exact ⟨p', hs, by rw [hiff]; simp⟩
  · cases hm : p.mlog.sgMode with
    | sync =>
      exact ⟨p, by rw [step, logAppenderFlushSync_eq, if_pos hm],
        iff_of_true (.inr ⟨rfl, rfl⟩) (.inr (.inl ⟨rfl, rfl⟩))⟩
    | async =>
      exact ⟨p', by rw [step, logAppenderFlushSync_eq, if_neg (by simp [hm]), hs], by
        rw [hiff]; simp⟩

/-- A state with one record in the buffer, in the mode `mode`. -/
theorem exists_buffered_in (dir : CStr) (mode : AppendMode) :
    ∃ p, Reachable utc p ∧ p.mlog.sgLogdir = dir.bytes ∧ p.mlog.sgLogClose = false ∧
      p.mlog.sgMode = mode ∧ sink p = ⟨[], []⟩ ∧ buffered p = ascii "a\n" := by
  obtain ⟨p, hp, hd, hf⟩ := fresh_open utc dir ⟨ascii "n", by decide⟩
  obtain ⟨lb, h, h0⟩ := hp.session
  have hl0 := h.good.content_eq_nil_iff.mp h0
  obtain ⟨p', hs, he, hc⟩ := append_effect h utc .ok textA (by decide) (by omega)
  obtain ⟨share, files, statics, hr⟩ := hp.reachable
  have hset : step utc p' (.setmode mode) = some (logAppenderSetmode mode p') := rfl
  refine ⟨_, ⟨share, files, statics, (hr.tail trivial hs).tail trivial hset⟩, he.dir.trans hd, he.flag.trans h.flag, rfl,
    ?_, ?_⟩
  · exact he.sink.trans (Sink.ext hf h.shut)
  · refine (he.live.buffered.trans ?_ : buffered p' = _)
    rw [hc, h0]
    decide

theorem exists_buffered :
    ∃ p, Reachable utc p ∧ p.mlog.sgLogdir = ascii "d" ∧ p.mlog.sgLogClose = false ∧
      p.mlog.sgMode = .async ∧ sink p = ⟨[], []⟩ ∧ buffered p = ascii "a\n" :=
  exists_buffered_in ⟨ascii "d", by decide⟩ .async

theorem nothingLost_iff_task :
    ∃ p p', Reachable utc p ∧ buffered p = ascii "a\n" ∧ step utc p (.task .ok) = some p' ∧
      NothingLost p p' := by
  obtain ⟨p, hp, hd, -, hm, -, hb⟩ := exists_buffered
  obtain ⟨p', hs, hiff⟩ := nothingLost_iff hp (.task .ok) .ok (.inl rfl)
  have hdir : p.mlog.sgLogdir ≠ [] := by rw [hd]; decide
  refine ⟨p, p', hp, hb, hs, hiff.mpr (.inr (.inr ⟨hdir, ?_⟩))⟩
  split_ifs
  · exact ⟨rfl, rfl, .inr ⟨hm, writes_none _⟩⟩
  · exact ⟨rfl, writes_none _, rfl, rfl, .inr ⟨hm, writes_none _⟩⟩

/-- A flush of the record for which the write-back leaves less than the record in the file. -/
theorem task_loses {mode : AppendMode} (env : FileEnv) (out held : Bytes)
    (hw : ∀ mlog, mlog.sgMode = mode → mlog.sgLogdir ≠ [] →
      (writeBack utc env mlog (ascii "a\n") ⟨[], []⟩) = ⟨out, held⟩) (hout : out ≠ ascii "a\n") :
    ∃ p p', Reachable utc p ∧ p.mlog.sgMode = mode ∧ logFile p = [] ∧ buffered p = ascii "a\n" ∧
      step utc p (.task env) = some p' ∧ ¬ NothingLost p p' ∧ logFile p' = out ∧ buffered p' = [] := by
  obtain ⟨p, hp, hd, hcl, hm, hsink, hb⟩ := exists_buffered_in ⟨ascii "d", by decide⟩ mode
  obtain ⟨lb, h⟩ := hp.opened hcl
  have hc : lb.content = ascii "a\n" := h.buffered.symm.trans hb
  obtain ⟨p', hs, he⟩ := logThreadTask_effect h.toLive utc env
  rw [hc, hsink, hw p.mlog hm (by rw [hd]; decide)] at he
  refine ⟨p, p', hp, hm, congrArg Sink.out hsink, hb, hs, ?_, he.logFile, ?_⟩
  · rw [nothingLost_of_effect h.toLive he, hc, hsink]
    rintro (ho | ⟨-, hn⟩)
    · exact hout ho
    · exact absurd hn (by decide)
  · rw [he.live.buffered, LogBuffer.content_clear]

/-- When `ftell` fails, the record is in neither place; when `fwrite` fails after one byte, that byte is in the log
file; when `fclose` fails, the record is lost although the other calls succeed; and in sync mode the record stays
with the `FILE`, which is left open. -/
theorem failed_write_back_loses :
    (∃ p p', Reachable utc p ∧ p.mlog.sgMode = .async ∧ logFile p = [] ∧ buffered p = ascii "a\n" ∧
      step utc p (.task { FileEnv.ok with ftellOk := false }) = some p' ∧ ¬ NothingLost p p' ∧
      logFile p' = [] ∧ buffered p' = []) ∧
    (∃ p p', Reachable utc p ∧ p.mlog.sgMode = .async ∧ logFile p = [] ∧ buffered p = ascii "a\n" ∧
      step utc p (.task { FileEnv.ok with fwriteStored := some 1 }) = some p' ∧ ¬ NothingLost p p' ∧
      logFile p' = ascii "a" ∧ buffered p' = []) ∧
    (∃ p p', Reachable utc p ∧ p.mlog.sgMode = .async ∧ logFile p = [] ∧ buffered p = ascii "a\n" ∧
      step utc p (.task { FileEnv.ok with fcloseStored := some 0 }) = some p' ∧ ¬ NothingLost p p' ∧
      logFile p' = [] ∧ buffered p' = []) ∧
    (∃ p p', Reachable utc p ∧ p.mlog.sgMode = .sync ∧ logFile p = [] ∧ buffered p = ascii "a\n" ∧
      step utc p (.task .ok) = some p' ∧ ¬ NothingLost p p' ∧
      logFile p' = [] ∧ buffered p' = []) := by
  have hs : ∀ o, (⟨[], []⟩ : Sink Byte).close o = ⟨[], []⟩ := fun o => Sink.close_of_held o rfl
  refine ⟨task_loses _ _ [] (fun mlog hm hd => ?_) (by decide),
    task_loses _ _ [] (fun mlog hm hd => ?_) (by decide),
    task_loses _ _ [] (fun mlog hm hd => ?_) (by decide),
    task_loses _ _ (ascii "a\n") (fun mlog hm hd => ?_) (by decide)⟩
  all_goals
    rw [writeBack, if_neg (not_or.mpr ⟨by decide, hd⟩), hs, ite_self, if_pos (.inr rfl), hm]
    decide

end MTAppenderFile.Loglib.Failure
