import MTAppenderFile.Loglib.Exactness

/-! # The block from the heap

When the mapping cannot be opened, `mtaf_log_appender_open` lays the buffer over `new char[…]`, whose
bytes are whatever the memory held, and flushes it.

What happens after that depends on the content of the buffer alone: two appenders that differ only
behind the content (`Twin`) go through the same operations with the same files (`twin_run`). So the bytes
of the heap block reach the log files by the flush in `open` or never, and two runs from different blocks
write the same log files exactly when that flush writes the same (`heap_block_iff`). -/

namespace MTAppenderFile.Loglib.HeapBlock

open MTAppenderFile.Lib.Buffered
open MTAppenderFile.Lib.Run
open MTAppenderFile.Comm.CTypes
open MTAppenderFile.Comm.Auto
open MTAppenderFile.Comm.Ptr
open MTAppenderFile.Loglib.Base
open MTAppenderFile.Loglib.Buffer
open MTAppenderFile.Loglib.Files
open MTAppenderFile.Loglib.Formatter
open MTAppenderFile.Loglib.Appender
open MTAppenderFile.Loglib.Session
open MTAppenderFile.Loglib.Lifecycle
open MTAppenderFile.Loglib.Exactness

/-! ### Twins -/

/-- The process with another buffer, and with another time and directory of the last `fopen`. -/
def vary (p : Proc) (b : Option LogBuffer) (t : ℤ) (d : Bytes) : Proc :=
  { p with mlog := { p.mlog with sgLogBuff := b, sgOpenfiletime := t, sgCurrentDir := d } }

/-- Two good buffers with the same content; the bytes behind it may differ. -/
structure SameContent (lb lb' : LogBuffer) : Prop where
  good : lb.Good
  good' : lb'.Good
  cap : lb'.buff.maxLength = lb.buff.maxLength
  content : lb'.content = lb.content

/-- The time and the directory of the last `fopen` matter only while the file is open. -/
def SameHandle (mlog : LogAppender) (t : ℤ) (d : Bytes) : Prop :=
  mlog.sgLogfile = none ∨ t = mlog.sgOpenfiletime ∧ d = mlog.sgCurrentDir

/-- **Twins**: two closed appenders, or two open ones whose buffers have the same content, that agree in
everything else that matters. -/
inductive Twin : Proc → Proc → Prop
  | closed {p : Proc} (h : Closed p) (t : ℤ) (d : Bytes) : Twin p (vary p none t d)
  | opened {p : Proc} {lb lb' : LogBuffer} {t : ℤ} {d : Bytes} (h : Opened p lb)
      (hc : SameContent lb lb') (hh : SameHandle p.mlog t d) : Twin p (vary p (some lb') t d)

theorem Twin.files {p q : Proc} (h : Twin p q) : q.files = p.files := by cases h <;> rfl

theorem SameContent.length {lb lb' : LogBuffer} (h : SameContent lb lb') :
    lb'.buff.length = lb.buff.length := by
  rw [← h.good'.length_content, ← h.good.length_content]
  exact congrArg List.length h.content

theorem SameContent.clear {lb lb' : LogBuffer} (h : SameContent lb lb') :
    SameContent lb.clear lb'.clear :=
  ⟨LogBuffer.good_clear h.good.toWF h.good.four, LogBuffer.good_clear h.good'.toWF h.good'.four,
    by rw [LogBuffer.maxLength_clear, LogBuffer.maxLength_clear, h.cap],
    by rw [LogBuffer.content_clear, LogBuffer.content_clear]⟩

theorem SameContent.write {lb lb' : LogBuffer} (h : SameContent lb lb') {data : Bytes}
    (hne : data ≠ []) (hd : lb.buff.length + data.length < 2 ^ 32) (h0 : data.head? ≠ some 0) :
    SameContent (lb.write data).2 (lb'.write data).2 := by
  have hd' : lb'.buff.length + data.length < 2 ^ 32 := by rw [h.length]; exact hd
  refine ⟨h.good.write hne hd h0, h.good'.write hne hd' h0, ?_, ?_⟩
  · rw [h.good'.maxLength_write hne hd', h.good.maxLength_write hne hd, h.cap]
  · rw [h.good'.content_write hne hd', h.good.content_write hne hd, h.content, h.cap]

/-! ### Writing to the log file does not look at the buffer -/

/-- The process with another buffer. -/
def rebuff (p : Proc) (b : Option LogBuffer) : Proc := vary p b p.mlog.sgOpenfiletime p.mlog.sgCurrentDir

theorem openlogfile_vary (lc : Libc) (env : FileEnv) {p : Proc} {t : ℤ} {d : Bytes}
    (hh : SameHandle p.mlog t d) (b : Option LogBuffer) (dir : Bytes) (hdir : p.mlog.sgLogdir ≠ []) :
    openlogfile lc env dir (vary p b t d) =
      ((openlogfile lc env dir p).1, rebuff (openlogfile lc env dir p).2 b) := by
  have hdir' : (vary p b t d).mlog.sgLogdir ≠ [] := hdir
  have hfile : (vary p b t d).mlog.sgLogfile = p.mlog.sgLogfile := rfl
  rw [openlogfile, openlogfile, if_neg hdir', if_neg hdir, hfile]
  rcases hh with hn | ⟨rfl, rfl⟩
  · simp only [hn, Option.isSome_none, Bool.false_and, Bool.false_eq_true, if_false]
    rfl
  · have hs : sameDay lc env (vary p b p.mlog.sgOpenfiletime p.mlog.sgCurrentDir).mlog dir =
        sameDay lc env p.mlog dir := rfl
    rw [hs]
    split_ifs <;> rfl

theorem closelogfile_rebuff (env : FileEnv) (p : Proc) (b : Option LogBuffer) :
    closelogfile env (rebuff p b) = rebuff (closelogfile env p) b := by
  have hfile : (rebuff p b).mlog.sgLogfile = p.mlog.sgLogfile := rfl
  rw [closelogfile, closelogfile, hfile]
  cases p.mlog.sgLogfile <;> rfl

theorem log2fileLocked_vary (lc : Libc) (env : FileEnv) (data : Bytes) {p : Proc} {t : ℤ} {d : Bytes}
    (hh : SameHandle p.mlog t d) (b : Option LogBuffer) (hdir : p.mlog.sgLogdir ≠ []) :
    log2fileLocked lc env data (vary p b t d) = rebuff (log2fileLocked lc env data p) b := by
  have hd : (vary p b t d).mlog.sgLogdir = p.mlog.sgLogdir := rfl
  rw [log2fileLocked_eq, log2fileLocked_eq, hd, openlogfile_vary lc env hh b p.mlog.sgLogdir hdir]
  generalize openlogfile lc env p.mlog.sgLogdir p = r
  obtain ⟨ok, p₁⟩ := r
  cases ok with
  | false => rfl
  | true =>
    have hw : writelogfile env data (rebuff p₁ b) =
        ((writelogfile env data p₁).1, rebuff (writelogfile env data p₁).2 b) := rfl
    have hmode : (rebuff p₁ b).mlog.sgMode = p₁.mlog.sgMode := rfl
    simp only [if_true, hw, hmode, closelogfile_rebuff]
    split_ifs <;> rfl

/-- **`__log2file`** on a process and on one that varies from it. -/
theorem log2file_vary (lc : Libc) (env : FileEnv) (data : Bytes) {p : Proc} {t : ℤ} {d : Bytes}
    (hh : SameHandle p.mlog t d) (b : Option LogBuffer) :
    ∃ t' d', log2file lc env data (vary p b t d) = vary (log2file lc env data p) b t' d' ∧
      SameHandle (log2file lc env data p).mlog t' d' := by
  unfold log2file
  have hdir : (vary p b t d).mlog.sgLogdir = p.mlog.sgLogdir := rfl
  rw [hdir]
  split_ifs with h
  · exact ⟨t, d, rfl, hh⟩
  · exact ⟨_, _, log2fileLocked_vary lc env data hh b fun h0 => h (.inr h0), .inr ⟨rfl, rfl⟩⟩

theorem log2fileTmp_vary (lc : Libc) (env : FileEnv) {tmp tmp' : AutoBuffer}
    (ht : tmp'.ptrBytes = tmp.ptrBytes) {p : Proc} {t : ℤ} {d : Bytes}
    (hh : SameHandle p.mlog t d) (b : Option LogBuffer) :
    ∃ t' d', log2fileTmp lc env tmp' (vary p b t d) = vary (log2fileTmp lc env tmp p) b t' d' ∧
      SameHandle (log2fileTmp lc env tmp p).mlog t' d' := by
  unfold log2fileTmp
  rw [ht]
  cases tmp.ptrBytes with
  | none => exact ⟨t, d, rfl, hh⟩
  | some data => exact log2file_vary lc env data hh b

/-! ### Operations on open twins -/

section Opened

variable {p : Proc} {lb lb' : LogBuffer} {t : ℤ} {d : Bytes}

theorem live_vary (h : Live p lb) (hc : SameContent lb lb') (hh : SameHandle p.mlog t d) :
    Live (vary p (some lb') t d) lb' := by
  refine ⟨rfl, hc.good', hc.cap.trans h.cap, h.block, h.mmap, ?_⟩
  rcases hh with hn | ⟨rfl, rfl⟩
  · exact fun f hf => absurd (hn ▸ hf) (by simp)
  · exact h.handle

theorem task_vary (h : Live p lb) (hc : SameContent lb lb') (hh : SameHandle p.mlog t d) (lc : Libc)
    (env : FileEnv) :
    ∃ p₁ w t' d', logThreadTask lc env p = some p₁ ∧ Effect p p₁ lb.clear w ∧
      logThreadTask lc env (vary p (some lb') t d) = some (vary p₁ (some lb'.clear) t' d') ∧
      SameHandle p₁.mlog t' d' := by
  obtain ⟨tmp, hf, ht⟩ := flushLogBuff_eq h
  obtain ⟨tmp', hf', ht'⟩ := flushLogBuff_eq (live_vary h hc hh)
  obtain ⟨p₁, hs, he⟩ := logThreadTask_effect h lc env
  let p₀ : Proc := { p with mlog := { p.mlog with sgLogBuff := some lb.clear } }
  have hp : logThreadTask lc env p = some (log2fileTmp lc env tmp p₀) := by
    simp only [logThreadTask, hf, Option.bind_eq_bind, Option.bind_some]; rfl
  have hq : logThreadTask lc env (vary p (some lb') t d) =
      some (log2fileTmp lc env tmp' (vary p₀ (some lb'.clear) t d)) := by
    simp only [logThreadTask, hf', Option.bind_eq_bind, Option.bind_some]; rfl
  have hp₁ : p₁ = log2fileTmp lc env tmp p₀ := Option.some_inj.mp (hs.symm.trans hp)
  have htmp : tmp'.ptrBytes = tmp.ptrBytes := by rw [ht', ht, hc.content]
  obtain ⟨t', d', hw, hh'⟩ := log2fileTmp_vary lc env htmp (p := p₀) hh (some lb'.clear)
  exact ⟨p₁, _, t', d', hs, he, by rw [hq, hw, hp₁], hp₁ ▸ hh'⟩

variable (h : Opened p lb) (hc : SameContent lb lb') (hh : SameHandle p.mlog t d)

include h hc hh

theorem twin_task (lc : Libc) (env : FileEnv) :
    Option.Rel Twin (logThreadTask lc env p) (logThreadTask lc env (vary p (some lb') t d)) := by
  obtain ⟨p₁, w, t', d', hs, he, hq, hh'⟩ := task_vary h.toLive hc hh lc env
  rw [hs, hq]
  exact .some (.opened (he.opened h.flag) hc.clear hh')

theorem twin_appenderSync (lc : Libc) (env : FileEnv) (info : Option LogInfo) (log : Option CStr) :
    Option.Rel Twin (appenderSync lc env info log p)
      (appenderSync lc env info log (vary p (some lb') t d)) := by
  cases hf : appenderSyncBuffer lc p.statics info log with
  | none =>
    have hq : appenderSyncBuffer lc (vary p (some lb') t d).statics info log = none := hf
    simp only [appenderSync, hf, hq, Option.bind_eq_bind, Option.bind_none]
    exact .none
  | some r =>
    obtain ⟨data, hp, rfl⟩ := printed_of_appenderSyncBuffer hf
    have hq : Printed lc (vary p (some lb') t d).statics info log data := hp
    obtain ⟨t', d', hw, hh'⟩ := log2file_vary lc env data hh (some lb')
    rw [appenderSync_eq hp, appenderSync_eq hq, hw]
    exact .some (.opened ((log2file_effect h.toLive data).opened h.flag) hc hh')

theorem twin_appenderAsync (lc : Libc) (info : Option LogInfo) (log : Option CStr) :
    Option.Rel Twin (appenderAsync lc info log p)
      (appenderAsync lc info log (vary p (some lb') t d)) := by
  have hq := live_vary h.toLive hc hh
  cases hf : logFormater lc p.statics info log temp with
  | none =>
    have hf' : logFormater lc (vary p (some lb') t d).statics info log temp = none := hf
    rw [appenderAsync, appenderAsync, h.buff, hq.buff]
    simp only [hf, hf', Option.bind_eq_bind, Option.bind_none]
    exact .none
  | some r =>
    obtain ⟨st, logBuff⟩ := r
    obtain ⟨rfl, hr⟩ := logFormater_temp hf
    have hf' : logFormater lc (vary p (some lb') t d).statics info log temp =
        some ((vary p (some lb') t d).statics, logBuff) := hf
    have hent := isRecord_entryOf hr lb.buff.length
    have hle := h.length_le
    have hlc := hent.length_content_le
    have hd : lb.buff.length + (entryOf logBuff lb.buff.length).content.length < 2 ^ 32 := by omega
    rw [appenderAsync_eq h.toLive hf hr, appenderAsync_eq hq hf' hr, hc.length]
    have hw := hc.write hent.content_ne_nil hd hent.head?_content
    have he := h.effect_buff hw.good (h.good.maxLength_write hent.content_ne_nil hd)
    exact .some (.opened (he.opened h.flag) hw hh)

theorem twin_appendEx (lc : Libc) (env : FileEnv) (log : Option CStr) (info : Option LogInfo) :
    Option.Rel Twin (logAppenderAppendEx lc env log info p)
      (logAppenderAppendEx lc env log info (vary p (some lb') t d)) := by
  have hflag : (vary p (some lb') t d).mlog.sgLogClose = false := h.flag
  have hmode : (vary p (some lb') t d).mlog.sgMode = p.mlog.sgMode := rfl
  simp only [logAppenderAppendEx, h.flag, hflag, hmode, Bool.false_eq_true, if_false]
  split_ifs
  · exact twin_appenderSync h hc hh lc env info log
  · exact twin_appenderAsync h hc hh lc info log

theorem closeTask_vary (lc : Libc) (worker : Option FileEnv) (env : FileEnv) :
    ∃ p₁ b t' d', closeTask lc worker env { p with mlog := { p.mlog with sgLogClose := true } } =
        some p₁ ∧
      closeTask lc worker env (vary { p with mlog := { p.mlog with sgLogClose := true } } (some lb')
        t d) = some (vary p₁ b t' d') ∧ SameHandle p₁.mlog t' d' := by
  have hl : Live { p with mlog := { p.mlog with sgLogClose := true } } lb :=
    ⟨h.buff, h.good, h.cap, h.block, h.mmap, h.handle⟩
  have htask : ∀ env, ∃ p₁ b t' d',
      logThreadTask lc env { p with mlog := { p.mlog with sgLogClose := true } } = some p₁ ∧
      logThreadTask lc env (vary { p with mlog := { p.mlog with sgLogClose := true } } (some lb')
        t d) = some (vary p₁ b t' d') ∧ SameHandle p₁.mlog t' d' := by
    intro env
    obtain ⟨p₁, _, t', d', hs, -, hq, hh'⟩ := task_vary hl hc hh lc env
    exact ⟨p₁, _, t', d', hs, hq, hh'⟩
  have hth : (vary { p with mlog := { p.mlog with sgLogClose := true } }
      (some lb') t d).mlog.sgThreadAsync = p.mlog.sgThreadAsync := rfl
  unfold closeTask
  rw [hth]
  cases p.mlog.sgThreadAsync with
  | shared => exact htask env
  | own =>
    cases worker with
    | none => exact ⟨_, _, t, d, rfl, rfl, hh⟩
    | some wenv => exact htask wenv

theorem twin_close (lc : Libc) (worker : Option FileEnv) (env : FileEnv) :
    Option.Rel Twin (logAppenderClose lc worker env p)
      (logAppenderClose lc worker env (vary p (some lb') t d)) := by
  obtain ⟨p', hs, hclosed, -⟩ := logAppenderClose_spec h lc worker env
  obtain ⟨p₁, b, t', d', hp, hq, hh'⟩ := closeTask_vary h hc hh lc worker env
  have hflag : (vary p (some lb') t d).mlog.sgLogClose = false := h.flag
  have hq' : closeTask lc worker env { vary p (some lb') t d with
      mlog := { (vary p (some lb') t d).mlog with sgLogClose := true } } =
        some (vary p₁ b t' d') := hq
  obtain ⟨p₂, hfree, hp'⟩ : ∃ p₂, freeLogBuff p₁ = some p₂ ∧
      p' = closelogfile env p₂ := by
    simp only [logAppenderClose, h.flag, Bool.false_eq_true, if_false, hp, Option.bind_eq_bind,
      Option.bind_some] at hs
    obtain ⟨p₂, hfree, he⟩ := Option.bind_eq_some_iff.mp hs
    exact ⟨p₂, hfree, (Option.some_inj.mp he).symm⟩
  have hfree' : freeLogBuff (vary p₁ b t' d') = some (vary p₂ none t' d') := by
    rw [freeLogBuff, Option.map_eq_some_iff] at hfree
    obtain ⟨mt, hmt, rfl⟩ := hfree
    have hmt' : (vary p₁ b t' d').mlog.sgMmapFile = some mt := hmt
    rw [freeLogBuff, hmt']
    rfl
  obtain ⟨t'', hcl⟩ : ∃ t'', closelogfile env (vary p₂ none t' d') = vary (closelogfile env p₂) none t'' d' := by
    have hfile : (vary p₂ none t' d').mlog.sgLogfile = p₂.mlog.sgLogfile := rfl
    rw [closelogfile, closelogfile, hfile]
    cases p₂.mlog.sgLogfile with
    | none => exact ⟨t', rfl⟩
    | some file => exact ⟨0, rfl⟩
  have hq₂ : logAppenderClose lc worker env (vary p (some lb') t d) =
      some (vary p' none t'' d') := by
    simp only [logAppenderClose, hflag, Bool.false_eq_true, if_false, hq', Option.bind_eq_bind,
      Option.bind_some, hfree', hcl, hp']
  rw [hs, hq₂]
  exact .some (.closed hclosed t'' d')

/-- **One operation** on open twins. -/
theorem twin_step_opened (lc : Libc) (op : Op) :
    Option.Rel Twin (step lc p op) (step lc (vary p (some lb') t d) op) := by
  have hflag : (vary p (some lb') t d).mlog.sgLogClose = false := h.flag
  cases op with
  | «open» oenv env mode dir name =>
    simp only [step, logAppenderOpen, h.flag, hflag, Bool.false_eq_true, not_false_eq_true, if_true]
    exact .some (.opened h hc hh)
  | append env log => exact twin_appendEx h hc hh lc env log none
  | appendEx env log info => exact twin_appendEx h hc hh lc env log info
  | task env => exact twin_task h hc hh lc env
  | flushSync env =>
    have hmode : (vary p (some lb') t d).mlog.sgMode = p.mlog.sgMode := rfl
    simp only [step, logAppenderFlushSync_eq, hmode]
    split_ifs
    · exact .some (.opened h hc hh)
    · exact twin_task h hc hh lc env
  | setmode mode => exact .some (.opened (h.setmode mode) hc hh)
  | close worker env => exact twin_close h hc hh lc worker env

end Opened

/-! ### Operations on closed twins -/

theorem twin_log2fileTmp {p : Proc} {lb lb' : LogBuffer} {t : ℤ} {d : Bytes} (h : Opened p lb)
    (hc : SameContent lb lb') (hh : SameHandle p.mlog t d) (lc : Libc) (env : FileEnv)
    {tmp tmp' : AutoBuffer} (heq : tmp'.ptrBytes = tmp.ptrBytes) {c : Prop} [Decidable c]
    {data : Bytes} (ht : tmp.ptrBytes = if c then none else some data) :
    Twin (log2fileTmp lc env tmp p) (log2fileTmp lc env tmp' (vary p (some lb') t d)) := by
  obtain ⟨t', d', hw, hh'⟩ := log2fileTmp_vary lc env heq hh (some lb')
  rw [hw]
  exact .opened ((log2fileTmp_effect h.toLive lc env ht).opened h.flag) hc hh'

/-- The buffer over a block, after its flush: nothing is left of the block but what is behind the
content. -/
theorem sameContent_clear {m m' : Bytes} (hm : m.length = 150 * 1024) (hm' : m'.length = 150 * 1024) :
    SameContent (LogBuffer.ofBlock m (150 * 1024)).clear (LogBuffer.ofBlock m' (150 * 1024)).clear :=
  ⟨LogBuffer.good_clear (wf_ofBlock hm) (by simp), LogBuffer.good_clear (wf_ofBlock hm') (by simp),
    by rw [LogBuffer.maxLength_clear, LogBuffer.maxLength_clear]; rfl,
    by rw [LogBuffer.content_clear, LogBuffer.content_clear]⟩

/-- **Opening** closed twins. -/
theorem twin_open {p : Proc} (h : Closed p) (t : ℤ) (d : Bytes) (lc : Libc) (oenv : OpenEnv)
    (env : FileEnv) (mode : AppendMode) (dir name : CStr) :
    Option.Rel Twin (logAppenderOpen lc oenv env mode dir name p)
      (logAppenderOpen lc oenv env mode dir name (vary p none t d)) := by
  have hv : Closed (vary p none t d) := ⟨h.flag, rfl, h.mmap, h.file, h.block⟩
  by_cases hm : oenv.openOk = true → oenv.mmapOk = true
  · have hml := length_openBlock oenv p.files (mmapFilePath dir.bytes name.bytes)
    obtain ⟨mt, files, hopen, -, hfd, -⟩ := openMmap_eq hm []
      (mmapFilePath dir.bytes name.bytes) p.files
    obtain ⟨tmp, hs, ht⟩ := logAppenderOpen_eq h lc oenv hm env mode dir name
    obtain ⟨tmp', hs', ht'⟩ := logAppenderOpen_eq hv lc oenv hm env mode dir name
    rw [hs, hs']
    refine .some (twin_log2fileTmp (opened_opening h _ hml mode ?_) (sameContent_clear hml hml)
      (.inl h.file) lc env (ht'.trans ht.symm) ht)
    rw [hopen]
    exact hfd
  · obtain ⟨ho, hm⟩ := Classical.not_imp.mp hm
    rw [logAppenderOpen_failed h lc ho hm, logAppenderOpen_failed hv lc ho hm]
    exact .none

/-- **One operation.** -/
theorem twin_step (lc : Libc) {p q : Proc} (h : Twin p q) (op : Op) :
    Option.Rel Twin (step lc p op) (step lc q op) := by
  cases h with
  | opened h hc hh => exact twin_step_opened h hc hh lc op
  | closed h t d =>
    have hv : Closed (vary p none t d) := ⟨h.flag, rfl, h.mmap, h.file, h.block⟩
    by_cases hop : Wakes op
    · cases op with
      | «open» oenv env mode dir name => exact twin_open h t d lc oenv env mode dir name
      | setmode mode =>
        exact .some (.closed (p := logAppenderSetmode mode p)
          ⟨h.flag, h.buff, h.mmap, h.file, h.block⟩ t d)
      | _ => exact hop.elim
    · rw [step_of_not_wakes lc h hop, step_of_not_wakes lc hv hop]
      exact .some (.closed h t d)

/-- The content of the log files. -/
def logFiles (p : Proc) (dir name : CStr) : Bytes := p.files (logfilePath dir.bytes name.bytes)

/-- **Every sequence of operations**: the log files stay the same. -/
theorem twin_run (lc : Libc) {p q : Proc} (h : Twin p q) (ops : List Op) :
    (run (step lc) p ops).map logFiles = (run (step lc) q ops).map logFiles := by
  have hr := run_lockstep (fun _ _ op h => twin_step lc h op) ops h
  cases hp : run (step lc) p ops <;> cases hq : run (step lc) q ops <;> rw [hp, hq] at hr <;> cases hr
  · unfold logFiles
    simp only [Option.map_some, Twin.files ‹Twin _ _›]

/-! ### Two blocks from the heap -/

/-- The block that `new char[sg_bufferblock_length]` gives, of the memory `heap`. -/
def heapBlock (heap : Bytes) : Bytes := resize heap (150 * 1024)

/-- The bytes of a heap block that the write-back of `open` puts in the log file, those included that its `FILE`
still holds. -/
def writtenBack (env : FileEnv) (mode : AppendMode) (heap : Bytes) : Bytes :=
  (writeOut env mode (recovered (heapBlock heap)) ⟨[], []⟩).all

/-- A write-back that leaves the log file closed. -/
def Closes (env : FileEnv) (mlog : LogAppender) : Prop :=
  mlog.sgLogdir = [] ∨ env.fopenOk = false ∨ mlog.sgMode = .async ∨ ¬ (env.ftellOk = true ∧ env.fwriteStored = none)

theorem log2file_closed (lc : Libc) {env : FileEnv} (data : Bytes) {p : Proc}
    (hf : p.mlog.sgLogfile = none) (he : Closes env p.mlog) :
    (log2file lc env data p).mlog.sgLogfile = none := by
  unfold log2file
  split_ifs with hg
  · exact hf
  obtain ⟨hne, hdir⟩ := not_or.mp hg
  replace he := he.resolve_left hdir
  rw [log2fileLocked_eq, openlogfile, if_neg hdir]
  simp only [hf, Option.isSome_none, Bool.false_and, Bool.false_eq_true, if_false]
  cases ho : env.fopenOk with
  | false => rfl
  | true =>
    replace he := he.resolve_left (by simp [ho])
    simp only [if_true, Option.isSome_some]
    -- a failed write closes the file in both modes
    rw [if_pos (he.imp_right fun h => (writelogfile_fst env hne rfl).not.mpr h)]
    exact closelogfile_sgLogfile env _

theorem log2fileTmp_closed (lc : Libc) {env : FileEnv} {p : Proc} (hf : p.mlog.sgLogfile = none)
    (he : Closes env p.mlog) {tmp : AutoBuffer} {m : Bytes}
    (ht : tmp.ptrBytes = if m.head? = some 0 then none else some m) :
    ∃ t d, log2fileTmp lc env tmp p =
      { p with
        mlog := { p.mlog with sgLogfile := none, sgOpenfiletime := t, sgCurrentDir := d }
        files := Function.update p.files (logPath p.mlog)
          (writeBack lc env p.mlog (recovered m) (sink p)).out } := by
  unfold log2fileTmp recovered
  rw [ht]
  by_cases hm : m.head? = some 0
  · refine ⟨p.mlog.sgOpenfiletime, p.mlog.sgCurrentDir, ?_⟩
    simp only [if_pos hm, writeBack_nil, update_logFile, ← hf]
  · have hh : HandleOk p.mlog := fun f h0 => absurd (hf ▸ h0) (by simp)
    obtain ⟨f, t, d, hs⟩ := (log2file_refiled lc env m hh).eq
    have hnone := log2file_closed lc m hf he
    rw [hs] at hnone
    have hnone' : f = none := hnone
    refine ⟨t, d, ?_⟩
    simp only [if_neg hm]
    rw [hs, hnone']

theorem held_of_none {mlog : LogAppender} (h : mlog.sgLogfile = none) : held mlog = [] := by
  rw [held, h]

theorem writeOut_out (env : FileEnv) (mode : AppendMode) (data f : Bytes) :
    (writeOut env mode data ⟨f, []⟩).out = f ++ (writeOut env mode data ⟨[], []⟩).out ∧
      (writeOut env mode data ⟨f, []⟩).held = (writeOut env mode data ⟨[], []⟩).held := by
  unfold writeOut
  split_ifs <;> simp [Sink.put, Sink.close]

theorem all_writeOut (env : FileEnv) (mode : AppendMode) (data f : Bytes) :
    (writeOut env mode data ⟨f, []⟩).all = f ++ (writeOut env mode data ⟨[], []⟩).all := by
  obtain ⟨ho, hh⟩ := writeOut_out env mode data f
  rw [Sink.all, Sink.all, ho, hh, List.append_assoc]

/-- **The appenders that `open` leaves over two blocks** are twins, if the write-backs put in the same. -/
theorem twin_opened {p : Proc} {lb lb' : LogBuffer} (h : Opened p lb) (hc : SameContent lb lb')
    (hf : p.mlog.sgLogfile = none) (lc : Libc) (env : FileEnv) {tmp tmp' : AutoBuffer} {heap heap' : Bytes}
    (ht : tmp.ptrBytes = if (heapBlock heap).head? = some 0 then none else some (heapBlock heap))
    (ht' : tmp'.ptrBytes = if (heapBlock heap').head? = some 0 then none else some (heapBlock heap'))
    (hst : p.mlog.sgLogdir = [] ∨ env.fopenOk = false ∨ env.ftellOk = false ∨
      writtenBack env p.mlog.sgMode heap = writtenBack env p.mlog.sgMode heap') :
    Twin (log2fileTmp lc env tmp p)
      (log2fileTmp lc env tmp' (vary p (some lb') p.mlog.sgOpenfiletime p.mlog.sgCurrentDir)) := by
  by_cases he : Closes env p.mlog
  · -- both leave the log file closed, with the same content
    have hsink : (writeBack lc env p.mlog (recovered (heapBlock heap')) (sink p)).out =
        (writeBack lc env p.mlog (recovered (heapBlock heap)) (sink p)).out := by
      have hnone : ∀ m, writeBack lc env p.mlog (recovered m) (sink p) =
          if p.mlog.sgLogdir = [] ∨ env.fopenOk = false then sink p
          else writeOut env p.mlog.sgMode (recovered m) ⟨logFile p, []⟩ := fun m => by
        have hheld : (sink p).held = [] := held_of_none hf
        rw [writeBack_of_none hf m hheld, openBack_eq env _ _ m hheld, sink, held_of_none hf]
      rw [hnone, hnone]
      split_ifs with hn
      · rfl
      obtain ⟨hdir, hfo⟩ := not_or.mp hn
      have hcl := (he.resolve_left hdir).resolve_left hfo
      have hout : ∀ data, (writeOut env p.mlog.sgMode data ⟨logFile p, []⟩).out =
          logFile p ++ (writeOut env p.mlog.sgMode data ⟨[], []⟩).all := fun data => by
        rw [(writeOut_out env _ data _).1, Sink.all_of_held (held_writeOut hcl data _)]
      rw [hout, hout, List.append_cancel_left_eq]
      rcases (hst.resolve_left hdir).resolve_left hfo with ht | hw
      · simp [writeOut, ht, Sink.close]
      · exact hw.symm
    have heff := log2fileTmp_effect h.toLive lc env ht
    obtain ⟨t, d, hs⟩ := log2fileTmp_closed lc hf he ht
    obtain ⟨t', d', hs'⟩ := log2fileTmp_closed (p := vary p (some lb') p.mlog.sgOpenfiletime
      p.mlog.sgCurrentDir) lc hf he ht'
    have ho := heff.opened h.flag
    rw [hs] at ho ⊢
    have hs'' : log2fileTmp lc env tmp' (vary p (some lb') p.mlog.sgOpenfiletime
        p.mlog.sgCurrentDir) = vary { p with
          mlog := { p.mlog with sgLogfile := none, sgOpenfiletime := t, sgCurrentDir := d }
          files := Function.update p.files (logPath p.mlog)
            (writeBack lc env p.mlog (recovered (heapBlock heap)) (sink p)).out } (some lb') t' d' := by
      rw [hs', ← hsink]
      rfl
    rw [hs'']
    exact .opened ho hc (.inl rfl)
  · -- everything is put in, so the blocks recover the same
    simp only [Closes, not_or, not_not] at he
    obtain ⟨hdir, hfo, hm, htell, hw⟩ := he
    have hsync : p.mlog.sgMode = .sync := by
      cases h : p.mlog.sgMode with
      | sync => rfl
      | async => exact absurd h hm
    have hall : ∀ heap, writtenBack env p.mlog.sgMode heap = recovered (heapBlock heap) := fun heap => by
      rw [writtenBack, hsync, writeOut, if_pos htell, if_neg (by simp [htell, hw]), Sink.all_put, fwrite, hw]
      rfl
    have hrec := ((hst.resolve_left hdir).resolve_left hfo).resolve_left (by simp [htell])
    rw [hall, hall] at hrec
    have hne : ∀ heap, heapBlock heap ≠ [] := fun heap h0 => by
      have hl : (heapBlock heap).length = 150 * 1024 := length_resize _ _
      rw [h0] at hl
      cases hl
    have heq : tmp'.ptrBytes = tmp.ptrBytes := by
      unfold recovered at hrec
      rw [ht, ht']
      split_ifs at hrec ⊢
      · rfl
      · exact absurd hrec (hne heap)
      · exact absurd hrec.symm (hne heap')
      · rw [hrec]
    exact twin_log2fileTmp h hc (.inr ⟨rfl, rfl⟩) lc env heq ht

section Heap

variable {lc : Libc} {p : Proc} (h : Closed p) (mmapOk : Bool) (env : FileEnv) (mode : AppendMode)
  (filedir filename : CStr)

include h

theorem open_heap (lc : Libc) (heap : Bytes) :
    ∃ p' lb, step lc p (.open ⟨false, mmapOk, heap⟩ env mode filedir filename) = some p' ∧
      Opened p' lb ∧ lb.content = [] ∧ logPath p'.mlog = logfilePath filedir.bytes filename.bytes ∧
      sink p' = if filedir.bytes = [] ∨ env.fopenOk = false then ⟨logFiles p filedir filename, []⟩
        else writeOut env mode (recovered (heapBlock heap)) ⟨logFiles p filedir filename, []⟩ := by
  obtain ⟨p', hs, ho, hd, hn, -, -, -, hsink⟩ := logAppenderOpen_spec h lc ⟨false, mmapOk, heap⟩
    (by simp) env mode filedir filename
  rw [openBack_eq env mode _ _ rfl] at hsink
  exact ⟨p', _, hs, ho, LogBuffer.content_clear _, by rw [logPath, hd, hn], hsink⟩

theorem open_close_heap (lc : Libc) (heap : Bytes) :
    ∃ p', run (step lc) p [.open ⟨false, mmapOk, heap⟩ env mode filedir filename, .close none .ok] = some p' ∧
      logFiles p' filedir filename = logFiles p filedir filename ++
        if filedir.bytes = [] ∨ env.fopenOk = false then [] else writtenBack env mode heap := by
  obtain ⟨p₁, lb, hs, ho, hc, hpath, hsink⟩ := open_heap h mmapOk env mode filedir filename lc heap
  obtain ⟨p₂, hs₂, -, hd, hn, hf⟩ := logAppenderClose_spec ho lc none .ok
  refine ⟨p₂, run_of_step hs (run_of_step hs₂ rfl), ?_⟩
  have hfile : logFiles p₂ filedir filename = logFile p₂ := by
    rw [logFiles, logFile, logPath, hd, hn, ← hpath, logPath]
  rw [hfile, hf, hc, closeBack_nil, FileEnv.ok, Sink.out_close, hsink]
  split_ifs
  · rw [List.append_nil, Sink.all_of_held rfl]
  · rw [all_writeOut, writtenBack]

/-- If the log files are the same, so are the write-backs of the two blocks. -/
theorem writtenBack_of_same {heap heap' : Bytes}
    (hsame : (run (step lc) p [.open ⟨false, mmapOk, heap⟩ env mode filedir filename, .close none .ok]).map logFiles =
      (run (step lc) p [.open ⟨false, mmapOk, heap'⟩ env mode filedir filename, .close none .ok]).map logFiles) :
    filedir.bytes = [] ∨ env.fopenOk = false ∨ env.ftellOk = false ∨
      writtenBack env mode heap = writtenBack env mode heap' := by
  obtain ⟨p₁, hr₁, hf₁⟩ := open_close_heap h mmapOk env mode filedir filename lc heap
  obtain ⟨p₂, hr₂, hf₂⟩ := open_close_heap h mmapOk env mode filedir filename lc heap'
  rw [hr₁, hr₂] at hsame
  have hlog := congrFun (congrFun (Option.some_inj.mp hsame) filedir) filename
  rw [hf₁, hf₂, List.append_cancel_left_eq] at hlog
  by_cases hn : filedir.bytes = [] ∨ env.fopenOk = false
  · exact hn.imp_right .inl
  · rw [if_neg hn, if_neg hn] at hlog
    exact .inr (.inr (.inr hlog))

/-- If the write-backs of the two blocks are the same, so are the log files of every run. -/
theorem same_of_writtenBack {heap heap' : Bytes}
    (hcond : filedir.bytes = [] ∨ env.fopenOk = false ∨ env.ftellOk = false ∨
      writtenBack env mode heap = writtenBack env mode heap') (ops : List Op) :
    (run (step lc) p (.open ⟨false, mmapOk, heap⟩ env mode filedir filename :: ops)).map logFiles =
      (run (step lc) p (.open ⟨false, mmapOk, heap'⟩ env mode filedir filename :: ops)).map
        logFiles := by
  have hml : ∀ heap, (heapBlock heap).length = 150 * 1024 := fun heap => length_resize _ _
  obtain ⟨tmp, hs, ht⟩ := logAppenderOpen_eq h lc ⟨false, mmapOk, heap⟩ (by simp) env mode filedir
    filename
  obtain ⟨tmp', hs', ht'⟩ := logAppenderOpen_eq h lc ⟨false, mmapOk, heap'⟩ (by simp) env mode filedir
    filename
  have hfd : (⟨none, false⟩ : MmappedFile).isOpen = true → (⟨none, false⟩ : MmappedFile).mmapFd =
      some (mmapFilePath filedir.bytes filename.bytes) := by simp
  have htwin := twin_opened (opened_opening h p.files (hml heap) mode hfd)
    (sameContent_clear (hml heap) (hml heap')) h.file lc env ht ht' hcond
  have e : step lc p (.open ⟨false, mmapOk, heap⟩ env mode filedir filename) = _ := hs
  have e' : step lc p (.open ⟨false, mmapOk, heap'⟩ env mode filedir filename) = _ := hs'
  rw [run_cons, run_cons, e, e', Option.bind_some, Option.bind_some]
  exact twin_run lc htwin ops

end Heap

/-- **Uninitialised memory and the log files.** When the block comes from the heap, what the memory held
has no effect on any log file, whatever operations follow, exactly if nothing of the block is written
back or the same bytes of both blocks are. -/
theorem heap_block_iff {lc : Libc} {p : Proc} (hp : Reachable lc p)
    (hclosed : p.mlog.sgLogClose = true) (mmapOk : Bool) (env : FileEnv) (mode : AppendMode)
    (filedir filename : CStr) (heap heap' : Bytes) :
    (∀ ops,
      (run (step lc) p (.open ⟨false, mmapOk, heap⟩ env mode filedir filename :: ops)).map logFiles =
      (run (step lc) p (.open ⟨false, mmapOk, heap'⟩ env mode filedir filename :: ops)).map logFiles) ↔
      filedir.bytes = [] ∨ env.fopenOk = false ∨ env.ftellOk = false ∨
        writtenBack env mode heap = writtenBack env mode heap' :=
  ⟨fun hall => writtenBack_of_same (hp.closed hclosed) mmapOk env mode filedir filename (hall _),
    same_of_writtenBack (hp.closed hclosed) mmapOk env mode filedir filename⟩

theorem head?_heapBlock (c : Byte) (l : Bytes) : (heapBlock (c :: l)).head? = some c := by
  have h : ∀ n, 0 < n → (resize (c :: l) n).head? = some c := by
    intro n hn
    obtain ⟨k, rfl⟩ := Nat.exists_eq_succ_of_ne_zero hn.ne'
    rw [resize, List.take_succ_cons]
    rfl
  exact h _ (by decide)

theorem writtenBack_nul (env : FileEnv) (mode : AppendMode) {heap : Bytes}
    (h : heap.head? = some 0 ∨ heap = []) : writtenBack env mode heap = [] := by
  have hhead : (heapBlock heap).head? = some 0 := by
    rcases h with h | rfl
    · obtain ⟨l, rfl⟩ := List.head?_eq_some_iff.mp h
      exact head?_heapBlock 0 l
    · rw [heapBlock, resize, List.take_nil, List.nil_append, List.head?_replicate]; rfl
  rw [writtenBack, recovered, if_pos hhead, writeOut_nil rfl]
  rfl

theorem heap_block_iff_nul :
    (run (step utc) fresh [.open ⟨false, true, [0, 1]⟩ .ok .async textA textA,
      .append .ok (some textA), .task .ok]).map logFiles =
    (run (step utc) fresh [.open ⟨false, true, []⟩ .ok .async textA textA,
      .append .ok (some textA), .task .ok]).map logFiles :=
  (heap_block_iff ⟨_, _, _, .refl⟩ rfl true .ok .async textA textA [0, 1] []).mpr
    (.inr (.inr (.inr (by rw [writtenBack_nul _ _ (.inl rfl), writtenBack_nul _ _ (.inr rfl)])))) _

/-- A block that does not start with a NUL is written to the log file. -/
theorem heap_block_leaks :
    (run (step utc) fresh [.open ⟨false, true, [1]⟩ .ok .async textA textA]).map logFiles ≠
      (run (step utc) fresh [.open ⟨false, true, []⟩ .ok .async textA textA]).map logFiles := by
  intro hsame
  have hc : Closed fresh := closed_create _ _ _
  obtain ⟨p₁, -, hs₁, -, -, hpath₁, hsink₁⟩ := open_heap hc true .ok .async textA textA utc [1]
  obtain ⟨p₂, -, hs₂, -, -, hpath₂, hsink₂⟩ := open_heap hc true .ok .async textA textA utc []
  rw [run_of_step hs₁ rfl, run_of_step hs₂ rfl] at hsame
  have hlog : logFiles p₁ textA textA = logFiles p₂ textA textA :=
    congrFun (congrFun (Option.some_inj.mp hsame) textA) textA
  have hout : ∀ data, (writeOut .ok .async data ⟨[], []⟩).out = data := fun data => by
    simp [writeOut, FileEnv.ok, fwrite, Sink.put, Sink.close]
  have hdir : ¬ (textA.bytes = [] ∨ FileEnv.ok.fopenOk = false) := by decide
  have hfile : ∀ heap p', logPath p'.mlog = logfilePath textA.bytes textA.bytes →
      sink p' = (if textA.bytes = [] ∨ FileEnv.ok.fopenOk = false then ⟨logFiles fresh textA textA, []⟩
        else writeOut .ok .async (recovered (heapBlock heap)) ⟨logFiles fresh textA textA, []⟩) →
      logFiles p' textA textA = recovered (heapBlock heap) := by
    intro heap p' hpath hsink
    rw [if_neg hdir] at hsink
    rw [logFiles, ← hpath]
    exact (congrArg Sink.out hsink).trans (hout _)
  have hnul : recovered (heapBlock []) = [] := recovered_resize_nil
  have hone : recovered (heapBlock [1]) = heapBlock [1] := if_neg (by rw [head?_heapBlock]; decide)
  rw [hfile _ p₁ hpath₁ hsink₁, hfile _ p₂ hpath₂ hsink₂, hnul, hone] at hlog
  have := congrArg List.length hlog
  rw [heapBlock, length_resize] at this
  cases this

end MTAppenderFile.Loglib.HeapBlock
