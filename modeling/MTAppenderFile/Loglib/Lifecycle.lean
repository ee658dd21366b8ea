import MTAppenderFile.Loglib.Session

/-! # Opening, closing, and the reachable states

`mtaf_log_appender_open` lays the buffer over the mapping (or over the heap), takes the whole block for
its content unless the first byte is NUL, writes that back and starts with an empty buffer
(`logAppenderOpen_spec`). `mtaf_log_appender_close` flushes once more, or leaves it to its thread, and
wipes the mapping (`logAppenderClose_spec`).

In every state that the operations reach the appender is closed, or open with a good buffer
(`inv_reach`). -/

namespace MTAppenderFile.Loglib.Lifecycle

open MTAppenderFile.Lib.Block
open MTAppenderFile.Lib.Buffered
open MTAppenderFile.Lib.Run
open MTAppenderFile.Comm.CTypes
open MTAppenderFile.Comm.Auto
open MTAppenderFile.Comm.Ptr
open MTAppenderFile.Loglib.Base
open MTAppenderFile.Loglib.Buffer
open MTAppenderFile.Loglib.Files
open MTAppenderFile.Loglib.Formatter
open MTAppenderFile.Loglib.Appender
open MTAppenderFile.Loglib.Session

/-! ### Opening -/

/-- The block that `open` lays its buffer over: the mapped file, or memory from the heap. -/
def openBlock (oenv : OpenEnv) (files : Disk) (path : Bytes) : Bytes :=
  resize (if oenv.openOk then files path else oenv.heap) (150 * 1024)

/-- What `open` takes for the content of a block: all of it, unless it starts with a NUL. -/
def recovered (m : Bytes) : Bytes := if m.head? = some 0 then [] else m

/-- What `open` does to the log file, in the directory `dir`. -/
def openBack (env : FileEnv) (mode : AppendMode) (dir m : Bytes) (s : Sink Byte) : Sink Byte :=
  if recovered m = [] ∨ dir = [] ∨ env.fopenOk ≠ true then s else writeOut env mode (recovered m) s

theorem openBack_of_nil {m : Bytes} (h : recovered m = []) (env : FileEnv) (mode : AppendMode) (dir : Bytes)
    (s : Sink Byte) : openBack env mode dir m s = s := if_pos (.inl h)

theorem openBack_eq (env : FileEnv) (mode : AppendMode) (dir m : Bytes) {s : Sink Byte} (h : s.held = []) :
    openBack env mode dir m s =
      if dir = [] ∨ env.fopenOk = false then s else writeOut env mode (recovered m) s := by
  by_cases hm : recovered m = []
  · rw [openBack_of_nil hm, hm, writeOut_nil h, ite_self]
  · simp [openBack, hm]

theorem held_openBack (env : FileEnv) (dir m : Bytes) {s : Sink Byte} (h : s.held = []) :
    (openBack env .async dir m s).held = [] := by
  rw [openBack]
  split_ifs
  · exact h
  · exact held_writeOut (.inl rfl) _ s

theorem writeBack_of_none {lc : Libc} {env : FileEnv} {mlog : LogAppender} (h : mlog.sgLogfile = none) (m : Bytes)
    {s : Sink Byte} (hs : s.held = []) :
    writeBack lc env mlog (recovered m) s = openBack env mlog.sgMode mlog.sgLogdir m s := by
  have hk : ¬ Kept lc env mlog := fun hk => by simp [Kept, h] at hk
  rw [writeBack, openBack, if_neg hk, Sink.close_of_held _ hs]
  simp only [hk, false_or]
  split_ifs <;> simp_all

theorem length_openBlock (oenv : OpenEnv) (files : Disk) (path : Bytes) :
    (openBlock oenv files path).length = 150 * 1024 := length_resize _ _

theorem wf_ofBlock {m : Bytes} (hm : m.length = 150 * 1024) :
    (LogBuffer.ofBlock m (150 * 1024)).buff.WF :=
  ⟨Int.le_refl 0, Int.natCast_nonneg _, Nat.le_refl _, hm, by simp⟩

theorem content_ofBlock {m : Bytes} (hm : m.length = 150 * 1024) :
    (LogBuffer.ofBlock m (150 * 1024)).content = m := List.take_of_length_le (Nat.le_of_eq hm)

theorem flush_ofBlock {m : Bytes} (hm : m.length = 150 * 1024) :
    ∃ tmp, (LogBuffer.ofBlock m (150 * 1024)).flush (.empty 128) =
        some ((LogBuffer.ofBlock m (150 * 1024)).clear, tmp) ∧
      tmp.ptrBytes = if m.head? = some 0 then none else some m := by
  obtain ⟨tmp, hf, ht⟩ :=
    LogBuffer.flush_eq (wf_ofBlock hm) 128 (by decide) (by decide)
  rw [content_ofBlock hm] at ht
  exact ⟨tmp, hf, by simpa using ht⟩

theorem flush_nil : (LogBuffer.ofBlock [] 153600).flush (.empty 128) = none := rfl

theorem openMmap_eq {oenv : OpenEnv} (hm : oenv.openOk = true → oenv.mmapOk = true)
    (start path : Bytes) (files : Disk) :
    ∃ mt files', openMmap oenv ⟨none, false⟩ start path kBufferBlockLength files =
        (if oenv.openOk then some (openBlock oenv files path) else none, mt, files') ∧
      mt.isOpen = oenv.openOk ∧ (mt.isOpen = true → mt.mmapFd = some path) ∧
      ∀ path', path' ≠ path → files' path' = files path' := by
  have hk : kBufferBlockLength.toNat = 150 * 1024 := rfl
  cases ho : oenv.openOk with
  | false => exact ⟨⟨none, false⟩, files, by simp [openMmap, ho], rfl, by simp, fun _ _ => rfl⟩
  | true =>
    refine ⟨⟨some path, true⟩, _, by simp only [openMmap, ho, hm ho, if_true, hk, openBlock]; rfl, rfl,
      fun _ => rfl, fun path' hne => ?_⟩
    exact Function.update_of_ne hne _ _

theorem blockLength_of_closed {p : Proc} (h : Closed p) :
    (if p.mlog.sgBufferblockLength ≤ 0 then kBufferBlockLength else p.mlog.sgBufferblockLength) =
      kBufferBlockLength := by
  rcases h.block with hb | hb <;> rw [hb] <;> decide

/-- The appender in `open`, when it hands the recovered bytes to `__log2file`. -/
def opening (p : Proc) (mt : MmappedFile) (files : Disk) (lb : LogBuffer) (mode : AppendMode)
    (filedir filename : CStr) : Proc :=
  { p with
    files := files
    mlog := { p.mlog with
      sgBufferblockLength := kBufferBlockLength
      sgMmapFile := some mt
      sgLogBuff := some lb
      sgLogdir := filedir.bytes
      sgLogfilename := filename.bytes
      sgLogClose := false
      sgMode := mode } }

theorem opened_opening {p : Proc} (h : Closed p) {mt : MmappedFile} (files : Disk) {m : Bytes}
    (hml : m.length = 150 * 1024) (mode : AppendMode) {filedir filename : CStr}
    (hfd : mt.isOpen = true → mt.mmapFd = some (mmapFilePath filedir.bytes filename.bytes)) :
    Opened (opening p mt files (LogBuffer.ofBlock m (150 * 1024)).clear mode filedir filename)
      (LogBuffer.ofBlock m (150 * 1024)).clear :=
  ⟨⟨rfl, LogBuffer.good_clear (wf_ofBlock hml) (by simp), LogBuffer.maxLength_clear _, rfl,
    ⟨mt, rfl, hfd⟩, fun f hf => absurd (h.file ▸ hf) (by simp)⟩, rfl⟩

theorem logAppenderOpen_eq {p : Proc} (h : Closed p) (lc : Libc) (oenv : OpenEnv)
    (hm : oenv.openOk = true → oenv.mmapOk = true) (env : FileEnv) (mode : AppendMode)
    (filedir filename : CStr) :
    let m := openBlock oenv p.files (mmapFilePath filedir.bytes filename.bytes)
    ∃ tmp, logAppenderOpen lc oenv env mode filedir filename p = some (log2fileTmp lc env tmp
        (opening p (openMmap oenv ⟨none, false⟩ [] (mmapFilePath filedir.bytes filename.bytes)
            kBufferBlockLength p.files).2.1
          (openMmap oenv ⟨none, false⟩ [] (mmapFilePath filedir.bytes filename.bytes)
            kBufferBlockLength p.files).2.2
          (LogBuffer.ofBlock m (150 * 1024)).clear mode filedir filename)) ∧
      tmp.ptrBytes = if m.head? = some 0 then none else some m := by
  intro m
  have hk : kBufferBlockLength.toNat = 150 * 1024 := rfl
  have hblock : p.block = [] := by rw [Proc.block, h.buff]
  obtain ⟨tmp, hf, ht⟩ := flush_ofBlock (length_openBlock oenv p.files
    (mmapFilePath filedir.bytes filename.bytes))
  obtain ⟨mt, files, hopen, -, -, -⟩ := openMmap_eq hm []
    (mmapFilePath filedir.bytes filename.bytes) p.files
  have hstart : (if oenv.openOk = true then some (openBlock oenv p.files
      (mmapFilePath filedir.bytes filename.bytes)) else none).getD (resize oenv.heap (150 * 1024)) =
        openBlock oenv p.files (mmapFilePath filedir.bytes filename.bytes) := by
    cases ho : oenv.openOk <;> simp [openBlock, ho]
  refine ⟨tmp, ?_, ht⟩
  simp only [logAppenderOpen, h.flag, blockLength_of_closed h, h.mmap, hblock, Option.getD_none, hopen, hk,
    hstart, hf]
  rfl

/-- An `open` whose mapping failed does not return: the flush reads the mapping. -/
theorem logAppenderOpen_failed {p : Proc} (h : Closed p) (lc : Libc) {oenv : OpenEnv}
    (ho : oenv.openOk = true) (hm : oenv.mmapOk ≠ true) (env : FileEnv) (mode : AppendMode)
    (filedir filename : CStr) : logAppenderOpen lc oenv env mode filedir filename p = none := by
  have hk : kBufferBlockLength.toNat = 150 * 1024 := rfl
  simp [logAppenderOpen, h.flag, blockLength_of_closed h, h.mmap, openMmap, ho, hm, hk, flush_nil]

/-- **Opening a closed appender.** -/
theorem logAppenderOpen_spec {p : Proc} (h : Closed p) (lc : Libc) (oenv : OpenEnv)
    (hm : oenv.openOk = true → oenv.mmapOk = true) (env : FileEnv) (mode : AppendMode)
    (filedir filename : CStr) :
    let m := openBlock oenv p.files (mmapFilePath filedir.bytes filename.bytes)
    ∃ p', logAppenderOpen lc oenv env mode filedir filename p = some p' ∧
      Opened p' (LogBuffer.ofBlock m (150 * 1024)).clear ∧
      p'.mlog.sgLogdir = filedir.bytes ∧ p'.mlog.sgLogfilename = filename.bytes ∧
      p'.mlog.sgMode = mode ∧ p'.mlog.sgThreadAsync = p.mlog.sgThreadAsync ∧
      (∃ mt, p'.mlog.sgMmapFile = some mt ∧ mt.isOpen = oenv.openOk) ∧
      sink p' = openBack env mode filedir.bytes m ⟨p.files (logfilePath filedir.bytes filename.bytes), []⟩ := by
  intro m
  have hml : m.length = 150 * 1024 := length_openBlock _ _ _
  obtain ⟨tmp, hs, ht⟩ := logAppenderOpen_eq h lc oenv hm env mode filedir filename
  obtain ⟨mt, files, hopen, hiso, hfd, hfiles⟩ := openMmap_eq hm []
    (mmapFilePath filedir.bytes filename.bytes) p.files
  rw [hopen] at hs
  let p₁ := opening p mt files (LogBuffer.ofBlock m (150 * 1024)).clear mode filedir filename
  have he := log2fileTmp_effect (opened_opening h files hml mode hfd).toLive lc env ht
  refine ⟨_, hs, he.opened rfl, he.dir, he.name, he.mode, he.thread, ⟨mt, he.mmapFile, hiso⟩, ?_⟩
  have hsink : sink p₁ = ⟨p.files (logfilePath filedir.bytes filename.bytes), []⟩ := by
    refine Sink.ext (hfiles _ (mmapFilePath_ne_logfilePath _ _).symm) ?_
    show held p.mlog = []
    rw [held, h.file]
  have hfile : p₁.mlog.sgLogfile = none := h.file
  rw [he.sink, hsink]
  exact writeBack_of_none hfile m rfl

/-! ### Closing -/

/-- What the flush of `close` does to the log file. -/
def closeBack (lc : Libc) (worker : Option FileEnv) (env : FileEnv) (mlog : LogAppender) (data : Bytes)
    (s : Sink Byte) : Sink Byte :=
  match mlog.sgThreadAsync, worker with
  | .own, some wenv => writeBack lc wenv mlog data s
  | .own, none => s
  | .shared, _ => writeBack lc env mlog data s

theorem closeBack_shared (lc : Libc) (worker : Option FileEnv) (env : FileEnv)
    {mlog : LogAppender} (ht : mlog.sgThreadAsync = .shared) (data : Bytes) (s : Sink Byte) :
    closeBack lc worker env mlog data s = writeBack lc env mlog data s := by
  unfold closeBack; rw [ht]

@[simp] theorem closeBack_nil (lc : Libc) (worker : Option FileEnv) (env : FileEnv)
    (mlog : LogAppender) (s : Sink Byte) : closeBack lc worker env mlog [] s = s := by
  unfold closeBack
  cases mlog.sgThreadAsync <;> cases worker <;> simp

theorem closeTask_effect {p : Proc} {lb : LogBuffer} (h : Live p lb) (lc : Libc)
    (worker : Option FileEnv) (env : FileEnv) :
    ∃ p' lb', closeTask lc worker env p = some p' ∧
      Effect p p' lb' (closeBack lc worker env p.mlog lb.content (sink p)) := by
  unfold closeTask closeBack
  cases p.mlog.sgThreadAsync with
  | shared =>
    obtain ⟨p', hp, he⟩ := logThreadTask_effect h lc env
    exact ⟨p', _, hp, he⟩
  | own =>
    cases worker with
    | none => exact ⟨p, lb, rfl, h.effect_refl⟩
    | some wenv =>
      obtain ⟨p', hp, he⟩ := logThreadTask_effect h lc wenv
      exact ⟨p', _, hp, he⟩

theorem freeLogBuff_spec {p : Proc} {lb : LogBuffer} (h : Live p lb) :
    ∃ files, freeLogBuff p =
        some { p with mlog := { p.mlog with sgMmapFile := none, sgLogBuff := none }, files := files } ∧
      files (logPath p.mlog) = logFile p := by
  obtain ⟨mt, hmt, hfd⟩ := h.mmap
  refine ⟨_, by rw [freeLogBuff, hmt]; rfl, ?_⟩
  split_ifs with ho
  · rw [closeMmap, hfd ho]
    exact Function.update_of_ne (mmapFilePath_ne_logfilePath _ _).symm _ _
  · rfl

theorem closed_closelogfile (env : FileEnv) {p : Proc} (hflag : p.mlog.sgLogClose = true)
    (hbuff : p.mlog.sgLogBuff = none) (hmmap : p.mlog.sgMmapFile = none)
    (hblock : p.mlog.sgBufferblockLength = kBufferBlockLength) : Closed (closelogfile env p) := by
  obtain ⟨t, files, h⟩ := closelogfile_eq env p
  rw [h]
  exact ⟨hflag, hbuff, hmmap, rfl, .inr hblock⟩

/-- **Closing an open appender.** -/
theorem logAppenderClose_spec {p : Proc} {lb : LogBuffer} (h : Opened p lb) (lc : Libc)
    (worker : Option FileEnv) (env : FileEnv) :
    ∃ p', logAppenderClose lc worker env p = some p' ∧ Closed p' ∧
      p'.mlog.sgLogdir = p.mlog.sgLogdir ∧ p'.mlog.sgLogfilename = p.mlog.sgLogfilename ∧
      logFile p' = ((closeBack lc worker env p.mlog lb.content (sink p)).close env.fcloseStored).out := by
  have hl : Live { p with mlog := { p.mlog with sgLogClose := true } } lb :=
    ⟨h.buff, h.good, h.cap, h.block, h.mmap, h.handle⟩
  obtain ⟨p₁, lb₁, ht, he⟩ := closeTask_effect hl lc worker env
  obtain ⟨files, hfree, hfile⟩ := freeLogBuff_spec he.live
  let p₂ : Proc := { p₁ with mlog := { p₁.mlog with sgMmapFile := none, sgLogBuff := none }, files := files }
  have hsink : sink p₂ = sink p₁ := Sink.ext hfile rfl
  have hr := closelogfile_refiled (p := p₂) he.live.handle env
  have hout := congrArg Sink.out hr.sink
  rw [hsink, he.sink] at hout
  obtain ⟨t, files', heq⟩ := closelogfile_eq env p₂
  refine ⟨closelogfile env p₂, ?_, closed_closelogfile env he.flag rfl rfl he.live.block, ?_, ?_, hout⟩
  · simp only [logAppenderClose, h.flag, Bool.false_eq_true, if_false, ht, Option.bind_eq_bind,
      Option.bind_some, hfree]
    rfl
  · rw [heq]
    exact he.dir
  · rw [heq]
    exact he.name

/-! ### The reachable states -/

/-- **The invariant**: the appender is closed, or open with a good buffer. -/
def Inv (p : Proc) : Prop := Closed p ∨ ∃ lb, Opened p lb

theorem closed_create (useShareThread : Bool) (files : Disk) (statics : FormatStatics) :
    Closed (.create useShareThread files statics) := ⟨rfl, rfl, rfl, rfl, .inl rfl⟩

/-- An `open` that returned has no mapping that failed. -/
theorem mmapOk_of_open {lc : Libc} {oenv : OpenEnv} {env : FileEnv} {mode : AppendMode}
    {filedir filename : CStr} {p p' : Proc} (h : Closed p)
    (hs : step lc p (.open oenv env mode filedir filename) = some p') :
    oenv.openOk = true → oenv.mmapOk = true := by
  intro ho
  by_contra hm
  exact Option.some_ne_none p' (hs.symm.trans (logAppenderOpen_failed h lc ho hm _ _ _ _))

/-- The operations that do something on a closed appender. -/
def Wakes : Op → Prop
  | .open _ _ _ _ _ => True
  | .setmode _ => True
  | _ => False

theorem step_of_not_wakes (lc : Libc) {p : Proc} {op : Op} (h : Closed p) (hop : ¬ Wakes op) :
    step lc p op = some p := by
  have htask : ∀ env, logThreadTask lc env p = some p := fun env => by
    simp [logThreadTask, flushLogBuff, h.buff, log2fileTmp, AutoBuffer.empty, AutoBuffer.ptrBytes]
  cases op with
  | «open» oenv env mode filedir filename => exact absurd trivial hop
  | append env log => simp [step, logAppenderAppend, logAppenderAppendEx, h.flag]
  | appendEx env log info => simp [step, logAppenderAppendEx, h.flag]
  | task env => exact htask env
  | flushSync env => simp [step, logAppenderFlushSync_eq, htask]
  | setmode mode => exact absurd trivial hop
  | close worker env => simp [step, logAppenderClose, h.flag]

theorem step_closed {lc : Libc} {p p' : Proc} {op : Op} (h : Closed p)
    (hs : step lc p op = some p') :
    p' = p ∨ (∃ mode, p' = logAppenderSetmode mode p) ∨ ∃ oenv env mode filedir filename,
      op = .open oenv env mode filedir filename := by
  by_cases hop : Wakes op
  · cases op with
    | «open» oenv env mode filedir filename => exact .inr (.inr ⟨_, _, _, _, _, rfl⟩)
    | setmode mode => exact .inr (.inl ⟨mode, (Option.some_inj.mp hs).symm⟩)
    | _ => exact hop.elim
  · rw [step_of_not_wakes lc h hop] at hs
    exact .inl (Option.some_inj.mp hs).symm

theorem step_opened {lc : Libc} {p p' : Proc} {op : Op} {lb : LogBuffer} (h : Opened p lb)
    (hs : step lc p op = some p') :
    (∃ lb' s, Effect p p' lb' s ∧ (p.mlog.sgLogdir = [] → s = sink p)) ∨ (∃ mode, p' = logAppenderSetmode mode p) ∨
      ∃ worker env, op = .close worker env := by
  have hAppend : ∀ env log info, logAppenderAppendEx lc env log info p = some p' →
      ∃ lb' s, Effect p p' lb' s ∧ (p.mlog.sgLogdir = [] → s = sink p) := by
    intro env log info hs
    obtain ⟨data, hp⟩ := logAppenderAppendEx_printed h hs
    cases hm : p.mlog.sgMode with
    | sync =>
      obtain ⟨p₁, hp₁, he⟩ := appendEx_sync_effect env h hm hp
      cases hp₁.symm.trans hs
      exact ⟨_, _, he, fun hd => writeBack_of_dir_nil hd data _⟩
    | async =>
      obtain ⟨p₁, entry, hp₁, he, -⟩ := appendEx_async_effect env h hm hp
      cases hp₁.symm.trans hs
      exact ⟨_, _, he, fun _ => rfl⟩
  have hTask : ∀ env, logThreadTask lc env p = some p' →
      ∃ lb' s, Effect p p' lb' s ∧ (p.mlog.sgLogdir = [] → s = sink p) := by
    intro env hs
    obtain ⟨p₁, hp₁, he⟩ := logThreadTask_effect h.toLive lc env
    cases hp₁.symm.trans hs
    exact ⟨_, _, he, fun hd => writeBack_of_dir_nil hd _ _⟩
  have hRefl : p = p' → ∃ lb' s, Effect p p' lb' s ∧ (p.mlog.sgLogdir = [] → s = sink p) := by
    rintro rfl
    exact ⟨lb, _, h.effect_refl, fun _ => rfl⟩
  cases op with
  | «open» oenv env mode dir name => exact .inl (hRefl (by simpa [step, logAppenderOpen, h.flag] using hs))
  | append env log => exact .inl (hAppend env log none hs)
  | appendEx env log info => exact .inl (hAppend env log info hs)
  | task env => exact .inl (hTask env hs)
  | flushSync env =>
    simp only [step, logAppenderFlushSync_eq] at hs
    split_ifs at hs
    · exact .inl (hRefl (Option.some_inj.mp hs))
    · exact .inl (hTask env hs)
  | setmode mode => exact .inr (.inl ⟨mode, (Option.some_inj.mp hs).symm⟩)
  | close worker env => exact .inr (.inr ⟨worker, env, rfl⟩)

/-- **Every operation preserves the invariant.** -/
theorem inv_step {lc : Libc} {p p' : Proc} {op : Op} (h : Inv p) (hs : step lc p op = some p') :
    Inv p' := by
  rcases h with h | ⟨lb, h⟩
  · rcases step_closed h hs with rfl | ⟨mode, rfl⟩ | ⟨oenv, env, mode, dir, name, rfl⟩
    · exact .inl h
    · exact .inl ⟨h.flag, h.buff, h.mmap, h.file, h.block⟩
    · obtain ⟨p₁, hp₁, ho, -⟩ := logAppenderOpen_spec h lc oenv (mmapOk_of_open h hs) env mode dir name
      cases hp₁.symm.trans hs
      exact .inr ⟨_, ho⟩
  · rcases step_opened h hs with ⟨lb', w, he, -⟩ | ⟨mode, rfl⟩ | ⟨worker, env, rfl⟩
    · exact .inr ⟨lb', he.opened h.flag⟩
    · exact .inr ⟨lb, h.setmode mode⟩
    · obtain ⟨p₁, hp₁, hc, -⟩ := logAppenderClose_spec h lc worker env
      cases hp₁.symm.trans hs
      exact .inl hc

/-- The states that the operations reach from a new appender. -/
def Reachable (lc : Libc) (p : Proc) : Prop :=
  ∃ useShareThread files statics,
    Reach (step lc) (fun _ _ => True) (.create useShareThread files statics) p

/-- **In every reachable state** the appender is closed, or open with a good buffer. -/
theorem Reachable.inv {lc : Libc} {p : Proc} (h : Reachable lc p) : Inv p := by
  obtain ⟨share, files, statics, hr⟩ := h
  exact hr.inv (.inl (closed_create share files statics)) fun _ _ _ hi _ hs => inv_step hi hs

theorem Reachable.closed {lc : Libc} {p : Proc} (h : Reachable lc p)
    (hc : p.mlog.sgLogClose = true) : Closed p := by
  rcases h.inv with h | ⟨lb, h⟩
  · exact h
  · exact absurd (h.flag.symm.trans hc) (by decide)

theorem Reachable.opened {lc : Libc} {p : Proc} (h : Reachable lc p)
    (hc : p.mlog.sgLogClose = false) : ∃ lb, Opened p lb := by
  rcases h.inv with h | h
  · exact absurd (h.flag.symm.trans hc) (by decide)
  · exact h

/-- An appender that was just opened in the mode `mode`. -/
def OpenedIn (lc : Libc) (mode : AppendMode) (p : Proc) : Prop :=
  ∃ p₀ oenv env filedir filename, Reachable lc p₀ ∧ p₀.mlog.sgLogClose = true ∧
    step lc p₀ (.open oenv env mode filedir filename) = some p

theorem OpenedIn.spec {lc : Libc} {mode : AppendMode} {p : Proc} (h : OpenedIn lc mode p) :
    ∃ lb, Opened p lb ∧ lb.content = [] ∧ p.mlog.sgMode = mode ∧ (mode = .async → held p.mlog = []) := by
  obtain ⟨p₀, oenv, env, dir, name, hr, hc, hs⟩ := h
  have hclosed := hr.closed hc
  obtain ⟨p₁, hp₁, ho, -, -, hmode, -, -, hsink⟩ :=
    logAppenderOpen_spec hclosed lc oenv (mmapOk_of_open hclosed hs) env mode dir name
  cases hp₁.symm.trans hs
  refine ⟨_, ho, LogBuffer.content_clear _, hmode, ?_⟩
  rintro rfl
  exact (congrArg Sink.held hsink).trans (held_openBack _ _ _ rfl)

end MTAppenderFile.Loglib.Lifecycle
