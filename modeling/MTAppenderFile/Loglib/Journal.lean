import MTAppenderFile.Loglib.Overload
import MTAppenderFile.Loglib.Separation

/-! # A journal for the appender

What the appender is for, without its buffers, mappings, handles and days: a journal is the files, the mode
and, while it is open, a session. A session has a log file and the bytes that wait for it. In sync mode a record
goes to the log file; in async mode it waits, up to the end of the block. A flush takes all that waits to the
log file, and a `close` wipes the mapped file.

With file operations that succeed the code refines the journal (`refines_journal`): whatever the operations,
the code can take them exactly if the journal can, and both end with the same mode, the same bytes that wait and the
same files, when what the open `FILE` of the code still holds is put at the end of its log file (`filesOf`). -/

namespace MTAppenderFile.Loglib.Journal

open MTAppenderFile.Lib.Block
open MTAppenderFile.Lib.Buffered
open MTAppenderFile.Lib.Run
open MTAppenderFile.Comm.CTypes
open MTAppenderFile.Comm.Auto
open MTAppenderFile.Comm.Ptr
open MTAppenderFile.Loglib.Base
open MTAppenderFile.Loglib.Buffer
open MTAppenderFile.Loglib.Files
open MTAppenderFile.Loglib.Formatter
open MTAppenderFile.Loglib.Appender
open MTAppenderFile.Loglib.Session
open MTAppenderFile.Loglib.Lifecycle
open MTAppenderFile.Loglib.Exactness
open MTAppenderFile.Loglib.Modes
open MTAppenderFile.Loglib.Overload
open MTAppenderFile.Loglib.Separation

/-- A log that is open: where it is, whether its block is a mapped file, and the bytes that wait. -/
structure OpenLog where
  dir : Bytes
  name : Bytes
  mapped : Bool
  pending : Bytes

/-- The journal. -/
structure State where
  files : Disk
  mode : AppendMode
  log : Option OpenLog

/-- The journal of a new appender. -/
def State.create (files : Disk) : State := ⟨files, .async, none⟩

def OpenLog.logPath (l : OpenLog) : Bytes := logfilePath l.dir l.name

def OpenLog.mapPath (l : OpenLog) : Bytes := mmapFilePath l.dir l.name

/-- The files, with `data` at the end of the log file. In the empty directory there is none. -/
def OpenLog.write (l : OpenLog) (data : Bytes) (files : Disk) : Disk :=
  if l.dir = [] then files else Function.update files l.logPath (files l.logPath ++ data)

theorem OpenLog.write_nil (l : OpenLog) (files : Disk) : l.write [] files = files := by
  rw [OpenLog.write]
  split_ifs
  · rfl
  · rw [List.append_nil, Function.update_eq_self]

/-- The line of a record that finds `len` bytes waiting: the record, or the warning of an overload. -/
def waitingLine (record : Bytes) (len : ℕ) : Bytes := if len ≥ 122880 then overloadText len else record

/-- All that waits goes to the log file. -/
def State.flush (j : State) : State :=
  match j.log with
  | none => j
  | some l => { j with files := l.write l.pending j.files, log := some { l with pending := [] } }

/-- A record is printed, and goes to the log file or waits. -/
def State.append (record : Option Bytes) (j : State) : Option State :=
  match j.log with
  | none => some j
  | some l => record.map fun record =>
    match j.mode with
    | .sync => { j with files := l.write record j.files }
    | .async => { j with
        log := some { l with pending := (l.pending ++ waitingLine record l.pending.length).take 153600 } }

/-- A log is opened, and what was left in its block goes to the log file. A mapping that fails is undefined. -/
def State.open (oenv : OpenEnv) (mode : AppendMode) (dir name : Bytes) (j : State) : Option State :=
  match j.log with
  | some _ => some j
  | none =>
    let l : OpenLog := ⟨dir, name, oenv.openOk, []⟩
    let block := openBlock oenv j.files l.mapPath
    if oenv.openOk ∧ ¬ oenv.mmapOk then none
    else
      let files := if oenv.openOk then Function.update j.files l.mapPath block else j.files
      some ⟨l.write (recovered block) files, mode, some l⟩

/-- The log is closed, after a flush or without one, and the mapped file is wiped. -/
def State.close (flushes : Bool) (j : State) : State :=
  let j := if flushes then j.flush else j
  match j.log with
  | none => j
  | some l => { j with
      files := if l.mapped then Function.update j.files l.mapPath (List.replicate 153600 0) else j.files
      log := none }

/-- One operation on the journal. -/
def next (useShareThread : Bool) (print : Option LogInfo → Option CStr → Option Bytes) (j : State) :
    Op → Option State
  | .open oenv _ mode filedir filename => j.open oenv mode filedir.bytes filename.bytes
  | .append _ log => j.append (print none log)
  | .appendEx _ log info => j.append (print info log)
  | .task _ => some j.flush
  | .flushSync _ => some (if j.mode = .sync then j else j.flush)
  | .setmode mode => some { j with mode := mode }
  | .close worker _ => some (j.close (useShareThread || worker.isSome))

/-- Every file operation of the operation succeeds. -/
def OpSucceeds : Op → Prop
  | .open _ env _ _ _ | .append env _ | .appendEx env _ _ | .task env | .flushSync env => env.Succeeds
  | .setmode _ => True
  | .close worker env => env.Succeeds ∧ ∀ wenv ∈ worker, FileEnv.Succeeds wenv

/-- The record that the formatter prints. -/
def printRecord (lc : Libc) (st : FormatStatics) (info : Option LogInfo) (log : Option CStr) : Option Bytes :=
  (logFormater lc st info log temp).map fun r => r.2.content

/-! ### The code and the journal -/

/-- An open appender is the open log `l`. -/
structure SimLog (p : Proc) (l : OpenLog) (lb : LogBuffer) : Prop extends Opened p lb where
  dir : p.mlog.sgLogdir = l.dir
  name : p.mlog.sgLogfilename = l.name
  mapped : ∃ mt, p.mlog.sgMmapFile = some mt ∧ mt.isOpen = l.mapped
  pending : lb.content = l.pending

/-- The files, with what the open `FILE` holds at the end of its log file. -/
def filesOf (p : Proc) : Disk := Function.update p.files (logPath p.mlog) (sink p).all

theorem filesOf_of_held {p : Proc} (h : held p.mlog = []) : filesOf p = p.files := by
  have hs : (sink p).held = [] := h
  rw [filesOf, Sink.all_of_held hs, update_logFile]

theorem filesOf_of_closed {p : Proc} (h : Closed p) : filesOf p = p.files := filesOf_of_held (by rw [held, h.file])

/-- **The refinement**: the same files, mode and open log. -/
structure Sim (useShareThread : Bool) (st : FormatStatics) (p : Proc) (j : State) : Prop where
  files : filesOf p = j.files
  mode : p.mlog.sgMode = j.mode
  thread : p.mlog.sgThreadAsync = if useShareThread then .shared else .own
  statics : p.statics = st
  log : (j.log = none ∧ Closed p) ∨ ∃ l lb, j.log = some l ∧ SimLog p l lb

theorem sim_create (useShareThread : Bool) (files : Disk) (st : FormatStatics) :
    Sim useShareThread st (.create useShareThread files st) (.create files) :=
  have hc := closed_create useShareThread files st
  ⟨filesOf_of_closed hc, rfl, rfl, rfl, .inl ⟨rfl, hc⟩⟩

theorem files_write {p : Proc} {l : OpenLog} (hdir : p.mlog.sgLogdir = l.dir)
    (hname : p.mlog.sgLogfilename = l.name) (data : Bytes) :
    Function.update p.files (logPath p.mlog) ((sink p).all ++ landed p.mlog data) = l.write data (filesOf p) := by
  have hpath : l.logPath = Session.logPath p.mlog := by rw [Session.logPath, hdir, hname]; rfl
  rw [landed, OpenLog.write, hdir, hpath, filesOf]
  split_ifs
  · rw [List.append_nil]
  · rw [Function.update_self, Function.update_idem]

theorem filesOf_effect {p p' : Proc} {lb : LogBuffer} {s : Sink Byte} (he : Effect p p' lb s) :
    filesOf p' = Function.update p.files (logPath p.mlog) s.all := by
  rw [filesOf, he.path, he.sink, he.files, Function.update_idem]

section Steps

variable {share : Bool} {st : FormatStatics} {lc : Libc} {p : Proc} {j : State} {l : OpenLog} {lb : LogBuffer}

/-- **What an operation does to an open log**, from its effect. -/
theorem Sim.effect (h : Sim share st p j) (hl : SimLog p l lb) {p' : Proc} {lb' : LogBuffer} {w : Bytes}
    {s : Sink Byte} (he : Effect p p' lb' s) (hs : s.all = (sink p).all ++ landed p.mlog w)
    (hst : p'.statics = p.statics) :
    Sim share st p' { j with files := l.write w j.files, log := some { l with pending := lb'.content } } := by
  obtain ⟨mt, hmt, hopen⟩ := hl.mapped
  refine ⟨?_, he.mode.trans h.mode, he.thread.trans h.thread, hst.trans h.statics, .inr ⟨_, lb', rfl,
    he.opened hl.flag, he.dir.trans hl.dir, he.name.trans hl.name, ⟨mt, he.mmapFile.trans hmt, hopen⟩, rfl⟩⟩
  rw [filesOf_effect he, hs, files_write hl.dir hl.name, h.files]

/-- **A flush.** -/
theorem Sim.flush (h : Sim share st p j) (lc : Libc) {env : FileEnv} (henv : env.Succeeds) :
    ∃ p', logThreadTask lc env p = some p' ∧ Sim share st p' j.flush := by
  obtain ⟨hnone, hc⟩ | ⟨l, lb, hsome, hl⟩ := h.log
  · have hs : logThreadTask lc env p = some p := step_of_not_wakes lc hc (show ¬ Wakes (.task env) from id)
    refine ⟨p, hs, ?_⟩
    rw [State.flush, hnone]
    exact h
  · obtain ⟨p', hs, he⟩ := logThreadTask_effect hl.toLive lc env
    have hsim := h.effect hl he (all_writeBack henv lc p.mlog lb.content (sink p))
      (statics_of_step (show Appender.step lc p (.task env) = some p' from hs))
    rw [LogBuffer.content_clear, hl.pending] at hsim
    refine ⟨p', hs, ?_⟩
    rw [State.flush, hsome]
    exact hsim

/-- **An append in async mode**: its line waits, as far as there is room. -/
theorem appendEx_async_line (h : Opened p lb) (hm : p.mlog.sgMode = .async) (env : FileEnv)
    {log : Option CStr} {info : Option LogInfo} {logBuff : PtrBuffer}
    (hf : logFormater lc p.statics info log temp = some (p.statics, logBuff)) (hr : IsRecord logBuff) :
    ∃ p' lb', logAppenderAppendEx lc env log info p = some p' ∧ Effect p p' lb' (sink p) ∧
      lb'.content = (lb.content ++ waitingLine logBuff.content lb.buff.length).take 153600 := by
  have hle := h.length_le
  have hent := isRecord_entryOf hr lb.buff.length
  have hlen := hent.length_content_le
  have hline : (entryOf logBuff lb.buff.length).content = waitingLine logBuff.content lb.buff.length := by
    unfold entryOf waitingLine
    split_ifs with hge
    · exact content_overloadLine (hr.mem.trans hr.cap) hr.cap hge (by omega)
    · rfl
  have hd : lb.buff.length + (entryOf logBuff lb.buff.length).content.length < 2 ^ 32 := by omega
  have he := h.effect_buff (h.good.write hent.content_ne_nil hd hent.head?_content)
    (h.good.maxLength_write hent.content_ne_nil hd)
  refine ⟨_, _, ?_, he, ?_⟩
  · rw [logAppenderAppendEx, if_neg (by simp [h.flag]), if_neg (by simp [hm]), appenderAsync_eq h.toLive hf hr]
  · rw [h.good.content_write hent.content_ne_nil hd, h.cap, hline]

/-- An append of what cannot be printed does not return. -/
theorem appendEx_of_print_none (h : Opened p lb) (env : FileEnv) {log : Option CStr} {info : Option LogInfo}
    (hf : logFormater lc p.statics info log temp = none) : logAppenderAppendEx lc env log info p = none := by
  by_contra hne
  obtain ⟨p', hs⟩ := Option.ne_none_iff_exists'.mp hne
  obtain ⟨data, logBuff, hp, -⟩ := logAppenderAppendEx_printed h hs
  exact Option.some_ne_none _ (hp.symm.trans hf)

/-- **An append.** -/
theorem Sim.append (h : Sim share st p j) (lc : Libc) {env : FileEnv} (henv : env.Succeeds)
    (log : Option CStr) (info : Option LogInfo) :
    Option.Rel (Sim share st) (logAppenderAppendEx lc env log info p) (j.append (printRecord lc st info log)) := by
  obtain ⟨hnone, hc⟩ | ⟨l, lb, hsome, hl⟩ := h.log
  · have hs : logAppenderAppendEx lc env log info p = some p :=
      step_of_not_wakes lc hc (show ¬ Wakes (.appendEx env log info) from id)
    rw [hs, State.append, hnone]
    exact .some h
  · have hstatics : ∀ {p'}, logAppenderAppendEx lc env log info p = some p' → p'.statics = p.statics := fun hs =>
      statics_of_step (show Appender.step lc p (.appendEx env log info) = some _ from hs)
    rw [State.append, hsome]
    dsimp only
    cases hf : logFormater lc p.statics info log temp with
    | none =>
      have hprint : printRecord lc st info log = none := by rw [printRecord, ← h.statics, hf]; rfl
      rw [appendEx_of_print_none hl.toOpened env hf, hprint]
      exact .none
    | some r =>
      obtain ⟨st', logBuff⟩ := r
      obtain ⟨rfl, hr⟩ := logFormater_temp hf
      have hprint : printRecord lc st info log = some logBuff.content := by rw [printRecord, ← h.statics, hf]; rfl
      rw [hprint, Option.map_some]
      cases hm : p.mlog.sgMode with
      | sync =>
        obtain ⟨p', hs, he⟩ := appendEx_sync_effect env hl.toOpened hm ⟨logBuff, hf, hr, rfl⟩
        have hsim := h.effect hl he (all_writeBack henv lc p.mlog logBuff.content (sink p)) (hstatics hs)
        have hmode : j.mode = .sync := h.mode.symm.trans hm
        rw [hl.pending, hmode] at hsim
        rw [hs, hmode]
        exact .some hsim
      | async =>
        obtain ⟨p', lb', hs, he, hc⟩ := appendEx_async_line hl.toOpened hm env hf hr
        have hnil : (sink p).all = (sink p).all ++ landed p.mlog [] := by rw [landed_nil, List.append_nil]
        have hsim := h.effect hl he hnil (hstatics hs)
        have hmode : j.mode = .async := h.mode.symm.trans hm
        have hlen : lb.buff.length = l.pending.length := by rw [← hl.pending, ← hl.good.length_content]
        rw [OpenLog.write_nil, hc, hl.pending, hlen, hmode] at hsim
        rw [hs, hmode]
        exact .some hsim

theorem openMmap_mapped {oenv : OpenEnv} (ho : oenv.openOk = true) (hm : oenv.mmapOk = true) (path : Bytes)
    (files : Disk) :
    openMmap oenv ⟨none, false⟩ [] path kBufferBlockLength files =
      (some (openBlock oenv files path), ⟨some path, true⟩,
        Function.update files path (openBlock oenv files path)) := by
  have hk : kBufferBlockLength.toNat = 150 * 1024 := rfl
  simp only [openMmap, ho, hm, if_true, hk, openBlock]
  rfl

theorem openMmap_unmapped {oenv : OpenEnv} (ho : oenv.openOk = false) (path : Bytes) (files : Disk) :
    openMmap oenv ⟨none, false⟩ [] path kBufferBlockLength files = (none, ⟨none, false⟩, files) := by
  simp [openMmap, ho]

theorem Sim.opening (h : Sim share st p j) (hc : Closed p) (lc : Libc) {env : FileEnv} (henv : env.Succeeds)
    {mt : MmappedFile} (files : Disk) {m : Bytes} (hml : m.length = 150 * 1024) (mode : AppendMode)
    {filedir filename : CStr}
    (hfd : mt.isOpen = true → mt.mmapFd = some (mmapFilePath filedir.bytes filename.bytes)) {tmp : AutoBuffer}
    (ht : tmp.ptrBytes = if m.head? = some 0 then none else some m) :
    let l : OpenLog := ⟨filedir.bytes, filename.bytes, mt.isOpen, []⟩
    Sim share st (log2fileTmp lc env tmp
        (Lifecycle.opening p mt files (LogBuffer.ofBlock m (150 * 1024)).clear mode filedir filename))
      ⟨l.write (recovered m) files, mode, some l⟩ := by
  intro l
  have ho := opened_opening hc files hml mode hfd
  have he := log2fileTmp_effect ho.toLive lc env ht
  have hall := all_writeBack henv lc (Lifecycle.opening p mt files (LogBuffer.ofBlock m (150 * 1024)).clear mode
    filedir filename).mlog (recovered m) (sink (Lifecycle.opening p mt files (LogBuffer.ofBlock m (150 * 1024)).clear
      mode filedir filename))
  have hfiles : filesOf (Lifecycle.opening p mt files (LogBuffer.ofBlock m (150 * 1024)).clear mode filedir filename) =
      files := filesOf_of_held (show held p.mlog = [] by rw [held, hc.file])
  refine ⟨?_, he.mode, he.thread.trans h.thread,
    (statics_log2fileTmp lc env tmp _).trans h.statics,
    .inr ⟨l, _, rfl, he.opened rfl, he.dir, he.name, ⟨mt, he.mmapFile, rfl⟩, LogBuffer.content_clear _⟩⟩
  have hwrite := files_write (p := Lifecycle.opening p mt files (LogBuffer.ofBlock m (150 * 1024)).clear mode filedir
    filename) (l := l) rfl rfl (recovered m)
  rw [hfiles] at hwrite
  exact (filesOf_effect he).trans ((congrArg _ hall).trans hwrite)

/-- **An open.** -/
theorem Sim.open (h : Sim share st p j) (lc : Libc) (oenv : OpenEnv) {env : FileEnv} (henv : env.Succeeds)
    (mode : AppendMode) (filedir filename : CStr) :
    Option.Rel (Sim share st) (logAppenderOpen lc oenv env mode filedir filename p)
      (j.open oenv mode filedir.bytes filename.bytes) := by
  obtain ⟨hnone, hc⟩ | ⟨l, lb, hsome, hl⟩ := h.log
  · rw [State.open, hnone]
    dsimp only
    by_cases hfail : oenv.openOk = true ∧ ¬ oenv.mmapOk = true
    · rw [if_pos hfail, logAppenderOpen_failed hc lc hfail.1 hfail.2]
      exact .none
    rw [if_neg hfail]
    have hm : oenv.openOk = true → oenv.mmapOk = true := fun ho => by
      by_contra hm
      exact hfail ⟨ho, hm⟩
    obtain ⟨tmp, hs, ht⟩ := logAppenderOpen_eq hc lc oenv hm env mode filedir filename
    have hml := length_openBlock oenv p.files (mmapFilePath filedir.bytes filename.bytes)
    rw [hs, ← h.files, filesOf_of_closed hc]
    cases ho : oenv.openOk with
    | false =>
      rw [openMmap_unmapped ho]
      exact .some (h.opening hc lc henv p.files hml mode (by rintro ⟨⟩) ht)
    | true =>
      rw [openMmap_mapped ho (hm ho)]
      exact .some (h.opening hc lc henv _ hml mode (fun _ => rfl) ht)
  · have hs : logAppenderOpen lc oenv env mode filedir filename p = some p := by
      simp [logAppenderOpen, hl.flag]
    rw [hs, State.open, hsome]
    exact .some h

theorem State.close_eq (hsome : j.log = some l) (flushes : Bool) :
    j.close flushes =
      let files := l.write (if flushes then l.pending else []) j.files
      ⟨if l.mapped then Function.update files l.mapPath (List.replicate 153600 0) else files, j.mode, none⟩ := by
  cases flushes with
  | false => simp only [State.close, Bool.false_eq_true, if_false, hsome, OpenLog.write_nil]
  | true =>
    simp only [State.close, if_true, State.flush, hsome]
    rfl

theorem all_closeBack (lc : Libc) (ht : p.mlog.sgThreadAsync = if share then .shared else .own)
    {worker : Option FileEnv} {env : FileEnv} (henv : env.Succeeds) (hworker : ∀ wenv ∈ worker, FileEnv.Succeeds wenv) (data : Bytes)
    (s : Sink Byte) :
    (closeBack lc worker env p.mlog data s).all =
      s.all ++ landed p.mlog (if share || worker.isSome then data else []) := by
  cases share with
  | true =>
    rw [closeBack_shared lc worker env ht]
    exact all_writeBack henv lc p.mlog data s
  | false =>
    unfold closeBack
    rw [ht]
    cases worker with
    | none => exact (List.append_nil _).symm.trans (congrArg _ (landed_nil _).symm)
    | some wenv => exact all_writeBack (hworker wenv rfl) lc p.mlog data s

/-- **The end of `close`**: the mapped file is wiped, and the log file is closed. -/
theorem close_free (h : Live p lb) (hf : p.mlog.sgLogClose = true) {mt : MmappedFile}
    (hmt : p.mlog.sgMmapFile = some mt) {env : FileEnv} (henv : env.fcloseStored = none) :
    ∃ p', ((freeLogBuff p).bind fun p => some (closelogfile env p)) = some p' ∧ Closed p' ∧
      p'.files = (if mt.isOpen then Function.update (filesOf p)
        (mmapFilePath p.mlog.sgLogdir p.mlog.sgLogfilename) (List.replicate 153600 0) else filesOf p) ∧
      p'.mlog.sgMode = p.mlog.sgMode ∧ p'.mlog.sgThreadAsync = p.mlog.sgThreadAsync := by
  have hk : kBufferBlockLength.toNat = 153600 := rfl
  obtain ⟨mt', hmt', hfd⟩ := h.mmap
  cases hmt.symm.trans hmt'
  let files := if mt.isOpen then Function.update p.files (mmapFilePath p.mlog.sgLogdir p.mlog.sgLogfilename)
    (List.replicate 153600 0) else p.files
  let p₂ : Proc := { p with mlog := { p.mlog with sgMmapFile := none, sgLogBuff := none }, files := files }
  have hne := (mmapFilePath_ne_logfilePath p.mlog.sgLogdir p.mlog.sgLogfilename).symm
  have hfree : freeLogBuff p = some p₂ := by
    rw [freeLogBuff, hmt, Option.map_some, h.block, hk]
    cases ho : mt.isOpen with
    | false => simp only [p₂, files, ho, Bool.false_eq_true, if_false]
    | true => simp only [p₂, files, ho, if_true, closeMmap, hfd ho]
  have hfile : files (logPath p.mlog) = logFile p := by
    by_cases ho : mt.isOpen = true
    · exact (congrFun (if_pos ho) _).trans (Function.update_of_ne hne ..)
    · exact congrFun (if_neg ho) _
  have hsink : sink p₂ = sink p := Sink.ext hfile rfl
  have hr := closelogfile_refiled (p := p₂) h.handle env
  rw [hsink, henv] at hr
  refine ⟨closelogfile env p₂, by rw [hfree]; rfl, closed_closelogfile env hf rfl rfl h.block, ?_, ?_, ?_⟩
  · obtain ⟨f, t, d, he⟩ := hr.eq
    rw [he]
    show Function.update files (logPath p.mlog) (sink p).all = _
    by_cases ho : mt.isOpen = true
    · rw [if_pos ho, show files = _ from if_pos ho, filesOf]
      exact Function.update_comm hne.symm ..
    · rw [if_neg ho, show files = _ from if_neg ho, filesOf]
  · exact closelogfile_sgMode env p₂
  · obtain ⟨f, t, d, he⟩ := hr.eq
    rw [he]

/-- **A close.** -/
theorem Sim.close (h : Sim share st p j) (lc : Libc) {worker : Option FileEnv} {env : FileEnv}
    (henv : env.Succeeds) (hworker : ∀ wenv ∈ worker, FileEnv.Succeeds wenv) :
    ∃ p', logAppenderClose lc worker env p = some p' ∧
      Sim share st p' (j.close (share || worker.isSome)) := by
  obtain ⟨hnone, hc⟩ | ⟨l, lb, hsome, hl⟩ := h.log
  · refine ⟨p, step_of_not_wakes lc hc (show ¬ Wakes (.close worker env) from id), ?_⟩
    have hj : j.close (share || worker.isSome) = j := by
      cases share || worker.isSome <;> simp [State.close, State.flush, hnone]
    rw [hj]
    exact h
  · let p₀ : Proc := { p with mlog := { p.mlog with sgLogClose := true } }
    have h₀ : Live p₀ lb := ⟨hl.buff, hl.good, hl.cap, hl.block, hl.mmap, hl.handle⟩
    obtain ⟨p₁, lb₁, ht, he⟩ := closeTask_effect h₀ lc worker env
    have hall := all_closeBack (p := p₀) lc h.thread henv hworker lb.content (sink p₀)
    rw [hl.pending] at hall he
    obtain ⟨mt, hmt, hopen⟩ := hl.mapped
    obtain ⟨p', hfree, hc, hfiles, hmode, hthread⟩ := close_free he.live he.flag (he.mmapFile.trans hmt)
      henv.2.2.2.2
    have hs : logAppenderClose lc worker env p = some p' := by
      rw [← hfree, logAppenderClose, if_neg (by simp [hl.flag]), ht]
      rfl
    have hpath : mmapFilePath p₀.mlog.sgLogdir p₀.mlog.sgLogfilename = l.mapPath := by
      rw [OpenLog.mapPath, ← hl.dir, ← hl.name]
    have hstatics : p'.statics = p.statics :=
      statics_of_step (show Appender.step lc p (.close worker env) = some p' from hs)
    refine ⟨p', hs, ?_⟩
    rw [State.close_eq hsome]
    refine ⟨?_, hmode.trans (he.mode.trans h.mode), hthread.trans (he.thread.trans h.thread),
      hstatics.trans h.statics, .inl ⟨rfl, hc⟩⟩
    have hp₀ : filesOf p₀ = filesOf p := rfl
    rw [filesOf_of_closed hc, hfiles, filesOf_effect he, hall, files_write (p := p₀) hl.dir hl.name, he.dir, he.name,
      hopen, hpath, hp₀, ← h.files]

/-- **Every operation.** -/
theorem Sim.step (h : Sim share st p j) (lc : Libc) {op : Op} (hop : OpSucceeds op) :
    Option.Rel (Sim share st) (Appender.step lc p op) (next share (printRecord lc st) j op) := by
  cases op with
  | «open» oenv env mode filedir filename => exact h.open lc oenv hop mode filedir filename
  | append env log => exact h.append lc hop log none
  | appendEx env log info => exact h.append lc hop log info
  | task env =>
    obtain ⟨p', hs, h'⟩ := h.flush lc hop
    rw [Appender.step, hs]
    exact .some h'
  | flushSync env =>
    rw [Appender.step, next, logAppenderFlushSync_eq, h.mode]
    split_ifs
    · exact .some h
    · obtain ⟨p', hs, h'⟩ := h.flush lc hop
      rw [hs]
      exact .some h'
  | setmode mode =>
    refine .some ⟨h.files, rfl, h.thread, h.statics, ?_⟩
    rcases h.log with ⟨hnone, hc⟩ | ⟨l, lb, hsome, hl⟩
    · exact .inl ⟨hnone, ⟨hc.flag, hc.buff, hc.mmap, hc.file, hc.block⟩⟩
    · exact .inr ⟨l, lb, hsome, hl.toOpened.setmode mode, hl.dir, hl.name, hl.mapped, hl.pending⟩
  | close worker env =>
    obtain ⟨p', hs, h'⟩ := h.close lc hop.1 hop.2
    rw [Appender.step, hs]
    exact .some h'

end Steps

/-- **The code refines the journal.** If all file operations succeed, then operations on a new appender can be
taken, whatever they are and in any order, exactly if they can be taken on the journal; and both end in the same
mode, with the same bytes waiting, and with the same files, as far as the bytes that an open `FILE` still holds
are counted with its file. -/
theorem refines_journal (lc : Libc) (useShareThread : Bool) (files : Disk) (st : FormatStatics) {ops : List Op}
    (hops : ∀ op ∈ ops, OpSucceeds op) :
    Option.Rel (Sim useShareThread st) (run (step lc) (.create useShareThread files st) ops)
      (run (next useShareThread (printRecord lc st)) (.create files) ops) :=
  run_rel (C := fun _ => OpSucceeds) (fun _ _ _ h hop => h.step lc hop) ops (sim_create useShareThread files st)
    (meets_of_forall hops)

/-- A new appender, opened in sync mode, and one record: the log file of the journal has it, the one of the code
is empty, and its `FILE` holds the record. -/
theorem refines_journal_sync :
    ∃ p j, run (step utc) fresh [.open .ok .ok .sync textA textA, .append .ok (some textA)] = some p ∧
      run (next true (printRecord utc ⟨0, 0⟩)) (.create fun _ => [])
        [.open .ok .ok .sync textA textA, .append .ok (some textA)] = some j ∧ Sim true ⟨0, 0⟩ p j ∧
      sink p = ⟨[], ascii "a\n"⟩ ∧ j.files (ascii "a/a.mtlog") = ascii "a\n" := by
  have hne : textA.bytes ≠ [] := by decide
  have hempty : EmptyMapping (fun _ => []) (mmapFilePath textA.bytes textA.bytes) := by
    rw [EmptyMapping, resize, List.take_nil, List.nil_append, List.head?_replicate]; rfl
  obtain ⟨p₁, lb, hs₁, ho, -, hmode, -, hd, hn, hsink₁⟩ := open_emptyMapping utc true ⟨0, 0⟩ .ok .sync hempty
  obtain ⟨p, hs, he⟩ := appendEx_sync_effect .ok ho hmode (printed_none utc p₁.statics hne)
  have hops : ∀ op ∈ ([.open .ok .ok .sync textA textA, .append .ok (some textA)] : List Op), OpSucceeds op := by
    intro op hop
    simp only [List.mem_cons, List.not_mem_nil, or_false] at hop
    rcases hop with rfl | rfl <;> exact FileEnv.succeeds_ok
  have hr : run (step utc) fresh [.open .ok .ok .sync textA textA, .append .ok (some textA)] = some p :=
    run_of_step hs₁ (run_of_step hs rfl)
  have hsink : sink p = ⟨[], ascii "a\n"⟩ := by
    have hback : ∀ s : Sink Byte, s = ⟨[], []⟩ →
        writeBack utc .ok p₁.mlog (formatRecord textA.bytes) s = ⟨[], ascii "a\n"⟩ := by
      rintro _ rfl
      rw [writeBack, if_neg (by rw [hd]; decide), if_pos (.inr rfl), Sink.close_of_held _ rfl, ite_self, hmode]
      decide
    rw [he.sink, hback _ hsink₁]
  have hrel := refines_journal utc true (fun _ => []) ⟨0, 0⟩ hops
  rw [show Proc.create true (fun _ => []) ⟨0, 0⟩ = fresh from rfl, hr] at hrel
  cases hj : run (next true (printRecord utc ⟨0, 0⟩)) (.create fun _ => [])
    [.open .ok .ok .sync textA textA, .append .ok (some textA)] with
  | none => rw [hj] at hrel; cases hrel
  | some j =>
    rw [hj] at hrel
    cases hrel with
    | some hsim =>
      refine ⟨p, j, hr, rfl, hsim, hsink, ?_⟩
      have hpath : logPath p.mlog = ascii "a/a.mtlog" := by rw [he.path, logPath, hd, hn]; rfl
      rw [← hsim.files, filesOf, hpath, Function.update_self, hsink]
      rfl

end MTAppenderFile.Loglib.Journal
