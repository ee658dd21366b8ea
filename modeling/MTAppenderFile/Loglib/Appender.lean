import MTAppenderFile.Loglib.Buffer
import MTAppenderFile.Loglib.Files
import MTAppenderFile.Loglib.Formatter

/-! # The appender

The functions of `loglib/mtaf_appender.cpp` on one appender, each as a whole: this is the program with
one thread in it at a time. A `Proc` is the appender with the files and the static variables of the
formatter. `none` is undefined behaviour.

Each part of a function that runs under one of the two mutexes is a definition of its own
(`flushLogBuff` and `appenderAsync` under `sg_mutex_buffer_async`, `log2fileLocked` under
`sg_mutex_log_file`). Left out are the mutexes, the conditions and the console, which have no effect
here, and `sg_security` and `sg_custom_name`, which nothing reads. -/

namespace MTAppenderFile.Loglib.Appender

open MTAppenderFile.Lib.Block
open MTAppenderFile.Comm.CTypes
open MTAppenderFile.Comm.Auto
open MTAppenderFile.Comm.Ptr
open MTAppenderFile.Loglib.Base
open MTAppenderFile.Loglib.Buffer
open MTAppenderFile.Loglib.Files
open MTAppenderFile.Loglib.Formatter

/-- `kBufferBlockLength`. -/
def kBufferBlockLength : ℤ := 150 * 1024

/-- `mtaf_append_mode`. -/
inductive AppendMode
  | async
  | sync
  deriving DecidableEq, Repr

/-- Which thread `sg_thread_async` is: `shared_thread()` or the appender's own. -/
inductive ThreadAsync
  | shared
  | own
  deriving DecidableEq, Repr

/-- `mtaf_log_appender_t`. -/
structure LogAppender where
  sgLogdir : Bytes
  sgLogfilename : Bytes
  sgBufferblockLength : ℤ
  sgLogClose : Bool
  sgMmapFile : Option MmappedFile
  sgLogBuff : Option LogBuffer
  sgLogfile : Option File
  sgOpenfiletime : ℤ
  sgCurrentDir : Bytes
  sgThreadAsync : ThreadAsync
  sgMode : AppendMode
  deriving DecidableEq, Repr

/-- An appender, the files, and the statics of the formatter. -/
structure Proc where
  mlog : LogAppender
  files : Disk
  statics : FormatStatics

/-- `mtaf_log_appender_create(use_share_thread)`. -/
def logAppenderCreate (useShareThread : Bool) : LogAppender where
  sgLogdir := []
  sgLogfilename := []
  sgBufferblockLength := 0
  sgLogClose := true
  sgMmapFile := none
  sgLogBuff := none
  sgLogfile := none
  sgOpenfiletime := 0
  sgCurrentDir := []
  sgThreadAsync := if useShareThread then .shared else .own
  sgMode := .async

/-! ### Writing to the log file -/

/-- The test of `__openlogfile` for keeping the open file: the same day and the same directory. -/
def sameDay (lc : Libc) (env : FileEnv) (mlog : LogAppender) (logDir : Bytes) : Bool :=
  let tcur := lc.localtime env.now
  let filetm := lc.localtime mlog.sgOpenfiletime
  filetm.tmYear = tcur.tmYear && filetm.tmMon = tcur.tmMon && filetm.tmMday = tcur.tmMday &&
    mlog.sgCurrentDir = logDir

/-- `__openlogfile(mlog, _log_dir)`. -/
def openlogfile (lc : Libc) (env : FileEnv) (logDir : Bytes) (p : Proc) : Bool × Proc :=
  if p.mlog.sgLogdir = [] then (false, p)
  else if p.mlog.sgLogfile.isSome && sameDay lc env p.mlog logDir then (true, p)
  else
    let files := match p.mlog.sgLogfile with
      | some file => fclose env.fcloseOld file p.files
      | none => p.files
    let file := if env.fopenOk then some ⟨logfilePath logDir p.mlog.sgLogfilename, []⟩ else none
    (file.isSome, { p with
      files := files
      mlog := { p.mlog with sgOpenfiletime := env.now, sgCurrentDir := logDir, sgLogfile := file } })

/-- `__closelogfile(mlog)`. -/
def closelogfile (env : FileEnv) (p : Proc) : Proc :=
  match p.mlog.sgLogfile with
  | none => p
  | some file => { p with
      files := fclose env.fcloseStored file p.files
      mlog := { p.mlog with sgOpenfiletime := 0, sgLogfile := none } }

/-- `__log2file` under `sg_mutex_log_file`. -/
def log2fileLocked (lc : Libc) (env : FileEnv) (data : Bytes) (p : Proc) : Proc :=
  let (openSuccess, p) := openlogfile lc env p.mlog.sgLogdir p
  if openSuccess then
    let (writeSucess, file, files) := writefile env data p.mlog.sgLogfile p.files
    let p := { p with mlog := { p.mlog with sgLogfile := file }, files := files }
    let p := if p.mlog.sgMode = .async then closelogfile env p else p
    if ¬ writeSucess ∧ p.mlog.sgMode = .sync then closelogfile env p else p
  else p

/-- `__log2file(mlog, _data, _len)`. -/
def log2file (lc : Libc) (env : FileEnv) (data : Bytes) (p : Proc) : Proc :=
  if data = [] ∨ p.mlog.sgLogdir = [] then p else log2fileLocked lc env data p

/-- `if (tmp.Ptr()) __log2file(mlog, tmp.Ptr(), tmp.Length())`. -/
def log2fileTmp (lc : Libc) (env : FileEnv) (tmp : AutoBuffer) (p : Proc) : Proc :=
  match tmp.ptrBytes with
  | some data => log2file lc env data p
  | none => p

/-- `AutoBuffer tmp; sg_log_buff->Flush(tmp)`, if there is a buffer. -/
def flushLogBuff (mlog : LogAppender) : Option (LogAppender × AutoBuffer) :=
  match mlog.sgLogBuff with
  | none => some (mlog, .empty 128)
  | some lb => do
    let (lb, tmp) ← lb.flush (.empty 128)
    some ({ mlog with sgLogBuff := some lb }, tmp)

/-- `__log_thread_task(mlog)`. -/
def logThreadTask (lc : Libc) (env : FileEnv) (p : Proc) : Option Proc := do
  let (mlog, tmp) ← flushLogBuff p.mlog
  some (log2fileTmp lc env tmp { p with mlog := mlog })

/-- `mtaf_log_appender_flush_sync(mlog)`. -/
def logAppenderFlushSync (lc : Libc) (env : FileEnv) (p : Proc) : Option Proc :=
  if p.mlog.sgMode = .sync then some p
  else do
    let (mlog, tmp) ← flushLogBuff p.mlog
    some (log2fileTmp lc env tmp { p with mlog := mlog })

/-! ### Appending -/

/-- `__appender_sync` up to its call of `__log2file`: the bytes for the file, if there are any. -/
def appenderSyncBuffer (lc : Libc) (st : FormatStatics) (info : Option LogInfo) (log : Option CStr) :
    Option (FormatStatics × Option Bytes) := do
  let (statics, logBuff) ← logFormater lc st info log temp
  let data ← readBlock logBuff.parray logBuff.length
  let (ok, bufferCrypt, len) ← LogBuffer.writeOut data (List.replicate (16 * 1024) 0) (16 * 1024)
  if ok then do
    let data ← readBlock bufferCrypt len
    some (statics, some data)
  else some (statics, none)

/-- `__appender_sync(mlog, _info, _log)`. -/
def appenderSync (lc : Libc) (env : FileEnv) (info : Option LogInfo) (log : Option CStr) (p : Proc) :
    Option Proc := do
  let (statics, data) ← appenderSyncBuffer lc p.statics info log
  let p := { p with statics := statics }
  match data with
  | some data => some (log2file lc env data p)
  | none => some p

/-- The length from which on `__appender_async` drops records. -/
def overloadLength (mlog : LogAppender) : ℕ := sizeT ((mlog.sgBufferblockLength * 4).tdiv 5)

/-- The line that takes the place of a dropped record: `snprintf(temp, …)` and
`log_buff.Length(ret, ret)`. -/
def overloadLine (logBuff : PtrBuffer) (len : ℕ) : PtrBuffer :=
  let (out, ret) := snprintf (16 * 1024)
    (ascii "[F][ sg_buffer_async.Length() >= BUFFER_BLOCK_LENTH*4/5, len: " ++ decimal (int32 len) ++
      ascii "\n")
  { logBuff with parray := storeAll logBuff.parray (storesAt 0 out) }.setLength ret (sizeT ret)

/-- `__appender_async(mlog, _info, _log)`. -/
def appenderAsync (lc : Libc) (info : Option LogInfo) (log : Option CStr) (p : Proc) : Option Proc :=
  match p.mlog.sgLogBuff with
  | none => some p
  | some lb => do
    let (statics, logBuff) ← logFormater lc p.statics info log temp
    let logBuff := if lb.buff.length ≥ overloadLength p.mlog then overloadLine logBuff lb.buff.length
      else logBuff
    let data ← readBlock logBuff.parray (uint32 logBuff.length)
    some { p with statics := statics, mlog := { p.mlog with sgLogBuff := some (lb.write data).2 } }

/-- `mtaf_log_appender_append_ex(mlog, log, mLogInfo)`. -/
def logAppenderAppendEx (lc : Libc) (env : FileEnv) (log : Option CStr) (info : Option LogInfo)
    (p : Proc) : Option Proc :=
  if p.mlog.sgLogClose then some p
  else if p.mlog.sgMode = .sync then appenderSync lc env info log p
  else appenderAsync lc info log p

/-- `mtaf_log_appender_append(mlog, log)`. -/
def logAppenderAppend (lc : Libc) (env : FileEnv) (log : Option CStr) (p : Proc) : Option Proc :=
  logAppenderAppendEx lc env log none p

/-! ### Opening and closing -/

/-- `mtaf_log_appender_setmode(mlog, _mode)`. -/
def logAppenderSetmode (mode : AppendMode) (p : Proc) : Proc :=
  { p with mlog := { p.mlog with sgMode := mode } }

/-- The bytes of the block under the log buffer. -/
def Proc.block (p : Proc) : Bytes :=
  match p.mlog.sgLogBuff with
  | some lb => lb.buff.parray
  | none => []

/-- `mtaf_log_appender_open(mlog, _mode, filedir, filename)`. The block of the buffer is never at
`NULL`, so the return for that case is left out. -/
def logAppenderOpen (lc : Libc) (oenv : OpenEnv) (env : FileEnv) (mode : AppendMode)
    (filedir filename : CStr) (p : Proc) : Option Proc :=
  if ¬ p.mlog.sgLogClose then some p
  else do
    let len := if p.mlog.sgBufferblockLength ≤ 0 then kBufferBlockLength
      else p.mlog.sgBufferblockLength
    let mt := p.mlog.sgMmapFile.getD ⟨none, false⟩
    let (start, mt, files) :=
      openMmap oenv mt p.block (mmapFilePath filedir.bytes filename.bytes) len p.files
    let lb := LogBuffer.ofBlock (start.getD (resize oenv.heap len.toNat)) len.toNat
    let (lb, buffer) ← lb.flush (.empty 128)
    let p := { p with
      files := files
      mlog := { p.mlog with
        sgBufferblockLength := len
        sgMmapFile := some mt
        sgLogBuff := some lb
        sgLogdir := filedir.bytes
        sgLogfilename := filename.bytes
        sgLogClose := false } }
    some (log2fileTmp lc env buffer (logAppenderSetmode mode p))

/-- The end of `mtaf_log_appender_close` under `sg_mutex_buffer_async`: the mapping is wiped and
unmapped, or the heap block freed, and the buffer deleted. -/
def freeLogBuff (p : Proc) : Option Proc :=
  p.mlog.sgMmapFile.map fun mt =>
    { p with
      files := if mt.isOpen then
          (closeMmap mt (List.replicate p.mlog.sgBufferblockLength.toNat 0) p.files).2
        else p.files
      mlog := { p.mlog with sgMmapFile := none, sgLogBuff := none } }

/-- The flush of `mtaf_log_appender_close`. With a thread of its own, the worker runs
`__log_thread_task` once more before it is joined, or not at all (`worker = none`) if it was not
started. -/
def closeTask (lc : Libc) (worker : Option FileEnv) (env : FileEnv) (p : Proc) : Option Proc :=
  match p.mlog.sgThreadAsync, worker with
  | .own, some wenv => logThreadTask lc wenv p
  | .own, none => some p
  | .shared, _ => logThreadTask lc env p

/-- `mtaf_log_appender_close(mlog)`. -/
def logAppenderClose (lc : Libc) (worker : Option FileEnv) (env : FileEnv) (p : Proc) : Option Proc :=
  if p.mlog.sgLogClose then some p
  else do
    let p ← closeTask lc worker env { p with mlog := { p.mlog with sgLogClose := true } }
    let p ← freeLogBuff p
    some (closelogfile env p)

/-! ### Runs -/

/-- The operations of the program, each run as a whole, with what the environment does during it. -/
inductive Op
  | open (oenv : OpenEnv) (env : FileEnv) (mode : AppendMode) (filedir filename : CStr)
  | append (env : FileEnv) (log : Option CStr)
  | appendEx (env : FileEnv) (log : Option CStr) (info : Option LogInfo)
  | task (env : FileEnv)
  | flushSync (env : FileEnv)
  | setmode (mode : AppendMode)
  | close (worker : Option FileEnv) (env : FileEnv)

/-- One operation. -/
def step (lc : Libc) (p : Proc) : Op → Option Proc
  | .open oenv env mode filedir filename => logAppenderOpen lc oenv env mode filedir filename p
  | .append env log => logAppenderAppend lc env log p
  | .appendEx env log info => logAppenderAppendEx lc env log info p
  | .task env => logThreadTask lc env p
  | .flushSync env => logAppenderFlushSync lc env p
  | .setmode mode => some (logAppenderSetmode mode p)
  | .close worker env => logAppenderClose lc worker env p

/-- The process with a new appender. -/
def Proc.create (useShareThread : Bool) (files : Disk) (statics : FormatStatics) : Proc :=
  ⟨logAppenderCreate useShareThread, files, statics⟩

end MTAppenderFile.Loglib.Appender
