import MTAppenderFile.Loglib.World

/-! # The functions as code

The statement at every program point: the functions of `loglib/mtaf_appender.cpp` and, where they call them,
of `comm/mtaf_thread.h` and `comm/mtaf_condition.h`, in the order of the source. The code of a function that
is called by others is given the point it returns to (`ret`) and its place in the caller (`here`).

`step` is one step of the process: a thread that is idle calls a function, or a thread takes the statement it
is at. A function is called on an appender that `mtaf_log_appender_create` has returned and that has not been
passed to `mtaf_log_appender_destroy`. -/

namespace MTAppenderFile.Loglib.World

open MTAppenderFile.Comm.CTypes
open MTAppenderFile.Loglib.Base
open MTAppenderFile.Loglib.Files
open MTAppenderFile.Loglib.Formatter
open MTAppenderFile.Loglib.Appender

/-! ### Parts of the functions -/

/-- `__log2file(mlog, data, len)`. -/
def log2fileCode (m : Mlog) (data : Bytes) (here : Log2filePc → Pc) (ret : Pc) : Log2filePc → Stmt
  | .test => .app m .emptyDir fun empty => if data.isEmpty || empty then ret else here .lock
  | .lock => .lock (.logFile m) (here .write)
  | .write => .app m (.log2file data) fun _ => here .unlock
  | .unlock => .unlock (.logFile m) ret

/-- `if (tmp.Ptr()) __log2file(mlog, tmp.Ptr(), tmp.Length())`. -/
def fileTmp (file : Bytes → Log2filePc → Pc) (ret : Pc) : Option Bytes → Pc
  | some data => file data .test
  | none => ret

/-- `__log_thread_task(mlog)`. -/
def taskCode (m : Mlog) (here : TaskPc → Pc) (ret : Pc) : TaskPc → Stmt
  | .load => .app m .loadBuff fun null => if null then ret else here .lock
  | .lock => .lock (.bufferAsync m) (here .drain)
  | .drain => .app m .drain fun tmp => here (.unlock tmp)
  | .unlock tmp => .unlock (.bufferAsync m) (fileTmp (fun data pc => here (.file data pc)) ret tmp)
  | .file data pc => log2fileCode m data (fun pc => here (.file data pc)) ret pc

/-- `Thread::start()`. -/
def startCode (a : Async) (here : StartPc → Pc) (ret : Pc) : StartPc → Stmt
  | .lock => .lock (.splock a) (here .start)
  | .start => .start a (here .unlock)
  | .unlock => .unlock (.splock a) ret

/-- `Condition::wait(millisecond)`. -/
def waitCode (a : Async) (here : WaitPc → Pc) (ret : Pc) : WaitPc → Stmt
  | .lock => .lock (.cond a) (here .cas)
  | .cas => .cas a fun notified => if notified then here .clear else here .block
  | .block => .block a (here .blocked)
  | .blocked => .sleep (here .relock)
  | .relock => .lock (.cond a) (here .clear)
  | .clear => .clear a (here .unlock)
  | .unlock => .unlock (.cond a) ret

/-! ### Creating, opening and appending -/

/-- `mtaf_log_appender_create(use_share_thread)`. -/
def createCode (m : Mlog) (here : CreatePc → Pc) : CreatePc → Stmt
  | .threadLock => .lock (.splock (.own m)) (here .threadUnlock)
  | .threadUnlock => .unlock (.splock (.own m)) (here .give)
  | .spinLock => .lock .spinlock (here .push)
  | .push => .vec (.push m) fun _ => here .spinUnlock
  | .spinUnlock => .unlock .spinlock (here .give)
  | .give => .give m .idle

/-- `mtaf_log_appender_setmode(mlog, _mode)`. -/
def setmodeCode (m : Mlog) (mode : AppendMode) (here : SetmodePc → Pc) (ret : Pc) : SetmodePc → Stmt
  | .store => .app m (.storeMode mode) fun _ => here .notifyOwn
  | .notifyOwn => .notifyAll (.own m) (here .notifyShared)
  | .notifyShared => .notifyAll .shared (here .mode)
  | .mode => .app m .loadMode fun mode => if mode = .async then here .isruning else ret
  | .isruning => .isruning m.sgThreadAsync fun run =>
      if !run && m.sgThreadAsync ≠ .shared then here (.start .lock) else ret
  | .start pc => startCode m.sgThreadAsync (fun pc => here (.start pc)) ret pc

/-- `mtaf_log_appender_open(mlog, _mode, filedir, filename)`. -/
def openCode (m : Mlog) (mode : AppendMode) (filedir filename : CStr) (here : OpenPc → Pc) :
    OpenPc → Stmt
  | .load => .app m .loadClose fun closed => if !closed then .idle else here .map
  | .map => .app m (.map filedir filename) fun block => here (.buff block)
  | .buff block => .app m (.buff block) fun _ => here .flush
  | .flush => .app m .drain fun tmp => here (.lock tmp)
  | .lock tmp => .lock (.logFile m) (here (.names tmp))
  | .names tmp => .app m (.names filedir filename) fun _ => here (.store tmp)
  | .store tmp => .app m (.storeClose false) fun _ => here (.setmode tmp .store)
  | .setmode tmp pc => setmodeCode m mode (fun pc => here (.setmode tmp pc)) (here (.unlock tmp)) pc
  | .unlock tmp => .unlock (.logFile m) (fileTmp (fun data pc => here (.file data pc)) .idle tmp)
  | .file data pc => log2fileCode m data (fun pc => here (.file data pc)) .idle pc

/-- `NULL != _info && LOG_LEVEL_FATAL == _info->level`. -/
def isFatal (info : Option LogInfo) : Bool := info.any fun info => info.level = LOG_LEVEL_FATAL

/-- The loop over `shared_appenders()` in `__appender_async`. -/
def scanCode (info : Option LogInfo) (here : ScanPc → Pc) (ret : Pc) : ScanPc → Stmt
  | .begin => .vec .begin fun it => here (.cond it)
  | .cond it => .vec (.more it) fun more => if more then here (.deref it) else ret
  | .deref it => .vec (.deref it) fun n => here (.load it n)
  | .load it n => .app n .loadClose fun closed => if closed then here (.next it) else here (.length it n)
  | .length it n => .app n .length fun full =>
      if full || isFatal info then here .notify else here (.next it)
  | .next it => .vec (.next it) fun it => here (.cond it)
  | .notify => .notifyAll .shared ret

/-- `mtaf_log_appender_append_ex(mlog, log, info)`. -/
def appendCode (m : Mlog) (info : Option LogInfo) (log : Option CStr) (here : AppendPc → Pc) :
    AppendPc → Stmt
  | .load => .app m .loadClose fun closed => if closed then .idle else here .mode
  | .mode => .app m .loadMode fun mode => if mode = .sync then here .format else here .lock
  | .format => .app m (.format info log) fun data => fileTmp (fun data pc => here (.file data pc)) .idle data
  | .file data pc => log2fileCode m data (fun pc => here (.file data pc)) .idle pc
  | .lock => .lock (.bufferAsync m) (here .test)
  | .test => .app m .loadBuff fun null => if null then here .unlock else here .insert
  | .insert => .app m (.insert info log) fun ok => if ok then here .length else here .unlock
  | .length => .app m .length fun full =>
      if full || isFatal info then here .notify else here .isruning
  | .notify => .notifyAll (.own m) (here .isruning)
  | .isruning => .isruning .shared fun run => if run then here (.scan .begin) else here (.start .lock)
  | .start pc => startCode .shared (fun pc => here (.start pc)) (here (.scan .begin)) pc
  | .scan pc => scanCode info (fun pc => here (.scan pc)) (here .unlock) pc
  | .unlock => .unlock (.bufferAsync m) .idle

/-- `mtaf_log_appender_flush(mlog)`. -/
def flushCode (m : Mlog) (here : FlushPc → Pc) : FlushPc → Stmt
  | .notifyOwn => .notifyAll (.own m) (here .notifyShared)
  | .notifyShared => .notifyAll .shared .idle

/-- `mtaf_log_appender_flush_sync(mlog)`. -/
def flushSyncCode (m : Mlog) (here : FlushSyncPc → Pc) : FlushSyncPc → Stmt
  | .mode => .app m .loadMode fun mode => if mode = .sync then .idle else here .lock
  | .lock => .lock (.bufferAsync m) (here .test)
  | .test => .app m .loadBuff fun null => if null then here (.unlock none) else here .drain
  | .drain => .app m .drain fun tmp => here (.unlock tmp)
  | .unlock tmp => .unlock (.bufferAsync m) (fileTmp (fun data pc => here (.file data pc)) .idle tmp)
  | .file data pc => log2fileCode m data (fun pc => here (.file data pc)) .idle pc

/-! ### Closing -/

/-- `mtaf_log_appender_close(mlog)`. -/
def closeCode (m : Mlog) (here : ClosePc → Pc) (ret : Pc) : ClosePc → Stmt
  | .load => .app m .loadClose fun closed => if closed then ret else here .store
  | .store => .app m (.storeClose true) fun _ => here .notifyOwn
  | .notifyOwn => .notifyAll (.own m) (here .isruning)
  | .isruning => .isruning m.sgThreadAsync fun run =>
      if run && m.sgThreadAsync ≠ .shared then here .joinLock else here .notifyShared
  | .joinLock => .lock (.splock m.sgThreadAsync) (here .join)
  | .join => .join m.sgThreadAsync fun found => here (.joinUnlock found)
  | .joinUnlock found => .unlock (.splock m.sgThreadAsync) (if found then here .readTid else here .notifyShared)
  | .readTid => .readTid m.sgThreadAsync fun tid => here (.pthreadJoin tid)
  | .pthreadJoin tid => .pthreadJoin m.sgThreadAsync tid (here .notifyShared)
  | .notifyShared => .notifyAll .shared
      (if m.sgThreadAsync = .shared then here (.task .load) else here .lock)
  | .task pc => taskCode m (fun pc => here (.task pc)) (here .lock) pc
  | .lock => .lock (.bufferAsync m) (here .free)
  | .free => .app m .free fun _ => here .unlock
  | .unlock => .unlock (.bufferAsync m) (here .fileLock)
  | .fileLock => .lock (.logFile m) (here .file)
  | .file => .app m .closelogfile fun _ => here .fileUnlock
  | .fileUnlock => .unlock (.logFile m) ret

/-- `mtaf_log_appender_destroy(mlog)`. -/
def destroyCode (m : Mlog) (here : DestroyPc → Pc) : DestroyPc → Stmt
  | .close pc => closeCode m (fun pc => here (.close pc))
      (if m.sgThreadAsync ≠ .shared then here .threadLock else here .spinLock) pc
  | .threadLock => .lock (.splock m.sgThreadAsync) (here .threadUnlock)
  | .threadUnlock => .unlock (.splock m.sgThreadAsync) (here .spinLock)
  | .spinLock => .lock .spinlock (here .erase)
  | .erase => .vec (.erase m) fun _ => here .spinUnlock
  | .spinUnlock => .unlock .spinlock (here .delete)
  | .delete => .delete m .idle

/-! ### The workers -/

/-- Where the target of a `Thread` starts. -/
def target : Async → Pc
  | .shared => .pass .lock
  | .own m => .loop m .top

/-- `Thread::start_routine`, but for the target. -/
def routineCode (a : Async) (here : RoutinePc → Pc) : RoutinePc → Stmt
  | .initLock => .lock (.splock a) (here .initUnlock)
  | .initUnlock => .unlock (.splock a) (target a)
  | .cleanLock => .lock (.splock a) (here .clean)
  | .clean => .cleanup a (here .cleanUnlock)
  | .cleanUnlock => .unlock (.splock a) .idle

/-- `__async_log_thread_operation(mlog)`. -/
def loopCode (m : Mlog) (here : LoopPc → Pc) (ret : Pc) : LoopPc → Stmt
  | .top => .app m .loadBuff fun null => if null then ret else here (.task .load)
  | .task pc => taskCode m (fun pc => here (.task pc)) (here .load) pc
  | .load => .app m .loadClose fun closed => if closed then ret else here (.wait .lock)
  | .wait pc => waitCode (.own m) (fun pc => here (.wait pc)) (here .top) pc

/-- `__async_log_shared_thread_operation()`. -/
def passCode (here : PassPc → Pc) (ret : Pc) : PassPc → Stmt
  | .lock => .lock .spinlock (here .empty)
  | .empty => .vec .empty fun empty => if empty then here .exit else here .begin
  | .exit => .unlock .spinlock ret
  | .begin => .vec .begin fun it => here (.cond it)
  | .cond it => .vec (.more it) fun more => if more then here (.deref it) else here .unlock
  | .deref it => .vec (.deref it) fun m => here (.load it m)
  | .load it m => .app m .loadClose fun closed => if closed then here (.next it) else here (.task it m .load)
  | .task it m pc => taskCode m (fun pc => here (.task it m pc)) (here (.next it)) pc
  | .next it => .vec (.next it) fun it => here (.cond it)
  | .unlock => .unlock .spinlock (here (.wait .lock))
  | .wait pc => waitCode .shared (fun pc => here (.wait pc)) (here .lock) pc

/-- **The statement at a program point.** -/
def code : Pc → Stmt
  | .idle => .stop
  | .create m pc => createCode m (.create m) pc
  | .open m mode filedir filename pc =>
    openCode m mode filedir filename (.open m mode filedir filename) pc
  | .append m info log pc => appendCode m info log (.append m info log) pc
  | .setmode m mode pc => setmodeCode m mode (.setmode m mode) .idle pc
  | .flush m pc => flushCode m (.flush m) pc
  | .flushSync m pc => flushSyncCode m (.flushSync m) pc
  | .close m pc => closeCode m (.close m) .idle pc
  | .destroy m pc => destroyCode m (.destroy m) pc
  | .routine a pc => routineCode a (.routine a) pc
  | .loop m pc => loopCode m (.loop m) (.routine (.own m) .cleanLock) pc
  | .pass pc => passCode .pass (.routine .shared .cleanLock) pc

/-! ### Steps of the process -/

/-- A call of a function on an appender. -/
inductive Use
  | open (mode : AppendMode) (filedir filename : CStr)
  | append (info : Option LogInfo) (log : Option CStr)
  | setmode (mode : AppendMode)
  | flush
  | flushSync
  | close
  | destroy

/-- Where the call starts. -/
def Use.entry (m : Mlog) : Use → Pc
  | .open mode filedir filename => .open m mode filedir filename .load
  | .append info log => .append m info log .load
  | .setmode mode => .setmode m mode .store
  | .flush => .flush m .notifyOwn
  | .flushSync => .flushSync m .mode
  | .close => .close m .load
  | .destroy => .destroy m (.close .load)

/-- Where `mtaf_log_appender_create` goes on with the new appender. -/
def createEntry (m : Mlog) : Pc := .create m (if m.useShareThread then .spinLock else .threadLock)

/-- What happens next: a caller creates an appender or calls a function on one, or a thread takes a step. -/
inductive Label
  | create (n : ℕ) (useShareThread : Bool)
  | call (n : ℕ) (m : Mlog) (u : Use)
  | run (t : Tid) (env : Env)

/-- The thread has returned from its last call, or has ended. -/
def Pc.isIdle : Pc → Bool
  | .idle => true
  | _ => false

/-- The new appender of `mtaf_log_appender_create`. -/
def State.new (w : State) (m : Mlog) : State :=
  { w with
    apps := Function.update w.apps m (logAppenderCreate m.useShareThread)
    alive := Function.update w.alive m true
    created := w.created + 1 }

/-- `mtaf_log_appender_destroy` takes the appender out of the hands of the program. -/
def State.passed (w : State) (m : Mlog) : Use → State
  | .destroy => { w with given := Function.update w.given m false }
  | _ => w

/-- **One step of the process.** -/
def step (lc : Libc) (w : State) : Label → Option State
  | .create n useShareThread =>
    if (w.pc (.caller n)).isIdle then
      some ((w.new ⟨useShareThread, w.created⟩).goto (.caller n) (createEntry ⟨useShareThread, w.created⟩))
    else none
  | .call n m u =>
    if (w.pc (.caller n)).isIdle ∧ w.given m then some ((w.passed m u).goto (.caller n) (u.entry m)) else none
  | .run t env => exec lc env t w (code (w.pc t))

end MTAppenderFile.Loglib.World
