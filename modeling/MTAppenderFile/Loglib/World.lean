import MTAppenderFile.Lib.Vector
import MTAppenderFile.Loglib.Threads

/-! # All appenders and all threads

The process with any number of appenders, their threads, and the locks between them. `Threads` has one
appender and takes a section under a mutex as one step; here every lock is taken and released in a step of its
own, and so is everything between.

A thread is at a program point (`Pc`), and the code there is one statement (`Stmt`) with the point where the
thread goes on, which may depend on what the statement gives. What a statement does is `exec`. It is undefined
(`none`) when it has to wait, and when the program has undefined behaviour: an appender that was deleted, a
buffer or a mapping that is gone, an iterator that is not valid.

The shared objects (`shared_thread()` and so on) are taken to exist from the start. Left out are the console,
`sg_security`, `sg_custom_name`, the name, the target and the reference count of a `Thread`, whose
`RunnableReference` stays, and the signals. -/

namespace MTAppenderFile.Loglib.World

open MTAppenderFile.Lib.Vector
open MTAppenderFile.Comm.CTypes
open MTAppenderFile.Loglib.Base
open MTAppenderFile.Loglib.Buffer
open MTAppenderFile.Loglib.Files
open MTAppenderFile.Loglib.Formatter
open MTAppenderFile.Loglib.Appender
open MTAppenderFile.Loglib.Threads (drainBuffer)

/-! ### Names -/

/-- A `mtaf_log_appender *`: the appenders are numbered, and created with the shared thread or with one of
their own. -/
structure Mlog where
  useShareThread : Bool
  id : ℕ
  deriving DecidableEq

/-- `shared_thread()` with `shared_condition()`, or the thread of an appender with its
`sg_cond_buffer_async`. -/
inductive Async
  | shared
  | own (m : Mlog)
  deriving DecidableEq

/-- `sg_thread_async`. -/
def Mlog.sgThreadAsync (m : Mlog) : Async := if m.useShareThread then .shared else .own m

/-- The locks: `shared_spinlock()`, `sg_mutex_buffer_async`, `sg_mutex_log_file`, the `splock` of a
`Thread` and the `mutex_` of a `Condition`. -/
inductive Lock
  | spinlock
  | bufferAsync (m : Mlog)
  | logFile (m : Mlog)
  | splock (a : Async)
  | cond (a : Async)
  deriving DecidableEq

/-- The threads: those that call the functions, and those behind `Thread`. -/
inductive Tid
  | caller (n : ℕ)
  | worker (a : Async)
  deriving DecidableEq

/-! ### Program points -/

/-- In `__log2file`. -/
inductive Log2filePc
  | test
  | lock
  | write
  | unlock

/-- In `__log_thread_task`; `tmp` are the drained bytes. -/
inductive TaskPc
  | load
  | lock
  | drain
  | unlock (tmp : Option Bytes)
  | file (data : Bytes) (pc : Log2filePc)

/-- In `Thread::start`. -/
inductive StartPc
  | lock
  | start
  | unlock

/-- In `Condition::wait`: `block` is the entry of `pthread_cond_timedwait`, `blocked` its sleep and `relock`
its way out. -/
inductive WaitPc
  | lock
  | cas
  | block
  | blocked
  | relock
  | clear
  | unlock

/-- In `mtaf_log_appender_create`, behind `new`. `threadLock` and `threadUnlock` are those of the
constructor of `Thread`. -/
inductive CreatePc
  | threadLock
  | threadUnlock
  | spinLock
  | push
  | spinUnlock
  | give

/-- In `mtaf_log_appender_setmode`. -/
inductive SetmodePc
  | store
  | notifyOwn
  | notifyShared
  | mode
  | isruning
  | start (pc : StartPc)

/-- In `mtaf_log_appender_open`; `block` are the bytes under the buffer, `tmp` what was left in them. -/
inductive OpenPc
  | load
  | map
  | buff (block : Bytes)
  | flush
  | lock (tmp : Option Bytes)
  | names (tmp : Option Bytes)
  | store (tmp : Option Bytes)
  | setmode (tmp : Option Bytes) (pc : SetmodePc)
  | unlock (tmp : Option Bytes)
  | file (data : Bytes) (pc : Log2filePc)

/-- In the loop over `shared_appenders()` at the end of `__appender_async`. -/
inductive ScanPc
  | begin
  | cond (it : Iter)
  | deref (it : Iter)
  | load (it : Iter) (n : Mlog)
  | length (it : Iter) (n : Mlog)
  | next (it : Iter)
  | notify

/-- In `mtaf_log_appender_append_ex`: `format` and `file` in `__appender_sync`, the rest from `lock` on in
`__appender_async`. -/
inductive AppendPc
  | load
  | mode
  | format
  | file (data : Bytes) (pc : Log2filePc)
  | lock
  | test
  | insert
  | length
  | notify
  | isruning
  | start (pc : StartPc)
  | scan (pc : ScanPc)
  | unlock

/-- In `mtaf_log_appender_flush`. -/
inductive FlushPc
  | notifyOwn
  | notifyShared

/-- In `mtaf_log_appender_flush_sync`. -/
inductive FlushSyncPc
  | mode
  | lock
  | test
  | drain
  | unlock (tmp : Option Bytes)
  | file (data : Bytes) (pc : Log2filePc)

/-- In `mtaf_log_appender_close`; `joinLock` up to `pthreadJoin` in `Thread::join`, which has `found` the thread
running or not. -/
inductive ClosePc
  | load
  | store
  | notifyOwn
  | isruning
  | joinLock
  | join
  | joinUnlock (found : Bool)
  | readTid
  | pthreadJoin (tid : ℕ)
  | notifyShared
  | task (pc : TaskPc)
  | lock
  | free
  | unlock
  | fileLock
  | file
  | fileUnlock

/-- In `mtaf_log_appender_destroy`. `threadLock` and `threadUnlock` are those of the destructor of
`Thread`. -/
inductive DestroyPc
  | close (pc : ClosePc)
  | threadLock
  | threadUnlock
  | spinLock
  | erase
  | spinUnlock
  | delete

/-- In `Thread::start_routine`, before and after the target runs: `init` and `cleanup`. -/
inductive RoutinePc
  | initLock
  | initUnlock
  | cleanLock
  | clean
  | cleanUnlock

/-- In `__async_log_thread_operation`. -/
inductive LoopPc
  | top
  | task (pc : TaskPc)
  | load
  | wait (pc : WaitPc)

/-- In `__async_log_shared_thread_operation`. -/
inductive PassPc
  | lock
  | empty
  | exit
  | begin
  | cond (it : Iter)
  | deref (it : Iter)
  | load (it : Iter) (m : Mlog)
  | task (it : Iter) (m : Mlog) (pc : TaskPc)
  | next (it : Iter)
  | unlock
  | wait (pc : WaitPc)

/-- Where a thread is. A caller that is `idle` has returned from its last call, a worker has ended. -/
inductive Pc
  | idle
  | create (m : Mlog) (pc : CreatePc)
  | open (m : Mlog) (mode : AppendMode) (filedir filename : CStr) (pc : OpenPc)
  | append (m : Mlog) (info : Option LogInfo) (log : Option CStr) (pc : AppendPc)
  | setmode (m : Mlog) (mode : AppendMode) (pc : SetmodePc)
  | flush (m : Mlog) (pc : FlushPc)
  | flushSync (m : Mlog) (pc : FlushSyncPc)
  | close (m : Mlog) (pc : ClosePc)
  | destroy (m : Mlog) (pc : DestroyPc)
  | routine (a : Async) (pc : RoutinePc)
  | loop (m : Mlog) (pc : LoopPc)
  | pass (pc : PassPc)

/-! ### Statements -/

/-- What `pthread_create` does; when it fails, `tid` is undefined. -/
inductive PthreadCreate
  | ok
  | failed (tid : ℕ)
  deriving DecidableEq

/-- What the environment does during a step: the calls of a write-back and of `mtaf_open_mmap`, the room that a
vector makes, and `pthread_create`. -/
structure Env where
  file : FileEnv
  mmap : OpenEnv
  room : ℕ
  create : PthreadCreate

/-- Every call succeeds, and a vector makes room for one more. -/
def Env.ok : Env := ⟨.ok, .ok, 0, .ok⟩

/-- What is done to one appender in one step, and what kind of value it gives. -/
inductive AppOp : Type → Type
  | loadClose : AppOp Bool
  | storeClose (b : Bool) : AppOp Unit
  | loadMode : AppOp AppendMode
  | storeMode (mode : AppendMode) : AppOp Unit
  | loadBuff : AppOp Bool
  | emptyDir : AppOp Bool
  | length : AppOp Bool
  | format (info : Option LogInfo) (log : Option CStr) : AppOp (Option Bytes)
  | insert (info : Option LogInfo) (log : Option CStr) : AppOp Bool
  | drain : AppOp (Option Bytes)
  | log2file (data : Bytes) : AppOp Unit
  | map (filedir filename : CStr) : AppOp Bytes
  | buff (block : Bytes) : AppOp Unit
  | names (filedir filename : CStr) : AppOp Unit
  | free : AppOp Unit
  | closelogfile : AppOp Unit

/-- What is done to `shared_appenders()`. -/
inductive VecOp : Type → Type
  | empty : VecOp Bool
  | begin : VecOp Iter
  | more (it : Iter) : VecOp Bool
  | deref (it : Iter) : VecOp Mlog
  | next (it : Iter) : VecOp Iter
  | push (m : Mlog) : VecOp Unit
  | erase (m : Mlog) : VecOp Unit

/-- A statement, and where the thread goes on. `start` and `join` are what `Thread::start` and `Thread::join`
do under `splock`, `cleanup` what `Thread::cleanup` does there; `readTid` is the `tid()` behind the unlock in
`Thread::join`. `cas` and `clear` are the two accesses to `anyway_notify_`. -/
inductive Stmt
  | stop
  | lock (l : Lock) (k : Pc)
  | unlock (l : Lock) (k : Pc)
  | app {α : Type} (m : Mlog) (op : AppOp α) (k : α → Pc)
  | vec {α : Type} (op : VecOp α) (k : α → Pc)
  | isruning (a : Async) (k : Bool → Pc)
  | start (a : Async) (k : Pc)
  | join (a : Async) (k : Bool → Pc)
  | readTid (a : Async) (k : ℕ → Pc)
  | pthreadJoin (a : Async) (tid : ℕ) (k : Pc)
  | cleanup (a : Async) (k : Pc)
  | notifyAll (a : Async) (k : Pc)
  | cas (a : Async) (k : Bool → Pc)
  | block (a : Async) (k : Pc)
  | sleep (k : Pc)
  | clear (a : Async) (k : Pc)
  | give (m : Mlog) (k : Pc)
  | delete (m : Mlog) (k : Pc)

/-! ### The state -/

/-- `RunnableReference`, and the number of the last thread that `pthread_create` has `started`. -/
structure Runnable where
  isended : Bool
  isjoined : Bool
  tid : ℕ
  started : ℕ

/-- **The state of the process.** `alive` are the appenders that have not been deleted, `given` those that
`mtaf_log_appender_create` has returned and that have not been passed to `mtaf_log_appender_destroy`, and
`created` is how many there have been. -/
structure State where
  apps : Mlog → LogAppender
  alive : Mlog → Bool
  given : Mlog → Bool
  created : ℕ
  files : Disk
  statics : FormatStatics
  sharedAppenders : Vec Mlog
  thread : Async → Runnable
  anywayNotify : Async → Bool
  owner : Lock → Option Tid
  pc : Tid → Pc

/-- Before the first call. -/
def State.init (files : Disk) (statics : FormatStatics) : State where
  apps := fun m => logAppenderCreate m.useShareThread
  alive := fun _ => false
  given := fun _ => false
  created := 0
  files := files
  statics := statics
  sharedAppenders := .empty
  thread := fun _ => ⟨true, false, 0, 0⟩
  anywayNotify := fun _ => false
  owner := fun _ => none
  pc := fun _ => .idle

/-- Thread `t` goes on at `pc`. -/
def State.goto (w : State) (t : Tid) (pc : Pc) : State := { w with pc := Function.update w.pc t pc }

/-- An appender, with the files and the statics. -/
def State.app (w : State) (m : Mlog) : Proc := ⟨w.apps m, w.files, w.statics⟩

/-- The appender `m` is now `p`. -/
def State.setApp (w : State) (m : Mlog) (p : Proc) : State :=
  { w with apps := Function.update w.apps m p.mlog, files := p.files, statics := p.statics }

/-- The thread `a` has been created. -/
def State.spawn (w : State) (a : Async) : State :=
  { w with
    thread := Function.update w.thread a
      { w.thread a with isended := false, tid := (w.thread a).started + 1, started := (w.thread a).started + 1 } }.goto
    (.worker a) (.routine a .initLock)

/-- The thread `a` could not be created. -/
def State.unspawned (w : State) (a : Async) (tid : ℕ) : State :=
  { w with thread := Function.update w.thread a { w.thread a with tid := tid } }

/-- `pthread_create` in `Thread::start`. -/
def State.pthreadCreate (w : State) (a : Async) : PthreadCreate → State
  | .ok => w.spawn a
  | .failed tid => w.unspawned a tid

/-- A thread that sleeps in `Condition::wait` is woken. -/
def woken : Pc → Pc
  | .loop m (.wait .blocked) => .loop m (.wait .relock)
  | .pass (.wait .blocked) => .pass (.wait .relock)
  | pc => pc

/-- The appender that a lock is a part of. -/
def Lock.mlog : Lock → Option Mlog
  | .bufferAsync m => some m
  | .logFile m => some m
  | .cond (.own m) => some m
  | _ => none

/-- A lock that is not part of a deleted appender. -/
def State.usable (w : State) (l : Lock) : Bool := l.mlog.all w.alive

/-- The `Thread` and the `Condition` of an appender that has not been deleted, or the shared ones. -/
def State.reachable (w : State) : Async → Bool
  | .shared => true
  | .own m => w.alive m

/-! ### What statements do -/

/-- `mlog->sg_log_buff->GetData().Length() >= mlog->sg_bufferblock_length * 1 / 3`. -/
def aThird (mlog : LogAppender) (lb : LogBuffer) : Bool :=
  decide (lb.buff.length ≥ sizeT ((mlog.sgBufferblockLength * 1).tdiv 3))

/-- `__appender_async`, from the formatter to `Write`, and what `Write` returns. -/
def appenderInsert (lc : Libc) (info : Option LogInfo) (log : Option CStr) (p : Proc) :
    Option (Proc × Bool) := do
  let lb ← p.mlog.sgLogBuff
  let (statics, logBuff) ← logFormater lc p.statics info log temp
  let logBuff := if lb.buff.length ≥ overloadLength p.mlog then overloadLine logBuff lb.buff.length
    else logBuff
  let data ← readBlock logBuff.parray (uint32 logBuff.length)
  let (ok, lb) := lb.write data
  some ({ p with statics := statics, mlog := { p.mlog with sgLogBuff := some lb } }, ok)

/-- `mtaf_log_appender_open`, from `sg_bufferblock_length` to `mtaf_open_mmap`: the bytes that the buffer is
laid over. -/
def openMap (oenv : OpenEnv) (filedir filename : CStr) (p : Proc) : Proc × Bytes :=
  let len := if p.mlog.sgBufferblockLength ≤ 0 then kBufferBlockLength else p.mlog.sgBufferblockLength
  let mt := p.mlog.sgMmapFile.getD ⟨none, false⟩
  let (start, mt, files) :=
    openMmap oenv mt p.block (mmapFilePath filedir.bytes filename.bytes) len p.files
  ({ p with
      files := files
      mlog := { p.mlog with sgBufferblockLength := len, sgMmapFile := some mt } },
    start.getD (resize oenv.heap len.toNat))

/-- What is done to an appender. `drain` is `sg_log_buff->Flush(tmp)`, with `tmp.Ptr()`; `free` frees the
mapping, or the block at `sg_log_buff`. -/
def AppOp.run (lc : Libc) (env : Env) (p : Proc) : {α : Type} → AppOp α → Option (Proc × α)
  | _, .loadClose => some (p, p.mlog.sgLogClose)
  | _, .storeClose b => some ({ p with mlog := { p.mlog with sgLogClose := b } }, ())
  | _, .loadMode => some (p, p.mlog.sgMode)
  | _, .storeMode mode => some (logAppenderSetmode mode p, ())
  | _, .loadBuff => some (p, p.mlog.sgLogBuff.isNone)
  | _, .emptyDir => some (p, p.mlog.sgLogdir.isEmpty)
  | _, .length => p.mlog.sgLogBuff.map fun lb => (p, aThird p.mlog lb)
  | _, .format info log =>
    (appenderSyncBuffer lc p.statics info log).map fun (statics, data) =>
      ({ p with statics := statics }, data)
  | _, .insert info log => appenderInsert lc info log p
  | _, .drain => if p.mlog.sgLogBuff.isNone then none else drainBuffer p
  | _, .log2file data => some (log2fileLocked lc env.file data p, ())
  | _, .map filedir filename => some (openMap env.mmap filedir filename p)
  | _, .buff block =>
    some ({ p with
      mlog := { p.mlog with
        sgLogBuff := some (LogBuffer.ofBlock block p.mlog.sgBufferblockLength.toNat) } }, ())
  | _, .names filedir filename =>
    some ({ p with
      mlog := { p.mlog with sgLogdir := filedir.bytes, sgLogfilename := filename.bytes } }, ())
  | _, .free =>
    if p.mlog.sgLogBuff.isNone ∧ p.mlog.sgMmapFile.any (fun mt => !mt.isOpen) then none
    else (freeLogBuff p).map fun p => (p, ())
  | _, .closelogfile => some (Appender.closelogfile env.file p, ())

/-- What is done to `shared_appenders()`. -/
def VecOp.run (env : Env) (v : Vec Mlog) : {α : Type} → VecOp α → Option (Vec Mlog × α)
  | _, .empty => some (v, v.items.isEmpty)
  | _, .begin => some (v, v.iter 0)
  | _, .more it => (v.more it).map fun b => (v, b)
  | _, .deref it => (v.deref it).map fun m => (v, m)
  | _, .next it => (v.next it).map fun it => (v, it)
  | _, .push m => some (v.pushBack m env.room, ())
  | _, .erase m => some (v.erase m, ())

/-- **A step of the thread `t`** that takes a statement. -/
def exec (lc : Libc) (env : Env) (t : Tid) (w : State) : Stmt → Option State
  | .stop => none
  | .lock l k =>
    if w.usable l ∧ w.owner l = none then
      some ({ w with owner := Function.update w.owner l (some t) }.goto t k)
    else none
  | .unlock l k =>
    if w.usable l then some ({ w with owner := Function.update w.owner l none }.goto t k) else none
  | .app m op k =>
    if w.alive m then (op.run lc env (w.app m)).map fun (p, a) => (w.setApp m p).goto t (k a) else none
  | .vec op k =>
    (op.run env w.sharedAppenders).map fun (v, a) => { w with sharedAppenders := v }.goto t (k a)
  | .isruning a k => if w.reachable a then some (w.goto t (k (!(w.thread a).isended))) else none
  | .start a k =>
    if w.reachable a then
      some ((if (w.thread a).isended then w.pthreadCreate a env.create else w).goto t k)
    else none
  | .join a k =>
    if w.reachable a then
      if (w.thread a).isended then some (w.goto t (k false))
      else
        some ({ w with thread := Function.update w.thread a { w.thread a with isjoined := true } }.goto t
          (k true))
    else none
  | .readTid a k => if w.reachable a then some (w.goto t (k (w.thread a).tid)) else none
  | .pthreadJoin a tid k =>
    match w.pc (.worker a) with
    | .idle => some (w.goto t k)
    | _ => if (w.thread a).started = tid then none else some (w.goto t k)
  | .cleanup a k =>
    some ({ w with
      thread := Function.update w.thread a { w.thread a with isended := true, isjoined := false } }.goto t k)
  | .notifyAll a k =>
    if w.reachable a then some ((w.goto (.worker a) (woken (w.pc (.worker a)))).goto t k) else none
  | .cas a k =>
    if w.reachable a then
      some ({ w with anywayNotify := Function.update w.anywayNotify a false }.goto t (k (w.anywayNotify a)))
    else none
  | .block a k =>
    if w.reachable a then
      some ({ w with owner := Function.update w.owner (.cond a) none }.goto t k)
    else none
  | .sleep k => some (w.goto t k)
  | .clear a k =>
    if w.reachable a then
      some ({ w with anywayNotify := Function.update w.anywayNotify a false }.goto t k)
    else none
  | .give m k => some ({ w with given := Function.update w.given m true }.goto t k)
  | .delete m k =>
    if w.alive m then some ({ w with alive := Function.update w.alive m false }.goto t k) else none

end MTAppenderFile.Loglib.World
