import Mathlib.Logic.Function.Basic
import MTAppenderFile.Loglib.Appender

/-! # The appender with several threads

The functions of `loglib/mtaf_appender.cpp` in steps. A section under one of the two mutexes is one step,
and so is every load or store outside of them (`sg_log_close`, `sg_mode`, the test of `sg_log_buff`
against `NULL`); what a thread computes on its own is part of the step before or after. `Pc` says where a
thread is; the bytes it has drained and not yet written, or formatted for the file, are in its `Pc`, like
the local variables `tmp` and `buffer_crypt`.

Thread `0` is the thread behind `sg_thread_async`: the appender's own, which runs
`__async_log_thread_operation`, or the shared one, which runs `__async_log_shared_thread_operation`. The
model has one appender, so a pass of the shared thread visits this one or none. The other threads call the
functions. `none` is undefined behaviour, or a step that has to wait. `sg_logdir`, `sg_logfilename`,
`sg_thread_async` and the length of the block do not change between `open` and the end. -/

namespace MTAppenderFile.Loglib.Threads

open MTAppenderFile.Comm.CTypes
open MTAppenderFile.Loglib.Base
open MTAppenderFile.Loglib.Formatter
open MTAppenderFile.Loglib.Files
open MTAppenderFile.Loglib.Appender

/-- In `mtaf_log_appender_append_ex`: before the load of `sg_log_close`, before that of `sg_mode`, at
`__appender_async`, or at the `__log2file` of `__appender_sync`. -/
inductive AppendPc
  | load
  | mode
  | async
  | write (data : Bytes)

/-- In `mtaf_log_appender_setmode`. -/
inductive SetmodePc
  | store (mode : AppendMode)
  | start

/-- In `mtaf_log_appender_flush_sync`; `early` is the return on `sg_mode`. -/
inductive FlushPc
  | mode
  | drain
  | write (data : Bytes)
  | ret (early : Bool)

/-- In `__log_thread_task`. -/
inductive TaskPc
  | load
  | drain
  | write (data : Bytes)

/-- In `__async_log_thread_operation`. -/
inductive LoopPc
  | top
  | task (pc : TaskPc)
  | load
  | wait

/-- In `__async_log_shared_thread_operation`. -/
inductive PassPc
  | lock
  | load
  | task (pc : TaskPc)
  | unlock
  | wait

/-- In `mtaf_log_appender_close`. -/
inductive ClosePc
  | load
  | store
  | join
  | task (pc : TaskPc)
  | free
  | file

/-- Who called `mtaf_log_appender_close`: the program, which calls `mtaf_log_appender_destroy` next, or
`mtaf_log_appender_destroy` itself. -/
inductive Stage
  | close
  | destroy

/-- Where a thread is. `erase` and `delete` are the rest of `mtaf_log_appender_destroy`. -/
inductive Pc
  | idle
  | append (info : Option LogInfo) (log : Option CStr) (pc : AppendPc)
  | setmode (pc : SetmodePc)
  | flush (pc : FlushPc)
  | task (pc : TaskPc)
  | loop (pc : LoopPc)
  | pass (pc : PassPc)
  | close (stage : Stage) (pc : ClosePc)
  | erase
  | delete

/-- The appender, its threads, who holds `shared_spinlock()`, whether the appender is in
`shared_appenders()`, and whether it has been deleted. -/
structure Sys where
  p : Proc
  pc : ℕ → Pc
  spin : Option ℕ
  listed : Bool
  deleted : Bool

/-- The thread has returned from its last call, or has ended. -/
def Pc.isIdle : Pc → Bool
  | .idle => true
  | _ => false

/-- Thread `t` goes on at `pc`. -/
def Sys.goto (s : Sys) (t : ℕ) (pc : Pc) : Sys := { s with pc := Function.update s.pc t pc }

/-- Where `sg_thread_async` starts. -/
def workerStart : ThreadAsync → Pc
  | .own => .loop .top
  | .shared => .pass .lock

/-- `sg_thread_async->start()`, if it is not running. -/
def Sys.start (s : Sys) : Sys :=
  if (s.pc 0).isIdle then s.goto 0 (workerStart s.p.mlog.sgThreadAsync) else s

/-! ### The functions in steps -/

/-- `mtaf_log_appender_append_ex(mlog, log, info)`. An entry in the buffer starts the shared thread. -/
def appendStep (lc : Libc) (env : FileEnv) (info : Option LogInfo) (log : Option CStr) (t : ℕ)
    (s : Sys) : AppendPc → Option Sys
  | .load => some (s.goto t (if s.p.mlog.sgLogClose then .idle else .append info log .mode))
  | .mode =>
    if s.p.mlog.sgMode = .sync then do
      let (statics, data) ← appenderSyncBuffer lc s.p.statics info log
      let pc := match data with
        | some data => .append info log (.write data)
        | none => .idle
      some ({ s with p := { s.p with statics := statics } }.goto t pc)
    else some (s.goto t (.append info log .async))
  | .async => do
    let p ← appenderAsync lc info log s.p
    let s' := { s with p := p }.goto t .idle
    some (if s.p.mlog.sgLogBuff.isSome ∧ s.p.mlog.sgThreadAsync = .shared then s'.start else s')
  | .write data => some ({ s with p := log2file lc env data s.p }.goto t .idle)

/-- `mtaf_log_appender_setmode(mlog, mode)`. -/
def setmodeStep (t : ℕ) (s : Sys) : SetmodePc → Option Sys
  | .store mode => some ({ s with p := logAppenderSetmode mode s.p }.goto t (.setmode .start))
  | .start =>
    let s' := s.goto t .idle
    some (if s.p.mlog.sgMode = .async ∧ s.p.mlog.sgThreadAsync = .own then s'.start else s')

/-- `sg_log_buff->Flush(tmp)` under `sg_mutex_buffer_async`, and `tmp.Ptr()`. -/
def drainBuffer (p : Proc) : Option (Proc × Option Bytes) := do
  let (mlog, tmp) ← flushLogBuff p.mlog
  some ({ p with mlog := mlog }, tmp.ptrBytes)

/-- `mtaf_log_appender_flush_sync(mlog)`. -/
def flushStep (lc : Libc) (env : FileEnv) (t : ℕ) (s : Sys) : FlushPc → Option Sys
  | .mode => some (s.goto t (.flush (if s.p.mlog.sgMode = .sync then .ret true else .drain)))
  | .drain => do
    let (p, tmp) ← drainBuffer s.p
    let pc := match tmp with
      | some data => .write data
      | none => .ret false
    some ({ s with p := p }.goto t (.flush pc))
  | .write data => some ({ s with p := log2file lc env data s.p }.goto t (.flush (.ret false)))
  | .ret _ => some (s.goto t .idle)

/-- `__log_thread_task(mlog)`, as a part of the function that calls it: `none` in place of a `TaskPc` is
its return. The test against `NULL` is not repeated under the mutex. -/
def taskStep (lc : Libc) (env : FileEnv) (p : Proc) : TaskPc → Option (Proc × Option TaskPc)
  | .load => some (p, if p.mlog.sgLogBuff.isNone then none else some .drain)
  | .drain =>
    if p.mlog.sgLogBuff.isNone then none
    else (drainBuffer p).map fun (p, tmp) => (p, tmp.map .write)
  | .write data => some (log2file lc env data p, none)

/-- A step of `__log_thread_task` within a caller, which goes on at `next`. -/
def Sys.runTask (lc : Libc) (env : FileEnv) (t : ℕ) (s : Sys) (within : TaskPc → Pc) (next : Pc)
    (pc : TaskPc) : Option Sys :=
  (taskStep lc env s.p pc).map fun (p, pc') =>
    { s with p := p }.goto t (match pc' with
      | some pc' => within pc'
      | none => next)

/-- `__async_log_thread_operation(mlog)`. -/
def loopStep (lc : Libc) (env : FileEnv) (t : ℕ) (s : Sys) : LoopPc → Option Sys
  | .top => some (s.goto t (if s.p.mlog.sgLogBuff.isNone then .idle else .loop (.task .load)))
  | .task pc => s.runTask lc env t (fun pc => .loop (.task pc)) (.loop .load) pc
  | .load => some (s.goto t (if s.p.mlog.sgLogClose then .idle else .loop .wait))
  | .wait => some (s.goto t (.loop .top))

/-- `__async_log_shared_thread_operation()`. -/
def passStep (lc : Libc) (env : FileEnv) (t : ℕ) (s : Sys) : PassPc → Option Sys
  | .lock =>
    if s.spin.isSome then none
    else if s.listed then some ({ s with spin := some t }.goto t (.pass .load))
    else some (s.goto t .idle)
  | .load =>
    some (s.goto t (.pass (if s.p.mlog.sgLogClose then .unlock else .task .load)))
  | .task pc => s.runTask lc env t (fun pc => .pass (.task pc)) (.pass .unlock) pc
  | .unlock => some ({ s with spin := none }.goto t (.pass .wait))
  | .wait => some (s.goto t (.pass .lock))

/-- Where the caller of `mtaf_log_appender_close` goes on. -/
def Stage.next : Stage → Pc
  | .close => .close .destroy .load
  | .destroy => .erase

/-- `mtaf_log_appender_close(mlog)`. `join` waits for the end of the appender's own thread; with the
shared thread, `__log_thread_task` is called. -/
def closeStep (lc : Libc) (env : FileEnv) (stage : Stage) (t : ℕ) (s : Sys) : ClosePc → Option Sys
  | .load => some (s.goto t (if s.p.mlog.sgLogClose then stage.next else .close stage .store))
  | .store =>
    some ({ s with p := { s.p with mlog := { s.p.mlog with sgLogClose := true } } }.goto t
      (.close stage .join))
  | .join =>
    match s.p.mlog.sgThreadAsync with
    | .own => if (s.pc 0).isIdle then some (s.goto t (.close stage .free)) else none
    | .shared => some (s.goto t (.close stage (.task .load)))
  | .task pc => s.runTask lc env t (fun pc => .close stage (.task pc)) (.close stage .free) pc
  | .free => (freeLogBuff s.p).map fun p => { s with p := p }.goto t (.close stage .file)
  | .file => some ({ s with p := closelogfile env s.p }.goto t stage.next)

/-- One step of thread `t`. -/
def exec (lc : Libc) (env : FileEnv) (t : ℕ) (s : Sys) : Pc → Option Sys
  | .idle => none
  | .append info log pc => appendStep lc env info log t s pc
  | .setmode pc => setmodeStep t s pc
  | .flush pc => flushStep lc env t s pc
  | .task pc => s.runTask lc env t .task .idle pc
  | .loop pc => loopStep lc env t s pc
  | .pass pc => passStep lc env t s pc
  | .close stage pc => closeStep lc env stage t s pc
  | .erase => if s.spin.isSome then none else some ({ s with listed := false }.goto t .delete)
  | .delete => some ({ s with deleted := true }.goto t .idle)

/-! ### Interleavings -/

/-- The calls of the threads. `closeDestroy` is `mtaf_log_appender_close`, then
`mtaf_log_appender_destroy`. -/
inductive Call
  | append (info : Option LogInfo) (log : Option CStr)
  | setmode (mode : AppendMode)
  | flushSync
  | task
  | closeDestroy

/-- Where a call starts. -/
def Call.entry : Call → Pc
  | .append info log => .append info log .load
  | .setmode mode => .setmode (.store mode)
  | .flushSync => .flush .mode
  | .task => .task .load
  | .closeDestroy => .close .close .load

/-- What happens next: a thread calls a function, or takes a step in an environment. -/
inductive Label
  | call (t : ℕ) (c : Call)
  | run (t : ℕ) (env : FileEnv)

/-- **One step of the threads.** Nothing is said of a deleted appender. -/
def step (lc : Libc) (s : Sys) : Label → Option Sys
  | .call t c =>
    if s.deleted = false ∧ t ≠ 0 ∧ (s.pc t).isIdle then some (s.goto t c.entry) else none
  | .run t env => if s.deleted then none else exec lc env t s (s.pc t)

/-! ### Small facts -/

theorem Pc.isIdle_iff {pc : Pc} : pc.isIdle = true ↔ pc = .idle := by
  cases pc <;> simp [Pc.isIdle]

@[simp] theorem goto_p (s : Sys) (t : ℕ) (pc : Pc) : (s.goto t pc).p = s.p := rfl

@[simp] theorem goto_pc_self (s : Sys) (t : ℕ) (pc : Pc) : (s.goto t pc).pc t = pc :=
  Function.update_self ..

theorem goto_pc_of_ne (s : Sys) {t u : ℕ} (h : u ≠ t) (pc : Pc) : (s.goto t pc).pc u = s.pc u :=
  Function.update_of_ne h ..

@[simp] theorem goto_goto (s : Sys) (t : ℕ) (pc pc' : Pc) : (s.goto t pc).goto t pc' = s.goto t pc' := by
  rw [Sys.goto, Sys.goto, Sys.goto, Function.update_idem]

theorem goto_eq_self {s : Sys} {t : ℕ} {pc : Pc} (h : s.pc t = pc) : s.goto t pc = s := by
  rw [← h, Sys.goto, Function.update_eq_self]

@[simp] theorem start_p (s : Sys) : s.start.p = s.p := by
  unfold Sys.start; split_ifs <;> rfl

@[simp] theorem start_spin (s : Sys) : s.start.spin = s.spin := by
  unfold Sys.start; split_ifs <;> rfl

@[simp] theorem start_listed (s : Sys) : s.start.listed = s.listed := by
  unfold Sys.start; split_ifs <;> rfl

@[simp] theorem start_deleted (s : Sys) : s.start.deleted = s.deleted := by
  unfold Sys.start; split_ifs <;> rfl

theorem start_pc (s : Sys) (u : ℕ) :
    s.start.pc u = s.pc u ∨
      u = 0 ∧ s.pc 0 = .idle ∧ s.start.pc 0 = workerStart s.p.mlog.sgThreadAsync := by
  unfold Sys.start
  split_ifs with h
  · by_cases hu : u = 0
    · exact .inr ⟨hu, Pc.isIdle_iff.mp h, goto_pc_self ..⟩
    · exact .inl (goto_pc_of_ne s hu _)
  · exact .inl rfl

end MTAppenderFile.Loglib.Threads
