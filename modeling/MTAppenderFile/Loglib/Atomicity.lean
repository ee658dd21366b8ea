import MTAppenderFile.Loglib.Changes

/-! # A section is a step

In `Threads` a section under a mutex is one step, and so is what a thread reads or writes outside of them. As long as
an appender is open, that is no loss: whatever the threads do with it here (append, flush, change the mode), they do
there with the same calls in the same order, and end with the same appender and the same files (`refines_threads`).
So what is true of every run there is true of every run here.

`Pc.coarse` says where a thread is in `Threads`. A section takes place at the one statement in it that changes the
appender, and the record of an append in sync mode is formatted when the mode is read. Only the worker may be ahead
there: it is started together with what makes a thread here go and start it (`WorkerSim`), even if here it is not
started, because it is still about to end or because `pthread_create` fails. -/

namespace MTAppenderFile.Loglib.World

open MTAppenderFile.Lib.Run
open MTAppenderFile.Lib.Vector
open MTAppenderFile.Comm.CTypes
open MTAppenderFile.Loglib.Base
open MTAppenderFile.Loglib.Files
open MTAppenderFile.Loglib.Formatter
open MTAppenderFile.Loglib.Appender
open MTAppenderFile.Loglib.Threads (drainBuffer)
open MTAppenderFile.Loglib.Session (printed_of_appenderSyncBuffer closelogfile_eq statics_log2fileLocked)

/-! ### Where a thread is in `Threads` -/

/-- In `__log2file`: still to write, or back in its caller. -/
def Log2filePc.coarse (write ret : Threads.Pc) : Log2filePc → Threads.Pc
  | .unlock => ret
  | _ => write

/-- In `__log_thread_task`, within a caller that goes on at `next`. -/
def TaskPc.coarse (within : Threads.TaskPc → Threads.Pc) (next : Threads.Pc) : TaskPc → Threads.Pc
  | .load => within .load
  | .lock => within .drain
  | .drain => within .drain
  | .unlock tmp => tmp.elim next fun data => within (.write data)
  | .file data pc => pc.coarse (within (.write data)) next

/-- The formatted record that `__appender_sync` is to write. -/
def formatCoarse (lc : Libc) (st : FormatStatics) (info : Option LogInfo) (log : Option CStr) : Threads.Pc :=
  match appenderSyncBuffer lc st info log with
  | some (_, some data) => .append info log (.write data)
  | some (_, none) => .idle
  | none => .append info log .mode

/-- In `mtaf_log_appender_append_ex`: it is over with the write, or with the entry in the buffer. -/
def AppendPc.coarse (lc : Libc) (st : FormatStatics) (info : Option LogInfo) (log : Option CStr) :
    AppendPc → Threads.Pc
  | .load => .append info log .load
  | .mode => .append info log .mode
  | .format => formatCoarse lc st info log
  | .file data pc => pc.coarse (.append info log (.write data)) .idle
  | .lock => .append info log .async
  | .test => .append info log .async
  | .insert => .append info log .async
  | _ => .idle

/-- In `mtaf_log_appender_setmode`: it is over with the second read of the mode. -/
def SetmodePc.coarse (mode : AppendMode) : SetmodePc → Threads.Pc
  | .store => .setmode (.store mode)
  | .notifyOwn => .setmode .start
  | .notifyShared => .setmode .start
  | .mode => .setmode .start
  | _ => .idle

/-- In `mtaf_log_appender_flush_sync`. -/
def FlushSyncPc.coarse : FlushSyncPc → Threads.Pc
  | .mode => .flush .mode
  | .lock => .flush .drain
  | .test => .flush .drain
  | .drain => .flush .drain
  | .unlock tmp => tmp.elim (.flush (.ret false)) fun data => .flush (.write data)
  | .file data pc => pc.coarse (.flush (.write data)) .idle

/-- In `__async_log_thread_operation`. -/
def LoopPc.coarse : LoopPc → Threads.Pc
  | .top => .loop .top
  | .task pc => pc.coarse (fun pc => .loop (.task pc)) (.loop .load)
  | .load => .loop .load
  | .wait _ => .loop .wait

/-- In `__async_log_shared_thread_operation`, with one appender in the list: at its end, that one has been visited. -/
def PassPc.coarse : PassPc → Threads.Pc
  | .lock => .pass .lock
  | .empty => .pass .load
  | .exit => .pass .load
  | .begin => .pass .load
  | .cond it => if it.index = 0 then .pass .load else .pass .unlock
  | .deref _ => .pass .load
  | .load _ _ => .pass .load
  | .task _ _ pc => pc.coarse (fun pc => .pass (.task pc)) (.pass .unlock)
  | .next _ => .pass .unlock
  | .unlock => .pass .unlock
  | .wait _ => .pass .wait

/-- Where the worker of the appender starts. -/
def Mlog.coarseStart (m : Mlog) : Threads.Pc := if m.useShareThread then .pass .lock else .loop .top

/-- **Where a thread is in `Threads`.** A flush only wakes the workers. -/
def Pc.coarse (lc : Libc) (st : FormatStatics) (m : Mlog) : Pc → Threads.Pc
  | .append _ info log pc => pc.coarse lc st info log
  | .setmode _ mode pc => pc.coarse mode
  | .flushSync _ pc => pc.coarse
  | .routine _ _ => m.coarseStart
  | .loop _ pc => pc.coarse
  | .pass pc => pc.coarse
  | _ => .idle

/-! ### An appender in use -/

/-- A function that neither opens nor closes an appender. -/
def Fn.InUse : Fn → Prop
  | .create _ => False
  | .open _ _ _ _ => False
  | .close _ => False
  | .destroy _ => False
  | _ => True

/-- The appender is open, and it is the only one. -/
structure Serves (m : Mlog) (w : State) : Prop where
  items : w.sharedAppenders.items = if m.useShareThread then [m] else []
  flag : (w.apps m).sgLogClose = false
  buff : (w.apps m).sgLogBuff.isSome = true
  thread : (w.apps m).sgThreadAsync = if m.useShareThread then .shared else .own

section Serves

variable {lc : Libc} {env : Env} {t : Tid} {w w₁ : State} {st : Stmt} {pc : Pc} {m : Mlog} {f : Fn}

theorem Fn.InUse.not_opens (h : f.InUse) (m : Mlog) : ¬ f.Opens m := by
  rintro ⟨mode, filedir, filename, rfl⟩
  exact h

theorem Fn.InUse.not_closes (h : f.InUse) (m : Mlog) : ¬ f.Closes m := by
  rintro (rfl | rfl) <;> exact h

theorem AppOp.Spec.serves {α : Type} {op : AppOp α} {a : α} {x y : LogAppender} (h : op.Spec x y a)
    (hby : op.By m f) (hf : f.InUse) :
    y.sgLogClose = x.sgLogClose ∧ y.sgThreadAsync = x.sgThreadAsync ∧ y.sgLogdir = x.sgLogdir ∧
      (x.sgLogBuff.isSome = true → y.sgLogBuff.isSome = true) := by
  cases op with
  | loadClose | loadMode | loadBuff | emptyDir | length =>
    rw [h.1]
    exact ⟨rfl, rfl, rfl, id⟩
  | storeMode | format =>
    rw [h]
    exact ⟨rfl, rfl, rfl, id⟩
  | storeClose b =>
    cases b with
    | true => exact absurd hby (hf.not_closes m)
    | false => exact absurd hby (hf.not_opens m)
  | insert =>
    obtain ⟨_, _, -, rfl, -⟩ := h
    exact ⟨rfl, rfl, rfl, fun _ => rfl⟩
  | drain =>
    obtain ⟨_, -, rfl⟩ := h
    exact ⟨rfl, rfl, rfl, fun _ => rfl⟩
  | log2file =>
    obtain ⟨_, _, _, rfl⟩ := h
    exact ⟨rfl, rfl, rfl, id⟩
  | map | buff | names => exact absurd hby (hf.not_opens m)
  | free | closelogfile => exact absurd hby (hf.not_closes m)

theorem appenderInsert_statics {info : Option LogInfo} {log : Option CStr} {p p' : Proc} {ok : Bool}
    (h : appenderInsert lc info log p = some (p', ok)) : p'.statics = p.statics := by
  obtain ⟨lb, -, h⟩ := Option.bind_eq_some_iff.mp h
  obtain ⟨⟨statics, logBuff⟩, hf, h⟩ := Option.bind_eq_some_iff.mp h
  obtain ⟨data, -, h⟩ := Option.bind_eq_some_iff.mp h
  obtain ⟨rfl, -⟩ := logFormater_temp hf
  cases h
  rfl

theorem AppOp.run_statics {α : Type} {op : AppOp α} {a : α} {p p' : Proc} (h : op.run lc env p = some (p', a)) :
    p'.statics = p.statics := by
  cases op with
  | loadClose | storeClose | loadMode | storeMode | loadBuff | emptyDir | buff | names =>
    cases h
    rfl
  | closelogfile =>
    cases h
    obtain ⟨t, files, hc⟩ := closelogfile_eq env.file p
    rw [hc]
  | map =>
    cases h
    rfl
  | length =>
    obtain ⟨_, -, h⟩ := Option.map_eq_some_iff.mp h
    cases h
    rfl
  | format =>
    obtain ⟨r, hr, h⟩ := Option.map_eq_some_iff.mp h
    obtain ⟨data, -, rfl⟩ := printed_of_appenderSyncBuffer hr
    cases h
    rfl
  | insert => exact appenderInsert_statics h
  | drain =>
    rw [AppOp.run, Option.ite_none_left_eq_some] at h
    obtain ⟨r, -, h⟩ := Option.bind_eq_some_iff.mp h.2
    cases h
    rfl
  | log2file data =>
    cases h
    exact statics_log2fileLocked lc env.file data p
  | free =>
    rw [AppOp.run, Option.ite_none_left_eq_some] at h
    obtain ⟨p₁, hf, h⟩ := Option.map_eq_some_iff.mp h.2
    cases h
    obtain ⟨mt, -, rfl⟩ := Option.map_eq_some_iff.mp hf
    rfl

theorem Effect.statics (he : Effect lc env t w st w₁ pc) : w₁.statics = w.statics := by
  cases he with
  | app hm h => exact AppOp.run_statics h
  | _ => rfl

/-- **A statement in use** leaves the appender open. -/
theorem Serves.effect (h : Serves m w) (he : Effect lc env t w st w₁ pc) (hby : st.By f) (hf : f.InUse) :
    Serves m w₁ ∧ (w₁.apps m).sgLogdir = (w.apps m).sgLogdir := by
  have hitems : w₁.sharedAppenders.items = w.sharedAppenders.items := by
    rcases he.sharedAppenders with hl | ⟨n, k, rfl, -⟩ | ⟨n, k, rfl, -⟩
    · rw [hl]
    · cases show f = .create n from hby
      exact absurd hf id
    · cases show f = .destroy n from hby
      exact absurd hf id
  rcases he.spec m with hm | ⟨α, op, k, a, rfl, rfl, hspec⟩
  · exact ⟨⟨hitems.trans h.items, by rw [hm]; exact h.flag, by rw [hm]; exact h.buff, by rw [hm]; exact h.thread⟩,
      by rw [hm]⟩
  · obtain ⟨hc, ht, hd, hb⟩ := hspec.serves hby hf
    exact ⟨⟨hitems.trans h.items, hc.trans h.flag, hb h.buff, ht.trans h.thread⟩, hd⟩

end Serves

/-! ### The relation -/

/-- Behind the tests in `__log2file` there is something to write, and a directory. -/
def Log2filePc.Ready (data dir : Bytes) : Log2filePc → Prop
  | .lock => data.isEmpty = false ∧ dir.isEmpty = false
  | .write => data.isEmpty = false ∧ dir.isEmpty = false
  | _ => True

def TaskPc.Ready (dir : Bytes) : TaskPc → Prop
  | .file data pc => pc.Ready data dir
  | _ => True

def AppendPc.Ready (dir : Bytes) : AppendPc → Prop
  | .file data pc => pc.Ready data dir
  | _ => True

def FlushSyncPc.Ready (dir : Bytes) : FlushSyncPc → Prop
  | .file data pc => pc.Ready data dir
  | _ => True

/-- `mtaf_log_appender_setmode` starts no shared thread. -/
def SetmodePc.Ready (m : Mlog) : SetmodePc → Prop
  | .start _ => m.useShareThread = false
  | _ => True

/-- A caller that uses the appender. -/
def Pc.Uses (m : Mlog) (dir : Bytes) : Pc → Prop
  | .idle => True
  | .append n _ _ pc => n = m ∧ pc.Ready dir
  | .setmode n _ pc => n = m ∧ pc.Ready m
  | .flush n _ => n = m
  | .flushSync n pc => n = m ∧ pc.Ready dir
  | _ => False

def AppendPc.starts : AppendPc → Bool
  | .length => true
  | .notify => true
  | .isruning => true
  | .start _ => true
  | _ => false

def SetmodePc.starts : SetmodePc → Bool
  | .isruning => true
  | .start _ => true
  | _ => false

/-- A caller that may start the worker of the appender. -/
def Pc.Starts (m : Mlog) : Pc → Prop
  | .append _ _ _ pc => m.useShareThread = true ∧ pc.starts = true
  | .setmode _ _ pc => m.useShareThread = false ∧ pc.starts = true
  | _ => False

/-- In its loop, the appender's own worker. -/
def LoopPc.Ready (dir : Bytes) : LoopPc → Prop
  | .task pc => pc.Ready dir
  | _ => True

/-- In its pass, the shared worker: at the appender, or at the end of the list. -/
def PassPc.Ready (m : Mlog) (dir : Bytes) : PassPc → Prop
  | .exit => False
  | .cond it => it.index ≤ 1
  | .deref it => it.index = 0
  | .load it n => it.index = 0 ∧ n = m
  | .task it n pc => it.index = 0 ∧ n = m ∧ pc.Ready dir
  | .next it => it.index = 0
  | _ => True

/-- The worker of the appender, which does not end. -/
def Pc.Works (m : Mlog) (dir : Bytes) : Pc → Prop
  | .routine a .initLock => a = m.sgThreadAsync
  | .routine a .initUnlock => a = m.sgThreadAsync
  | .loop n pc => n = m ∧ m.useShareThread = false ∧ pc.Ready dir
  | .pass pc => m.useShareThread = true ∧ pc.Ready m dir
  | _ => False

/-- The worker has ended, or its target has returned. -/
def Pc.Leaving (a : Async) : Pc → Prop
  | .idle => True
  | .routine b .cleanLock => b = a
  | .routine b .clean => b = a
  | .routine b .cleanUnlock => b = a
  | _ => False

/-- Another worker has no appender to work on: it has ended or is about to, or it is the shared one, which waits or
is still to read the list. -/
def Pc.Apart (a : Async) : Pc → Prop
  | .idle => True
  | .routine b .initLock => a = .shared ∧ b = .shared
  | .routine b .initUnlock => a = .shared ∧ b = .shared
  | .routine b _ => b = a
  | .pass .lock => a = .shared
  | .pass .empty => a = .shared
  | .pass .exit => a = .shared
  | .pass (.wait _) => a = .shared
  | _ => False

/-- The shared worker has `shared_spinlock()` in its pass. -/
def Pc.spin : Pc → Option ℕ
  | .pass .lock => none
  | .pass (.wait _) => none
  | .pass _ => some 0
  | _ => none

/-- The worker of the appender: there it may have been started already. -/
def WorkerSim (lc : Libc) (m : Mlog) (w : State) (s : Threads.Sys) : Prop :=
  ((w.pc (.worker m.sgThreadAsync)).Leaving m.sgThreadAsync ∧ (s.pc 0 = .idle ∨ s.pc 0 = m.coarseStart)) ∨
    ((w.pc (.worker m.sgThreadAsync)).Works m (w.apps m).sgLogdir ∧
      (w.thread m.sgThreadAsync).isended = false ∧
      s.pc 0 = (w.pc (.worker m.sgThreadAsync)).coarse lc w.statics m)

/-- **The process with one open appender, and the threads of `Threads`.** -/
structure Sim (lc : Libc) (m : Mlog) (w : State) (s : Threads.Sys) : Prop extends Serves m w where
  p : s.p = w.app m
  deleted : s.deleted = false
  listed : s.listed = m.useShareThread
  spin : s.spin = (w.pc (.worker m.sgThreadAsync)).spin
  uses : ∀ n, (w.pc (.caller n)).Uses m (w.apps m).sgLogdir
  callers : ∀ n, s.pc (n + 1) = (w.pc (.caller n)).coarse lc w.statics m
  starts : ∀ n, (w.pc (.caller n)).Starts m → s.pc 0 ≠ .idle
  worker : WorkerSim lc m w s
  others : ∀ a, a ≠ m.sgThreadAsync → (w.pc (.worker a)).Apart a

/-- A call, and the thread that makes it. -/
def calledThere : Threads.Label → Option (ℕ × Threads.Call)
  | .call t c => some (t, c)
  | .run _ _ => none

/-- A call in `Threads`; a flush is none. -/
def Use.coarse : Use → Option Threads.Call
  | .append info log => some (.append info log)
  | .setmode mode => some (.setmode mode)
  | .flushSync => some .flushSync
  | _ => none

def called : Label → Option (ℕ × Threads.Call)
  | .call n _ u => u.coarse.map fun c => (n + 1, c)
  | _ => none

/-! ### Steps of one thread in `Threads` -/

/-- What is asked of the steps in `Threads`: nobody closes the appender, operations on files end as `E` says, and an
entry in the buffer finds an appender as `Q` says. -/
def Fine (E : FileEnv → Prop) (Q : Proc → Prop) (s : Threads.Sys) : Threads.Label → Prop
  | .call _ c => c ≠ .closeDestroy
  | .run t env => E env ∧ ∀ info log, s.pc t = .append info log .async → Q s.p

/-- The thread `t` has taken steps in `Threads`, and may have started the worker. -/
structure Follows (lc : Libc) (m : Mlog) (E : FileEnv → Prop) (Q : Proc → Prop) (t : ℕ) (s s' : Threads.Sys) :
    Prop where
  steps : ∃ bs, run (Threads.step lc) s bs = some s' ∧ Meets (Threads.step lc) (Fine E Q) s bs ∧
    bs.filterMap calledThere = []
  others : ∀ u, u ≠ t → s'.pc u = s.pc u ∨ u = 0 ∧ s.pc 0 = .idle ∧ s'.pc 0 = m.coarseStart
  deleted : s'.deleted = s.deleted
  listed : s'.listed = s.listed

section Follows

variable {lc : Libc} {m : Mlog} {E : FileEnv → Prop} {Q : Proc → Prop} {t : ℕ} {s s' s'' : Threads.Sys}

theorem fine_of_pc {fenv : FileEnv} {pc : Threads.Pc} (hE : E fenv) (hpc : s.pc t = pc)
    (h : ∀ info log, pc ≠ .append info log .async) : Fine E Q s (.run t fenv) :=
  ⟨hE, fun info log hs => absurd (hpc.symm.trans hs) (h info log)⟩

theorem coarseStart_ne_idle (m : Mlog) : m.coarseStart ≠ .idle := by
  unfold Mlog.coarseStart
  split_ifs <;> rintro ⟨⟩

theorem coarseStart_eq {p : Proc} (h : p.mlog.sgThreadAsync = if m.useShareThread then .shared else .own) :
    Threads.workerStart p.mlog.sgThreadAsync = m.coarseStart := by
  rw [h, Mlog.coarseStart]
  split_ifs <;> rfl

theorem follows_refl (lc : Libc) (m : Mlog) (t : ℕ) (s : Threads.Sys) : Follows lc m E Q t s s :=
  ⟨⟨[], rfl, trivial, rfl⟩, fun _ _ => .inl rfl, rfl, rfl⟩

theorem Follows.trans (h : Follows lc m E Q t s s') (h' : Follows lc m E Q t s' s'') : Follows lc m E Q t s s'' where
  steps := by
    obtain ⟨bs, hr, hm, hc⟩ := h.steps
    obtain ⟨bs', hr', hm', hc'⟩ := h'.steps
    exact ⟨bs ++ bs', run_trans hr hr', meets_append hm hr hm', by rw [List.filterMap_append, hc, hc']; rfl⟩
  others u hu := by
    rcases h'.others u hu with hp | ⟨rfl, hi, hp⟩
    · refine (h.others u hu).imp hp.trans ?_
      rintro ⟨rfl, hi, hp'⟩
      exact ⟨rfl, hi, hp.trans hp'⟩
    · rcases h.others 0 hu with hp' | ⟨-, -, hp'⟩
      · exact .inr ⟨rfl, hp'.symm.trans hi, hp⟩
      · exact absurd (hp'.symm.trans hi) (coarseStart_ne_idle m)
  deleted := h'.deleted.trans h.deleted
  listed := h'.listed.trans h.listed

theorem run_exec {fenv : FileEnv} (hd : s.deleted = false) (hf : Fine E Q s (.run t fenv))
    (he : Threads.exec lc fenv t s (s.pc t) = some s') :
    ∃ bs, run (Threads.step lc) s bs = some s' ∧ Meets (Threads.step lc) (Fine E Q) s bs ∧
      bs.filterMap calledThere = [] := by
  have hs : Threads.step lc s (.run t fenv) = some s' := by
    rw [Threads.step, hd]
    exact he
  exact ⟨[.run t fenv], run_of_step hs rfl, meets_of_step hf hs trivial, rfl⟩

theorem follows_goto {fenv : FileEnv} {p : Proc} {spin : Option ℕ} {pc : Threads.Pc} (hd : s.deleted = false)
    (hf : Fine E Q s (.run t fenv))
    (he : Threads.exec lc fenv t s (s.pc t) = some ({ s with p := p, spin := spin }.goto t pc)) :
    Follows lc m E Q t s ({ s with p := p, spin := spin }.goto t pc) where
  steps := run_exec hd hf he
  others _ hu := .inl (Threads.goto_pc_of_ne _ hu pc)
  deleted := rfl
  listed := rfl

theorem follows_start {fenv : FileEnv} {p : Proc} {pc : Threads.Pc} (hd : s.deleted = false)
    (hf : Fine E Q s (.run t fenv))
    (hp : p.mlog.sgThreadAsync = if m.useShareThread then .shared else .own)
    (he : Threads.exec lc fenv t s (s.pc t) = some ({ s with p := p }.goto t pc).start) :
    Follows lc m E Q t s ({ s with p := p }.goto t pc).start where
  steps := run_exec hd hf he
  others u hu := by
    rcases Threads.start_pc ({ s with p := p }.goto t pc) u with hs | ⟨rfl, hi, hs⟩
    · exact .inl (hs.trans (Threads.goto_pc_of_ne _ hu pc))
    · refine .inr ⟨rfl, (Threads.goto_pc_of_ne _ hu pc).symm.trans hi, hs.trans ?_⟩
      exact coarseStart_eq hp
  deleted := Threads.start_deleted _
  listed := Threads.start_listed _

end Follows

/-! ### Parts of the functions -/

section Parts

variable {lc : Libc} {env : Env} {t : Tid} {w w₁ : State} {pc : Pc} {m : Mlog} {c : Pc → Threads.Pc}

@[simp] theorem app_setApp (w : State) (m : Mlog) (p : Proc) : (w.setApp m p).app m = p := by
  show Proc.mk (Function.update w.apps m p.mlog m) p.files p.statics = p
  rw [Function.update_self]

theorem isEmpty_or_iff (data dir : Bytes) : (data.isEmpty || dir.isEmpty) = true ↔ data = [] ∨ dir = [] := by
  rw [Bool.or_eq_true, List.isEmpty_iff, List.isEmpty_iff]

/-- **`__log2file` takes place at its write**, or at its tests. -/
theorem log2file_coarse (ok : Pc → Prop) {data : Bytes} (here : Log2filePc → Pc) {back : Pc} {fpc : Log2filePc}
    {write ret : Threads.Pc}
    (he : Effect lc env t w (log2fileCode m data here back fpc) w₁ pc)
    (hready : fpc.Ready data (w.apps m).sgLogdir) (hhere : ∀ fpc, c (here fpc) = fpc.coarse write ret)
    (hret : c back = ret) (hok : ∀ fpc, fpc.Ready data (w.apps m).sgLogdir → ok (here fpc)) (hokret : ok back) :
    ok pc ∧ ((w₁.app m = w.app m ∧ c pc = c (here fpc)) ∨
      (c (here fpc) = write ∧ c pc = ret ∧ w₁.app m = log2file lc env.file data (w.app m))) := by
  cases fpc with
  | test =>
    cases he with
    | app hm h =>
      cases h
      dsimp only
      cases hempty : data.isEmpty || (w.app m).mlog.sgLogdir.isEmpty with
      | true =>
        have hnone : log2file lc env.file data (w.app m) = w.app m :=
          if_pos ((isEmpty_or_iff _ _).mp hempty)
        exact ⟨hokret, .inr ⟨hhere .test, hret, by rw [hnone, app_setApp]⟩⟩
      | false =>
        have hready' : Log2filePc.lock.Ready data (w.apps m).sgLogdir := Bool.or_eq_false_iff.mp hempty
        exact ⟨hok .lock hready', .inl ⟨app_setApp w m _, by rw [hhere .test]; exact hhere .lock⟩⟩
  | lock =>
    cases he
    exact ⟨hok .write hready, .inl ⟨rfl, by rw [hhere .lock, hhere .write]; rfl⟩⟩
  | write =>
    cases he with
    | app hm h =>
      cases h
      have hne : ¬ (data = [] ∨ (w.app m).mlog.sgLogdir = []) := by
        rw [← isEmpty_or_iff]
        exact Bool.eq_false_iff.mp (Bool.or_eq_false_iff.mpr hready)
      refine ⟨hok .unlock trivial, .inr ⟨hhere .write, hhere .unlock, ?_⟩⟩
      rw [app_setApp, log2file, if_neg hne]
  | unlock =>
    cases he
    exact ⟨hokret, .inl ⟨rfl, by rw [hret, hhere .unlock]; rfl⟩⟩

/-- **`__log_thread_task` takes place** at its load, its drain and its write. -/
theorem task_coarse (ok : Pc → Prop) (here : TaskPc → Pc) {back : Pc} {tpc : TaskPc}
    {within : Threads.TaskPc → Threads.Pc} {next : Threads.Pc} (hs : Serves m w)
    (he : Effect lc env t w (taskCode m here back tpc) w₁ pc)
    (hready : tpc.Ready (w.apps m).sgLogdir) (hhere : ∀ tpc, c (here tpc) = tpc.coarse within next)
    (hret : c back = next) (hok : ∀ tpc, tpc.Ready (w.apps m).sgLogdir → ok (here tpc)) (hokret : ok back) :
    ok pc ∧ ((w₁.app m = w.app m ∧ c pc = c (here tpc)) ∨ ∃ pc₀ r, c (here tpc) = within pc₀ ∧
      Threads.taskStep lc env.file (w.app m) pc₀ = some (w₁.app m, r) ∧ c pc = r.elim next within) := by
  have hnone : (w.app m).mlog.sgLogBuff.isNone = false := Option.isNone_eq_false_iff.mpr hs.buff
  cases tpc with
  | load =>
    cases he with
    | app hm h =>
      cases h
      dsimp only
      rw [hnone, if_neg Bool.false_ne_true]
      refine ⟨hok .lock trivial, .inr ⟨.load, some .drain, hhere .load, ?_, hhere .lock⟩⟩
      rw [Threads.taskStep, hnone, if_neg Bool.false_ne_true, app_setApp]
  | lock =>
    cases he
    exact ⟨hok .drain trivial, .inl ⟨rfl, by rw [hhere .lock, hhere .drain]; rfl⟩⟩
  | drain =>
    cases he with
    | @app _ _ _ _ p tmp hm h =>
      rw [AppOp.run, Option.ite_none_left_eq_some] at h
      refine ⟨hok (.unlock tmp) trivial, .inr ⟨.drain, tmp.map .write, hhere .drain, ?_, ?_⟩⟩
      · rw [Threads.taskStep, if_neg h.1, h.2, app_setApp]
        rfl
      · rw [hhere]
        cases tmp <;> rfl
  | unlock tmp =>
    cases he
    cases tmp with
    | none => exact ⟨hokret, .inl ⟨rfl, by rw [hhere]; exact hret⟩⟩
    | some data => exact ⟨hok (.file data .test) trivial, .inl ⟨rfl, by rw [hhere]; exact hhere _⟩⟩
  | file data fpc =>
    obtain ⟨hpc, h⟩ := log2file_coarse ok (fun fpc => here (.file data fpc)) he hready
      (fun fpc => hhere (.file data fpc)) hret (fun fpc hfpc => hok (.file data fpc) hfpc) hokret
    refine ⟨hpc, h.imp_right ?_⟩
    rintro ⟨hwrite, hback, hp⟩
    exact ⟨.write data, none, hwrite, by rw [hp]; rfl, hback⟩

end Parts

/-! ### The callers -/

/-- The operation changes nothing. -/
def AppOp.reads : {α : Type} → AppOp α → Bool
  | _, .loadClose => true
  | _, .loadMode => true
  | _, .loadBuff => true
  | _, .emptyDir => true
  | _, .length => true
  | _, _ => false

/-- The statement changes no appender. -/
def Stmt.Reads : Stmt → Prop
  | .app _ op _ => op.reads = true
  | _ => True

/-- `__appender_async` behind the entry in the buffer: there the append is over. -/
def AppendPc.over : AppendPc → Bool
  | .length => true
  | .notify => true
  | .isruning => true
  | .start _ => true
  | .scan _ => true
  | .unlock => true
  | _ => false

/-- The thread `t` has answered in `Threads`: the appender and the files are `p`, and it is at `pc`. -/
structure Answers (lc : Libc) (m : Mlog) (E : FileEnv → Prop) (Q : Proc → Prop) (t : ℕ) (s s' : Threads.Sys)
    (p : Proc) (pc : Threads.Pc) (spin : Option ℕ) : Prop extends Follows lc m E Q t s s' where
  p : s'.p = p
  here : s'.pc t = pc
  spin : s'.spin = spin

section Callers

variable {lc : Libc} {env : Env} {u : Tid} {t : ℕ} {w w₁ : State} {s : Threads.Sys} {pc : Pc} {m : Mlog}
  {E : FileEnv → Prop} {Q : Proc → Prop}

theorem setApp_app (w : State) (m : Mlog) : w.setApp m (w.app m) = w := by
  show { w with apps := Function.update w.apps m (w.apps m) } = w
  rw [Function.update_eq_self]

theorem Effect.app_eq {st : Stmt} (he : Effect lc env u w st w₁ pc) (h : st.Reads) : w₁.app m = w.app m := by
  cases he with
  | @app α n op k p a hn hr =>
    have hp : p = w.app n := by
      cases op with
      | loadClose | loadMode | loadBuff | emptyDir =>
        cases hr
        rfl
      | length =>
        obtain ⟨_, -, hr⟩ := Option.map_eq_some_iff.mp hr
        cases hr
        rfl
      | _ => cases h
    rw [hp, setApp_app]
  | _ => rfl

theorem answers_refl (hp : s.p = w.app m) (happ : w₁.app m = w.app m) {tpc : Threads.Pc} (hpc : s.pc t = tpc) :
    Answers lc m E Q t s s (w₁.app m) tpc s.spin :=
  ⟨follows_refl lc m t s, hp.trans happ.symm, hpc, rfl⟩

theorem answers_goto {fenv : FileEnv} {p : Proc} {spin : Option ℕ} {tpc : Threads.Pc} (hd : s.deleted = false)
    (hf : Fine E Q s (.run t fenv))
    (he : Threads.exec lc fenv t s (s.pc t) = some ({ s with p := p, spin := spin }.goto t tpc)) :
    ∃ s', Answers lc m E Q t s s' p tpc spin :=
  ⟨_, follows_goto hd hf he, rfl, Threads.goto_pc_self .., rfl⟩

theorem answers_pc {fenv : FileEnv} {tpc : Threads.Pc} (hd : s.deleted = false) (hf : Fine E Q s (.run t fenv))
    (he : Threads.exec lc fenv t s (s.pc t) = some (s.goto t tpc)) : ∃ s', Answers lc m E Q t s s' s.p tpc s.spin :=
  answers_goto hd hf he

theorem Answers.of_spin {s' : Threads.Sys} {p : Proc} {tpc : Threads.Pc} {spin spin' : Option ℕ}
    (h : Answers lc m E Q t s s' p tpc spin) (hspin : spin = spin') : Answers lc m E Q t s s' p tpc spin' := hspin ▸ h

theorem Answers.goto {s' : Threads.Sys} {fenv : FileEnv} {p : Proc} {tpc tpc' : Threads.Pc} {spin : Option ℕ}
    (h : Answers lc m E Q t s s' p tpc spin) (hd : s.deleted = false) (hf : Fine E Q s' (.run t fenv))
    (he : Threads.exec lc fenv t s' tpc = some (s'.goto t tpc')) :
    ∃ s'', Answers lc m E Q t s s'' p tpc' spin := by
  have hf : Follows lc m E Q t s' (s'.goto t tpc') :=
    follows_goto (h.deleted.trans hd) hf (by rw [h.here]; exact he)
  exact ⟨_, h.toFollows.trans hf, h.p, Threads.goto_pc_self .., h.spin⟩

theorem start_ne_idle (s : Threads.Sys) : s.start.pc 0 ≠ .idle := by
  unfold Threads.Sys.start
  split_ifs with h
  · rw [Threads.goto_pc_self]
    cases s.p.mlog.sgThreadAsync <;> rintro ⟨⟩
  · exact fun hi => h (Threads.Pc.isIdle_iff.mpr hi)

theorem answers_start {fenv : FileEnv} {p : Proc} {tpc : Threads.Pc} (hd : s.deleted = false)
    (hf : Fine E Q s (.run t fenv)) (ht : t ≠ 0)
    (hthread : p.mlog.sgThreadAsync = if m.useShareThread then .shared else .own)
    (he : Threads.exec lc fenv t s (s.pc t) = some ({ s with p := p }.goto t tpc).start) :
    Answers lc m E Q t s ({ s with p := p }.goto t tpc).start p tpc s.spin := by
  refine ⟨follows_start hd hf hthread he, Threads.start_p _, ?_, Threads.start_spin _⟩
  rcases Threads.start_pc ({ s with p := p }.goto t tpc) t with hs | ⟨rfl, -⟩
  · exact hs.trans (Threads.goto_pc_self ..)
  · exact absurd rfl ht

theorem appendCode_over {info : Option LogInfo} {log : Option CStr} {here : AppendPc → Pc} {apc : AppendPc}
    (h : apc.over = true) : (appendCode m info log here apc).Reads ∧ (appendCode m info log here apc).Leads fun pc =>
      pc = .idle ∨ ∃ apc', pc = here apc' ∧ apc'.over = true ∧ (apc'.starts = true → apc.starts = true) := by
  have hscan : ∀ spc, here (.scan spc) = .idle ∨ ∃ apc', here (.scan spc) = here apc' ∧ apc'.over = true ∧
      (apc'.starts = true → apc.starts = true) := fun spc => .inr ⟨.scan spc, rfl, rfl, by rintro ⟨⟩⟩
  have hunlock : here .unlock = .idle ∨ ∃ apc', here .unlock = here apc' ∧ apc'.over = true ∧
      (apc'.starts = true → apc.starts = true) := .inr ⟨.unlock, rfl, rfl, by rintro ⟨⟩⟩
  cases apc with
  | length =>
    refine ⟨rfl, fun full => ?_⟩
    dsimp only
    split_ifs
    exacts [.inr ⟨.notify, rfl, rfl, id⟩, .inr ⟨.isruning, rfl, rfl, id⟩]
  | notify => exact ⟨trivial, .inr ⟨.isruning, rfl, rfl, id⟩⟩
  | isruning =>
    refine ⟨trivial, fun run => ?_⟩
    dsimp only
    split_ifs
    exacts [hscan .begin, .inr ⟨.start .lock, rfl, rfl, id⟩]
  | start spc =>
    refine ⟨by cases spc <;> trivial, ?_⟩
    rw [appendCode]
    exact startCode_leads (fun spc => .inr ⟨.start spc, rfl, rfl, id⟩) (hscan .begin) spc
  | scan spc =>
    refine ⟨by cases spc <;> first | exact rfl | trivial, ?_⟩
    rw [appendCode]
    exact scanCode_leads hscan hunlock spc
  | unlock => exact ⟨trivial, .inl rfl⟩
  | _ => cases h

/-- **The end of an append** is over there. -/
theorem append_over {info : Option LogInfo} {log : Option CStr} {apc : AppendPc} (hp : s.p = w.app m)
    (hover : apc.over = true) (hpc : s.pc t = .idle)
    (he : Effect lc env u w (appendCode m info log (.append m info log) apc) w₁ pc) :
    ∃ s', Answers lc m E Q t s s' (w₁.app m) (pc.coarse lc w.statics m) s.spin ∧ pc.Uses m (w.apps m).sgLogdir ∧
      (pc.Starts m → (Pc.append m info log apc).Starts m ∨ s'.pc 0 ≠ .idle) := by
  obtain ⟨hreads, hleads⟩ := appendCode_over hover
  have happ : w₁.app m = w.app m := he.app_eq hreads
  rcases he.leads hleads with rfl | ⟨apc', rfl, hover', hstarts⟩
  · exact ⟨s, answers_refl hp happ hpc, trivial, False.elim⟩
  · have hcoarse : apc'.coarse lc w.statics info log = .idle := by
      cases apc' <;> first | rfl | cases hover'
    have hready : apc'.Ready (w.apps m).sgLogdir := by
      cases apc' <;> trivial
    exact ⟨s, answers_refl hp happ (hpc.trans hcoarse.symm), ⟨rfl, hready⟩, fun h => .inl ⟨h.1, hstarts h.2⟩⟩

/-- **A flush** is nothing there. -/
theorem flush_answers {fpc : FlushPc} (hp : s.p = w.app m) (hpc : s.pc t = .idle)
    (he : Effect lc env u w (flushCode m (.flush m) fpc) w₁ pc) :
    ∃ s', Answers lc m E Q t s s' (w₁.app m) (pc.coarse lc w.statics m) s.spin ∧ pc.Uses m (w.apps m).sgLogdir ∧
      (pc.Starts m → (Pc.flush m fpc).Starts m ∨ s'.pc 0 ≠ .idle) := by
  cases fpc with
  | notifyOwn =>
    have happ : w₁.app m = w.app m := he.app_eq trivial
    cases he
    exact ⟨s, answers_refl hp happ hpc, rfl, False.elim⟩
  | notifyShared =>
    have happ : w₁.app m = w.app m := he.app_eq trivial
    cases he
    exact ⟨s, answers_refl hp happ hpc, trivial, False.elim⟩

variable (hE : E .ok) (henv : E env.file) (hs : Serves m w) (hd : s.deleted = false) (hp : s.p = w.app m)

include hE henv hs hd hp

/-- **An append** takes place in the write of its record, or in the entry in the buffer. -/
theorem append_answers (ht : t ≠ 0) {info : Option LogInfo} {log : Option CStr} {apc : AppendPc}
    (hpc : s.pc t = apc.coarse lc w.statics info log) (hready : apc.Ready (w.apps m).sgLogdir)
    (hQ : apc = .insert → Q (w.app m))
    (he : Effect lc env u w (appendCode m info log (.append m info log) apc) w₁ pc) :
    ∃ s', Answers lc m E Q t s s' (w₁.app m) (pc.coarse lc w.statics m) s.spin ∧ pc.Uses m (w.apps m).sgLogdir ∧
      (pc.Starts m → (Pc.append m info log apc).Starts m ∨ s'.pc 0 ≠ .idle) := by
  have hflag : s.p.mlog.sgLogClose = false := by rw [hp]; exact hs.flag
  have hsome : s.p.mlog.sgLogBuff.isSome = true := by rw [hp]; exact hs.buff
  have hnone : s.p.mlog.sgLogBuff.isNone = false := Option.isNone_eq_false_iff.mpr hsome
  have hno : ∀ {pc : AppendPc} {P : Prop}, pc.starts = false → (Pc.append m info log pc).Starts m → P := by
    rintro pc P hf ⟨-, ht⟩
    rw [hf] at ht
    cases ht
  cases apc with
  | load =>
    cases he with
    | app hm h =>
      cases h
      dsimp only
      rw [app_setApp, ← hp, hflag, if_neg Bool.false_ne_true]
      have hexec : Threads.exec lc .ok t s (s.pc t) = some (s.goto t (.append info log .mode)) := by
        rw [hpc]
        show some (s.goto t (if s.p.mlog.sgLogClose then _ else _)) = _
        rw [hflag, if_neg Bool.false_ne_true]
      obtain ⟨s', ha⟩ := answers_pc hd (fine_of_pc hE hpc (by rintro _ _ ⟨⟩)) hexec
      exact ⟨s', ha, ⟨rfl, trivial⟩, hno rfl⟩
  | mode =>
    cases he with
    | app hm h =>
      cases h
      dsimp only
      rw [app_setApp, ← hp]
      cases hmode : s.p.mlog.sgMode with
      | sync =>
        rw [if_pos rfl]
        cases hr : appenderSyncBuffer lc w.statics info log with
        | none =>
          have hcoarse : formatCoarse lc w.statics info log = .append info log .mode := by rw [formatCoarse, hr]
          exact ⟨s, ⟨follows_refl lc m t s, rfl, hpc.trans hcoarse.symm, rfl⟩, ⟨rfl, trivial⟩, hno rfl⟩
        | some r =>
          obtain ⟨data, -, rfl⟩ := printed_of_appenderSyncBuffer hr
          have hcoarse : formatCoarse lc w.statics info log = .append info log (.write data) := by
            rw [formatCoarse, hr]
          have hexec : Threads.exec lc .ok t s (s.pc t) = some (s.goto t (.append info log (.write data))) := by
            have hst : s.p.statics = w.statics := by rw [hp]; rfl
            rw [hpc]
            show (if s.p.mlog.sgMode = .sync then (appenderSyncBuffer lc s.p.statics info log).bind _ else _) = _
            rw [hmode, if_pos rfl, hst, hr, ← hst]
            rfl
          obtain ⟨s', ha⟩ := answers_pc hd (fine_of_pc hE hpc (by rintro _ _ ⟨⟩)) hexec
          exact ⟨s', by rw [Pc.coarse, AppendPc.coarse, hcoarse]; exact ha, ⟨rfl, trivial⟩, hno rfl⟩
      | async =>
        rw [if_neg (by decide)]
        have hexec : Threads.exec lc .ok t s (s.pc t) = some (s.goto t (.append info log .async)) := by
          rw [hpc]
          show (if s.p.mlog.sgMode = .sync then _ else some (s.goto t _)) = _
          rw [hmode, if_neg (by decide)]
        obtain ⟨s', ha⟩ := answers_pc hd (fine_of_pc hE hpc (by rintro _ _ ⟨⟩)) hexec
        exact ⟨s', ha, ⟨rfl, trivial⟩, hno rfl⟩
  | format =>
    cases he with
    | app hm h =>
      obtain ⟨r, hr, h⟩ := Option.map_eq_some_iff.mp h
      obtain ⟨data, -, rfl⟩ := printed_of_appenderSyncBuffer hr
      cases h
      have hcoarse : formatCoarse lc w.statics info log = .append info log (.write data) := by
        rw [formatCoarse, show w.statics = (w.app m).statics from rfl, hr]
      rw [app_setApp]
      exact ⟨s, ⟨follows_refl lc m t s, hp, hpc.trans hcoarse, rfl⟩, ⟨rfl, trivial⟩, hno rfl⟩
  | file data fpc =>
    obtain ⟨hok, hmove⟩ := log2file_coarse (c := Pc.coarse lc w.statics m)
      (fun pc => pc.Uses m (w.apps m).sgLogdir ∧ ¬ pc.Starts m) (fun fpc => .append m info log (.file data fpc))
      he hready (fun _ => rfl) rfl (fun _ h => ⟨⟨rfl, h⟩, hno rfl⟩) ⟨trivial, id⟩
    rcases hmove with ⟨happ, hc⟩ | ⟨hwrite, hc, happ⟩
    · exact ⟨s, answers_refl hp happ (hpc.trans hc.symm), hok.1, fun h => absurd h hok.2⟩
    · have hexec : Threads.exec lc env.file t s (s.pc t) =
          some ({ s with p := log2file lc env.file data s.p }.goto t .idle) := by
        rw [hpc, show AppendPc.coarse lc w.statics info log (.file data fpc) = _ from hwrite]
        rfl
      obtain ⟨s', ha⟩ := answers_goto hd (fine_of_pc henv (hpc.trans hwrite) (by rintro _ _ ⟨⟩)) hexec
      rw [happ, hc, ← hp]
      exact ⟨s', ha, hok.1, fun h => absurd h hok.2⟩
  | lock =>
    cases he
    exact ⟨s, answers_refl hp rfl hpc, ⟨rfl, trivial⟩, hno rfl⟩
  | test =>
    have happ : w₁.app m = w.app m := he.app_eq rfl
    cases he with
    | app hm h =>
      cases h
      dsimp only
      rw [show (w.app m).mlog.sgLogBuff.isNone = false from hp ▸ hnone, if_neg Bool.false_ne_true]
      exact ⟨s, answers_refl hp happ hpc, ⟨rfl, trivial⟩, hno rfl⟩
  | insert =>
    cases he with
    | @app _ _ _ _ p ok hm h =>
      have hfine : Fine E Q s (.run t .ok) := ⟨hE, fun _ _ _ => hp ▸ hQ rfl⟩
      have hasync : appenderAsync lc info log s.p = some p := by
        rw [appenderAsync_eq_ops hsome, hp, h]
        rfl
      have hthread : p.mlog.sgThreadAsync = if m.useShareThread then .shared else .own := by
        obtain ⟨lb, lb', -, hy, -⟩ := AppOp.run_spec h
        rw [hy]
        exact hs.thread
      have hcoarse : Pc.coarse lc w.statics m
          (if ok = true then .append m info log .length else .append m info log .unlock) = .idle := by cases ok <;> rfl
      have huses : Pc.Uses m (w.apps m).sgLogdir (if ok = true then .append m info log .length else
          .append m info log .unlock) := by cases ok <;> exact ⟨rfl, trivial⟩
      rw [app_setApp, hcoarse]
      have hexec : Threads.exec lc .ok t s (s.pc t) = some (if s.p.mlog.sgLogBuff.isSome ∧
          s.p.mlog.sgThreadAsync = .shared then ({ s with p := p }.goto t .idle).start else
            { s with p := p }.goto t .idle) := by
        rw [hpc]
        show (appenderAsync lc info log s.p).bind _ = _
        rw [hasync]
        rfl
      cases hshare : m.useShareThread with
      | true =>
        have hshared : s.p.mlog.sgThreadAsync = .shared := by
          rw [hp]
          exact hs.thread.trans (by rw [hshare]; rfl)
        rw [if_pos ⟨hsome, hshared⟩] at hexec
        exact ⟨_, answers_start hd hfine ht hthread hexec, huses, fun _ => .inr (start_ne_idle _)⟩
      | false =>
        have hown : ¬ (s.p.mlog.sgLogBuff.isSome ∧ s.p.mlog.sgThreadAsync = .shared) := by
          rintro ⟨-, h'⟩
          rw [hp] at h'
          cases (hs.thread.trans (by rw [hshare]; rfl) : (w.apps m).sgThreadAsync = .own).symm.trans h'
        rw [if_neg hown] at hexec
        obtain ⟨s', ha⟩ := answers_goto hd hfine hexec
        refine ⟨s', ha, huses, fun h => absurd h ?_⟩
        cases ok
        all_goals
          rintro ⟨hshared, -⟩
          cases hshare.symm.trans hshared
  | length | notify | isruning | start | scan | unlock => exact append_over hp rfl hpc he

omit henv in
/-- **A change of the mode** takes place at its store, and at its second read of the mode. -/
theorem setmode_answers (ht : t ≠ 0) {mode : AppendMode} {spc : SetmodePc} (hpc : s.pc t = spc.coarse mode)
    (hready : spc.Ready m) (he : Effect lc env u w (setmodeCode m mode (.setmode m mode) .idle spc) w₁ pc) :
    ∃ s', Answers lc m E Q t s s' (w₁.app m) (pc.coarse lc w.statics m) s.spin ∧ pc.Uses m (w.apps m).sgLogdir ∧
      (pc.Starts m → (Pc.setmode m mode spc).Starts m ∨ s'.pc 0 ≠ .idle) := by
  cases spc with
  | store =>
    cases he with
    | app hm h =>
      cases h
      have hexec : Threads.exec lc .ok t s (s.pc t) =
          some ({ s with p := logAppenderSetmode mode s.p }.goto t (.setmode .start)) := by
        rw [hpc]
        rfl
      obtain ⟨s', ha⟩ := answers_goto hd (fine_of_pc hE hpc (by rintro _ _ ⟨⟩)) hexec
      rw [app_setApp, ← hp]
      exact ⟨s', ha, ⟨rfl, trivial⟩, fun h => absurd h.2 Bool.false_ne_true⟩
  | notifyOwn =>
    have happ : w₁.app m = w.app m := he.app_eq trivial
    cases he
    exact ⟨s, answers_refl hp happ hpc, ⟨rfl, trivial⟩, fun h => absurd h.2 Bool.false_ne_true⟩
  | notifyShared =>
    have happ : w₁.app m = w.app m := he.app_eq trivial
    cases he
    exact ⟨s, answers_refl hp happ hpc, ⟨rfl, trivial⟩, fun h => absurd h.2 Bool.false_ne_true⟩
  | mode =>
    cases he with
    | @app _ _ _ _ p mode' hm h =>
      cases h
      have hcoarse : Pc.coarse lc w.statics m (if (w.app m).mlog.sgMode = .async then .setmode m mode .isruning
          else .idle) = .idle := by split_ifs <;> rfl
      have huses : Pc.Uses m (w.apps m).sgLogdir (if (w.app m).mlog.sgMode = .async then .setmode m mode .isruning
          else .idle) := by split_ifs <;> first | exact ⟨rfl, trivial⟩ | trivial
      have hexec : Threads.exec lc .ok t s (s.pc t) = some (if s.p.mlog.sgMode = .async ∧
          s.p.mlog.sgThreadAsync = .own then (s.goto t .idle).start else s.goto t .idle) := by
        rw [hpc]
        rfl
      rw [app_setApp, hcoarse, ← hp]
      have hthread : s.p.mlog.sgThreadAsync = if m.useShareThread then .shared else .own := by
        rw [hp]
        exact hs.thread
      by_cases hown : s.p.mlog.sgMode = .async ∧ s.p.mlog.sgThreadAsync = .own
      · rw [if_pos hown] at hexec
        have hfine : Fine E Q s (.run t .ok) := fine_of_pc hE hpc (by rintro _ _ ⟨⟩)
        exact ⟨_, answers_start (p := s.p) hd hfine ht hthread hexec, hp ▸ huses, fun _ => .inr (start_ne_idle _)⟩
      · rw [if_neg hown] at hexec
        obtain ⟨s', ha⟩ := answers_pc hd (fine_of_pc hE hpc (by rintro _ _ ⟨⟩)) hexec
        refine ⟨s', ha, hp ▸ huses, fun h => absurd h ?_⟩
        dsimp only
        by_cases hasync : s.p.mlog.sgMode = .async
        · rw [if_pos hasync]
          rintro ⟨hshare, -⟩
          rw [hshare] at hthread
          exact hown ⟨hasync, hthread⟩
        · rw [if_neg hasync]
          exact id
  | isruning =>
    have happ : w₁.app m = w.app m := he.app_eq trivial
    cases he with
    | isruning =>
      dsimp only
      split_ifs with hrun
      · have hown : m.useShareThread = false := by
          rw [Bool.and_eq_true, decide_eq_true_iff, Mlog.sgThreadAsync] at hrun
          by_contra hshare
          exact hrun.2 (if_pos (by simpa using hshare))
        exact ⟨s, answers_refl hp happ hpc, ⟨rfl, hown⟩, fun _ => .inl ⟨hown, rfl⟩⟩
      · exact ⟨s, answers_refl hp happ hpc, trivial, False.elim⟩
  | start spc' =>
    have happ : w₁.app m = w.app m := he.app_eq (by cases spc' <;> trivial)
    have hpc' : pc = .idle ∨ ∃ spc', pc = .setmode m mode (.start spc') := by
      refine he.leads (P := fun pc => pc = .idle ∨ ∃ spc', pc = .setmode m mode (.start spc')) ?_
      rw [setmodeCode]
      exact startCode_leads (fun spc' => .inr ⟨spc', rfl⟩) (.inl rfl) spc'
    rcases hpc' with rfl | ⟨spc', rfl⟩
    · exact ⟨s, answers_refl hp happ hpc, trivial, False.elim⟩
    · exact ⟨s, answers_refl hp happ hpc, ⟨rfl, hready⟩, fun _ => .inl ⟨hready, rfl⟩⟩

/-- **A synchronous flush** takes place at its read of the mode, its drain and its write. -/
theorem flushSync_answers {fpc : FlushSyncPc} (hpc : s.pc t = fpc.coarse)
    (hready : fpc.Ready (w.apps m).sgLogdir)
    (he : Effect lc env u w (flushSyncCode m (.flushSync m) fpc) w₁ pc) :
    ∃ s', Answers lc m E Q t s s' (w₁.app m) (pc.coarse lc w.statics m) s.spin ∧ pc.Uses m (w.apps m).sgLogdir ∧
      (pc.Starts m → (Pc.flushSync m fpc).Starts m ∨ s'.pc 0 ≠ .idle) := by
  have hnone : (w.app m).mlog.sgLogBuff.isNone = false := Option.isNone_eq_false_iff.mpr hs.buff
  cases fpc with
  | mode =>
    cases he with
    | app hm h =>
      cases h
      dsimp only
      rw [app_setApp, ← hp]
      have hexec : Threads.exec lc .ok t s (s.pc t) =
          some (s.goto t (.flush (if s.p.mlog.sgMode = .sync then .ret true else .drain))) := by
        rw [hpc]
        rfl
      split_ifs with hsync
      · rw [if_pos hsync] at hexec
        obtain ⟨s', ha⟩ := answers_pc hd (fine_of_pc hE hpc (by rintro _ _ ⟨⟩)) hexec
        have hret : Threads.exec lc .ok t s' (.flush (.ret true)) = some (s'.goto t .idle) := rfl
        obtain ⟨s'', ha'⟩ := ha.goto hd (fine_of_pc hE ha.here (by rintro _ _ ⟨⟩)) hret
        exact ⟨s'', ha', trivial, False.elim⟩
      · rw [if_neg hsync] at hexec
        obtain ⟨s', ha⟩ := answers_pc hd (fine_of_pc hE hpc (by rintro _ _ ⟨⟩)) hexec
        exact ⟨s', ha, ⟨rfl, trivial⟩, False.elim⟩
  | lock =>
    cases he
    exact ⟨s, answers_refl hp rfl hpc, ⟨rfl, trivial⟩, False.elim⟩
  | test =>
    have happ : w₁.app m = w.app m := he.app_eq rfl
    cases he with
    | app hm h =>
      cases h
      dsimp only
      rw [hnone, if_neg Bool.false_ne_true]
      exact ⟨s, answers_refl hp happ hpc, ⟨rfl, trivial⟩, False.elim⟩
  | drain =>
    cases he with
    | @app _ _ _ _ p tmp hm h =>
      rw [AppOp.run, Option.ite_none_left_eq_some, ← hp] at h
      have hexec : Threads.exec lc .ok t s (s.pc t) = some ({ s with p := p }.goto t
          (tmp.elim (.flush (.ret false)) fun data => .flush (.write data))) := by
        rw [hpc]
        show (drainBuffer s.p).bind _ = _
        rw [h.2]
        cases tmp <;> rfl
      obtain ⟨s', ha⟩ := answers_goto hd (fine_of_pc hE hpc (by rintro _ _ ⟨⟩)) hexec
      rw [app_setApp]
      exact ⟨s', ha, ⟨rfl, trivial⟩, False.elim⟩
  | unlock tmp =>
    have happ : w₁.app m = w.app m := he.app_eq trivial
    cases he
    cases tmp with
    | none =>
      have hexec : Threads.exec lc .ok t s (s.pc t) = some (s.goto t .idle) := by
        rw [hpc]
        rfl
      obtain ⟨s', ha⟩ := answers_pc hd (fine_of_pc hE hpc (by rintro _ _ ⟨⟩)) hexec
      rw [happ, ← hp]
      exact ⟨s', ha, trivial, False.elim⟩
    | some data => exact ⟨s, answers_refl hp happ hpc, ⟨rfl, trivial⟩, False.elim⟩
  | file data fpc =>
    obtain ⟨hok, hmove⟩ := log2file_coarse (c := Pc.coarse lc w.statics m)
      (fun pc => pc.Uses m (w.apps m).sgLogdir ∧ ¬ pc.Starts m) (fun fpc => .flushSync m (.file data fpc))
      he hready (fun _ => rfl) rfl (fun _ h => ⟨⟨rfl, h⟩, id⟩) ⟨trivial, id⟩
    rcases hmove with ⟨happ, hc⟩ | ⟨hwrite, hc, happ⟩
    · exact ⟨s, answers_refl hp happ (hpc.trans hc.symm), hok.1, fun h => absurd h hok.2⟩
    · have hexec : Threads.exec lc env.file t s (s.pc t) =
          some ({ s with p := log2file lc env.file data s.p }.goto t (.flush (.ret false))) := by
        rw [hpc, show FlushSyncPc.coarse (.file data fpc) = _ from hwrite]
        rfl
      obtain ⟨s', ha⟩ := answers_goto hd (fine_of_pc henv (hpc.trans hwrite) (by rintro _ _ ⟨⟩)) hexec
      have hret : Threads.exec lc .ok t s' (.flush (.ret false)) = some (s'.goto t .idle) := rfl
      obtain ⟨s'', ha'⟩ := ha.goto hd (fine_of_pc hE ha.here (by rintro _ _ ⟨⟩)) hret
      rw [happ, hc, ← hp]
      exact ⟨s'', ha', hok.1, fun h => absurd h hok.2⟩

end Callers

/-! ### The worker -/

section Worker

variable {lc : Libc} {env : Env} {u : Tid} {w w₁ : State} {s : Threads.Sys} {pc : Pc} {m : Mlog}
  {E : FileEnv → Prop} {Q : Proc → Prop}

/-- A wait is one point there. -/
theorem wait_leads {a : Async} {here : WaitPc → Pc} {back : Pc} {wpc : WaitPc}
    (he : Effect lc env u w (waitCode a here back wpc) w₁ pc) : pc = back ∨ ∃ wpc', pc = here wpc' :=
  he.leads (P := fun pc => pc = back ∨ ∃ wpc', pc = here wpc')
    (waitCode_leads (fun wpc' => .inr ⟨wpc', rfl⟩) (.inl rfl) wpc)

theorem waitCode_reads {a : Async} {here : WaitPc → Pc} {back : Pc} (wpc : WaitPc) :
    (waitCode a here back wpc).Reads := by
  cases wpc <;> trivial

theorem routine_answers {rpc : RoutinePc} (hp : s.p = w.app m) (hspin : s.spin = none)
    (hpc : s.pc 0 = m.coarseStart) (hready : (Pc.routine m.sgThreadAsync rpc).Works m (w.apps m).sgLogdir)
    (he : Effect lc env u w (routineCode m.sgThreadAsync (.routine m.sgThreadAsync) rpc) w₁ pc) :
    ∃ s', Answers lc m E Q 0 s s' (w₁.app m) (pc.coarse lc w.statics m) pc.spin ∧
      pc.Works m (w.apps m).sgLogdir := by
  cases rpc with
  | initLock =>
    cases he
    exact ⟨s, ⟨follows_refl lc m 0 s, hp, hpc, hspin⟩, rfl⟩
  | initUnlock =>
    cases he
    cases hshare : m.useShareThread with
    | true =>
      have ha : m.sgThreadAsync = .shared := if_pos hshare
      have hstart : m.coarseStart = .pass .lock := if_pos hshare
      rw [ha]
      exact ⟨s, ⟨follows_refl lc m 0 s, hp, hpc.trans hstart, hspin⟩, hshare, trivial⟩
    | false =>
      have ha : m.sgThreadAsync = .own m := if_neg (by rw [hshare]; exact Bool.false_ne_true)
      have hstart : m.coarseStart = .loop .top := if_neg (by rw [hshare]; exact Bool.false_ne_true)
      rw [ha]
      exact ⟨s, ⟨follows_refl lc m 0 s, hp, hpc.trans hstart, hspin⟩, rfl, hshare, trivial⟩
  | _ => exact hready.elim

variable (hE : E .ok) (henv : E env.file) (hs : Serves m w) (hd : s.deleted = false) (hp : s.p = w.app m)

include hE henv hs hd hp

/-- **The appender's own worker.** -/
theorem loop_answers {lpc : LoopPc} (hspin : s.spin = none) (hpc : s.pc 0 = lpc.coarse)
    (hshare : m.useShareThread = false) (hready : lpc.Ready (w.apps m).sgLogdir)
    (he : Effect lc env u w (loopCode m (.loop m) (.routine (.own m) .cleanLock) lpc) w₁ pc) :
    ∃ s', Answers lc m E Q 0 s s' (w₁.app m) (pc.coarse lc w.statics m) pc.spin ∧
      pc.Works m (w.apps m).sgLogdir := by
  have hflag : s.p.mlog.sgLogClose = false := by rw [hp]; exact hs.flag
  have hnone : s.p.mlog.sgLogBuff.isNone = false := by
    rw [hp]
    exact Option.isNone_eq_false_iff.mpr hs.buff
  cases lpc with
  | top =>
    cases he with
    | app hm h =>
      cases h
      dsimp only
      rw [app_setApp, ← hp, hnone, if_neg Bool.false_ne_true]
      have hexec : Threads.exec lc .ok 0 s (s.pc 0) = some (s.goto 0 (.loop (.task .load))) := by
        rw [hpc]
        show some (s.goto 0 (if s.p.mlog.sgLogBuff.isNone then _ else _)) = _
        rw [hnone, if_neg Bool.false_ne_true]
      obtain ⟨s', ha⟩ := answers_pc hd (fine_of_pc hE hpc (by rintro _ _ ⟨⟩)) hexec
      exact ⟨s', ha.of_spin hspin, rfl, hshare, trivial⟩
  | task tpc =>
    obtain ⟨hok, hmove⟩ := task_coarse (c := Pc.coarse lc w.statics m)
      (fun pc => pc.Works m (w.apps m).sgLogdir ∧ pc.spin = none) (fun tpc => .loop m (.task tpc)) hs he hready
      (show ∀ tpc : TaskPc, _ = tpc.coarse (fun pc => .loop (.task pc)) (.loop .load) from fun _ => rfl) rfl
      (fun _ h => ⟨⟨rfl, hshare, h⟩, rfl⟩) ⟨⟨rfl, hshare, trivial⟩, rfl⟩
    rw [hok.2, ← hspin]
    rcases hmove with ⟨happ, hc⟩ | ⟨pc₀, r, hpc₀, htask, hc⟩
    · exact ⟨s, answers_refl hp happ (hpc.trans hc.symm), hok.1⟩
    · have hexec : Threads.exec lc env.file 0 s (s.pc 0) = some ({ s with p := w₁.app m }.goto 0
          (r.elim (.loop .load) fun pc => .loop (.task pc))) := by
        rw [hpc, show LoopPc.coarse (.task tpc) = _ from hpc₀]
        show (Threads.taskStep lc env.file s.p pc₀).map _ = _
        rw [hp, htask]
        cases r <;> rfl
      obtain ⟨s', ha⟩ := answers_goto hd (fine_of_pc henv (hpc.trans hpc₀) (by rintro _ _ ⟨⟩)) hexec
      exact ⟨s', by rw [hc]; exact ha, hok.1⟩
  | load =>
    cases he with
    | app hm h =>
      cases h
      dsimp only
      rw [app_setApp, ← hp, hflag, if_neg Bool.false_ne_true]
      have hexec : Threads.exec lc .ok 0 s (s.pc 0) = some (s.goto 0 (.loop .wait)) := by
        rw [hpc]
        show some (s.goto 0 (if s.p.mlog.sgLogClose then _ else _)) = _
        rw [hflag, if_neg Bool.false_ne_true]
      obtain ⟨s', ha⟩ := answers_pc hd (fine_of_pc hE hpc (by rintro _ _ ⟨⟩)) hexec
      exact ⟨s', ha.of_spin hspin, rfl, hshare, trivial⟩
  | wait wpc =>
    rw [loopCode] at he
    have happ : w₁.app m = w.app m := he.app_eq (waitCode_reads wpc)
    rcases wait_leads he with rfl | ⟨wpc', rfl⟩
    · have hexec : Threads.exec lc .ok 0 s (s.pc 0) = some (s.goto 0 (.loop .top)) := by
        rw [hpc]
        rfl
      obtain ⟨s', ha⟩ := answers_pc hd (fine_of_pc hE hpc (by rintro _ _ ⟨⟩)) hexec
      rw [happ, ← hp]
      exact ⟨s', ha.of_spin hspin, rfl, hshare, trivial⟩
    · exact ⟨s, (answers_refl hp happ hpc).of_spin hspin, rfl, hshare, trivial⟩

/-- **The shared worker**, whose pass visits the appender. -/
theorem pass_answers {ppc : PassPc} (hspin : s.spin = (Pc.pass ppc).spin)
    (hlisted : s.listed = true) (hpc : s.pc 0 = ppc.coarse) (hshare : m.useShareThread = true)
    (hready : ppc.Ready m (w.apps m).sgLogdir)
    (he : Effect lc env u w (passCode .pass (.routine .shared .cleanLock) ppc) w₁ pc) :
    ∃ s', Answers lc m E Q 0 s s' (w₁.app m) (pc.coarse lc w.statics m) pc.spin ∧
      pc.Works m (w.apps m).sgLogdir := by
  have hflag : s.p.mlog.sgLogClose = false := by rw [hp]; exact hs.flag
  have hitems : w.sharedAppenders.items = [m] := by rw [hs.items, if_pos hshare]
  cases ppc with
  | lock =>
    cases he
    have hexec : Threads.exec lc .ok 0 s (s.pc 0) = some ({ s with spin := some 0 }.goto 0 (.pass .load)) := by
      rw [hpc]
      show (if s.spin.isSome then none else if s.listed then some ({ s with spin := some 0 }.goto 0 _) else _) = _
      rw [hspin, hlisted]
      rfl
    obtain ⟨s', ha⟩ := answers_goto hd (fine_of_pc hE hpc (by rintro _ _ ⟨⟩)) hexec
    exact ⟨s', hp ▸ ha, hshare, trivial⟩
  | empty =>
    cases he with
    | vec h =>
      cases h
      dsimp only
      rw [hitems]
      exact ⟨s, ⟨follows_refl lc m 0 s, hp, hpc, hspin⟩, hshare, trivial⟩
  | exit => exact hready.elim
  | begin =>
    cases he with
    | vec h =>
      cases h
      exact ⟨s, ⟨follows_refl lc m 0 s, hp, hpc, hspin⟩, hshare, Nat.zero_le 1⟩
  | cond it =>
    cases he with
    | vec h =>
      obtain ⟨more, hmore, h⟩ := Option.map_eq_some_iff.mp h
      cases h
      unfold Vec.more at hmore
      split_ifs at hmore
      cases hmore
      dsimp only
      rw [hitems, List.length_singleton]
      by_cases hzero : it.index = 0
      · have hcoarse : PassPc.coarse (.cond it) = .pass .load := if_pos hzero
        rw [hzero]
        exact ⟨s, ⟨follows_refl lc m 0 s, hp, hpc.trans hcoarse, hspin⟩, hshare, hzero⟩
      · have hone : it.index = 1 := Nat.le_antisymm hready (Nat.pos_of_ne_zero hzero)
        have hcoarse : PassPc.coarse (.cond it) = .pass .unlock := if_neg hzero
        rw [hone]
        exact ⟨s, ⟨follows_refl lc m 0 s, hp, hpc.trans hcoarse, hspin⟩, hshare, trivial⟩
  | deref it =>
    cases he with
    | @vec _ _ _ v n h =>
      obtain ⟨n', hn, h⟩ := Option.map_eq_some_iff.mp h
      cases h
      have hzero : it.index = 0 := hready
      unfold Vec.deref at hn
      split_ifs at hn
      rw [hitems, hzero] at hn
      cases hn
      exact ⟨s, ⟨follows_refl lc m 0 s, hp, hpc, hspin⟩, hshare, hzero, rfl⟩
  | load it n =>
    obtain ⟨hzero, rfl⟩ := hready
    cases he with
    | app hm h =>
      cases h
      dsimp only
      rw [app_setApp, ← hp, hflag, if_neg Bool.false_ne_true]
      have hexec : Threads.exec lc .ok 0 s (s.pc 0) = some (s.goto 0 (.pass (.task .load))) := by
        rw [hpc]
        show some (s.goto 0 (.pass (if s.p.mlog.sgLogClose then _ else _))) = _
        rw [hflag, if_neg Bool.false_ne_true]
      obtain ⟨s', ha⟩ := answers_pc hd (fine_of_pc hE hpc (by rintro _ _ ⟨⟩)) hexec
      exact ⟨s', ha.of_spin hspin, hshare, hzero, rfl, trivial⟩
  | task it n tpc =>
    obtain ⟨hzero, rfl, hready⟩ := hready
    obtain ⟨hok, hmove⟩ := task_coarse (c := Pc.coarse lc w.statics n)
      (fun pc => pc.Works n (w.apps n).sgLogdir ∧ pc.spin = some 0) (fun tpc => .pass (.task it n tpc)) hs he hready
      (show ∀ tpc : TaskPc, _ = tpc.coarse (fun pc => .pass (.task pc)) (.pass .unlock) from fun _ => rfl) rfl
      (fun _ h => ⟨⟨hshare, hzero, rfl, h⟩, rfl⟩) ⟨⟨hshare, hzero⟩, rfl⟩
    rw [hok.2]
    rcases hmove with ⟨happ, hc⟩ | ⟨pc₀, r, hpc₀, htask, hc⟩
    · exact ⟨s, (answers_refl hp happ (hpc.trans hc.symm)).of_spin hspin, hok.1⟩
    · have hexec : Threads.exec lc env.file 0 s (s.pc 0) = some ({ s with p := w₁.app n }.goto 0
          (r.elim (.pass .unlock) fun pc => .pass (.task pc))) := by
        rw [hpc, show PassPc.coarse (.task it n tpc) = _ from hpc₀]
        show (Threads.taskStep lc env.file s.p pc₀).map _ = _
        rw [hp, htask]
        cases r <;> rfl
      obtain ⟨s', ha⟩ := answers_goto hd (fine_of_pc henv (hpc.trans hpc₀) (by rintro _ _ ⟨⟩)) hexec
      exact ⟨s', by rw [hc]; exact ha.of_spin hspin, hok.1⟩
  | next it =>
    cases he with
    | vec h =>
      obtain ⟨it', hit, h⟩ := Option.map_eq_some_iff.mp h
      cases h
      have hzero : it.index = 0 := hready
      unfold Vec.next at hit
      split_ifs at hit
      cases hit
      rw [hzero]
      exact ⟨s, ⟨follows_refl lc m 0 s, hp, hpc, hspin⟩, hshare, le_rfl⟩
  | unlock =>
    cases he
    have hexec : Threads.exec lc .ok 0 s (s.pc 0) = some ({ s with spin := none }.goto 0 (.pass .wait)) := by
      rw [hpc]
      rfl
    obtain ⟨s', ha⟩ := answers_goto hd (fine_of_pc hE hpc (by rintro _ _ ⟨⟩)) hexec
    exact ⟨s', hp ▸ ha, hshare, trivial⟩
  | wait wpc =>
    rw [passCode] at he
    have happ : w₁.app m = w.app m := he.app_eq (waitCode_reads wpc)
    rcases wait_leads he with rfl | ⟨wpc', rfl⟩
    · have hexec : Threads.exec lc .ok 0 s (s.pc 0) = some (s.goto 0 (.pass .lock)) := by
        rw [hpc]
        rfl
      obtain ⟨s', ha⟩ := answers_pc hd (fine_of_pc hE hpc (by rintro _ _ ⟨⟩)) hexec
      rw [happ, ← hp]
      exact ⟨s', ha.of_spin hspin, hshare, trivial⟩
    · exact ⟨s, (answers_refl hp happ hpc).of_spin hspin, hshare, trivial⟩

end Worker

/-! ### The process -/

/-- The statement moves no worker, and starts and ends none. -/
def Stmt.Quiet : Stmt → Prop
  | .start _ _ => False
  | .join _ _ => False
  | .cleanup _ _ => False
  | .notifyAll _ _ => False
  | _ => True

section Points

variable {lc : Libc} {env : Env} {t : Tid} {st : FormatStatics} {w w₁ : State} {pc : Pc} {m : Mlog} {a : Async}
  {dir : Bytes}

theorem Effect.quiet {st : Stmt} (he : Effect lc env t w st w₁ pc) (h : st.Quiet) :
    w₁.pc = w.pc ∧ w₁.thread = w.thread := by
  cases he with
  | spawn | failed | join | cleanup | notifyAll => exact h.elim
  | _ => exact ⟨rfl, rfl⟩

theorem Effect.worker_cases {st : Stmt} (he : Effect lc env t w st w₁ pc) (a : Async) :
    ((w₁.thread a).isended = (w.thread a).isended ∧
        (w₁.pc (.worker a) = w.pc (.worker a) ∨ w₁.pc (.worker a) = woken (w.pc (.worker a)))) ∨
      (∃ k, st = .cleanup a k) ∨
      (∃ k, st = .start a k) ∧ (w.thread a).isended = true ∧ (w₁.thread a).isended = false ∧
        w₁.pc (.worker a) = .routine a .initLock := by
  rcases he.worker a with ⟨hend, -, hpc⟩ | ⟨hst, -⟩ | hstart
  · rcases he.pc_worker a with hp | ⟨-, hp⟩ | ⟨⟨k, rfl⟩, hended, hp⟩
    · exact .inl ⟨hend, .inl hp⟩
    · exact .inl ⟨hend, .inr hp⟩
    · cases he with
      | spawn => exact .inr (.inr ⟨⟨_, rfl⟩, hended, by simp [State.spawn, State.goto], hp⟩)
      | failed => exact .inl ⟨hend, .inl rfl⟩
      | started h => exact absurd (h.symm.trans hended) Bool.false_ne_true
  · exact .inr (.inl ⟨_, hst⟩)
  · exact .inr (.inr hstart)

theorem Pc.Uses.inUse (h : pc.Uses m dir) : pc.fn.InUse ∧ ∀ a, pc.fn ≠ .worker a := by
  cases pc with
  | idle | append | setmode | flush | flushSync => exact ⟨trivial, by rintro a ⟨⟩⟩
  | _ => exact h.elim

theorem Pc.Uses.start {k : Pc} (h : pc.Uses m dir) (hst : code pc = .start a k) :
    (a = .shared ∨ a = m.sgThreadAsync) ∧ (a = m.sgThreadAsync → pc.Starts m) := by
  cases pc with
  | append n info log apc =>
    obtain ⟨rfl, -⟩ := h
    cases apc with
    | start spc =>
      cases spc with
      | start =>
        cases hst
        refine ⟨.inl rfl, fun ha => ⟨?_, rfl⟩⟩
        by_contra hshare
        rw [Mlog.sgThreadAsync, if_neg hshare] at ha
        cases ha
      | _ => cases hst
    | file data fpc => cases fpc <;> cases hst
    | scan spc => cases spc <;> cases hst
    | _ => cases hst
  | setmode n mode spc =>
    obtain ⟨rfl, hready⟩ := h
    cases spc with
    | start spc =>
      cases spc with
      | start =>
        cases hst
        exact ⟨.inr rfl, fun _ => ⟨hready, rfl⟩⟩
      | _ => cases hst
    | _ => cases hst
  | flush n fpc => cases fpc <;> cases hst
  | flushSync n fpc =>
    cases fpc with
    | file data fpc => cases fpc <;> cases hst
    | _ => cases hst
  | idle => cases hst
  | _ => exact h.elim

theorem Pc.Works.inUse (h : pc.Works m dir) : pc.fn.InUse := by
  cases pc with
  | routine | loop | pass => trivial
  | _ => exact h.elim

theorem Pc.Works.woken (h : pc.Works m dir) : (World.woken pc).Works m dir := by
  unfold World.woken
  split
  · exact h
  · exact h
  · exact h

theorem coarse_woken (pc : Pc) : (woken pc).coarse lc st m = pc.coarse lc st m := by
  unfold woken
  split <;> rfl

theorem spin_woken (pc : Pc) : (woken pc).spin = pc.spin := by
  unfold woken
  split <;> rfl

theorem Pc.Apart.woken (h : pc.Apart a) : (World.woken pc).Apart a := by
  unfold World.woken
  split
  · exact h
  · exact h
  · exact h

theorem Pc.Leaving.woken (h : pc.Leaving a) : World.woken pc = pc := by
  unfold World.woken
  split
  · exact h.elim
  · exact h.elim
  · rfl

theorem Pc.Leaving.coarse (h : pc.Leaving a) (lc : Libc) (st : FormatStatics) (m : Mlog) :
    pc.coarse lc st m = .idle ∨ pc.coarse lc st m = m.coarseStart := by
  cases pc with
  | idle => exact .inl rfl
  | routine b rpc => exact .inr rfl
  | _ => exact h.elim

theorem Pc.Leaving.spin (h : pc.Leaving a) : pc.spin = none := by
  cases pc with
  | idle => rfl
  | routine b rpc => rfl
  | _ => exact h.elim

theorem forall_coarse_task {Q : Threads.Pc → Prop} (within : Threads.TaskPc → Threads.Pc) {next : Threads.Pc}
    (hw : ∀ pc, Q (within pc)) (hn : Q next) (tpc : TaskPc) : Q (tpc.coarse within next) := by
  cases tpc with
  | unlock tmp =>
    cases tmp with
    | none => exact hn
    | some data => exact hw _
  | file data fpc =>
    cases fpc with
    | unlock => exact hn
    | _ => exact hw _
  | _ => exact hw _

theorem Pc.Works.forall_coarse {Q : Threads.Pc → Prop} (hloop : ∀ pc, Q (.loop pc)) (hpass : ∀ pc, Q (.pass pc))
    (h : pc.Works m dir) : Q (pc.coarse lc st m) := by
  cases pc with
  | routine =>
    show Q m.coarseStart
    unfold Mlog.coarseStart
    split_ifs
    · exact hpass _
    · exact hloop _
  | loop n lpc =>
    cases lpc with
    | task tpc => exact forall_coarse_task (fun pc => .loop (.task pc)) (fun _ => hloop _) (hloop _) tpc
    | _ => exact hloop _
  | pass ppc =>
    cases ppc with
    | task it n tpc => exact forall_coarse_task (fun pc => .pass (.task pc)) (fun _ => hpass _) (hpass _) tpc
    | cond it =>
      show Q (if it.index = 0 then _ else _)
      split_ifs <;> exact hpass _
    | _ => exact hpass _
  | _ => exact h.elim

theorem Pc.Works.ne_idle (h : pc.Works m dir) : pc.coarse lc st m ≠ .idle :=
  h.forall_coarse (Q := fun pc => pc ≠ .idle) (by rintro _ ⟨⟩) (by rintro _ ⟨⟩)

theorem taskCode_quiet {here : TaskPc → Pc} {back : Pc} (tpc : TaskPc) : (taskCode m here back tpc).Quiet := by
  cases tpc with
  | file data fpc => cases fpc <;> trivial
  | _ => trivial

theorem waitCode_quiet {here : WaitPc → Pc} {back : Pc} (wpc : WaitPc) : (waitCode a here back wpc).Quiet := by
  cases wpc <;> trivial

theorem Pc.Works.quiet (h : pc.Works m dir) : (code pc).Quiet := by
  cases pc with
  | routine a rpc =>
    cases rpc with
    | initLock | initUnlock => trivial
    | _ => exact h.elim
  | loop n lpc =>
    cases lpc with
    | task tpc =>
      rw [code, loopCode]
      exact taskCode_quiet tpc
    | wait wpc =>
      rw [code, loopCode]
      exact waitCode_quiet wpc
    | _ => trivial
  | pass ppc =>
    cases ppc with
    | task it n tpc =>
      rw [code, passCode]
      exact taskCode_quiet tpc
    | wait wpc =>
      rw [code, passCode]
      exact waitCode_quiet wpc
    | _ => trivial
  | _ => exact h.elim

end Points

section Sim

variable {lc : Libc} {env : Env} {w w' w₁ : State} {s : Threads.Sys} {pc : Pc} {m : Mlog} {E : FileEnv → Prop}
  {Q : Proc → Prop}

/-- What is asked of the steps here. -/
def State.Fine (E : FileEnv → Prop) (Q : Proc → Prop) (m : Mlog) (w : State) : Label → Prop
  | .run t env => E env.file ∧ ∀ info log k, code (w.pc t) = .app m (.insert info log) k → Q (w.app m)
  | _ => True

theorem Sim.caller_answers (h : Sim lc m w s) (hE : E .ok) {n : ℕ} (hf : w.Fine E Q m (.run (.caller n) env))
    (he : Effect lc env (.caller n) w (code (w.pc (.caller n))) w₁ pc) :
    ∃ s', Answers lc m E Q (n + 1) s s' (w₁.app m) (pc.coarse lc w.statics m) s.spin ∧ pc.Uses m (w.apps m).sgLogdir ∧
      (pc.Starts m → (w.pc (.caller n)).Starts m ∨ s'.pc 0 ≠ .idle) := by
  have huses := h.uses n
  have hpc := h.callers n
  obtain ⟨henv, hQ⟩ := hf
  generalize w.pc (.caller n) = old at he huses hpc hQ ⊢
  cases old with
  | idle => cases he
  | append n' info log apc =>
    obtain ⟨rfl, hready⟩ := huses
    refine append_answers hE henv h.toServes h.deleted h.p (Nat.succ_ne_zero n) hpc hready ?_ he
    rintro rfl
    exact hQ info log _ rfl
  | setmode n' mode spc =>
    obtain ⟨rfl, hready⟩ := huses
    exact setmode_answers hE h.toServes h.deleted h.p (Nat.succ_ne_zero n) hpc hready he
  | flush n' fpc =>
    cases huses
    exact flush_answers h.p hpc he
  | flushSync n' fpc =>
    obtain ⟨rfl, hready⟩ := huses
    exact flushSync_answers hE henv h.toServes h.deleted h.p hpc hready he
  | _ => exact huses.elim

/-- **A step of a caller.** -/
theorem Sim.caller (h : Sim lc m w s) (hE : E .ok) {n : ℕ} (hf : w.Fine E Q m (.run (.caller n) env))
    (he : Effect lc env (.caller n) w (code (w.pc (.caller n))) w₁ pc) :
    ∃ bs s', run (Threads.step lc) s bs = some s' ∧ Meets (Threads.step lc) (Fine E Q) s bs ∧
      Sim lc m (w₁.goto (.caller n) pc) s' ∧ bs.filterMap calledThere = [] := by
  obtain ⟨s', ha, huses, hstarts⟩ := h.caller_answers hE hf he
  obtain ⟨bs, hr, hm, hcalled⟩ := ha.steps
  have hold := h.uses n
  have hby := code_by (w.pc (.caller n))
  obtain ⟨hserves, hdir⟩ := h.toServes.effect he hby hold.inUse.1
  have hstatics : w₁.statics = w.statics := he.statics
  have hclean : ∀ a k, code (w.pc (.caller n)) ≠ .cleanup a k := by
    intro a k hst
    rw [hst] at hby
    exact hold.inUse.2 a hby
  have hworker : ∀ a, (w₁.goto (.caller n) pc).pc (.worker a) = w₁.pc (.worker a) := fun a =>
    goto_pc_of_ne _ (by simp) _
  have hzero : s'.pc 0 = s.pc 0 ∨ s.pc 0 = .idle ∧ s'.pc 0 = m.coarseStart :=
    (ha.others 0 (Nat.succ_ne_zero n).symm).imp_right And.right
  have hne : s.pc 0 ≠ .idle → s'.pc 0 = s.pc 0 := fun hn => hzero.resolve_right fun hi => hn hi.1
  refine ⟨bs, s', hr, hm, ⟨⟨hserves.items, hserves.flag, hserves.buff, hserves.thread⟩, ha.p,
    ha.deleted.trans h.deleted, ha.listed.trans h.listed, ?_, fun k => ?_, fun k => ?_, fun k hk => ?_, ?_,
    fun a ha' => ?_⟩, hcalled⟩
  · -- the shared spinlock is not the callers'
    rw [ha.spin, h.spin, hworker]
    rcases he.worker_cases m.sgThreadAsync with ⟨-, hp | hp⟩ | ⟨k, hst⟩ | ⟨-, hended, -, hp⟩
    · rw [hp]
    · rw [hp, spin_woken]
    · exact absurd hst (hclean _ k)
    · rcases h.worker with ⟨hleaving, -⟩ | ⟨-, hrun, -⟩
      · rw [hleaving.spin, hp]
        rfl
      · exact absurd (hrun.symm.trans hended) Bool.false_ne_true
  · show ((w₁.goto (.caller n) pc).pc (.caller k)).Uses m (w₁.apps m).sgLogdir
    rw [hdir]
    by_cases hk : Tid.caller k = .caller n
    · rw [hk, goto_pc_self]
      exact huses
    · rw [goto_pc_of_ne _ hk, he.pc_caller]
      exact h.uses k
  · show s'.pc (k + 1) = ((w₁.goto (.caller n) pc).pc (.caller k)).coarse lc w₁.statics m
    rw [hstatics]
    by_cases hk : k = n
    · rw [hk, goto_pc_self]
      exact ha.here
    · rw [goto_pc_of_ne _ (by simpa using hk), he.pc_caller, ← h.callers k]
      refine (ha.others (k + 1) (by omega)).resolve_right ?_
      rintro ⟨h₀, -⟩
      exact Nat.succ_ne_zero k h₀
  · have hold : (w.pc (.caller k)).Starts m ∨ s'.pc 0 ≠ .idle := by
      by_cases hkn : k = n
      · rw [hkn, goto_pc_self] at hk
        rw [hkn]
        exact hstarts hk
      · rw [goto_pc_of_ne _ (by simpa using hkn), he.pc_caller] at hk
        exact .inl hk
    rcases hold with hold | hold
    · rw [hne (h.starts k hold)]
      exact h.starts k hold
    · exact hold
  · show _ ∨ _ ∧ _ ∧ _ = _
    rw [hworker]
    rcases he.worker_cases m.sgThreadAsync with ⟨hend, hp⟩ | ⟨k, hst⟩ | ⟨⟨k, hst⟩, hended, hrun, hp⟩
    · rcases h.worker with ⟨hleaving, hs⟩ | ⟨hworks, hrun, hs⟩
      · refine .inl ⟨?_, ?_⟩
        · rw [hleaving.woken] at hp
          rw [hp.elim id id]
          exact hleaving
        · rcases hzero with hz | ⟨-, hz⟩
          · rw [hz]
            exact hs
          · exact .inr hz
      · have hsame : s'.pc 0 = s.pc 0 := hne (by rw [hs]; exact hworks.ne_idle)
        refine .inr ⟨?_, hend.trans hrun, ?_⟩
        · show (w₁.pc (.worker m.sgThreadAsync)).Works m (w₁.apps m).sgLogdir
          rw [hdir]
          rcases hp with hp | hp
          · rw [hp]
            exact hworks
          · rw [hp]
            exact hworks.woken
        · show s'.pc 0 = (w₁.pc (.worker m.sgThreadAsync)).coarse lc w₁.statics m
          rw [hstatics, hsame, hs]
          rcases hp with hp | hp
          · rw [hp]
          · rw [hp, coarse_woken]
    · exact absurd hst (hclean _ k)
    · -- a worker that is started here has been started there
      have hstart : s.pc 0 ≠ .idle := h.starts n ((hold.start hst).2 rfl)
      rcases h.worker with ⟨-, hs⟩ | ⟨-, hrun', -⟩
      · refine .inr ⟨by rw [hp]; exact rfl, hrun, ?_⟩
        rw [hp, hne hstart]
        exact hs.resolve_left hstart
      · exact absurd (hrun'.symm.trans hended) Bool.false_ne_true
  · rw [hworker]
    rcases he.worker_cases a with ⟨-, hp | hp⟩ | ⟨k, hst⟩ | ⟨⟨k, hst⟩, -, -, hp⟩
    · rw [hp]
      exact h.others a ha'
    · rw [hp]
      exact (h.others a ha').woken
    · exact absurd hst (hclean _ k)
    · have hshared : a = .shared := (hold.start hst).1.resolve_right ha'
      rw [hp]
      exact ⟨hshared, hshared⟩

theorem Sim.worker_answers (h : Sim lc m w s) (hE : E .ok) (henv : E env.file)
    (hworks : (w.pc (.worker m.sgThreadAsync)).Works m (w.apps m).sgLogdir)
    (hpc : s.pc 0 = (w.pc (.worker m.sgThreadAsync)).coarse lc w.statics m)
    (he : Effect lc env (.worker m.sgThreadAsync) w (code (w.pc (.worker m.sgThreadAsync))) w₁ pc) :
    ∃ s', Answers lc m E Q 0 s s' (w₁.app m) (pc.coarse lc w.statics m) pc.spin ∧ pc.Works m (w.apps m).sgLogdir := by
  have hspin := h.spin
  generalize w.pc (.worker m.sgThreadAsync) = old at he hworks hpc hspin
  cases old with
  | routine a rpc =>
    obtain rfl : a = m.sgThreadAsync := by
      cases rpc with
      | initLock | initUnlock => exact hworks
      | _ => exact hworks.elim
    exact routine_answers h.p hspin hpc hworks he
  | loop n lpc =>
    obtain ⟨rfl, hshare, hready⟩ := hworks
    exact loop_answers hE henv h.toServes h.deleted h.p hspin hpc hshare hready he
  | pass ppc =>
    obtain ⟨hshare, hready⟩ := hworks
    exact pass_answers hE henv h.toServes h.deleted h.p hspin (h.listed.trans hshare) hpc hshare hready he
  | _ => exact hworks.elim

/-- **A step of the worker that serves the appender.** -/
theorem Sim.worker_step (h : Sim lc m w s) (hE : E .ok) (henv : E env.file)
    (hold : (w.pc (.worker m.sgThreadAsync)).Works m (w.apps m).sgLogdir)
    (hrun : (w.thread m.sgThreadAsync).isended = false)
    (hpc : s.pc 0 = (w.pc (.worker m.sgThreadAsync)).coarse lc w.statics m)
    (he : Effect lc env (.worker m.sgThreadAsync) w (code (w.pc (.worker m.sgThreadAsync))) w₁ pc) :
    ∃ bs s', run (Threads.step lc) s bs = some s' ∧ Meets (Threads.step lc) (Fine E Q) s bs ∧
      Sim lc m (w₁.goto (.worker m.sgThreadAsync) pc) s' ∧ bs.filterMap calledThere = [] := by
  obtain ⟨s', ha, hworks⟩ := h.worker_answers (Q := Q) hE henv hold hpc he
  obtain ⟨bs, hr, hm, hcalled⟩ := ha.steps
  obtain ⟨hserves, hdir⟩ := h.toServes.effect he (code_by _) hold.inUse
  obtain ⟨hpcs, hthread⟩ := he.quiet hold.quiet
  have hstatics : w₁.statics = w.statics := he.statics
  have hcaller : ∀ n, (w₁.goto (.worker m.sgThreadAsync) pc).pc (.caller n) = w.pc (.caller n) := fun n => by
    rw [goto_pc_of_ne _ (by simp), hpcs]
  have hsame : ∀ n, s'.pc (n + 1) = s.pc (n + 1) := fun n =>
    (ha.others (n + 1) (Nat.succ_ne_zero n)).resolve_right fun hi => Nat.succ_ne_zero n hi.1
  refine ⟨bs, s', hr, hm, ⟨⟨hserves.items, hserves.flag, hserves.buff, hserves.thread⟩, ha.p,
    ha.deleted.trans h.deleted, ha.listed.trans h.listed, ?_, fun n => ?_, fun n => ?_, fun n _ => ?_,
    .inr ⟨?_, ?_, ?_⟩, fun a ha' => ?_⟩, hcalled⟩
  · rw [ha.spin, goto_pc_self]
  · rw [hcaller]
    show (w.pc (.caller n)).Uses m (w₁.apps m).sgLogdir
    rw [hdir]
    exact h.uses n
  · rw [hcaller, hsame]
    show _ = (w.pc (.caller n)).coarse lc w₁.statics m
    rw [hstatics]
    exact h.callers n
  · rw [ha.here]
    exact hworks.ne_idle
  · rw [goto_pc_self]
    show pc.Works m (w₁.apps m).sgLogdir
    rw [hdir]
    exact hworks
  · show (w₁.thread m.sgThreadAsync).isended = false
    rw [hthread]
    exact hrun
  · rw [goto_pc_self, ha.here]
    show _ = pc.coarse lc w₁.statics m
    rw [hstatics]
  · rw [goto_pc_of_ne _ (by simpa using ha'), hpcs]
    exact h.others a ha'

/-- A worker that leaves goes on to its end. -/
theorem Pc.Leaving.effect {a : Async} {old : Pc} (h : old.Leaving a)
    (he : Effect lc env (.worker a) w (code old) w₁ pc) :
    pc.Leaving a ∧ w₁.app m = w.app m ∧ w₁.pc = w.pc ∧ ∀ b, b ≠ a → w₁.thread b = w.thread b := by
  cases old with
  | idle => cases he
  | routine b rpc =>
    cases rpc with
    | cleanLock =>
      cases he
      exact ⟨h, rfl, rfl, fun _ _ => rfl⟩
    | clean =>
      cases he
      exact ⟨h, rfl, rfl, fun c hc => Function.update_of_ne (h ▸ hc) ..⟩
    | cleanUnlock =>
      cases he
      exact ⟨trivial, rfl, rfl, fun _ _ => rfl⟩
    | _ => exact h.elim
  | _ => exact h.elim

theorem Pc.Leaving.apart {a : Async} (h : pc.Leaving a) : pc.Apart a := by
  cases pc with
  | idle => trivial
  | routine b rpc =>
    cases rpc with
    | initLock | initUnlock => exact h.elim
    | _ => exact h
  | _ => exact h.elim

/-- A worker that has no appender reads the list, which is empty. -/
theorem Pc.Apart.effect {a : Async} {old : Pc} (h : old.Apart a) (hitems : a = .shared → w.sharedAppenders.items = [])
    (he : Effect lc env (.worker a) w (code old) w₁ pc) :
    pc.Apart a ∧ w₁.app m = w.app m ∧ w₁.pc = w.pc ∧ ∀ b, b ≠ a → w₁.thread b = w.thread b := by
  by_cases hleaving : old.Leaving a
  · obtain ⟨hleaving', hsame⟩ := hleaving.effect (m := m) he
    exact ⟨hleaving'.apart, hsame⟩
  cases old with
  | routine b rpc =>
    cases rpc with
    | initLock =>
      cases he
      exact ⟨h, rfl, rfl, fun _ _ => rfl⟩
    | initUnlock =>
      obtain ⟨rfl, rfl⟩ := h
      cases he
      exact ⟨rfl, rfl, rfl, fun _ _ => rfl⟩
    | _ => exact absurd h hleaving
  | pass ppc =>
    cases ppc with
    | lock =>
      cases he
      exact ⟨h, rfl, rfl, fun _ _ => rfl⟩
    | empty =>
      cases he with
      | vec hr =>
        cases hr
        dsimp only
        rw [hitems h]
        exact ⟨h, rfl, rfl, fun _ _ => rfl⟩
    | exit =>
      cases he
      exact ⟨h.symm, rfl, rfl, fun _ _ => rfl⟩
    | wait wpc =>
      rw [code, passCode] at he
      obtain ⟨hpcs, hthread⟩ := he.quiet (waitCode_quiet wpc)
      refine ⟨?_, he.app_eq (waitCode_reads wpc), hpcs, fun _ _ => by rw [hthread]⟩
      rcases wait_leads he with rfl | ⟨wpc', rfl⟩
      · exact h
      · exact h
    | _ => exact h.elim
  | idle => exact absurd trivial hleaving
  | _ => exact h.elim

/-- **A step of a worker that does nothing for the appender** is nothing there. -/
theorem Sim.idle_step (h : Sim lc m w s) {a : Async}
    (he : Effect lc env (.worker a) w (code (w.pc (.worker a))) w₁ pc) (hinUse : (w.pc (.worker a)).fn.InUse)
    (happ : w₁.app m = w.app m) (hpcs : w₁.pc = w.pc)
    (hspin : ((w₁.goto (.worker a) pc).pc (.worker m.sgThreadAsync)).spin = (w.pc (.worker m.sgThreadAsync)).spin)
    (hworker : WorkerSim lc m (w₁.goto (.worker a) pc) s)
    (hothers : ∀ b, b ≠ m.sgThreadAsync → ((w₁.goto (.worker a) pc).pc (.worker b)).Apart b) :
    Sim lc m (w₁.goto (.worker a) pc) s := by
  obtain ⟨hserves, hdir⟩ := h.toServes.effect he (code_by _) hinUse
  have hstatics : w₁.statics = w.statics := he.statics
  have hcaller : ∀ n, (w₁.goto (.worker a) pc).pc (.caller n) = w.pc (.caller n) := fun n => by
    rw [goto_pc_of_ne _ (by simp), hpcs]
  refine ⟨⟨hserves.items, hserves.flag, hserves.buff, hserves.thread⟩, h.p.trans happ.symm, h.deleted, h.listed, ?_,
    fun n => ?_, fun n => ?_, fun n hn => ?_, hworker, hothers⟩
  · rw [hspin]
    exact h.spin
  · rw [hcaller]
    show (w.pc (.caller n)).Uses m (w₁.apps m).sgLogdir
    rw [hdir]
    exact h.uses n
  · rw [hcaller]
    show _ = (w.pc (.caller n)).coarse lc w₁.statics m
    rw [hstatics]
    exact h.callers n
  · rw [hcaller] at hn
    exact h.starts n hn

/-- **A step of the worker of the appender that leaves.** -/
theorem Sim.leaving_step (h : Sim lc m w s) (hleaving : (w.pc (.worker m.sgThreadAsync)).Leaving m.sgThreadAsync)
    (hs : s.pc 0 = .idle ∨ s.pc 0 = m.coarseStart)
    (he : Effect lc env (.worker m.sgThreadAsync) w (code (w.pc (.worker m.sgThreadAsync))) w₁ pc) :
    Sim lc m (w₁.goto (.worker m.sgThreadAsync) pc) s := by
  obtain ⟨hleaving', happ, hpcs, -⟩ := hleaving.effect (m := m) he
  have hinUse : (w.pc (.worker m.sgThreadAsync)).fn.InUse := by
    generalize w.pc (.worker m.sgThreadAsync) = old at hleaving ⊢
    cases old with
    | idle | routine => trivial
    | _ => exact hleaving.elim
  refine h.idle_step he hinUse happ hpcs ?_ (.inl ⟨?_, hs⟩) fun b hb => ?_
  · rw [goto_pc_self, hleaving'.spin, hleaving.spin]
  · rw [goto_pc_self]
    exact hleaving'
  · rw [goto_pc_of_ne _ (by simpa using hb), hpcs]
    exact h.others b hb

/-- **A step of another worker.** -/
theorem Sim.other_step (h : Sim lc m w s) {a : Async} (ha : a ≠ m.sgThreadAsync)
    (he : Effect lc env (.worker a) w (code (w.pc (.worker a))) w₁ pc) : Sim lc m (w₁.goto (.worker a) pc) s := by
  have hitems : a = .shared → w.sharedAppenders.items = [] := by
    rintro rfl
    rw [h.items, if_neg]
    exact fun hshare => ha (if_pos hshare).symm
  have hold := h.others a ha
  obtain ⟨hapart, happ, hpcs, hthread⟩ := hold.effect (m := m) hitems he
  have hinUse : (w.pc (.worker a)).fn.InUse := by
    generalize w.pc (.worker a) = old at hold ⊢
    cases old with
    | idle | routine | pass => trivial
    | _ => exact hold.elim
  have hdir : (w₁.apps m).sgLogdir = (w.apps m).sgLogdir := (h.toServes.effect he (code_by _) hinUse).2
  have hworker : (w₁.goto (.worker a) pc).pc (.worker m.sgThreadAsync) = w.pc (.worker m.sgThreadAsync) := by
    rw [goto_pc_of_ne _ (by simpa using Ne.symm ha), hpcs]
  refine h.idle_step he hinUse happ hpcs (by rw [hworker]) ?_ fun b hb => ?_
  · have hw := h.worker
    unfold WorkerSim at hw ⊢
    rw [hworker]
    show (_ ∧ _) ∨ (Pc.Works m (w₁.apps m).sgLogdir _ ∧ (w₁.thread m.sgThreadAsync).isended = false ∧
      _ = Pc.coarse lc w₁.statics m _)
    rw [hdir, show w₁.statics = w.statics from he.statics, hthread _ (Ne.symm ha)]
    exact hw
  · by_cases hba : Tid.worker b = .worker a
    · rw [hba, goto_pc_self]
      cases hba
      exact hapart
    · rw [goto_pc_of_ne _ hba, hpcs]
      exact h.others b hb

/-- A call that neither opens nor closes an appender. -/
def Use.InUse : Use → Prop
  | .append _ _ => True
  | .setmode _ => True
  | .flush => True
  | .flushSync => True
  | _ => False

theorem Use.InUse.entry (lc : Libc) (m : Mlog) {u : Use} (h : u.InUse) (dir : Bytes) (st : FormatStatics) :
    (u.entry m).Uses m dir ∧ ¬ (u.entry m).Starts m ∧
      (u.entry m).coarse lc st m = u.coarse.elim .idle Threads.Call.entry := by
  cases u with
  | append info log => exact ⟨⟨rfl, trivial⟩, fun hs => absurd hs.2 Bool.false_ne_true, rfl⟩
  | setmode mode => exact ⟨⟨rfl, trivial⟩, fun hs => absurd hs.2 Bool.false_ne_true, rfl⟩
  | flush => exact ⟨rfl, id, rfl⟩
  | flushSync => exact ⟨⟨rfl, trivial⟩, id, rfl⟩
  | _ => exact h.elim

/-- **A call.** -/
theorem Sim.call (h : Sim lc m w s) {n : ℕ} {u : Use} (hn : w.pc (.caller n) = .idle) (hu : u.InUse) :
    ∃ bs s', run (Threads.step lc) s bs = some s' ∧ Meets (Threads.step lc) (Fine E Q) s bs ∧
      Sim lc m ((w.passed m u).goto (.caller n) (u.entry m)) s' ∧
      bs.filterMap calledThere = (called (.call n m u)).toList := by
  have hpassed : w.passed m u = w := by
    cases u with
    | destroy => exact hu.elim
    | _ => rfl
  obtain ⟨huses, hstarts, hcoarse⟩ := hu.entry lc m (w.apps m).sgLogdir w.statics
  have hidle : s.pc (n + 1) = .idle := by
    rw [h.callers n, hn]
    rfl
  rw [hpassed]
  -- the thread there, and nothing else
  have hsim : ∀ s', s'.p = s.p → s'.deleted = s.deleted → s'.listed = s.listed → s'.spin = s.spin →
      s'.pc (n + 1) = (u.entry m).coarse lc w.statics m → (∀ t, t ≠ n + 1 → s'.pc t = s.pc t) →
      Sim lc m (w.goto (.caller n) (u.entry m)) s' := by
    intro s' hp hd hl hspin hpc hother
    have hworker : ∀ a, (w.goto (.caller n) (u.entry m)).pc (.worker a) = w.pc (.worker a) := fun a =>
      goto_pc_of_ne _ (by simp) _
    have hzero : s'.pc 0 = s.pc 0 := hother 0 (Nat.succ_ne_zero n).symm
    refine ⟨⟨h.items, h.flag, h.buff, h.thread⟩, hp.trans h.p, hd.trans h.deleted, hl.trans h.listed, ?_, fun k => ?_,
      fun k => ?_, fun k hk => ?_, ?_, fun a ha => ?_⟩
    · rw [hspin, hworker]
      exact h.spin
    · by_cases hk : Tid.caller k = .caller n
      · rw [hk, goto_pc_self]
        exact huses
      · rw [goto_pc_of_ne _ hk]
        exact h.uses k
    · by_cases hk : k = n
      · rw [hk, goto_pc_self]
        exact hpc
      · rw [goto_pc_of_ne _ (by simpa using hk), hother _ (by omega)]
        exact h.callers k
    · rw [hzero]
      by_cases hkn : k = n
      · rw [hkn, goto_pc_self] at hk
        exact absurd hk hstarts
      · rw [goto_pc_of_ne _ (by simpa using hkn)] at hk
        exact h.starts k hk
    · have hw := h.worker
      unfold WorkerSim at hw ⊢
      rw [hworker, hzero]
      exact hw
    · rw [hworker]
      exact h.others a ha
  cases hc : u.coarse with
  | none =>
    rw [hc] at hcoarse
    refine ⟨[], s, rfl, trivial, hsim s rfl rfl rfl rfl (hidle.trans hcoarse.symm) fun _ _ => rfl, ?_⟩
    rw [called, hc]
    rfl
  | some c =>
    rw [hc] at hcoarse
    have hne : c ≠ .closeDestroy := by
      rintro rfl
      cases u <;> cases hc
    refine ⟨[.call (n + 1) c], s.goto (n + 1) c.entry, run_of_step (if_pos ?_) rfl, ⟨hne, fun _ _ => trivial⟩,
      hsim _ rfl rfl rfl rfl ?_ ?_, ?_⟩
    · exact ⟨h.deleted, Nat.succ_ne_zero n, by rw [hidle]; rfl⟩
    · rw [Threads.goto_pc_self, hcoarse]
      rfl
    · exact fun t ht => Threads.goto_pc_of_ne _ ht _
    · rw [called, hc]
      rfl

/-- The label uses the appender. -/
def Label.Uses (m : Mlog) : Label → Prop
  | .create _ _ => False
  | .call _ n u => n = m ∧ u.InUse
  | .run _ _ => True

/-- **Every step is answered.** -/
theorem Sim.step (h : Sim lc m w s) (hE : E .ok) {l : Label} (hl : l.Uses m) (hf : w.Fine E Q m l)
    (hs : World.step lc w l = some w') :
    ∃ bs s', run (Threads.step lc) s bs = some s' ∧ Meets (Threads.step lc) (Fine E Q) s bs ∧ Sim lc m w' s' ∧
      bs.filterMap calledThere = (called l).toList := by
  obtain ⟨n, share, rfl, -⟩ | ⟨n, m', u, rfl, hn, -, rfl⟩ | ⟨t, env, w₁, pc, rfl, he, rfl⟩ := step_cases hs
  · exact hl.elim
  · obtain ⟨rfl, hu⟩ := hl
    exact h.call hn hu
  · cases t with
    | caller n => exact h.caller hE hf he
    | worker a =>
      by_cases ha : a = m.sgThreadAsync
      · rw [ha] at he ⊢
        rcases h.worker with ⟨hleaving, hidle⟩ | ⟨hworks, hrun, hpc⟩
        · exact ⟨[], s, rfl, trivial, h.leaving_step hleaving hidle he, rfl⟩
        · exact h.worker_step hE hf.1 hworks hrun hpc he
      · exact ⟨[], s, rfl, trivial, h.other_step ha he, rfl⟩

end Sim

/-! ### The appender is settled -/

section Shared

variable {lc : Libc} {w w' : State} {st : Stmt} {pc : Pc} {m : Mlog} {a : Async}

/-- A function of an appender with the shared thread, or of that thread. -/
def Fn.OnShared : Fn → Prop
  | .idle => True
  | .create m => m.useShareThread = true
  | .open m _ _ _ => m.useShareThread = true
  | .append m _ _ => m.useShareThread = true
  | .setmode m _ => m.useShareThread = true
  | .flush m => m.useShareThread = true
  | .flushSync m => m.useShareThread = true
  | .close m => m.useShareThread = true
  | .destroy m => m.useShareThread = true
  | .worker a => a = .shared

/-- The statement starts no thread but the shared one. -/
def Stmt.StartsShared : Stmt → Prop
  | .start a _ => a = .shared
  | _ => True

theorem startCode_startsShared {here : StartPc → Pc} {ret : Pc} (ha : a = .shared) (pc : StartPc) :
    (startCode a here ret pc).StartsShared := by
  cases pc with
  | start => exact ha
  | _ => trivial

theorem setmodeCode_startsShared {mode : AppendMode} {here : SetmodePc → Pc} {ret : Pc}
    (h : m.useShareThread = true) (pc : SetmodePc) : (setmodeCode m mode here ret pc).StartsShared := by
  cases pc with
  | start pc => rw [setmodeCode]; exact startCode_startsShared (if_pos h) pc
  | _ => trivial

/-- **An appender with the shared thread starts no other.** -/
theorem code_startsShared (h : pc.fn.OnShared) : (code pc).StartsShared := by
  cases pc with
  | create m pc => cases pc <;> trivial
  | «open» m mode filedir filename pc =>
    cases pc with
    | setmode tmp pc => rw [code, openCode]; exact setmodeCode_startsShared h pc
    | file data pc => cases pc <;> trivial
    | _ => trivial
  | append m info log pc =>
    cases pc with
    | start pc => rw [code, appendCode]; exact startCode_startsShared rfl pc
    | scan pc => cases pc <;> trivial
    | file data pc => cases pc <;> trivial
    | _ => trivial
  | setmode m mode pc => exact setmodeCode_startsShared h pc
  | flush m pc => cases pc <;> trivial
  | flushSync m pc =>
    cases pc with
    | file data pc => cases pc <;> trivial
    | _ => trivial
  | close m pc =>
    cases pc with
    | task pc =>
      cases pc with
      | file data pc => cases pc <;> trivial
      | _ => trivial
    | _ => trivial
  | destroy m pc =>
    cases pc with
    | close pc =>
      cases pc with
      | task pc =>
        cases pc with
        | file data pc => cases pc <;> trivial
        | _ => trivial
      | _ => trivial
    | _ => trivial
  | routine a pc => cases pc <;> trivial
  | loop m pc =>
    cases h
  | pass pc =>
    cases pc with
    | task it m pc =>
      cases pc with
      | file data pc => cases pc <;> trivial
      | _ => trivial
    | wait pc => cases pc <;> trivial
    | _ => trivial
  | idle => trivial

/-- The label is about an appender with the shared thread. -/
def Label.OnShared : Label → Prop
  | .create _ share => share = true
  | .call _ m _ => m.useShareThread = true
  | .run _ _ => True

instance : DecidablePred Label.OnShared := fun l =>
  match l with
  | .create _ share => inferInstanceAs (Decidable (share = true))
  | .call _ m _ => inferInstanceAs (Decidable (m.useShareThread = true))
  | .run _ _ => .isTrue trivial

/-- Every thread is in a function of an appender with the shared thread. -/
def OnShared (w : State) : Prop := ∀ t, (w.pc t).fn.OnShared

theorem OnShared.step {l : Label} (h : OnShared w) (hl : l.OnShared) (hs : World.step lc w l = some w') :
    OnShared w' := by
  intro t
  rcases step_cases hs with ⟨n, share, rfl, -, rfl⟩ | ⟨n, m, u, rfl, -, -, rfl⟩ | ⟨u, env, w₁, pc, rfl, he, rfl⟩
  · by_cases ht : t = .caller n
    · rw [ht, goto_pc_self]
      cases hl
      exact rfl
    · rw [goto_pc_of_ne _ ht]
      exact h t
  · by_cases ht : t = .caller n
    · rw [ht, goto_pc_self]
      cases u <;> exact hl
    · rw [goto_pc_of_ne _ ht, passed_pc]
      exact h t
  · by_cases ht : t = u
    · subst ht
      rw [goto_pc_self]
      rcases he.leads (code_leads_fn _) with rfl | hfn
      · trivial
      · rw [hfn]
        exact h t
    · rw [goto_pc_of_ne _ ht]
      cases t with
      | caller n =>
        rw [he.pc_caller]
        exact h _
      | worker a =>
        rcases he.pc_worker a with hp | ⟨-, hp⟩ | ⟨⟨k, hst⟩, -, hp⟩
        · rw [hp]
          exact h _
        · rw [hp, fn_woken]
          exact h _
        · have hstart := code_startsShared (h u)
          rw [hst] at hstart
          rw [hp]
          exact hstart

/-- **The appenders with the shared thread start no thread of their own.** -/
theorem own_idle {files : Disk} {statics : FormatStatics} {ls : List Label}
    (hr : run (World.step lc) (.init files statics) ls = some w) (hl : ∀ l ∈ ls, l.OnShared) (m : Mlog) :
    w.pc (.worker (.own m)) = .idle := by
  have hreach := reach_of_run (meets_of_forall hl) hr
  have hshared : OnShared w := hreach.inv (fun _ => trivial) fun _ _ _ h hl hs => h.step hl hs
  rcases (synced_of_reach hreach).worker (.own m) with hi | hfn
  · exact hi
  · have h := hshared (.worker (.own m))
    rw [hfn] at h
    cases h

end Shared

section Settled

variable {w w' : State} {m : Mlog}

/-- The appender is open and the only one, no call is under way, its worker has ended, is about to, or serves it,
and the other workers have no appender to work on. -/
structure Settled (m : Mlog) (w : State) : Prop extends Serves m w where
  callers : ∀ n, w.pc (.caller n) = .idle
  worker : (w.pc (.worker m.sgThreadAsync)).Leaving m.sgThreadAsync ∨
    (w.pc (.worker m.sgThreadAsync)).Works m (w.apps m).sgLogdir ∧ (w.thread m.sgThreadAsync).isended = false
  others : ∀ a, a ≠ m.sgThreadAsync → (w.pc (.worker a)).Apart a

/-- **The process as the threads of `Threads`.** -/
def State.coarse (lc : Libc) (m : Mlog) (w : State) : Threads.Sys where
  p := w.app m
  pc
    | 0 => (w.pc (.worker m.sgThreadAsync)).coarse lc w.statics m
    | n + 1 => (w.pc (.caller n)).coarse lc w.statics m
  spin := (w.pc (.worker m.sgThreadAsync)).spin
  listed := m.useShareThread
  deleted := false

theorem Settled.sim (h : Settled m w) (lc : Libc) : Sim lc m w (w.coarse lc m) := by
  refine ⟨h.toServes, rfl, rfl, rfl, rfl, fun n => ?_, fun n => rfl, fun n hn => ?_, ?_, h.others⟩
  · rw [h.callers n]
    trivial
  · rw [h.callers n] at hn
    exact hn.elim
  · rcases h.worker with hleaving | ⟨hworks, hrun⟩
    · exact .inl ⟨hleaving, hleaving.coarse lc w.statics m⟩
    · exact .inr ⟨hworks, hrun, rfl⟩

theorem settled_openNew {w : State} (hr : run (World.step utc) (.init (fun _ => []) ⟨0, 0⟩) (openNew 0) = some w) :
    Settled ⟨true, 0⟩ w := by
  have hsome : (run (World.step utc) (.init (fun _ => []) ⟨0, 0⟩) (openNew 0)).any (fun w =>
      (w.pc (.caller 0)).isIdle ∧ (w.pc (.worker .shared)).isIdle ∧
        w.sharedAppenders.items = [⟨true, 0⟩] ∧ (w.apps ⟨true, 0⟩).sgLogClose = false ∧
        (w.apps ⟨true, 0⟩).sgLogBuff.isSome = true ∧ (w.apps ⟨true, 0⟩).sgThreadAsync = .shared) = true := by
    decide +kernel
  rw [hr] at hsome
  obtain ⟨hcaller, hworker, hitems, hflag, hbuff, hthread⟩ := of_decide_eq_true hsome
  have hidle : IdleBut [0] w := idleBut_of_run hr (by decide)
  refine ⟨⟨hitems, hflag, hbuff, hthread⟩, hidle.idle ?_, .inl ?_, ?_⟩
  · simpa using isIdle_iff.mp hcaller
  · rw [show w.pc (.worker (Mlog.sgThreadAsync ⟨true, 0⟩)) = .idle from isIdle_iff.mp hworker]
    trivial
  · rintro (_ | m) ha
    · exact absurd rfl ha
    · rw [own_idle hr (by decide) m]
      trivial

theorem uses_runs {t : Tid} {n : ℕ} : ∀ l ∈ runs t n, l.Uses m := by
  intro l hl
  rw [List.eq_of_mem_replicate hl]
  trivial

/-- **A run is answered**, by steps that meet what is asked of the steps here. -/
theorem Settled.run_answered {E : FileEnv → Prop} {Q : Proc → Prop} (h : Settled m w) (lc : Libc) (hE : E .ok)
    {ls : List Label} (hl : ∀ l ∈ ls, l.Uses m) (hf : Meets (World.step lc) (State.Fine E Q m) w ls)
    (hr : run (World.step lc) w ls = some w') :
    ∃ bs s', run (Threads.step lc) (w.coarse lc m) bs = some s' ∧
      Meets (Threads.step lc) (Fine E Q) (w.coarse lc m) bs ∧ Sim lc m w' s' ∧
      bs.filterMap calledThere = ls.filterMap called :=
  run_simulates (fun _ _ _ _ hsim hc hs => hsim.step hE hc.1 hc.2 hs) (h.sim lc) ((meets_of_forall hl).and hf) hr

/-- **The process refines `Threads`** while the appender is open: a run in which it is appended to, flushed and
switched is a run there with the same calls in the same order, to the same appender and the same files, in which a
thread that has returned here has returned. -/
theorem refines_threads (lc : Libc) {ls : List Label} (h : Settled m w)
    (hl : ∀ l ∈ ls, l.Uses m) (hr : run (World.step lc) w ls = some w') :
    ∃ bs s', run (Threads.step lc) (w.coarse lc m) bs = some s' ∧ s'.p = w'.app m ∧
      bs.filterMap calledThere = ls.filterMap called ∧
      ∀ n, w'.pc (.caller n) = .idle → s'.pc (n + 1) = .idle := by
  have hall : Meets (World.step lc) (State.Fine (fun _ => True) (fun _ => True) m) w ls := by
    refine meets_of_inv (P := fun _ => True) (fun _ _ _ _ _ _ => trivial) (fun w l _ _ => ?_) trivial
      (meets_of_forall hl)
    cases l with
    | run t env => exact ⟨trivial, fun _ _ _ _ => trivial⟩
    | _ => trivial
  obtain ⟨bs, s', hr', -, hsim, hcalled⟩ := h.run_answered lc trivial hl hall hr
  refine ⟨bs, s', hr', hsim.p, hcalled, fun n hn => ?_⟩
  rw [hsim.callers n, hn]
  rfl

theorem refines_threads_append :
    ∃ w w', Settled ⟨true, 0⟩ w ∧
      run (World.step utc) w (.call 0 ⟨true, 0⟩ (.append none (some nameO)) :: runs (.caller 0) 18 ++
        runs (.worker .shared) 20) = some w' ∧
      w'.files (logfilePath dirD.bytes nameN.bytes) ≠ [] ∧
      ∃ bs s', run (Threads.step utc) (w.coarse utc ⟨true, 0⟩) bs = some s' ∧ s'.p = w'.app ⟨true, 0⟩ ∧
        bs.filterMap calledThere = [(1, .append none (some nameO))] ∧
        ∀ n, w'.pc (.caller n) = .idle → s'.pc (n + 1) = .idle := by
  have hsome : ((run (World.step utc) (.init (fun _ => []) ⟨0, 0⟩) (openNew 0)).any fun w =>
      (run (World.step utc) w (.call 0 ⟨true, 0⟩ (.append none (some nameO)) :: runs (.caller 0) 18 ++
        runs (.worker .shared) 20)).any fun w' =>
          w'.files (logfilePath dirD.bytes nameN.bytes) ≠ []) = true := by
    decide +kernel
  obtain ⟨w, hw, hsome⟩ := (Option.any_eq_true _ _).mp hsome
  obtain ⟨w', hw', hne⟩ := (Option.any_eq_true _ _).mp hsome
  have huses : ∀ l ∈ .call 0 ⟨true, 0⟩ (.append none (some nameO)) :: runs (.caller 0) 18 ++
      runs (.worker .shared) 20, l.Uses ⟨true, 0⟩ := by
    simp only [List.cons_append, List.forall_mem_cons, List.forall_mem_append]
    exact ⟨⟨rfl, trivial⟩, uses_runs, uses_runs⟩
  obtain ⟨bs, s', hbs, hp, hcalls, hreturned⟩ := refines_threads utc (settled_openNew hw) huses hw'
  exact ⟨w, w', settled_openNew hw, hw', of_decide_eq_true hne, bs, s', hbs, hp, hcalls.trans rfl, hreturned⟩

end Settled

end MTAppenderFile.Loglib.World
