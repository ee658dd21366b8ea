import MTAppenderFile.Lib.Run
import MTAppenderFile.Loglib.Code

/-! # What a step of the process does

`Effect` says for each statement what it does to the process, and where its thread goes on; a step is a call or
a statement with its effect (`step_cases`). A statement moves no other thread, but for a worker that it wakes or
starts (`Effect.pc_worker`).

`Stmt.Leads P` says that a statement leads to points with `P` only. The code of a function leads to its own
points and to the one it returns to (`log2fileCode_leads` and so on). -/

namespace MTAppenderFile.Loglib.World

open MTAppenderFile.Lib.Run
open MTAppenderFile.Lib.Vector
open MTAppenderFile.Comm.CTypes
open MTAppenderFile.Loglib.Base
open MTAppenderFile.Loglib.Files
open MTAppenderFile.Loglib.Formatter
open MTAppenderFile.Loglib.Appender

/-- **The effect of a statement** that the thread `t` takes: the process after it, but for the place of `t`, and
where `t` goes on. -/
inductive Effect (lc : Libc) (env : Env) (t : Tid) (w : State) : Stmt → State → Pc → Prop
  | lock {l : Lock} {k : Pc} (hu : w.usable l = true) (h : w.owner l = none) :
      Effect lc env t w (.lock l k) { w with owner := Function.update w.owner l (some t) } k
  | unlock {l : Lock} {k : Pc} (hu : w.usable l = true) :
      Effect lc env t w (.unlock l k) { w with owner := Function.update w.owner l none } k
  | app {α : Type} {m : Mlog} {op : AppOp α} {k : α → Pc} {p : Proc} {a : α} (hm : w.alive m = true)
      (h : op.run lc env (w.app m) = some (p, a)) : Effect lc env t w (.app m op k) (w.setApp m p) (k a)
  | vec {α : Type} {op : VecOp α} {k : α → Pc} {v : Vec Mlog} {a : α}
      (h : op.run env w.sharedAppenders = some (v, a)) :
      Effect lc env t w (.vec op k) { w with sharedAppenders := v } (k a)
  | isruning {a : Async} {k : Bool → Pc} : Effect lc env t w (.isruning a k) w (k (!(w.thread a).isended))
  | spawn {a : Async} {k : Pc} (h : (w.thread a).isended = true) (hc : env.create = .ok) :
      Effect lc env t w (.start a k) (w.spawn a) k
  | failed {a : Async} {k : Pc} {tid : ℕ} (h : (w.thread a).isended = true) (hc : env.create = .failed tid) :
      Effect lc env t w (.start a k) (w.unspawned a tid) k
  | started {a : Async} {k : Pc} (h : (w.thread a).isended = false) : Effect lc env t w (.start a k) w k
  | ended {a : Async} {k : Bool → Pc} (h : (w.thread a).isended = true) :
      Effect lc env t w (.join a k) w (k false)
  | join {a : Async} {k : Bool → Pc} (h : (w.thread a).isended = false) :
      Effect lc env t w (.join a k)
        { w with thread := Function.update w.thread a { w.thread a with isjoined := true } } (k true)
  | readTid {a : Async} {k : ℕ → Pc} : Effect lc env t w (.readTid a k) w (k (w.thread a).tid)
  | pthreadJoin {a : Async} {tid : ℕ} {k : Pc}
      (h : w.pc (.worker a) = .idle ∨ (w.thread a).started ≠ tid) :
      Effect lc env t w (.pthreadJoin a tid k) w k
  | cleanup {a : Async} {k : Pc} : Effect lc env t w (.cleanup a k)
      { w with
        thread := Function.update w.thread a { w.thread a with isended := true, isjoined := false } } k
  | notifyAll {a : Async} {k : Pc} :
      Effect lc env t w (.notifyAll a k) (w.goto (.worker a) (woken (w.pc (.worker a)))) k
  | cas {a : Async} {k : Bool → Pc} : Effect lc env t w (.cas a k)
      { w with anywayNotify := Function.update w.anywayNotify a false } (k (w.anywayNotify a))
  | block {a : Async} {k : Pc} : Effect lc env t w (.block a k)
      { w with owner := Function.update w.owner (.cond a) none } k
  | sleep {k : Pc} : Effect lc env t w (.sleep k) w k
  | clear {a : Async} {k : Pc} : Effect lc env t w (.clear a k)
      { w with anywayNotify := Function.update w.anywayNotify a false } k
  | give {m : Mlog} {k : Pc} : Effect lc env t w (.give m k)
      { w with given := Function.update w.given m true } k
  | delete {m : Mlog} {k : Pc} (hm : w.alive m = true) : Effect lc env t w (.delete m k)
      { w with alive := Function.update w.alive m false } k

section Effect

variable {lc : Libc} {env : Env} {t : Tid} {w w' w₁ : State} {st : Stmt} {pc : Pc}

@[simp] theorem goto_pc_self (w : State) (t : Tid) (pc : Pc) : (w.goto t pc).pc t = pc :=
  Function.update_self ..

theorem goto_pc_of_ne (w : State) {t u : Tid} (h : u ≠ t) (pc : Pc) : (w.goto t pc).pc u = w.pc u :=
  Function.update_of_ne h ..

theorem isIdle_iff {pc : Pc} : pc.isIdle = true ↔ pc = .idle := by cases pc <;> simp [Pc.isIdle]

section Passed

variable (w : State) (m : Mlog) (u : Use)

@[simp] theorem passed_pc : (w.passed m u).pc = w.pc := by cases u <;> rfl

@[simp] theorem passed_apps : (w.passed m u).apps = w.apps := by cases u <;> rfl

@[simp] theorem passed_alive : (w.passed m u).alive = w.alive := by cases u <;> rfl

@[simp] theorem passed_created : (w.passed m u).created = w.created := by cases u <;> rfl

@[simp] theorem passed_sharedAppenders : (w.passed m u).sharedAppenders = w.sharedAppenders := by
  cases u <;> rfl

@[simp] theorem passed_thread : (w.passed m u).thread = w.thread := by cases u <;> rfl

end Passed

theorem effect_of_exec (h : exec lc env t w st = some w') :
    ∃ w₁ pc, Effect lc env t w st w₁ pc ∧ w' = w₁.goto t pc := by
  cases st with
  | stop => cases h
  | lock l k =>
    rw [exec, Option.ite_none_right_eq_some, Option.some_inj] at h
    obtain ⟨⟨hu, hl⟩, rfl⟩ := h
    exact ⟨_, _, .lock hu hl, rfl⟩
  | unlock l k =>
    rw [exec, Option.ite_none_right_eq_some, Option.some_inj] at h
    obtain ⟨hu, rfl⟩ := h
    exact ⟨_, _, .unlock hu, rfl⟩
  | app m op k =>
    rw [exec, Option.ite_none_right_eq_some] at h
    obtain ⟨hm, h⟩ := h
    obtain ⟨⟨p, a⟩, hr, rfl⟩ := Option.map_eq_some_iff.mp h
    exact ⟨_, _, .app hm hr, rfl⟩
  | vec op k =>
    obtain ⟨⟨v, a⟩, hr, rfl⟩ := Option.map_eq_some_iff.mp h
    exact ⟨_, _, .vec hr, rfl⟩
  | isruning a k =>
    rw [exec, Option.ite_none_right_eq_some, Option.some_inj] at h
    obtain ⟨-, rfl⟩ := h
    exact ⟨_, _, .isruning, rfl⟩
  | start a k =>
    rw [exec, Option.ite_none_right_eq_some, Option.some_inj] at h
    obtain ⟨-, rfl⟩ := h
    cases he : (w.thread a).isended with
    | false => exact ⟨_, _, .started he, rfl⟩
    | true =>
      cases hc : env.create with
      | ok => exact ⟨_, _, .spawn he hc, rfl⟩
      | failed tid => exact ⟨_, _, .failed he hc, rfl⟩
  | join a k =>
    rw [exec, Option.ite_none_right_eq_some] at h
    obtain ⟨-, h⟩ := h
    cases he : (w.thread a).isended with
    | false =>
      rw [he, if_neg Bool.false_ne_true, Option.some_inj] at h
      exact ⟨_, _, .join he, h.symm⟩
    | true =>
      rw [he, if_pos rfl, Option.some_inj] at h
      exact ⟨_, _, .ended he, h.symm⟩
  | readTid a k =>
    rw [exec, Option.ite_none_right_eq_some, Option.some_inj] at h
    obtain ⟨-, rfl⟩ := h
    exact ⟨_, _, .readTid, rfl⟩
  | pthreadJoin a tid k =>
    rw [exec] at h
    split at h
    · next hi => cases h; exact ⟨_, _, .pthreadJoin (.inl hi), rfl⟩
    · split_ifs at h with ht
      cases h
      exact ⟨_, _, .pthreadJoin (.inr ht), rfl⟩
  | cleanup a k => cases h; exact ⟨_, _, .cleanup, rfl⟩
  | notifyAll a k =>
    rw [exec, Option.ite_none_right_eq_some, Option.some_inj] at h
    obtain ⟨-, rfl⟩ := h
    exact ⟨_, _, .notifyAll, rfl⟩
  | cas a k =>
    rw [exec, Option.ite_none_right_eq_some, Option.some_inj] at h
    obtain ⟨-, rfl⟩ := h
    exact ⟨_, _, .cas, rfl⟩
  | block a k =>
    rw [exec, Option.ite_none_right_eq_some, Option.some_inj] at h
    obtain ⟨-, rfl⟩ := h
    exact ⟨_, _, .block, rfl⟩
  | sleep k => cases h; exact ⟨_, _, .sleep, rfl⟩
  | clear a k =>
    rw [exec, Option.ite_none_right_eq_some, Option.some_inj] at h
    obtain ⟨-, rfl⟩ := h
    exact ⟨_, _, .clear, rfl⟩
  | give m k => cases h; exact ⟨_, _, .give, rfl⟩
  | delete m k =>
    rw [exec, Option.ite_none_right_eq_some, Option.some_inj] at h
    obtain ⟨hm, rfl⟩ := h
    exact ⟨_, _, .delete hm, rfl⟩

theorem Effect.pc_caller (h : Effect lc env t w st w₁ pc) (n : ℕ) :
    w₁.pc (.caller n) = w.pc (.caller n) := by
  cases h with
  | spawn => exact goto_pc_of_ne _ (by simp) _
  | notifyAll => exact goto_pc_of_ne _ (by simp) _
  | _ => rfl

theorem Effect.pc_worker (h : Effect lc env t w st w₁ pc) (a : Async) :
    w₁.pc (.worker a) = w.pc (.worker a) ∨
      ((∃ k, st = .notifyAll a k) ∧ w₁.pc (.worker a) = woken (w.pc (.worker a))) ∨
      (∃ k, st = .start a k) ∧ (w.thread a).isended = true ∧
        w₁.pc (.worker a) = .routine a .initLock := by
  cases h with
  | @spawn b k he =>
    by_cases hab : a = b
    · subst hab
      exact .inr (.inr ⟨⟨_, rfl⟩, he, goto_pc_self ..⟩)
    · exact .inl (goto_pc_of_ne _ (by simp [hab]) _)
  | @notifyAll b k =>
    by_cases hab : a = b
    · subst hab
      exact .inr (.inl ⟨⟨_, rfl⟩, goto_pc_self ..⟩)
    · exact .inl (goto_pc_of_ne _ (by simp [hab]) _)
  | _ => exact .inl rfl

/-- **The three kinds of steps.** -/
theorem step_cases {l : Label} (h : step lc w l = some w') :
    (∃ n share, l = .create n share ∧ w.pc (.caller n) = .idle ∧
        w' = (w.new ⟨share, w.created⟩).goto (.caller n) (createEntry ⟨share, w.created⟩)) ∨
      (∃ n m u, l = .call n m u ∧ w.pc (.caller n) = .idle ∧ w.given m = true ∧
        w' = (w.passed m u).goto (.caller n) (u.entry m)) ∨
      ∃ t env w₁ pc, l = .run t env ∧ Effect lc env t w (code (w.pc t)) w₁ pc ∧ w' = w₁.goto t pc := by
  cases l with
  | create n share =>
    rw [step, Option.ite_none_right_eq_some, Option.some_inj] at h
    obtain ⟨hi, rfl⟩ := h
    exact .inl ⟨n, share, rfl, isIdle_iff.mp hi, rfl⟩
  | call n m u =>
    rw [step, Option.ite_none_right_eq_some, Option.some_inj] at h
    obtain ⟨⟨hi, hg⟩, rfl⟩ := h
    exact .inr (.inl ⟨n, m, u, rfl, isIdle_iff.mp hi, hg, rfl⟩)
  | run t env =>
    obtain ⟨w₁, pc, he, rfl⟩ := effect_of_exec h
    exact .inr (.inr ⟨t, env, w₁, pc, rfl, he, rfl⟩)

end Effect

/-! ### Where the code leads -/

/-- Every point that the statement leads to has `P`. -/
def Stmt.Leads (P : Pc → Prop) : Stmt → Prop
  | .stop => True
  | .lock _ k => P k
  | .unlock _ k => P k
  | .app _ _ k => ∀ a, P (k a)
  | .vec _ k => ∀ a, P (k a)
  | .isruning _ k => ∀ a, P (k a)
  | .start _ k => P k
  | .join _ k => ∀ a, P (k a)
  | .readTid _ k => ∀ a, P (k a)
  | .pthreadJoin _ _ k => P k
  | .cleanup _ k => P k
  | .notifyAll _ k => P k
  | .cas _ k => ∀ a, P (k a)
  | .block _ k => P k
  | .sleep k => P k
  | .clear _ k => P k
  | .give _ k => P k
  | .delete _ k => P k

theorem Effect.leads {lc : Libc} {env : Env} {t : Tid} {w w₁ : State} {st : Stmt} {pc : Pc}
    (h : Effect lc env t w st w₁ pc) {P : Pc → Prop} (hl : st.Leads P) : P pc := by
  cases h <;> first | exact hl | exact hl _

section Leads

variable {P : Pc → Prop} {m : Mlog} {a : Async} {ret : Pc}

theorem fileTmp_leads {file : Bytes → Log2filePc → Pc} (hfile : ∀ data pc, P (file data pc)) (hret : P ret)
    (tmp : Option Bytes) : P (fileTmp file ret tmp) := by
  cases tmp with
  | none => exact hret
  | some data => exact hfile data _

theorem log2fileCode_leads {data : Bytes} {here : Log2filePc → Pc} (h : ∀ pc, P (here pc)) (hret : P ret)
    (pc : Log2filePc) : (log2fileCode m data here ret pc).Leads P := by
  cases pc with
  | test =>
    intro empty
    dsimp only
    split_ifs
    exacts [hret, h _]
  | lock => exact h _
  | write => exact fun _ => h _
  | unlock => exact hret

theorem taskCode_leads {here : TaskPc → Pc} (h : ∀ pc, P (here pc)) (hret : P ret) (pc : TaskPc) :
    (taskCode m here ret pc).Leads P := by
  cases pc with
  | load =>
    intro null
    dsimp only
    split_ifs
    exacts [hret, h _]
  | lock => exact h _
  | drain => exact fun _ => h _
  | unlock tmp => exact fileTmp_leads (fun _ _ => h _) hret tmp
  | file data pc => exact log2fileCode_leads (fun _ => h _) hret pc

theorem startCode_leads {here : StartPc → Pc} (h : ∀ pc, P (here pc)) (hret : P ret) (pc : StartPc) :
    (startCode a here ret pc).Leads P := by
  cases pc with
  | unlock => exact hret
  | _ => exact h _

theorem waitCode_leads {here : WaitPc → Pc} (h : ∀ pc, P (here pc)) (hret : P ret) (pc : WaitPc) :
    (waitCode a here ret pc).Leads P := by
  cases pc with
  | cas =>
    intro notified
    dsimp only
    split_ifs
    exacts [h _, h _]
  | unlock => exact hret
  | _ => exact h _

theorem setmodeCode_leads {mode : AppendMode} {here : SetmodePc → Pc} (h : ∀ pc, P (here pc)) (hret : P ret)
    (pc : SetmodePc) : (setmodeCode m mode here ret pc).Leads P := by
  cases pc with
  | store => exact fun _ => h _
  | mode =>
    intro mode
    dsimp only
    split_ifs
    exacts [h _, hret]
  | isruning =>
    intro run
    dsimp only
    split_ifs
    exacts [h _, hret]
  | start pc => exact startCode_leads (fun _ => h _) hret pc
  | _ => exact h _

theorem scanCode_leads {info : Option LogInfo} {here : ScanPc → Pc} (h : ∀ pc, P (here pc)) (hret : P ret)
    (pc : ScanPc) : (scanCode info here ret pc).Leads P := by
  cases pc with
  | cond it =>
    intro more
    dsimp only
    split_ifs
    exacts [h _, hret]
  | load it n =>
    intro closed
    dsimp only
    split_ifs
    exacts [h _, h _]
  | length it n =>
    intro full
    dsimp only
    split_ifs
    exacts [h _, h _]
  | notify => exact hret
  | _ => exact fun _ => h _

theorem closeCode_leads {here : ClosePc → Pc} (h : ∀ pc, P (here pc)) (hret : P ret) (pc : ClosePc) :
    (closeCode m here ret pc).Leads P := by
  cases pc with
  | load =>
    intro closed
    dsimp only
    split_ifs
    exacts [hret, h _]
  | store => exact fun _ => h _
  | isruning =>
    intro run
    dsimp only
    split_ifs
    exacts [h _, h _]
  | join => exact fun _ => h _
  | joinUnlock found =>
    show P (if _ then _ else _)
    split_ifs
    exacts [h _, h _]
  | readTid => exact fun _ => h _
  | notifyShared =>
    show P (if _ then _ else _)
    split_ifs
    exacts [h _, h _]
  | task pc => exact taskCode_leads (fun _ => h _) (h _) pc
  | free => exact fun _ => h _
  | file => exact fun _ => h _
  | fileUnlock => exact hret
  | _ => exact h _

theorem createCode_leads {here : CreatePc → Pc} (h : ∀ pc, P (here pc)) (hidle : P .idle) (pc : CreatePc) :
    (createCode m here pc).Leads P := by
  cases pc with
  | push => exact fun _ => h _
  | give => exact hidle
  | _ => exact h _

theorem openCode_leads {mode : AppendMode} {filedir filename : CStr} {here : OpenPc → Pc}
    (h : ∀ pc, P (here pc)) (hidle : P .idle) (pc : OpenPc) :
    (openCode m mode filedir filename here pc).Leads P := by
  cases pc with
  | load =>
    intro closed
    dsimp only
    split_ifs
    exacts [hidle, h _]
  | lock tmp => exact h _
  | setmode tmp pc => exact setmodeCode_leads (fun _ => h _) (h _) pc
  | unlock tmp => exact fileTmp_leads (fun _ _ => h _) hidle tmp
  | file data pc => exact log2fileCode_leads (fun _ => h _) hidle pc
  | _ => exact fun _ => h _

theorem appendCode_leads {info : Option LogInfo} {log : Option CStr} {here : AppendPc → Pc}
    (h : ∀ pc, P (here pc)) (hidle : P .idle) (pc : AppendPc) :
    (appendCode m info log here pc).Leads P := by
  cases pc with
  | load =>
    intro closed
    dsimp only
    split_ifs
    exacts [hidle, h _]
  | mode =>
    intro mode
    dsimp only
    split_ifs
    exacts [h _, h _]
  | format => exact fun tmp => fileTmp_leads (fun _ _ => h _) hidle tmp
  | file data pc => exact log2fileCode_leads (fun _ => h _) hidle pc
  | lock => exact h _
  | test =>
    intro null
    dsimp only
    split_ifs
    exacts [h _, h _]
  | insert =>
    intro ok
    dsimp only
    split_ifs
    exacts [h _, h _]
  | length =>
    intro full
    dsimp only
    split_ifs
    exacts [h _, h _]
  | notify => exact h _
  | isruning =>
    intro run
    dsimp only
    split_ifs
    exacts [h _, h _]
  | start pc => exact startCode_leads (fun _ => h _) (h _) pc
  | scan pc => exact scanCode_leads (fun _ => h _) (h _) pc
  | unlock => exact hidle

theorem flushSyncCode_leads {here : FlushSyncPc → Pc} (h : ∀ pc, P (here pc)) (hidle : P .idle)
    (pc : FlushSyncPc) : (flushSyncCode m here pc).Leads P := by
  cases pc with
  | mode =>
    intro mode
    dsimp only
    split_ifs
    exacts [hidle, h _]
  | lock => exact h _
  | test =>
    intro null
    dsimp only
    split_ifs
    exacts [h _, h _]
  | drain => exact fun _ => h _
  | unlock tmp => exact fileTmp_leads (fun _ _ => h _) hidle tmp
  | file data pc => exact log2fileCode_leads (fun _ => h _) hidle pc

theorem destroyCode_leads {here : DestroyPc → Pc} (h : ∀ pc, P (here pc)) (hidle : P .idle)
    (pc : DestroyPc) : (destroyCode m here pc).Leads P := by
  cases pc with
  | close pc =>
    refine closeCode_leads (fun _ => h _) ?_ pc
    split_ifs
    exacts [h _, h _]
  | erase => exact fun _ => h _
  | delete => exact hidle
  | _ => exact h _

theorem routineCode_leads {here : RoutinePc → Pc} (h : ∀ pc, P (here pc)) (hidle : P .idle)
    (htarget : P (target a)) (pc : RoutinePc) : (routineCode a here pc).Leads P := by
  cases pc with
  | initUnlock => exact htarget
  | cleanUnlock => exact hidle
  | _ => exact h _

theorem loopCode_leads {here : LoopPc → Pc} (h : ∀ pc, P (here pc)) (hret : P ret) (pc : LoopPc) :
    (loopCode m here ret pc).Leads P := by
  cases pc with
  | top =>
    intro null
    dsimp only
    split_ifs
    exacts [hret, h _]
  | task pc => exact taskCode_leads (fun _ => h _) (h _) pc
  | load =>
    intro closed
    dsimp only
    split_ifs
    exacts [hret, h _]
  | wait pc => exact waitCode_leads (fun _ => h _) (h _) pc

theorem passCode_leads {here : PassPc → Pc} (h : ∀ pc, P (here pc)) (hret : P ret) (pc : PassPc) :
    (passCode here ret pc).Leads P := by
  cases pc with
  | empty =>
    intro empty
    dsimp only
    split_ifs
    exacts [h _, h _]
  | exit => exact hret
  | cond it =>
    intro more
    dsimp only
    split_ifs
    exacts [h _, h _]
  | load it m =>
    intro closed
    dsimp only
    split_ifs
    exacts [h _, h _]
  | task it m pc => exact taskCode_leads (fun _ => h _) (h _) pc
  | wait pc => exact waitCode_leads (fun _ => h _) (h _) pc
  | lock => exact h _
  | unlock => exact h _
  | _ => exact fun _ => h _

end Leads

/-! ### The function a thread is in -/

/-- A function of the program with its arguments, or the routine of a worker. -/
inductive Fn
  | idle
  | create (m : Mlog)
  | open (m : Mlog) (mode : AppendMode) (filedir filename : CStr)
  | append (m : Mlog) (info : Option LogInfo) (log : Option CStr)
  | setmode (m : Mlog) (mode : AppendMode)
  | flush (m : Mlog)
  | flushSync (m : Mlog)
  | close (m : Mlog)
  | destroy (m : Mlog)
  | worker (a : Async)

/-- The function a thread is in. -/
def Pc.fn : Pc → Fn
  | .idle => .idle
  | .create m _ => .create m
  | .open m mode filedir filename _ => .open m mode filedir filename
  | .append m info log _ => .append m info log
  | .setmode m mode _ => .setmode m mode
  | .flush m _ => .flush m
  | .flushSync m _ => .flushSync m
  | .close m _ => .close m
  | .destroy m _ => .destroy m
  | .routine a _ => .worker a
  | .loop m _ => .worker (.own m)
  | .pass _ => .worker .shared

theorem fn_eq_idle_iff {pc : Pc} : pc.fn = .idle ↔ pc = .idle := by cases pc <;> simp [Pc.fn]

theorem fn_woken (pc : Pc) : (woken pc).fn = pc.fn := by
  unfold woken
  split <;> rfl

/-- **A thread stays in its function, or returns.** -/
theorem code_leads_fn (pc : Pc) : (code pc).Leads fun pc' => pc' = .idle ∨ pc'.fn = pc.fn := by
  cases pc with
  | idle => trivial
  | create m pc => exact createCode_leads (fun _ => .inr rfl) (.inl rfl) pc
  | «open» m mode filedir filename pc => exact openCode_leads (fun _ => .inr rfl) (.inl rfl) pc
  | append m info log pc => exact appendCode_leads (fun _ => .inr rfl) (.inl rfl) pc
  | setmode m mode pc => exact setmodeCode_leads (fun _ => .inr rfl) (.inl rfl) pc
  | flush m pc =>
    cases pc with
    | notifyOwn => exact .inr rfl
    | notifyShared => exact .inl rfl
  | flushSync m pc => exact flushSyncCode_leads (fun _ => .inr rfl) (.inl rfl) pc
  | close m pc => exact closeCode_leads (fun _ => .inr rfl) (.inl rfl) pc
  | destroy m pc => exact destroyCode_leads (fun _ => .inr rfl) (.inl rfl) pc
  | routine a pc =>
    exact routineCode_leads (fun _ => .inr rfl) (.inl rfl) (.inr (by cases a <;> rfl)) pc
  | loop m pc => exact loopCode_leads (fun _ => .inr rfl) (.inr rfl) pc
  | pass pc => exact passCode_leads (fun _ => .inr rfl) (.inr rfl) pc

/-- The function works on the appender `m`. The shared worker may work on any. -/
def Fn.Acts (m : Mlog) : Fn → Prop
  | .open n _ _ _ => n = m
  | .append n _ _ => n = m
  | .flushSync n => n = m
  | .close n => n = m
  | .destroy n => n = m
  | .worker .shared => True
  | .worker (.own n) => n = m
  | _ => False

/-- The function closes the appender `m`. -/
def Fn.Closes (m : Mlog) (f : Fn) : Prop := f = .close m ∨ f = .destroy m

/-- The function opens the appender `m`. -/
def Fn.Opens (m : Mlog) (f : Fn) : Prop := ∃ mode filedir filename, f = .open m mode filedir filename

/-- The functions in which an appender is changed. -/
def AppOp.By (m : Mlog) (f : Fn) : {α : Type} → AppOp α → Prop
  | _, .storeClose b => if b then f.Closes m else f.Opens m
  | _, .insert info log => f = .append m info log
  | _, .drain => f.Acts m
  | _, .log2file _ => f.Acts m
  | _, .map _ _ => f.Opens m
  | _, .buff _ => f.Opens m
  | _, .names _ _ => f.Opens m
  | _, .free => f.Closes m
  | _, .closelogfile => f.Closes m
  | _, _ => True

/-- The functions in which the list is changed. -/
def VecOp.By (f : Fn) : {α : Type} → VecOp α → Prop
  | _, .push m => f = .create m
  | _, .erase m => f = .destroy m
  | _, _ => True

/-- The functions in which a statement stands. -/
def Stmt.By (f : Fn) : Stmt → Prop
  | .app m op _ => op.By m f
  | .vec op _ => op.By f
  | .pthreadJoin _ _ _ => ∃ m, f.Closes m
  | .cleanup a _ => f = .worker a
  | .give m _ => f = .create m
  | .delete m _ => f = .destroy m
  | _ => True

section By

variable {f : Fn} {m : Mlog} {a : Async} {ret : Pc}

theorem log2fileCode_by {data : Bytes} {here : Log2filePc → Pc} (h : f.Acts m) (pc : Log2filePc) :
    (log2fileCode m data here ret pc).By f := by
  cases pc with
  | write => exact h
  | _ => trivial

theorem taskCode_by {here : TaskPc → Pc} (h : f.Acts m) (pc : TaskPc) : (taskCode m here ret pc).By f := by
  cases pc with
  | drain => exact h
  | file data pc => rw [taskCode]; exact log2fileCode_by h pc
  | _ => trivial

theorem startCode_by {here : StartPc → Pc} (pc : StartPc) : (startCode a here ret pc).By f := by
  cases pc <;> trivial

theorem waitCode_by {here : WaitPc → Pc} (pc : WaitPc) : (waitCode a here ret pc).By f := by
  cases pc <;> trivial

theorem setmodeCode_by {mode : AppendMode} {here : SetmodePc → Pc} (pc : SetmodePc) :
    (setmodeCode m mode here ret pc).By f := by
  cases pc with
  | start pc => rw [setmodeCode]; exact startCode_by pc
  | _ => trivial

theorem openCode_by {mode : AppendMode} {filedir filename : CStr} {here : OpenPc → Pc} (pc : OpenPc) :
    (openCode m mode filedir filename here pc).By (.open m mode filedir filename) := by
  cases pc with
  | map => exact ⟨_, _, _, rfl⟩
  | buff block => exact ⟨_, _, _, rfl⟩
  | flush => exact rfl
  | names tmp => exact ⟨_, _, _, rfl⟩
  | store tmp => exact ⟨_, _, _, rfl⟩
  | setmode tmp pc => rw [openCode]; exact setmodeCode_by pc
  | file data pc => rw [openCode]; exact log2fileCode_by (by exact rfl) pc
  | _ => trivial

theorem appendCode_by {info : Option LogInfo} {log : Option CStr} {here : AppendPc → Pc} (pc : AppendPc) :
    (appendCode m info log here pc).By (.append m info log) := by
  cases pc with
  | file data pc => rw [appendCode]; exact log2fileCode_by (by exact rfl) pc
  | insert => exact rfl
  | start pc => rw [appendCode]; exact startCode_by pc
  | scan pc => cases pc <;> trivial
  | _ => trivial

theorem flushSyncCode_by {here : FlushSyncPc → Pc} (pc : FlushSyncPc) :
    (flushSyncCode m here pc).By (.flushSync m) := by
  cases pc with
  | drain => exact rfl
  | file data pc => rw [flushSyncCode]; exact log2fileCode_by (by exact rfl) pc
  | _ => trivial

theorem closeCode_by {here : ClosePc → Pc} (h : f.Closes m) (pc : ClosePc) :
    (closeCode m here ret pc).By f := by
  have hacts : f.Acts m := by rcases h with rfl | rfl <;> exact rfl
  cases pc with
  | store => exact h
  | pthreadJoin tid => exact ⟨m, h⟩
  | task pc => rw [closeCode]; exact taskCode_by hacts pc
  | free => exact h
  | file => exact h
  | _ => trivial

theorem destroyCode_by {here : DestroyPc → Pc} (pc : DestroyPc) :
    (destroyCode m here pc).By (.destroy m) := by
  cases pc with
  | close pc => rw [destroyCode]; exact closeCode_by (.inr rfl) pc
  | erase => exact rfl
  | delete => exact rfl
  | _ => trivial

theorem loopCode_by {here : LoopPc → Pc} (pc : LoopPc) :
    (loopCode m here ret pc).By (.worker (.own m)) := by
  cases pc with
  | task pc => rw [loopCode]; exact taskCode_by (by exact rfl) pc
  | wait pc => rw [loopCode]; exact waitCode_by pc
  | _ => trivial

theorem passCode_by {here : PassPc → Pc} (pc : PassPc) : (passCode here ret pc).By (.worker .shared) := by
  cases pc with
  | task it m pc => rw [passCode]; exact taskCode_by (by trivial) pc
  | wait pc => rw [passCode]; exact waitCode_by pc
  | _ => trivial

end By

/-- **Every statement stands in its function.** -/
theorem code_by (pc : Pc) : (code pc).By pc.fn := by
  cases pc with
  | create m pc => cases pc <;> first | exact rfl | trivial
  | «open» m mode filedir filename pc => exact openCode_by pc
  | append m info log pc => exact appendCode_by pc
  | setmode m mode pc => exact setmodeCode_by pc
  | flush m pc => cases pc <;> trivial
  | flushSync m pc => exact flushSyncCode_by pc
  | close m pc => exact closeCode_by (.inl rfl) pc
  | destroy m pc => exact destroyCode_by pc
  | routine a pc => cases pc <;> first | exact rfl | trivial
  | loop m pc => exact loopCode_by pc
  | pass pc => exact passCode_by pc
  | idle => trivial

/-! ### Runs on given labels -/

/-- A directory, a file name and another file name. -/
def dirD : CStr := ⟨ascii "d", by decide⟩

def nameN : CStr := ⟨ascii "n", by decide⟩

def nameO : CStr := ⟨ascii "o", by decide⟩

/-- `n` steps of the thread `t`, in which every call of the system succeeds. -/
def runs (t : Tid) (n : ℕ) : List Label := List.replicate n (.run t .ok)

/-- The appender with the shared thread and the number `k` is made, and opened in async mode. -/
def openNew (k : ℕ) : List Label :=
  .create 0 true :: runs (.caller 0) 4 ++ .call 0 ⟨true, k⟩ (.open .async dirD nameN) :: runs (.caller 0) 13

/-- The step is one of the callers `ns`, or of a worker. -/
def Label.By (ns : List ℕ) : Label → Prop
  | .create n _ => n ∈ ns
  | .call n _ _ => n ∈ ns
  | .run (.caller n) _ => n ∈ ns
  | .run (.worker _) _ => True

instance (ns : List ℕ) : DecidablePred (Label.By ns) := fun l =>
  match l with
  | .create n _ => inferInstanceAs (Decidable (n ∈ ns))
  | .call n _ _ => inferInstanceAs (Decidable (n ∈ ns))
  | .run (.caller n) _ => inferInstanceAs (Decidable (n ∈ ns))
  | .run (.worker _) _ => .isTrue trivial

/-- The callers other than `ns` are idle. -/
def IdleBut (ns : List ℕ) (w : State) : Prop := ∀ n, n ∉ ns → w.pc (.caller n) = .idle

theorem idleBut_init (ns : List ℕ) (files : Disk) (statics : FormatStatics) : IdleBut ns (.init files statics) :=
  fun _ _ => rfl

/-- **A caller that takes no step stays idle.** -/
theorem IdleBut.step {lc : Libc} {ns : List ℕ} {w w' : State} {l : Label} (h : IdleBut ns w) (hl : l.By ns)
    (hs : World.step lc w l = some w') : IdleBut ns w' := by
  intro n hn
  rcases step_cases hs with ⟨k, share, rfl, -, rfl⟩ | ⟨k, m, u, rfl, -, -, rfl⟩ | ⟨t, env, w₁, pc, rfl, he, rfl⟩
  · rw [goto_pc_of_ne _ (by rintro ⟨⟩; exact hn hl)]
    exact h n hn
  · rw [goto_pc_of_ne _ (by rintro ⟨⟩; exact hn hl), passed_pc]
    exact h n hn
  · rw [goto_pc_of_ne _ (by rintro rfl; exact hn hl), he.pc_caller]
    exact h n hn

theorem idleBut_of_run {lc : Libc} {ns : List ℕ} {files : Disk} {statics : FormatStatics} {w : State}
    {as : List Label} (hr : run (World.step lc) (.init files statics) as = some w) (hby : ∀ l ∈ as, l.By ns) :
    IdleBut ns w :=
  (reach_of_run (meets_of_forall hby) hr).inv (idleBut_init ns files statics) fun _ _ _ h hl hs => h.step hl hs

theorem IdleBut.idle {ns : List ℕ} {w : State} (h : IdleBut ns w) (hns : ∀ n ∈ ns, w.pc (.caller n) = .idle)
    (n : ℕ) : w.pc (.caller n) = .idle := by
  by_cases hn : n ∈ ns
  · exact hns n hn
  · exact h n hn

end MTAppenderFile.Loglib.World
