import MTAppenderFile.Lib.Guard
import MTAppenderFile.Loglib.Flow
import MTAppenderFile.Loglib.Interleaving

/-! # The end of the buffer and of the mapping

`close` deletes the buffer and frees `sg_mmap_file` under `sg_mutex_buffer_async`. `append` and `flush_sync`
test `sg_log_buff` under that mutex, `__log_thread_task` tests it before it takes the mutex. So the task
uses a buffer that is gone exactly if the buffer is deleted while a thread is between its test and the mutex
(`no_use_after_free_iff`).

`close` is guarded by a load of `sg_log_close` and a store after it. As long as no call of `close` passes the
load while another one is on its way to the store, the buffer ends once, by one call (`teardown_once`). -/

namespace MTAppenderFile.Loglib.Teardown

open MTAppenderFile.Lib
open MTAppenderFile.Lib.Run
open MTAppenderFile.Comm.CTypes
open MTAppenderFile.Loglib.Base
open MTAppenderFile.Loglib.Buffer
open MTAppenderFile.Loglib.Files
open MTAppenderFile.Loglib.Formatter
open MTAppenderFile.Loglib.Appender
open MTAppenderFile.Loglib.Session
open MTAppenderFile.Loglib.Lifecycle
open MTAppenderFile.Loglib.Threads
open MTAppenderFile.Loglib.Steps
open MTAppenderFile.Loglib.Flow
open MTAppenderFile.Loglib.Pipeline (Started Started.open_spec Started.forall_pc)
open MTAppenderFile.Loglib.Exactness (textA)
open MTAppenderFile.Loglib.Interleaving (exists_started drainBuffer_eq)

/-! ### The use of the buffer -/

/-- In `__log_thread_task`, between the test of `sg_log_buff` and the mutex. -/
def AtDrain : Pc → Prop
  | .task .drain => True
  | .loop (.task .drain) => True
  | .pass (.task .drain) => True
  | .close _ (.task .drain) => True
  | _ => False

/-- Before a section under `sg_mutex_buffer_async` that uses the buffer. -/
def UsesBuffer : Pc → Prop
  | .append _ _ .async => True
  | .flush .drain => True
  | pc => AtDrain pc

/-- **A use of the buffer after its end**: a thread is about to use the buffer, it is gone, and the step is
undefined. -/
def Faults (lc : Libc) (s : Sys) : Prop :=
  s.p.mlog.sgLogBuff = none ∧ ∃ t, UsesBuffer (s.pc t) ∧ ∀ env, exec lc env t s (s.pc t) = none

/-- The buffer ends while no other thread is between its test and the mutex. -/
def FreesApart (s : Sys) : Label → Prop
  | .run t _ => act (s.pc t) = .free → ∀ u, u ≠ t → ¬ AtDrain (s.pc u)
  | .call _ _ => True

section Steps

variable {lc : Libc} {env : FileEnv} {t : ℕ} {s s' : Sys} {pc : Pc}

theorem not_atDrain_workerStart (th : ThreadAsync) : ¬ AtDrain (workerStart th) := by
  cases th <;> exact id

/-- `__log_thread_task` is undefined without a buffer. -/
theorem exec_of_atDrain (h : AtDrain pc) (hb : s.p.mlog.sgLogBuff = none) : exec lc env t s pc = none := by
  have htask : taskStep lc env s.p .drain = none := by rw [taskStep, hb]; rfl
  unfold AtDrain at h
  split at h
  · rw [exec, Sys.runTask, htask]; rfl
  · rw [exec, loopStep, Sys.runTask, htask]; rfl
  · rw [exec, passStep, Sys.runTask, htask]; rfl
  · rw [exec, closeStep, Sys.runTask, htask]; rfl
  · exact h.elim

/-- **A thread that uses a buffer that is gone** is in `__log_thread_task`. -/
theorem faults_iff : Faults lc s ↔ s.p.mlog.sgLogBuff = none ∧ ∃ t, AtDrain (s.pc t) := by
  refine and_congr_right fun hb => ⟨?_, fun ⟨t, ht⟩ => ⟨t, ?_, fun env => exec_of_atDrain ht hb⟩⟩
  · rintro ⟨t, hu, hn⟩
    refine ⟨t, ?_⟩
    have hn := hn .ok
    unfold UsesBuffer at hu
    split at hu
    · next info log hpc =>
      rw [hpc, exec, appendStep, appenderAsync, hb] at hn
      cases hn
    · next hpc =>
      rw [hpc, exec, flushStep, drainBuffer, flushLogBuff, hb] at hn
      cases hn
    · exact hu
  · unfold UsesBuffer
    split <;> trivial

theorem not_atDrain_start : ¬ AtDrain ((s.goto t .idle).start.pc t) := by
  rcases start_pc (s.goto t .idle) t with h | ⟨rfl, -, h⟩ <;> rw [h]
  · rw [goto_pc_self]; exact id
  · exact not_atDrain_workerStart _

theorem isSome_of_runTask (within : TaskPc → Pc) {next : Pc} {pc : TaskPc}
    (h : s.runTask lc env t within next pc = some s') (hn : ¬ AtDrain next)
    (hw : ∀ data, ¬ AtDrain (within (.write data))) (hd : AtDrain (s'.pc t)) :
    s.p.mlog.sgLogBuff.isSome := by
  obtain ⟨p, pc', rfl, hf⟩ := taskFlow_of_runTask h
  rw [goto_pc_self] at hd
  cases hf with
  | skip hb => exact absurd hd hn
  | load hb => exact hb
  | empty => exact absurd hd hn
  | drain data => exact absurd hd (hw data)
  | write data => exact absurd hd hn

theorem isSome_of_atDrain (h : exec lc env t s pc = some s') (hd : AtDrain (s'.pc t)) :
    s.p.mlog.sgLogBuff.isSome ∧ act pc ≠ .free := by
  have hgoto : ∀ {s₁ : Sys} {pc' : Pc} {q : Prop}, ¬ AtDrain pc' → s₁.goto t pc' = s' → q := by
    rintro s₁ pc' q hn rfl
    rw [goto_pc_self] at hd
    exact absurd hd hn
  have hstart : ∀ {s₁ : Sys} {q : Prop}, (s₁.goto t .idle).start = s' → q := by
    rintro s₁ q rfl
    exact absurd hd not_atDrain_start
  have htask : ∀ pc, taskAct pc ≠ .free := by rintro ⟨⟩ <;> rintro ⟨⟩
  cases pc with
  | idle => cases h
  | append info log pc =>
    cases pc with
    | load => exact hgoto (by split_ifs <;> exact id) (Option.some_inj.mp h)
    | mode =>
      rw [exec, appendStep] at h
      split_ifs at h
      · obtain ⟨r, -, h⟩ := Option.bind_eq_some_iff.mp h
        exact hgoto (by cases r.2 <;> exact id) (Option.some_inj.mp h)
      · exact hgoto id (Option.some_inj.mp h)
    | async =>
      obtain ⟨p, -, h⟩ := Option.bind_eq_some_iff.mp h
      rw [Option.some_inj] at h
      split_ifs at h
      · exact hstart h
      · exact hgoto id h
    | write data => exact hgoto id (Option.some_inj.mp h)
  | setmode pc =>
    cases pc with
    | store mode => exact hgoto id (Option.some_inj.mp h)
    | start =>
      rw [exec, setmodeStep, Option.some_inj] at h
      split_ifs at h
      · exact hstart h
      · exact hgoto id h
  | flush pc =>
    cases pc with
    | mode => exact hgoto (by split_ifs <;> exact id) (Option.some_inj.mp h)
    | drain =>
      obtain ⟨r, -, h⟩ := Option.bind_eq_some_iff.mp h
      exact hgoto id (Option.some_inj.mp h)
    | write data => exact hgoto id (Option.some_inj.mp h)
    | ret early => exact hgoto id (Option.some_inj.mp h)
  | task pc => exact ⟨isSome_of_runTask .task h id (fun _ => id) hd, htask pc⟩
  | loop pc =>
    cases pc with
    | top => exact hgoto (by split_ifs <;> exact id) (Option.some_inj.mp h)
    | task pc =>
      exact ⟨isSome_of_runTask (fun pc => .loop (.task pc)) h id (fun _ => id) hd, htask pc⟩
    | load => exact hgoto (by split_ifs <;> exact id) (Option.some_inj.mp h)
    | wait => exact hgoto id (Option.some_inj.mp h)
  | pass pc =>
    cases pc with
    | lock =>
      rw [exec, passStep] at h
      split_ifs at h
      · exact hgoto id (Option.some_inj.mp h)
      · exact hgoto id (Option.some_inj.mp h)
    | load => exact hgoto (by split_ifs <;> exact id) (Option.some_inj.mp h)
    | task pc =>
      exact ⟨isSome_of_runTask (fun pc => .pass (.task pc)) h id (fun _ => id) hd, htask pc⟩
    | unlock => exact hgoto id (Option.some_inj.mp h)
    | wait => exact hgoto id (Option.some_inj.mp h)
  | close stage pc =>
    have hnext : ¬ AtDrain stage.next := by cases stage <;> exact id
    cases pc with
    | load => exact hgoto (by split_ifs <;> first | exact hnext | exact id) (Option.some_inj.mp h)
    | store => exact hgoto id (Option.some_inj.mp h)
    | join =>
      rw [exec, closeStep] at h
      split at h
      · split_ifs at h
        exact hgoto id (Option.some_inj.mp h)
      · exact hgoto id (Option.some_inj.mp h)
    | task pc =>
      exact ⟨isSome_of_runTask (fun pc => .close stage (.task pc)) h id (fun _ => id) hd, htask pc⟩
    | free =>
      obtain ⟨r, -, h⟩ := Option.map_eq_some_iff.mp h
      exact hgoto id h
    | file => exact hgoto hnext (Option.some_inj.mp h)
  | erase =>
    rw [exec] at h
    split_ifs at h
    exact hgoto id (Option.some_inj.mp h)
  | delete => exact hgoto id (Option.some_inj.mp h)

theorem handleOk_of_does {a : Act} {p p' : Proc} {c : Option Bytes} (h : Does lc env p a p' c)
    (hh : HandleOk p.mlog) : HandleOk p'.mlog ∧ (a ≠ .free → p'.mlog.sgMmapFile = p.mlog.sgMmapFile) := by
  have hwrite : ∀ data, HandleOk (log2file lc env data p).mlog ∧
      (log2file lc env data p).mlog.sgMmapFile = p.mlog.sgMmapFile := by
    intro data
    have hr := log2file_refiled lc env data hh
    obtain ⟨f, t, d, he⟩ := hr.eq
    exact ⟨hr.handle, by rw [he]⟩
  cases h with
  | quiet => exact ⟨hh, fun _ => rfl⟩
  | setmode mode => exact ⟨hh, fun _ => rfl⟩
  | store => exact ⟨hh, fun _ => rfl⟩
  | file =>
    have hr := closelogfile_refiled hh env
    obtain ⟨f, t, d, he⟩ := hr.eq
    exact ⟨hr.handle, fun _ => by rw [he]⟩
  | insert h =>
    obtain ⟨st, lb, rfl, -⟩ := appenderAsync_frame h
    exact ⟨hh, fun _ => rfl⟩
  | direct data => exact ⟨(hwrite data).1, fun _ => (hwrite data).2⟩
  | drain h =>
    obtain ⟨lb, rfl, -⟩ := drainBuffer_frame h
    exact ⟨hh, fun _ => rfl⟩
  | write data => exact ⟨(hwrite data).1, fun _ => (hwrite data).2⟩
  | free h =>
    obtain ⟨mt, -, rfl⟩ := Option.map_eq_some_iff.mp h
    exact ⟨hh, fun h0 => absurd rfl h0⟩

theorem step_cases {l : Label} (h : step lc s l = some s') :
    (∃ t c, l = .call t c ∧ s.pc t = .idle ∧ s' = s.goto t c.entry) ∨
      ∃ t env, l = .run t env ∧ exec lc env t s (s.pc t) = some s' := by
  cases l with
  | call t c =>
    rw [Threads.step] at h
    split_ifs at h with hc
    cases h
    exact .inl ⟨t, c, rfl, Pc.isIdle_iff.mp hc.2.2, rfl⟩
  | run t env =>
    rw [Threads.step] at h
    split_ifs at h
    exact .inr ⟨t, env, rfl, h⟩

theorem not_atDrain_entry (c : Call) : ¬ AtDrain c.entry := by cases c <;> exact id

/-- **Without a buffer no thread is about to use it**, and the open file is the log file. -/
structure Sane (s : Sys) : Prop where
  handle : HandleOk s.p.mlog
  apart : s.p.mlog.sgLogBuff = none → ∀ t, ¬ AtDrain (s.pc t)

theorem Sane.step {l : Label} (h : Sane s) (hl : FreesApart s l) (hs : step lc s l = some s') : Sane s' := by
  rcases step_cases hs with ⟨t, c, rfl, -, rfl⟩ | ⟨t, env, rfl, he⟩
  · refine ⟨h.handle, fun hb u => ?_⟩
    by_cases hu : u = t
    · rw [hu, goto_pc_self]; exact not_atDrain_entry c
    · rw [goto_pc_of_ne _ hu]; exact h.apart hb u
  · have hst := exec_stepped he
    have hf := hst.does.frame h.handle
    refine ⟨(handleOk_of_does hst.does h.handle).1, fun hb u => ?_⟩
    -- only `free` ends the buffer
    have hfree : s.p.mlog.sgLogBuff.isSome → act (s.pc t) = .free := by
      intro hsome
      by_contra hn
      have hb' := hf.buff.mpr ⟨hsome, hn⟩
      rw [hb] at hb'
      cases hb'
    by_cases hu : u = t
    · subst hu
      intro hd
      obtain ⟨hsome, hn⟩ := isSome_of_atDrain he hd
      exact hn (hfree hsome)
    · rcases hst.others u hu with hpc | ⟨rfl, -, hpc⟩ <;> rw [hpc]
      · cases hsome : s.p.mlog.sgLogBuff with
        | none => exact h.apart hsome u
        | some lb => exact hl (hfree (by rw [hsome]; rfl)) u hu
      · exact not_atDrain_workerStart _

/-- **A step that breaks the condition** leaves a thread with a buffer that is gone. -/
theorem faults_of_not_freesApart {l : Label} (hl : ¬ FreesApart s l) (hs : step lc s l = some s') :
    Faults lc s' := by
  rcases step_cases hs with ⟨t, c, rfl, -, rfl⟩ | ⟨t, env, rfl, he⟩
  · exact absurd trivial hl
  · simp only [FreesApart, Classical.not_imp, not_forall, not_not] at hl
    obtain ⟨hfree, u, hu, hd⟩ := hl
    have hst := exec_stepped he
    have hdoes := hst.does
    rw [hfree] at hdoes
    refine faults_iff.mpr ⟨?_, u, ?_⟩
    · generalize chunk (s'.pc t) = c at hdoes
      generalize s'.p = p at hdoes
      cases hdoes with
      | free h =>
        obtain ⟨mt, -, rfl⟩ := Option.map_eq_some_iff.mp h
        rfl
    · rcases hst.others u hu with hpc | ⟨rfl, hi, -⟩
      · rw [hpc]; exact hd
      · rw [hi] at hd; exact hd.elim

/-- Such a thread stays where it is. -/
theorem Faults.step {l : Label} (h : Faults lc s) (hh : HandleOk s.p.mlog)
    (hs : step lc s l = some s') : Faults lc s' := by
  obtain ⟨hb, u, hd⟩ := faults_iff.mp h
  refine faults_iff.mpr ?_
  rcases step_cases hs with ⟨t, c, rfl, hi, rfl⟩ | ⟨t, env, rfl, he⟩
  · refine ⟨hb, u, ?_⟩
    have hu : u ≠ t := by rintro rfl; rw [hi] at hd; exact hd
    rw [goto_pc_of_ne _ hu]
    exact hd
  · have hst := exec_stepped he
    have hf := hst.does.frame hh
    refine ⟨?_, u, ?_⟩
    · rw [← Option.not_isSome_iff_eq_none, hf.buff, hb]
      simp
    · have hu : u ≠ t := by
        rintro rfl
        rw [exec_of_atDrain hd hb] at he
        cases he
      rcases hst.others u hu with hpc | ⟨rfl, hi, -⟩
      · rw [hpc]; exact hd
      · rw [hi] at hd; exact hd.elim

end Steps

/-! ### Runs -/

section Runs

variable {lc : Libc} {mode : AppendMode} {s x : Sys} {ls : List Label}

theorem sane_of_started (h : Started lc mode s) : Sane s := by
  obtain ⟨lb, ho, -, -⟩ := h.open_spec
  refine ⟨ho.handle, fun hb => ?_⟩
  rw [ho.buff] at hb
  cases hb

/-- **No use of the buffer after its end.** In every interleaving of appends, `flush_sync`, `close` and the
passes of the worker, from an appender just opened, no thread uses a buffer that is gone, exactly if the
buffer ended while no thread was in `__log_thread_task` between the test of `sg_log_buff` and the mutex. -/
theorem no_use_after_free_iff (h : Started lc mode s) (hr : run (Threads.step lc) s ls = some x) :
    ¬ Faults lc x ↔ Meets (Threads.step lc) FreesApart s ls := by
  have htrue : Meets (Threads.step lc) (fun _ _ => True) s ls := meets_of_forall fun _ _ => trivial
  constructor
  · intro hx
    refine (meets_or_of_run (P := fun s => HandleOk s.p.mlog) (Q := Faults lc) ?_
      (fun s l s' _ _ hn hs => faults_of_not_freesApart hn hs) (fun s l s' hh hq _ hs => hq.step hh hs)
      (sane_of_started h).handle htrue hr).resolve_right hx
    intro s l s' hh _ hs
    rcases step_cases hs with ⟨t, c, rfl, -, rfl⟩ | ⟨t, env, rfl, he⟩
    · exact hh
    · exact (handleOk_of_does (exec_stepped he).does hh).1
  · intro hm hx
    obtain ⟨hb, t, hd⟩ := faults_iff.mp hx
    have hsane := (reach_of_run hm hr).inv (sane_of_started h) fun _ _ _ hx hc hs => hx.step hc hs
    exact hsane.apart hb t hd

/-! Runs: thread `1` closes the appender, thread `2` calls `flush_sync` while `close` is on its way and once more
behind the end of the buffer, and the shared worker stops before the mutex, or does not begin its pass. -/

/-- The thread `t` at `pc`, with the appender `p`. -/
def put (s : Sys) (t : ℕ) (p : Proc) (pc : Pc) : Sys := Sys.goto { s with p := p } t pc

theorem put_goto (s : Sys) (t : ℕ) (p : Proc) (pc pc' : Pc) : (put s t p pc).goto t pc' = put s t p pc' :=
  goto_goto ..

theorem step_put {env : FileEnv} {t : ℕ} {p : Proc} {pc : Pc} (hdel : s.deleted = false)
    (he : exec lc env t (put s t p pc) pc = some x) :
    Threads.step lc (put s t p pc) (.run t env) = some x := by
  have hpc : (put s t p pc).pc t = pc := goto_pc_self ..
  rw [Threads.step, if_neg (by rw [put, Sys.goto, hdel]; decide), hpc, he]

/-- Thread `1` calls `close` and sets the flag. -/
def storing : List Label := .call 1 .closeDestroy :: List.replicate 2 (.run 1 .ok)

/-- Thread `1` goes on, up to the end of the buffer. -/
def ending : List Label := List.replicate 4 (.run 1 .ok)

/-- Thread `1` closes the appender, up to the end of the buffer. -/
def closing : List Label := storing ++ ending

/-- Thread `2` calls `flush_sync` and returns. -/
def flushing : List Label := .call 2 .flushSync :: List.replicate 3 (.run 2 .ok)

/-- The shared worker comes to the mutex in `__log_thread_task`. -/
def testing : List Label := List.replicate 3 (.run 0 .ok)

/-- An appender with the shared thread whose buffer and mapping have ended. -/
structure Ended (mlog : LogAppender) : Prop where
  flag : mlog.sgLogClose = true
  buff : mlog.sgLogBuff = none
  mmap : mlog.sgMmapFile = none
  thread : mlog.sgThreadAsync = .shared

/-- The appender with the flag set. -/
def flagged (p : Proc) : Proc := { p with mlog := { p.mlog with sgLogClose := true } }

theorem live_flagged {p : Proc} {lb : LogBuffer} (h : Live p lb) : Live (flagged p) lb :=
  ⟨h.buff, h.good, h.cap, h.block, h.mmap, h.handle⟩

theorem run_storing (lc : Libc) (hflag : s.p.mlog.sgLogClose = false) (hdel : s.deleted = false)
    (hi : s.pc 1 = .idle) :
    run (Threads.step lc) s storing = some (put s 1 (flagged s.p) (.close .close .join)) := by
  have hcall : Threads.step lc s (.call 1 .closeDestroy) = some (put s 1 s.p (.close .close .load)) := by
    rw [Threads.step, if_pos ⟨hdel, by decide, Pc.isIdle_iff.mpr hi⟩]; rfl
  have hload : closeStep lc .ok .close 1 (put s 1 s.p (.close .close .load)) .load =
      some (put s 1 s.p (.close .close .store)) := by
    rw [closeStep, put, goto_p, hflag, if_neg (by decide), goto_goto]; rfl
  have hstore : closeStep lc .ok .close 1 (put s 1 s.p (.close .close .store)) .store =
      some (put s 1 (flagged s.p) (.close .close .join)) := congrArg some (put_goto s 1 (flagged s.p) _ _)
  exact run_of_step hcall <| run_of_step (step_put hdel hload) <| run_of_step (step_put hdel hstore) rfl

theorem run_ending (lc : Libc) {p : Proc} {lb : LogBuffer} (hl : Live p lb) (hf : p.mlog.sgLogClose = true)
    (hc : lb.content = []) (hth : p.mlog.sgThreadAsync = .shared) (hdel : s.deleted = false) :
    ∃ x, run (Threads.step lc) (put s 1 p (.close .close .join)) ending = some x ∧ Ended x.p.mlog ∧
      x.p.mlog.sgMode = p.mlog.sgMode ∧ x.deleted = false ∧
      x.pc = Function.update s.pc 1 (.close .close .file) := by
  let p₂ : Proc := { p with mlog := { p.mlog with sgLogBuff := some lb.clear } }
  have hl₂ : Live p₂ lb.clear := (hl.effect_buff (LogBuffer.good_clear hl.good.toWF hl.good.four)
    (LogBuffer.maxLength_clear lb)).live
  obtain ⟨files, hfree, -⟩ := freeLogBuff_spec hl₂
  have hjoin : closeStep lc .ok .close 1 (put s 1 p (.close .close .join)) .join =
      some (put s 1 p (.close .close (.task .load))) := by
    simp only [closeStep, put, goto_p, hth, goto_goto]
  have htest : closeStep lc .ok .close 1 (put s 1 p (.close .close (.task .load))) (.task .load) =
      some (put s 1 p (.close .close (.task .drain))) := by
    simp only [closeStep, Sys.runTask, taskStep, put, goto_p, hl.buff]
    exact congrArg some (put_goto s 1 p _ _)
  have hdrain : closeStep lc .ok .close 1 (put s 1 p (.close .close (.task .drain))) (.task .drain) =
      some (put s 1 p₂ (.close .close .free)) := by
    simp only [closeStep, Sys.runTask, taskStep, put, goto_p, drainBuffer_eq hl, hl.buff, if_pos hc]
    exact congrArg some (put_goto s 1 p₂ _ _)
  let p₃ : Proc := { p₂ with mlog := { p₂.mlog with sgMmapFile := none, sgLogBuff := none }, files := files }
  have hend : closeStep lc .ok .close 1 (put s 1 p₂ (.close .close .free)) .free =
      some (put s 1 p₃ (.close .close .file)) := by
    rw [closeStep, put, goto_p, hfree]
    exact congrArg some (put_goto s 1 p₃ _ _)
  exact ⟨_, run_of_step (step_put hdel hjoin) <| run_of_step (step_put hdel htest) <|
    run_of_step (step_put hdel hdrain) <| run_of_step (step_put hdel hend) rfl, ⟨hf, rfl, rfl, hth⟩, rfl, hdel, rfl⟩

theorem run_closing (lc : Libc) {lb : LogBuffer} (ho : Opened s.p lb) (hc : lb.content = [])
    (hth : s.p.mlog.sgThreadAsync = .shared) (hdel : s.deleted = false) (hi : s.pc 1 = .idle) :
    ∃ x, run (Threads.step lc) s closing = some x ∧ Ended x.p.mlog ∧ x.deleted = false ∧
      x.pc = Function.update s.pc 1 (.close .close .file) := by
  obtain ⟨x, hr, he, -, hdel', hpc⟩ := run_ending (s := s) lc (live_flagged ho.toLive) rfl hc hth hdel
  exact ⟨x, run_trans (run_storing lc ho.flag hdel hi) hr, he, hdel', hpc⟩

theorem run_flushing (lc : Libc) {p : Proc} (hd : drainBuffer s.p = some (p, none))
    (hm : s.p.mlog.sgMode = .async) (hdel : s.deleted = false) (hi : s.pc 2 = .idle) :
    run (Threads.step lc) s flushing = some { s with p := p } := by
  have hcall : Threads.step lc s (.call 2 .flushSync) = some (put s 2 s.p (.flush .mode)) := by
    rw [Threads.step, if_pos ⟨hdel, by decide, Pc.isIdle_iff.mpr hi⟩]; rfl
  have hmode : flushStep lc .ok 2 (put s 2 s.p (.flush .mode)) .mode = some (put s 2 s.p (.flush .drain)) := by
    rw [flushStep, put, goto_p, hm, if_neg (by decide), goto_goto]; rfl
  have hdrain : flushStep lc .ok 2 (put s 2 s.p (.flush .drain)) .drain =
      some (put s 2 p (.flush (.ret false))) := by
    simp only [flushStep, put, goto_p, hd, Option.bind_eq_bind, Option.bind_some]
    exact congrArg some (put_goto s 2 p _ _)
  have hret : flushStep lc .ok 2 (put s 2 p (.flush (.ret false))) (.ret false) = some { s with p := p } := by
    rw [flushStep, put_goto]
    exact congrArg some (goto_eq_self (s := { s with p := p }) hi)
  exact run_of_step hcall <| run_of_step (step_put hdel hmode) <| run_of_step (step_put hdel hdrain) <|
    run_of_step (step_put hdel hret) rfl

theorem run_testing (lc : Libc) {lb : LogBuffer} (ho : Opened s.p lb) (hw : s.pc 0 = .pass .lock)
    (hspin : s.spin = none) (hlist : s.listed = true) (hdel : s.deleted = false) :
    run (Threads.step lc) s testing =
      some (Sys.goto { s with spin := some 0 } 0 (.pass (.task .drain))) := by
  let s₁ : Sys := { s with spin := some 0 }
  have hlock : Threads.step lc s (.run 0 .ok) = some (put s₁ 0 s.p (.pass .load)) := by
    rw [Threads.step, if_neg (by rw [hdel]; decide), hw, exec, passStep, if_neg (by rw [hspin]; decide),
      if_pos hlist]
    rfl
  have hload : passStep lc .ok 0 (put s₁ 0 s.p (.pass .load)) .load =
      some (put s₁ 0 s.p (.pass (.task .load))) := by
    rw [passStep, put, goto_p, ho.flag, if_neg (by decide), goto_goto]; rfl
  have htest : passStep lc .ok 0 (put s₁ 0 s.p (.pass (.task .load))) (.task .load) =
      some (put s₁ 0 s.p (.pass (.task .drain))) := by
    simp only [passStep, Sys.runTask, taskStep, put, goto_p, ho.buff]
    exact congrArg some (put_goto s₁ 0 s.p _ _)
  exact run_of_step hlock <| run_of_step (step_put hdel hload) <| run_of_step (step_put hdel htest) rfl

/-- A `close` with a `flush_sync` between the store of the flag and the end of the buffer, and one behind it. -/
def flushedClosing : List Label := storing ++ (flushing ++ (ending ++ flushing))

theorem no_use_after_free_iff_closed :
    ∃ s x, Started utc .async s ∧ run (Threads.step utc) s flushedClosing = some x ∧
      x.p.mlog.sgLogBuff = none ∧ Meets (Threads.step utc) FreesApart s flushedClosing := by
  obtain ⟨s, hs, -, hth, -, -⟩ := exists_started utc .shared .async (fun _ => rfl) textA textA
  obtain ⟨lb, ho, hc, hm, -⟩ := hs.open_spec
  have hl := live_flagged ho.toLive
  have hidle : s.pc 2 = .idle := hs.others 2 (by decide)
  -- thread 2 finds the buffer empty
  let p : Proc := { flagged s.p with mlog := { (flagged s.p).mlog with sgLogBuff := some lb.clear } }
  have hd : drainBuffer (flagged s.p) = some (p, none) := by rw [drainBuffer_eq hl, if_pos hc]
  have hl' : Live p lb.clear := (hl.effect_buff (LogBuffer.good_clear hl.good.toWF hl.good.four)
    (LogBuffer.maxLength_clear lb)).live
  have hfirst := run_flushing (s := put s 1 (flagged s.p) (.close .close .join)) utc hd hm hs.deleted hidle
  obtain ⟨x, hr, he, hmode, hdel, hpc⟩ := run_ending (s := s) utc hl' rfl (LogBuffer.content_clear lb) hth hs.deleted
  -- and later no buffer
  have hgone : drainBuffer x.p = some (x.p, none) := by
    rw [drainBuffer, flushLogBuff, he.buff]
    rfl
  have hlast := run_flushing (s := x) utc hgone (hmode.trans hm) hdel (by rw [hpc]; exact hidle)
  have hrun : run (Threads.step utc) s flushedClosing = some x :=
    run_trans (run_storing utc ho.flag hs.deleted (hs.others 1 (by decide))) (run_trans hfirst (run_trans hr hlast))
  refine ⟨s, x, hs, hrun, he.buff, (no_use_after_free_iff hs hrun).mp fun hx => ?_⟩
  obtain ⟨-, t, hd⟩ := faults_iff.mp hx
  have hnone : ∀ t, ¬ AtDrain (s.pc t) := hs.forall_pc (Q := fun pc => ¬ AtDrain pc) id not_atDrain_workerStart
  rw [hpc] at hd
  by_cases ht : t = 1
  · rw [ht, Function.update_self] at hd
    exact hd
  · rw [Function.update_of_ne ht] at hd
    exact hnone t hd

/-- The shared worker tests the buffer, `close` ends it, and the worker uses it. -/
theorem use_after_free :
    ∃ s x, Started utc .async s ∧ run (Threads.step utc) s (testing ++ closing) = some x ∧ Faults utc x := by
  obtain ⟨s, hs, hw, hth, -, -⟩ := exists_started utc .shared .async (fun _ => rfl) textA textA
  obtain ⟨lb, ho, hc, -⟩ := hs.open_spec
  have hr := run_testing utc ho hw hs.spin (hs.listed.mpr hth) hs.deleted
  let s₁ : Sys := Sys.goto { s with spin := some 0 } 0 (.pass (.task .drain))
  have hi : s₁.pc 1 = .idle := hs.others 1 (by decide)
  obtain ⟨x, hr₁, he, -, hpc⟩ := run_closing utc (show Opened s₁.p lb from ho) hc hth hs.deleted hi
  refine ⟨s, x, hs, run_trans hr hr₁, faults_iff.mpr ⟨he.buff, 0, ?_⟩⟩
  rw [hpc, Function.update_of_ne (by decide)]
  exact trivial

end Runs

/-! ### The end of the buffer -/

/-- Where a thread is with respect to the guard of `close`. -/
def place : Pc → Guard.Place
  | .close _ .store => .checked
  | .close _ .join => .inside
  | .close _ (.task _) => .inside
  | .close _ .free => .inside
  | _ => .out

/-- Before the section of `close` that ends the buffer and the mapping. -/
def frees : Pc → Bool
  | .close _ .free => true
  | _ => false

/-- One step of the threads, and how often the buffer has ended. -/
def countStep (lc : Libc) (x : Sys × ℕ) (l : Label) : Option (Sys × ℕ) :=
  (Threads.step lc x.1 l).map fun s => (s, match l with
    | .run t _ => if frees (x.1.pc t) then x.2 + 1 else x.2
    | .call _ _ => x.2)

/-- No call of `close` finds the flag down while another one is between its load and its store. -/
def Guarded (x : Sys × ℕ) : Label → Prop
  | .run t _ => (∃ stage, x.1.pc t = .close stage .load) → x.1.p.mlog.sgLogClose = false →
      ∀ u stage, x.1.pc u ≠ .close stage .store
  | .call _ _ => True

/-- A step of a thread, as the guard sees it. -/
inductive Passes (flag : Bool) : Pc → Pc → Prop
  | stay {pc pc' : Pc} (h : place pc' = place pc) (hs : act pc ≠ .store) (hf : frees pc = false) :
      Passes flag pc pc'
  | pass (stage : Stage) (h : flag = false) : Passes flag (.close stage .load) (.close stage .store)
  | raise (stage : Stage) : Passes flag (.close stage .store) (.close stage .join)
  | act (stage : Stage) : Passes flag (.close stage .free) (.close stage .file)

section Guard

variable {lc : Libc} {env : FileEnv} {mode : AppendMode} {t : ℕ} {s s' : Sys} {pc : Pc} {x x' : Sys × ℕ}
  {l : Label} {ls : List Label}

theorem place_of_kind (h : kind pc ≠ .close) : place pc = .out := by
  unfold place
  split <;> first | rfl | exact absurd rfl h

theorem act_ne_store (h : kind pc ≠ .close) : act pc ≠ .store := fun ha => h (kind_of_act ha rfl)

theorem place_eq_checked_iff : place pc = .checked ↔ ∃ stage, pc = .close stage .store := by
  constructor
  · intro h
    unfold place at h
    split at h <;> first | cases h; done | exact ⟨_, rfl⟩
  · rintro ⟨stage, rfl⟩; rfl

theorem act_eq_free_iff : act pc = .free ↔ frees pc = true := by
  have htask : ∀ pc, taskAct pc ≠ .free := by rintro ⟨⟩ <;> rintro ⟨⟩
  constructor
  · intro h
    unfold act at h
    split at h <;> first | cases h; done | exact absurd h (htask _) | rfl
  · intro h
    unfold frees at h
    split at h
    · rfl
    · cases h

theorem passes_of_exec (h : exec lc env t s pc = some s') : Passes s.p.mlog.sgLogClose pc (s'.pc t) := by
  have hst := exec_stepped h
  by_cases hk : kind pc = .close
  · cases pc with
    | close stage pc =>
      have hnext : place stage.next = .out := by cases stage <;> rfl
      cases pc with
      | load =>
        cases h
        rw [goto_pc_self]
        split_ifs with hf
        · exact .stay hnext (by rintro ⟨⟩) rfl
        · exact .pass stage (by simpa using hf)
      | store => cases h; rw [goto_pc_self]; exact .raise stage
      | join =>
        rw [exec, closeStep] at h
        split at h
        · split_ifs at h
          cases h; rw [goto_pc_self]; exact .stay rfl (by rintro ⟨⟩) rfl
        · cases h; rw [goto_pc_self]; exact .stay rfl (by rintro ⟨⟩) rfl
      | task pc =>
        obtain ⟨p, pc', rfl, hf⟩ := taskFlow_of_runTask h
        rw [goto_pc_self]
        refine .stay ?_ (by cases pc <;> rintro ⟨⟩) rfl
        cases hf <;> rfl
      | free =>
        obtain ⟨p, -, rfl⟩ := Option.map_eq_some_iff.mp h
        rw [goto_pc_self]
        exact .act stage
      | file => cases h; rw [goto_pc_self]; exact .stay hnext (by rintro ⟨⟩) rfl
    | erase =>
      rw [exec] at h
      split_ifs at h
      cases h; rw [goto_pc_self]; exact .stay rfl (by rintro ⟨⟩) rfl
    | delete => cases h; rw [goto_pc_self]; exact .stay rfl (by rintro ⟨⟩) rfl
    | _ => cases hk
  · refine .stay ?_ (act_ne_store hk) ?_
    · rw [place_of_kind (hst.kind_ne_close hk), place_of_kind hk]
    · unfold frees
      split
      · exact absurd rfl hk
      · rfl

/-- The threads as the parties of a guard. -/
def view (x : Sys × ℕ) : Guard.State ℕ := ⟨fun t => place (x.1.pc t), x.1.p.mlog.sgLogClose, x.2⟩

/-- The open file is the log file, and the mapping has ended if the count says so. -/
structure Counts (x : Sys × ℕ) : Prop where
  handle : HandleOk x.1.p.mlog
  mmap : x.1.p.mlog.sgMmapFile.isSome ↔ x.2 = 0

theorem place_others (h : Others t s s') {u : ℕ} (hu : u ≠ t) : place (s'.pc u) = place (s.pc u) := by
  rcases h u hu with hpc | ⟨rfl, hi, hpc⟩
  · rw [hpc]
  · rw [hpc, hi]
    cases s.p.mlog.sgThreadAsync <;> rfl

theorem view_of_exec {n : ℕ} (h : exec lc env t x.1 (x.1.pc t) = some s) :
    view (s, n) =
      ⟨Function.update (view x).place t (place (s.pc t)), s.p.mlog.sgLogClose, n⟩ := by
  refine Guard.State.ext (funext fun u => ?_) rfl rfl
  show place (s.pc u) = Function.update (view x).place t (place (s.pc t)) u
  rw [Function.update_apply]
  split_ifs with hu
  · rw [hu]
  · exact place_others (exec_stepped h).others hu

/-- **A step of the threads** is a step of the guard, or none. -/
theorem view_step (hx : Counts x) (hl : Guarded x l) (h : countStep lc x l = some x') :
    view x' = view x ∨ ∃ m, Guard.Alone (view x) m ∧ Guard.step (view x) m = some (view x') := by
  obtain ⟨s, hs, rfl⟩ := Option.map_eq_some_iff.mp h
  rcases step_cases hs with ⟨t, c, rfl, hi, rfl⟩ | ⟨t, env, rfl, he⟩
  · refine .inl (Guard.State.ext (funext fun u => ?_) rfl rfl)
    show place ((x.1.goto t c.entry).pc u) = place (x.1.pc u)
    by_cases hu : u = t
    · rw [hu, goto_pc_self, hi]
      cases c <;> rfl
    · rw [goto_pc_of_ne _ hu]
  · have hflag := ((exec_stepped he).does.frame hx.handle).flag
    have hp := passes_of_exec he
    have hplace : (view x).place t = place (x.1.pc t) := rfl
    dsimp only
    rw [view_of_exec he]
    generalize hpc : x.1.pc t = pc at hp hflag hplace
    generalize s.pc t = pc' at hp
    cases hp with
    | stay h hstore hf =>
      have hflag' : s.p.mlog.sgLogClose = x.1.p.mlog.sgLogClose := by
        rw [Bool.eq_iff_iff, hflag]
        exact or_iff_left hstore
      rw [h, ← hplace, Function.update_eq_self, hflag', hf]
      exact .inl rfl
    | pass stage h =>
      refine .inr ⟨(t, .pass), fun u hu => ?_, ?_⟩
      · obtain ⟨stage', hu⟩ := place_eq_checked_iff.mp hu
        exact hl ⟨stage, hpc⟩ h u stage' hu
      · have hflag' : s.p.mlog.sgLogClose = x.1.p.mlog.sgLogClose := by
          rw [Bool.eq_iff_iff, hflag]
          exact or_iff_left (by rintro ⟨⟩)
        rw [Guard.step, if_pos ⟨hplace, h⟩, hflag']
        rfl
    | raise stage =>
      refine .inr ⟨(t, .raise), trivial, ?_⟩
      rw [Guard.step, if_pos (show (view x).place t = .checked from hplace), hflag.mpr (.inr rfl)]
      rfl
    | act stage =>
      have hflag' : s.p.mlog.sgLogClose = x.1.p.mlog.sgLogClose := by
        rw [Bool.eq_iff_iff, hflag]
        exact or_iff_left (by rintro ⟨⟩)
      refine .inr ⟨(t, .act), trivial, ?_⟩
      rw [Guard.step, if_pos (show (view x).place t = .inside from hplace), hflag']
      rfl

theorem Counts.step (hx : Counts x) (h : countStep lc x l = some x') : Counts x' := by
  obtain ⟨s, hs, rfl⟩ := Option.map_eq_some_iff.mp h
  rcases step_cases hs with ⟨t, c, rfl, -, rfl⟩ | ⟨t, env, rfl, he⟩
  · exact ⟨hx.handle, hx.mmap⟩
  · have hdoes := (exec_stepped he).does
    obtain ⟨hh, hmmap⟩ := handleOk_of_does hdoes hx.handle
    refine ⟨hh, ?_⟩
    dsimp only
    cases hf : frees (x.1.pc t) with
    | false =>
      rw [hmmap fun ha => by rw [act_eq_free_iff.mp ha] at hf; cases hf]
      exact hx.mmap
    | true =>
      rw [act_eq_free_iff.mpr hf] at hdoes
      have hnone : s.p.mlog.sgMmapFile = none := by
        generalize chunk (s.pc t) = c at hdoes
        generalize s.p = p at hdoes
        cases hdoes with
        | free h =>
          obtain ⟨mt, -, rfl⟩ := Option.map_eq_some_iff.mp h
          rfl
      rw [hnone]
      exact iff_of_false (by decide) (Nat.succ_ne_zero _)

/-- **The buffer and the mapping end once.** In every interleaving of any number of calls of `close` on an
appender just opened, as long as no call finds the flag down while another one is between its load and its
store, the mapping is there when a call is about to end it, it ends at most once, and once as soon as the
flag is up and no call is on its way from the store to the end. -/
theorem teardown_once (h : Started lc mode s) (hr : Reach (countStep lc) Guarded (s, 0) x) :
    x.2 ≤ 1 ∧ (∀ t, frees (x.1.pc t) = true → x.1.p.mlog.sgMmapFile.isSome) ∧
      (x.1.p.mlog.sgLogClose = true → (∀ t, place (x.1.pc t) ≠ .inside) → x.2 = 1) := by
  obtain ⟨lb, ho, -, -⟩ := h.open_spec
  obtain ⟨mt, hmt, -⟩ := ho.mmap
  have hstart : Counts (s, 0) := ⟨ho.handle, iff_of_true (by rw [hmt]; rfl) rfl⟩
  have hcounts : Counts x := hr.inv hstart fun _ _ _ hx _ hs => hx.step hs
  have hinit : view (s, 0) = ⟨(view (s, 0)).place, false, 0⟩ :=
    congrArg (fun flag => Guard.State.mk _ flag 0) ho.flag
  have honce₀ : Guard.Once (view (s, 0)) := by
    rw [hinit]
    exact Guard.once_init (h.forall_pc (Q := fun pc => place pc = .out) rfl fun th => by cases th <;> rfl)
  have honce : Guard.Once (view x) :=
    Guard.once_of_reach honce₀ (hr.map view hstart (fun _ _ _ hx _ hs => hx.step hs)
      fun _ _ _ hx hl hs => view_step hx hl hs)
  refine ⟨honce.le_one, fun t ht => hcounts.mmap.mpr (honce.todo t ?_), fun hflag hall => ?_⟩
  · show place (x.1.pc t) = .inside
    unfold frees at ht
    split at ht
    · next hpc => rw [hpc]; rfl
    · cases ht
  · have hle : x.2 ≤ 1 := honce.le_one
    have hne : x.2 ≠ 0 := fun hz => by
      obtain ⟨t, ht⟩ := honce.done hflag hz
      exact hall t ht
    omega

theorem guarded_of_one {c : ℕ} (h : Started lc mode s)
    (hls : ∀ t, .call t .closeDestroy ∈ ls → t = c) : Meets (countStep lc) Guarded (s, 0) ls := by
  have hD : Meets (countStep lc) (fun _ l => ∀ t, l = .call t .closeDestroy → t = c) (s, 0) ls :=
    meets_of_forall fun l hl t ht => hls t (ht ▸ hl)
  refine meets_of_inv (P := fun x => ∀ u, u ≠ c → kind (x.1.pc u) ≠ .close) ?_ ?_ ?_ hD
  · intro x l x' hx hl h u hu
    obtain ⟨s, hs, rfl⟩ := Option.map_eq_some_iff.mp h
    rcases step_cases hs with ⟨t, k, rfl, -, rfl⟩ | ⟨t, env, rfl, he⟩
    · by_cases hut : u = t
      · subst hut
        rw [goto_pc_self]
        cases k with
        | closeDestroy => exact absurd (hl u rfl) hu
        | _ => rintro ⟨⟩
      · rw [goto_pc_of_ne _ hut]; exact hx u hu
    · have hst := exec_stepped he
      by_cases hut : u = t
      · subst hut
        exact hst.kind_ne_close (hx u hu)
      · rcases hst.others u hut with hpc | ⟨rfl, -, hpc⟩ <;> rw [hpc]
        · exact hx u hu
        · rw [kind_workerStart]; rintro ⟨⟩
  · intro x l hx hl
    cases l with
    | call t k => trivial
    | run t env =>
      rintro ⟨stage, ht⟩ - u stage' hu
      have htc : t = c := by
        by_contra hne
        exact hx t hne (by rw [ht]; rfl)
      have huc : u = c := by
        by_contra hne
        exact hx u hne (by rw [hu]; rfl)
      rw [htc, ← huc, hu] at ht
      cases ht
  · exact fun u _ => h.forall_pc (Q := fun pc => kind pc ≠ .close) (by rintro ⟨⟩)
      (fun th => by rw [kind_workerStart]; rintro ⟨⟩) u

/-- Once the flag is up, no call is in the way of another one. -/
theorem guarded_of_flag (hh : HandleOk x.1.p.mlog) (hf : x.1.p.mlog.sgLogClose = true) :
    Meets (countStep lc) Guarded x ls := by
  refine meets_of_inv (C := fun _ _ => True) (P := fun x => HandleOk x.1.p.mlog ∧ x.1.p.mlog.sgLogClose = true)
    ?_ ?_ ⟨hh, hf⟩ (meets_of_forall fun _ _ => trivial)
  · rintro x l x' ⟨hh, hf⟩ - h
    obtain ⟨s, hs, rfl⟩ := Option.map_eq_some_iff.mp h
    rcases step_cases hs with ⟨t, k, rfl, -, rfl⟩ | ⟨t, env, rfl, he⟩
    · exact ⟨hh, hf⟩
    · have hdoes := (exec_stepped he).does
      exact ⟨(handleOk_of_does hdoes hh).1, (hdoes.frame hh).flag.mpr (.inl hf)⟩
  · rintro x l ⟨-, hf⟩ -
    cases l with
    | call t k => trivial
    | run t env =>
      intro _ h0
      rw [hf] at h0
      cases h0

theorem run_countStep : ∀ {ls : List Label} {s s' : Sys} (n : ℕ), run (Threads.step lc) s ls = some s' →
    ∃ m, run (countStep lc) (s, n) ls = some (s', m)
  | [], s, s', n, hr => by cases hr; exact ⟨n, rfl⟩
  | l :: ls, s, s', n, hr => by
    obtain ⟨s₁, hs, hr⟩ := Option.bind_eq_some_iff.mp hr
    obtain ⟨m, hm⟩ := run_countStep _ hr
    exact ⟨m, run_of_step (by unfold countStep; rw [hs]; rfl) hm⟩

/-- Thread `2` calls `close` while thread `1` is between the store of the flag and the end of the buffer. -/
def closingTwice : List Label := storing ++ ([.call 2 .closeDestroy, .run 2 .ok] ++ ending)

theorem teardown_once_closed :
    ∃ s x, Started utc .async s ∧ run (countStep utc) (s, 0) closingTwice = some x ∧ x.2 = 1 ∧
      x.1.pc 2 = .close .destroy .load := by
  obtain ⟨s, hs, -, hth, -, -⟩ := exists_started utc .shared .async (fun _ => rfl) textA textA
  obtain ⟨lb, ho, hc, -⟩ := hs.open_spec
  have hidle : s.pc 2 = .idle := hs.others 2 (by decide)
  let s₁ : Sys := put s 1 (flagged s.p) (.close .close .join)
  have hcall : Threads.step utc s₁ (.call 2 .closeDestroy) = some (put s₁ 2 s₁.p (.close .close .load)) := by
    rw [Threads.step, if_pos ⟨hs.deleted, by decide, Pc.isIdle_iff.mpr hidle⟩]; rfl
  -- thread 2 finds the flag set
  have hload : closeStep utc .ok .close 2 (put s₁ 2 s₁.p (.close .close .load)) .load =
      some (put s₁ 2 s₁.p (.close .destroy .load)) := congrArg some (put_goto s₁ 2 s₁.p _ _)
  have hswap : put s₁ 2 s₁.p (.close .destroy .load) =
      put (s.goto 2 (.close .destroy .load)) 1 (flagged s.p) (.close .close .join) := by
    simp only [s₁, put, Sys.goto]
    rw [Function.update_comm (show (2 : ℕ) ≠ 1 by decide)]
  obtain ⟨x, hr, he, -, -, hpc⟩ := run_ending (s := s.goto 2 (.close .destroy .load)) utc (live_flagged ho.toLive)
    rfl hc hth hs.deleted
  rw [← hswap] at hr
  have hstore := run_storing utc ho.flag hs.deleted (hs.others 1 (by decide))
  have hsecond : run (Threads.step utc) s₁ ([.call 2 .closeDestroy, .run 2 .ok] ++ ending) = some x :=
    run_of_step hcall (run_of_step (step_put hs.deleted hload) hr)
  have hrun : run (Threads.step utc) s closingTwice = some x := run_trans hstore hsecond
  obtain ⟨n, hn⟩ := run_countStep 0 hrun
  -- at the load of thread 2 the flag is up
  have hm : Meets (countStep utc) Guarded (s, 0) closingTwice := by
    obtain ⟨m, hm⟩ := run_countStep 0 hstore
    exact meets_append (guarded_of_one (c := 1) hs fun t ht => by simpa [storing] using ht) hm
      (guarded_of_flag (sane_of_started hs).handle rfl)
  refine ⟨s, (x, n), hs, hn, (teardown_once hs (reach_of_run hm hn)).2.2 he.flag fun t ht => ?_, ?_⟩
  · rw [hpc] at ht
    by_cases h1 : t = 1
    · rw [h1, Function.update_self] at ht
      cases ht
    · rw [Function.update_of_ne h1] at ht
      by_cases h2 : t = 2
      · rw [h2, goto_pc_self] at ht
        cases ht
      · rw [goto_pc_of_ne _ h2, hs.forall_pc (Q := fun pc => place pc = .out) rfl
          (fun th => by cases th <;> rfl) t] at ht
        cases ht
  · rw [hpc]
    rfl

/-- Thread `2` has passed its load of the flag. -/
def passing : List Label := [.call 2 .closeDestroy, .run 2 .ok]

/-- Two calls of `close` pass the load; the second one comes to a mapping that is gone. -/
theorem teardown_twice :
    ∃ s x, Started utc .async s ∧
      run (countStep utc) (s, 0) (passing ++ (closing ++ List.replicate 3 (.run 2 .ok))) = some x ∧
      x.1.pc 2 = .close .close .free ∧ x.1.p.mlog.sgMmapFile = none := by
  obtain ⟨s, hs, -, hth, -, -⟩ := exists_started utc .shared .async (fun _ => rfl) textA textA
  obtain ⟨lb, ho, hc, -⟩ := hs.open_spec
  have hcall : Threads.step utc s (.call 2 .closeDestroy) = some (put s 2 s.p (.close .close .load)) := by
    rw [Threads.step, if_pos ⟨hs.deleted, by decide, Pc.isIdle_iff.mpr (hs.others 2 (by decide))⟩]; rfl
  have hload : closeStep utc .ok .close 2 (put s 2 s.p (.close .close .load)) .load =
      some (put s 2 s.p (.close .close .store)) := by
    rw [closeStep, put, goto_p, ho.flag, if_neg (by decide), goto_goto]; rfl
  have hpass : run (Threads.step utc) s passing = some (put s 2 s.p (.close .close .store)) :=
    run_of_step hcall <| run_of_step (step_put hs.deleted hload) rfl
  obtain ⟨x, hr, he, hdel, hpc⟩ := run_closing utc
    (show Opened (put s 2 s.p (.close .close .store)).p lb from ho) hc hth hs.deleted
    (hs.others 1 (by decide))
  have hx : put x 2 x.p (.close .close .store) = x := goto_eq_self (by rw [hpc]; rfl)
  let p : Proc := { x.p with mlog := { x.p.mlog with sgLogClose := true } }
  have hstore : closeStep utc .ok .close 2 (put x 2 x.p (.close .close .store)) .store =
      some (put x 2 p (.close .close .join)) := congrArg some (put_goto x 2 p _ _)
  have hjoin : closeStep utc .ok .close 2 (put x 2 p (.close .close .join)) .join =
      some (put x 2 p (.close .close (.task .load))) := by
    simp only [closeStep, put, goto_p, p, he.thread, goto_goto]
  have htask : closeStep utc .ok .close 2 (put x 2 p (.close .close (.task .load))) (.task .load) =
      some (put x 2 p (.close .close .free)) := by
    rw [closeStep, Sys.runTask, taskStep, put, goto_p, show p.mlog.sgLogBuff = none from he.buff]
    exact congrArg some (put_goto x 2 p _ _)
  have hlast : run (Threads.step utc) x (List.replicate 3 (.run 2 .ok)) =
      some (put x 2 p (.close .close .free)) := by
    have hfirst : Threads.step utc (put x 2 x.p (.close .close .store)) (.run 2 .ok) =
        some (put x 2 p (.close .close .join)) := step_put hdel hstore
    rw [hx] at hfirst
    exact run_of_step hfirst <| run_of_step (step_put hdel hjoin) <|
      run_of_step (step_put hdel htask) rfl
  obtain ⟨n, hn⟩ := run_countStep 0 (run_trans hpass (run_trans hr hlast))
  exact ⟨s, _, hs, hn, goto_pc_self .., he.mmap⟩

end Guard

end MTAppenderFile.Loglib.Teardown
