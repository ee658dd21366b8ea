import MTAppenderFile.Loglib.Session
import MTAppenderFile.Loglib.Threads

/-! # What a step of a thread does

Most steps of the threads only move the thread. The others set the mode or the flag, close the file, put a
record in the buffer, write one to the log file in sync mode, drain the buffer, write drained bytes, or
end the buffer (`Act`). `act` says which comes next in a thread, and `Does` what each of them does to the
appender and to the drained bytes of the thread. `exec_stepped` is the one place where the functions are
gone through step by step for this; what follows about interleavings rests on it. -/

namespace MTAppenderFile.Loglib.Steps

open MTAppenderFile.Comm.CTypes
open MTAppenderFile.Loglib.Base
open MTAppenderFile.Loglib.Files
open MTAppenderFile.Loglib.Formatter
open MTAppenderFile.Loglib.Appender
open MTAppenderFile.Loglib.Session
open MTAppenderFile.Loglib.Threads

/-- What a step does to the appender. `direct` is the write of a record in sync mode, `write` that of
drained bytes. -/
inductive Act
  | quiet
  | setmode (mode : AppendMode)
  | store
  | file
  | insert (info : Option LogInfo) (log : Option CStr)
  | direct (data : Bytes)
  | drain
  | write (data : Bytes)
  | free

/-- The step of `__log_thread_task` that comes next. -/
def taskAct : TaskPc → Act
  | .load => .quiet
  | .drain => .drain
  | .write data => .write data

/-- The bytes drained in `__log_thread_task`. -/
def taskChunk : Option TaskPc → Option Bytes
  | some (.write data) => some data
  | _ => none

/-- The step that comes next. -/
def act : Pc → Act
  | .append info log .async => .insert info log
  | .append _ _ (.write data) => .direct data
  | .setmode (.store mode) => .setmode mode
  | .flush .drain => .drain
  | .flush (.write data) => .write data
  | .task pc => taskAct pc
  | .loop (.task pc) => taskAct pc
  | .pass (.task pc) => taskAct pc
  | .close _ (.task pc) => taskAct pc
  | .close _ .store => .store
  | .close _ .free => .free
  | .close _ .file => .file
  | _ => .quiet

/-- The bytes that a thread has drained and not yet written. -/
def chunk (pc : Pc) : Option Bytes :=
  match act pc with
  | .write data => some data
  | _ => none

/-- What a step does: the appender after it, and the drained bytes its thread is left with. -/
inductive Does (lc : Libc) (env : FileEnv) (p : Proc) : Act → Proc → Option Bytes → Prop
  | quiet : Does lc env p .quiet p none
  | setmode (mode : AppendMode) : Does lc env p (.setmode mode) (logAppenderSetmode mode p) none
  | store : Does lc env p .store { p with mlog := { p.mlog with sgLogClose := true } } none
  | file : Does lc env p .file (closelogfile env p) none
  | insert {info : Option LogInfo} {log : Option CStr} {p' : Proc}
      (h : appenderAsync lc info log p = some p') : Does lc env p (.insert info log) p' none
  | direct (data : Bytes) : Does lc env p (.direct data) (log2file lc env data p) none
  | drain {p' : Proc} {tmp : Option Bytes} (h : drainBuffer p = some (p', tmp)) :
      Does lc env p .drain p' tmp
  | write (data : Bytes) : Does lc env p (.write data) (log2file lc env data p) none
  | free {p' : Proc} (h : freeLogBuff p = some p') : Does lc env p .free p' none

/-- The function a thread is in. -/
inductive Kind
  | idle
  | append
  | setmode
  | flush
  | task
  | worker
  | close

/-- The function a thread is in. -/
def kind : Pc → Kind
  | .idle => .idle
  | .append _ _ _ => .append
  | .setmode _ => .setmode
  | .flush _ => .flush
  | .task _ => .task
  | .loop _ => .worker
  | .pass _ => .worker
  | .close _ _ => .close
  | .erase => .close
  | .delete => .close

/-- The function that an act is made in, where there is one only. -/
def Act.owner : Act → Option Kind
  | .setmode _ => some .setmode
  | .store => some .close
  | .file => some .close
  | .free => some .close
  | .insert _ _ => some .append
  | .direct _ => some .append
  | _ => none

/-- The other threads stay where they are, but for a worker that is started. -/
def Others (t : ℕ) (s s' : Sys) : Prop :=
  ∀ u, u ≠ t → s'.pc u = s.pc u ∨
    u = 0 ∧ s.pc 0 = .idle ∧ s'.pc 0 = workerStart s.p.mlog.sgThreadAsync

/-- Where a step leads its thread `t`: on in its function, or out of it, or it is the worker and starts; to
the write of a record in sync mode only. -/
structure Leads (t : ℕ) (s : Sys) (pc pc' : Pc) : Prop where
  kind : kind pc' = kind pc ∨ kind pc' = .idle ∨ t = 0 ∧ kind pc' = .worker
  direct : ∀ data, act pc' = .direct data → s.p.mlog.sgMode = .sync

/-- The rest of the state: only the worker takes the spinlock, and only `destroy` takes the appender out of
the list and deletes it. -/
structure Rest (s : Sys) (pc : Pc) (s' : Sys) : Prop where
  spin : kind pc ≠ .worker → s'.spin = s.spin
  listed : kind pc ≠ .close → s'.listed = s.listed
  deleted : kind pc ≠ .close → s'.deleted = s.deleted

/-- **What a step of `t` does**, which is at `pc`. -/
structure Stepped (lc : Libc) (env : FileEnv) (t : ℕ) (s : Sys) (pc : Pc) (s' : Sys) : Prop where
  does : Does lc env s.p (act pc) s'.p (chunk (s'.pc t))
  others : Others t s s'
  leads : Leads t s pc (s'.pc t)
  rest : Rest s pc s'

theorem owner_taskAct (pc : TaskPc) : (taskAct pc).owner = none := by cases pc <;> rfl

theorem kind_of_act {pc : Pc} {a : Act} {k : Kind} (h : act pc = a) (hk : a.owner = some k) :
    kind pc = k := by
  rw [← h] at hk
  unfold act at hk
  split at hk <;> first | (rw [owner_taskAct] at hk; cases hk) | (cases hk <;> rfl)

theorem chunk_ne_none_iff {pc : Pc} : chunk pc ≠ none ↔ ∃ data, act pc = .write data := by
  unfold chunk
  constructor
  · intro h
    split at h
    · next data ha => exact ⟨data, ha⟩
    · exact absurd rfl h
  · rintro ⟨data, ha⟩
    rw [ha]; exact nofun

theorem kind_workerStart (th : ThreadAsync) : kind (workerStart th) = .worker := by cases th <;> rfl

theorem appenderAsync_frame {lc : Libc} {info : Option LogInfo} {log : Option CStr} {p p' : Proc}
    (h : appenderAsync lc info log p = some p') :
    ∃ st lb, p' = { p with statics := st, mlog := { p.mlog with sgLogBuff := lb } } ∧
      lb.isSome = p.mlog.sgLogBuff.isSome := by
  unfold appenderAsync at h
  split at h
  · next hb => cases h; exact ⟨p.statics, p.mlog.sgLogBuff, rfl, rfl⟩
  · next lb hb =>
    obtain ⟨_, -, h⟩ := Option.bind_eq_some_iff.mp h
    obtain ⟨_, -, h⟩ := Option.bind_eq_some_iff.mp h
    cases h
    exact ⟨_, _, rfl, by rw [hb]; rfl⟩

section Steps

variable {lc : Libc} {env : FileEnv} {t : ℕ} {s s₁ s' : Sys} {pc pc' : Pc}

theorem rest_of_p (s : Sys) (pc : Pc) (p : Proc) : Rest s pc { s with p := p } :=
  ⟨fun _ => rfl, fun _ => rfl, fun _ => rfl⟩

theorem stepped_goto (hpc : s₁.pc = s.pc) (hr : Rest s pc s₁)
    (hd : Does lc env s.p (act pc) s₁.p (chunk pc')) (hl : Leads t s pc pc') :
    Stepped lc env t s pc (s₁.goto t pc') := by
  refine ⟨by rwa [goto_pc_self], fun u hu => .inl ?_, by rwa [goto_pc_self], hr.spin, hr.listed,
    hr.deleted⟩
  rw [goto_pc_of_ne _ hu, hpc]

theorem stepped_start (hpc : s₁.pc = s.pc) (hr : Rest s pc s₁) (hd : Does lc env s.p (act pc) s₁.p none)
    (hth : s₁.p.mlog.sgThreadAsync = s.p.mlog.sgThreadAsync) :
    Stepped lc env t s pc (s₁.goto t .idle).start := by
  have hown : (s₁.goto t .idle).start.pc t = .idle ∨
      t = 0 ∧ (s₁.goto t .idle).start.pc t = workerStart s.p.mlog.sgThreadAsync := by
    rcases start_pc (s₁.goto t .idle) t with hs | ⟨rfl, -, hs⟩
    · exact .inl (hs.trans (goto_pc_self ..))
    · exact .inr ⟨rfl, by rw [hs, goto_p, hth]⟩
  refine ⟨?_, fun u hu => ?_, ?_, ?_⟩
  · have hc : chunk ((s₁.goto t .idle).start.pc t) = none := by
      rcases hown with h | ⟨-, h⟩ <;> rw [h]
      · rfl
      · cases s.p.mlog.sgThreadAsync <;> rfl
    rw [hc, start_p]
    exact hd
  · rcases start_pc (s₁.goto t .idle) u with hs | ⟨rfl, hi, hs⟩
    · exact .inl (by rw [hs, goto_pc_of_ne _ hu, hpc])
    · rw [goto_pc_of_ne _ hu, hpc] at hi
      exact .inr ⟨rfl, hi, by rw [hs, goto_p, hth]⟩
  · rcases hown with h | ⟨ht, h⟩ <;> rw [h]
    · exact ⟨.inr (.inl rfl), nofun⟩
    · refine ⟨.inr (.inr ⟨ht, kind_workerStart _⟩), fun data hd => ?_⟩
      cases hth' : s.p.mlog.sgThreadAsync <;> rw [hth'] at hd <;> cases hd
  · exact ⟨fun h => (start_spin _).trans (hr.spin h), fun h => (start_listed _).trans (hr.listed h),
      fun h => (start_deleted _).trans (hr.deleted h)⟩

theorem appendStep_stepped {info : Option LogInfo} {log : Option CStr} {pc : AppendPc}
    (h : appendStep lc env info log t s pc = some s') :
    Stepped lc env t s (.append info log pc) s' := by
  cases pc with
  | load =>
    cases h
    split_ifs
    · exact stepped_goto rfl (rest_of_p ..) .quiet ⟨.inr (.inl rfl), nofun⟩
    · exact stepped_goto rfl (rest_of_p ..) .quiet ⟨.inl rfl, nofun⟩
  | mode =>
    rw [appendStep] at h
    split_ifs at h with hm
    · obtain ⟨r, hr, h⟩ := Option.bind_eq_some_iff.mp h
      obtain ⟨data, -, rfl⟩ := printed_of_appenderSyncBuffer hr
      cases h
      exact stepped_goto rfl (rest_of_p ..) .quiet ⟨.inl rfl, fun _ _ => hm⟩
    · cases h
      exact stepped_goto rfl (rest_of_p ..) .quiet ⟨.inl rfl, nofun⟩
  | async =>
    obtain ⟨p, hp, h⟩ := Option.bind_eq_some_iff.mp h
    obtain ⟨st, lb, hp', -⟩ := appenderAsync_frame hp
    rw [Option.some_inj] at h
    split_ifs at h <;> subst h
    · exact stepped_start rfl (rest_of_p ..) (.insert hp) (by rw [hp'])
    · exact stepped_goto rfl (rest_of_p ..) (.insert hp) ⟨.inr (.inl rfl), nofun⟩
  | write data =>
    cases h
    exact stepped_goto rfl (rest_of_p ..) (.direct data) ⟨.inr (.inl rfl), nofun⟩

theorem setmodeStep_stepped {pc : SetmodePc} (h : setmodeStep t s pc = some s') :
    Stepped lc env t s (.setmode pc) s' := by
  cases pc with
  | store mode => cases h; exact stepped_goto rfl (rest_of_p ..) (.setmode mode) ⟨.inl rfl, nofun⟩
  | start =>
    rw [setmodeStep, Option.some_inj] at h
    split_ifs at h <;> subst h
    · exact stepped_start rfl (rest_of_p ..) .quiet rfl
    · exact stepped_goto rfl (rest_of_p ..) .quiet ⟨.inr (.inl rfl), nofun⟩

theorem flushStep_stepped {pc : FlushPc} (h : flushStep lc env t s pc = some s') :
    Stepped lc env t s (.flush pc) s' := by
  cases pc with
  | mode =>
    cases h
    split_ifs
    · exact stepped_goto rfl (rest_of_p ..) .quiet ⟨.inl rfl, nofun⟩
    · exact stepped_goto rfl (rest_of_p ..) .quiet ⟨.inl rfl, nofun⟩
  | drain =>
    obtain ⟨⟨p, tmp⟩, hd, h⟩ := Option.bind_eq_some_iff.mp h
    cases h
    cases tmp with
    | none => exact stepped_goto rfl (rest_of_p ..) (.drain hd) ⟨.inl rfl, nofun⟩
    | some data => exact stepped_goto rfl (rest_of_p ..) (.drain hd) ⟨.inl rfl, nofun⟩
  | write data => cases h; exact stepped_goto rfl (rest_of_p ..) (.write data) ⟨.inl rfl, nofun⟩
  | ret early => cases h; exact stepped_goto rfl (rest_of_p ..) .quiet ⟨.inr (.inl rfl), nofun⟩

theorem taskStep_does {p p' : Proc} {pc : TaskPc} {pc' : Option TaskPc}
    (h : taskStep lc env p pc = some (p', pc')) :
    Does lc env p (taskAct pc) p' (taskChunk pc') := by
  cases pc with
  | load => cases h; split_ifs <;> exact .quiet
  | drain =>
    rw [taskStep] at h
    split_ifs at h
    obtain ⟨⟨p, tmp⟩, hd, h⟩ := Option.map_eq_some_iff.mp h
    cases h
    cases tmp with
    | none => exact .drain hd
    | some data => exact .drain hd
  | write data => cases h; exact .write data

theorem runTask_stepped (within : TaskPc → Pc) (next : Pc) {pc : TaskPc}
    (hw : ∀ pc, act (within pc) = taskAct pc) (hk : ∀ pc', kind (within pc') = kind (within pc))
    (hn : chunk next = none) (hl : Leads t s (within pc) next)
    (h : s.runTask lc env t within next pc = some s') : Stepped lc env t s (within pc) s' := by
  obtain ⟨⟨p, pc'⟩, ht, rfl⟩ := Option.map_eq_some_iff.mp h
  have hd := taskStep_does ht
  cases pc' with
  | none =>
    refine stepped_goto rfl (rest_of_p ..) ?_ hl
    rw [hn, hw]; exact hd
  | some pc' =>
    refine stepped_goto rfl (rest_of_p ..) ?_ ⟨.inl (hk pc'), fun data hd => ?_⟩
    · rw [chunk, hw, hw]
      cases pc' <;> exact hd
    · rw [hw] at hd
      cases pc' <;> cases hd

theorem loopStep_stepped {pc : LoopPc} (h : loopStep lc env t s pc = some s') :
    Stepped lc env t s (.loop pc) s' := by
  cases pc with
  | top =>
    cases h
    split_ifs
    · exact stepped_goto rfl (rest_of_p ..) .quiet ⟨.inr (.inl rfl), nofun⟩
    · exact stepped_goto rfl (rest_of_p ..) .quiet ⟨.inl rfl, nofun⟩
  | task pc =>
    exact runTask_stepped (fun pc => .loop (.task pc)) (.loop .load) (fun _ => rfl) (fun _ => rfl) rfl
      ⟨.inl rfl, nofun⟩ h
  | load =>
    cases h
    split_ifs
    · exact stepped_goto rfl (rest_of_p ..) .quiet ⟨.inr (.inl rfl), nofun⟩
    · exact stepped_goto rfl (rest_of_p ..) .quiet ⟨.inl rfl, nofun⟩
  | wait => cases h; exact stepped_goto rfl (rest_of_p ..) .quiet ⟨.inl rfl, nofun⟩

theorem passStep_stepped {pc : PassPc} (h : passStep lc env t s pc = some s') :
    Stepped lc env t s (.pass pc) s' := by
  cases pc with
  | lock =>
    rw [passStep] at h
    split_ifs at h <;> cases h
    · exact stepped_goto rfl ⟨fun hk => absurd rfl hk, fun _ => rfl, fun _ => rfl⟩ .quiet
        ⟨.inl rfl, nofun⟩
    · exact stepped_goto rfl (rest_of_p ..) .quiet ⟨.inr (.inl rfl), nofun⟩
  | load =>
    cases h
    split_ifs
    · exact stepped_goto rfl (rest_of_p ..) .quiet ⟨.inl rfl, nofun⟩
    · exact stepped_goto rfl (rest_of_p ..) .quiet ⟨.inl rfl, nofun⟩
  | task pc =>
    exact runTask_stepped (fun pc => .pass (.task pc)) (.pass .unlock) (fun _ => rfl) (fun _ => rfl) rfl
      ⟨.inl rfl, nofun⟩ h
  | unlock =>
    cases h
    exact stepped_goto rfl ⟨fun hk => absurd rfl hk, fun _ => rfl, fun _ => rfl⟩ .quiet
      ⟨.inl rfl, nofun⟩
  | wait => cases h; exact stepped_goto rfl (rest_of_p ..) .quiet ⟨.inl rfl, nofun⟩

theorem closeStep_stepped {stage : Stage} {pc : ClosePc}
    (h : closeStep lc env stage t s pc = some s') : Stepped lc env t s (.close stage pc) s' := by
  have hnext : chunk stage.next = none := by cases stage <;> rfl
  have hleads : Leads t s (.close stage pc) stage.next := by
    cases stage <;> exact ⟨.inl rfl, nofun⟩
  cases pc with
  | load =>
    cases h
    split_ifs
    · exact stepped_goto rfl (rest_of_p ..) (hnext ▸ .quiet) hleads
    · exact stepped_goto rfl (rest_of_p ..) .quiet ⟨.inl rfl, nofun⟩
  | store => cases h; exact stepped_goto rfl (rest_of_p ..) .store ⟨.inl rfl, nofun⟩
  | join =>
    rw [closeStep] at h
    split at h
    · split_ifs at h
      cases h; exact stepped_goto rfl (rest_of_p ..) .quiet ⟨.inl rfl, nofun⟩
    · cases h; exact stepped_goto rfl (rest_of_p ..) .quiet ⟨.inl rfl, nofun⟩
  | task pc =>
    exact runTask_stepped (fun pc => .close stage (.task pc)) (.close stage .free) (fun _ => rfl)
      (fun _ => rfl) rfl ⟨.inl rfl, nofun⟩ h
  | free =>
    obtain ⟨p, hp, rfl⟩ := Option.map_eq_some_iff.mp h
    exact stepped_goto rfl (rest_of_p ..) (.free hp) ⟨.inl rfl, nofun⟩
  | file => cases h; exact stepped_goto rfl (rest_of_p ..) (hnext ▸ .file) hleads

/-- **What a step does.** -/
theorem exec_stepped {pc : Pc} (h : exec lc env t s pc = some s') : Stepped lc env t s pc s' := by
  cases pc with
  | idle => cases h
  | append info log pc => exact appendStep_stepped h
  | setmode pc => exact setmodeStep_stepped h
  | flush pc => exact flushStep_stepped h
  | task pc =>
    exact runTask_stepped .task .idle (fun _ => rfl) (fun _ => rfl) rfl ⟨.inr (.inl rfl), nofun⟩ h
  | loop pc => exact loopStep_stepped h
  | pass pc => exact passStep_stepped h
  | close stage pc => exact closeStep_stepped h
  | erase =>
    rw [exec] at h
    split_ifs at h
    cases h
    exact stepped_goto rfl ⟨fun _ => rfl, fun hk => absurd rfl hk, fun _ => rfl⟩ .quiet
      ⟨.inl rfl, nofun⟩
  | delete =>
    cases h
    exact stepped_goto rfl ⟨fun _ => rfl, fun _ => rfl, fun hk => absurd rfl hk⟩ .quiet
      ⟨.inr (.inl rfl), nofun⟩

theorem Stepped.kind_ne_close (h : Stepped lc env t s pc s') (hk : kind pc ≠ .close) :
    kind (s'.pc t) ≠ .close := by
  rcases h.leads.kind with h' | h' | ⟨-, h'⟩ <;> rw [h']
  · exact hk
  · rintro ⟨⟩
  · rintro ⟨⟩

theorem Stepped.forall_pc (h : Stepped lc env t s pc s') {Q : Pc → Prop} (hQ : ∀ u, Q (s.pc u))
    (hw : ∀ th, Q (workerStart th)) (ht : Q (s'.pc t)) (u : ℕ) : Q (s'.pc u) := by
  by_cases hu : u = t
  · exact hu ▸ ht
  · rcases h.others u hu with he | ⟨rfl, -, he⟩
    · exact he ▸ hQ u
    · exact he ▸ hw _

/-! ### Steps that can be taken -/

theorem runTask_enabled (within : TaskPc → Pc) (next : Pc) {pc : TaskPc} {r : Proc × Option TaskPc}
    (h : taskStep lc env s.p pc = some r) : ∃ s', s.runTask lc env t within next pc = some s' :=
  ⟨_, by rw [Sys.runTask, h]; rfl⟩

theorem exec_write_enabled (lc : Libc) (env : FileEnv) (t : ℕ) {data : Bytes} (h : act pc = .write data) :
    ∃ s', exec lc env t s pc = some s' := by
  have htask : ∀ pc, taskAct pc = .write data → ∃ r, taskStep lc env s.p pc = some r := by
    rintro pc h
    cases pc <;> cases h
    exact ⟨_, rfl⟩
  unfold act at h
  split at h <;> first | cases h; done | skip
  · exact ⟨_, rfl⟩
  all_goals
    obtain ⟨r, hr⟩ := htask _ h
    exact runTask_enabled _ _ hr

theorem exec_drain_enabled (lc : Libc) (env : FileEnv) (t : ℕ) (h : act pc = .drain)
    (hb : s.p.mlog.sgLogBuff.isNone = false) {r : Proc × Option Bytes} (hd : drainBuffer s.p = some r) :
    ∃ s', exec lc env t s pc = some s' := by
  have htask : ∀ pc, taskAct pc = .drain → ∃ r, taskStep lc env s.p pc = some r := by
    rintro pc h
    cases pc <;> cases h
    exact ⟨_, by rw [taskStep, if_neg (by rw [hb]; decide), hd]; rfl⟩
  unfold act at h
  split at h <;> first | cases h; done | skip
  · exact ⟨_, by rw [exec, flushStep, hd]; rfl⟩
  all_goals
    obtain ⟨r, hr⟩ := htask _ h
    exact runTask_enabled _ _ hr

/-! ### What stays -/

variable {a : Act} {p p' : Proc} {c : Option Bytes}

theorem drainBuffer_frame {tmp : Option Bytes} (h : drainBuffer p = some (p', tmp)) :
    ∃ lb, p' = { p with mlog := { p.mlog with sgLogBuff := lb } } ∧
      lb.isSome = p.mlog.sgLogBuff.isSome := by
  obtain ⟨⟨mlog, buff⟩, hf, h⟩ := Option.bind_eq_some_iff.mp h
  cases h
  unfold flushLogBuff at hf
  split at hf
  · cases hf; exact ⟨p.mlog.sgLogBuff, rfl, rfl⟩
  · next lb hb =>
    obtain ⟨_, -, hf⟩ := Option.bind_eq_some_iff.mp hf
    cases hf
    exact ⟨_, rfl, by rw [hb]; rfl⟩

/-- **The frame of a step.** The session stays; only `setmode` sets the mode, only `close` sets the flag,
and the buffer ends with `free` only. -/
structure Frame (a : Act) (p p' : Proc) : Prop where
  same : SameSession p p'
  mode : (∀ m, a ≠ .setmode m) → p'.mlog.sgMode = p.mlog.sgMode
  flag : p'.mlog.sgLogClose = true ↔ p.mlog.sgLogClose = true ∨ a = .store
  buff : p'.mlog.sgLogBuff.isSome ↔ p.mlog.sgLogBuff.isSome ∧ a ≠ .free

theorem Does.frame (h : Does lc env p a p' c) (hh : HandleOk p.mlog) : Frame a p p' := by
  have hwrite : ∀ data a, (∀ m, a ≠ .setmode m) → a ≠ .store → a ≠ .free →
      Frame a p (log2file lc env data p) := by
    intro data a h1 h2 h3
    obtain ⟨f, t, d, he⟩ := (log2file_refiled lc env data hh).eq
    rw [he]
    exact ⟨⟨rfl, rfl, rfl⟩, fun _ => rfl, by simp [h2], by simp [h3]⟩
  cases h with
  | quiet => exact ⟨.refl p, fun _ => rfl, by simp, by simp⟩
  | setmode mode => exact ⟨⟨rfl, rfl, rfl⟩, fun h => absurd rfl (h mode), by simp [logAppenderSetmode],
      by simp [logAppenderSetmode]⟩
  | store => exact ⟨⟨rfl, rfl, rfl⟩, fun _ => rfl, by simp, by simp⟩
  | file =>
    obtain ⟨t, files, ht⟩ := closelogfile_eq env p
    rw [ht]
    exact ⟨⟨rfl, rfl, rfl⟩, fun _ => rfl, by simp, by simp⟩
  | insert h =>
    obtain ⟨st, lb, rfl, hlb⟩ := appenderAsync_frame h
    exact ⟨⟨rfl, rfl, rfl⟩, fun _ => rfl, by simp, by simp [hlb]⟩
  | direct data => exact hwrite data _ nofun nofun nofun
  | drain h =>
    obtain ⟨lb, rfl, hlb⟩ := drainBuffer_frame h
    exact ⟨⟨rfl, rfl, rfl⟩, fun _ => rfl, by simp, by simp [hlb]⟩
  | write data => exact hwrite data _ nofun nofun nofun
  | free h =>
    obtain ⟨mt, -, rfl⟩ := Option.map_eq_some_iff.mp h
    exact ⟨⟨rfl, rfl, rfl⟩, fun _ => rfl, by simp, by simp⟩

theorem Does.held (h : Does lc env p a p' c) (hh : HandleOk p.mlog) (hm : p.mlog.sgMode = .async)
    (h0 : held p.mlog = []) : held p'.mlog = [] := by
  have hwrite : ∀ data, Session.held (log2file lc env data p).mlog = [] := fun data =>
    (log2file_refiled lc env data hh).held.trans (held_writeBack hm lc env data (.inl h0))
  cases h with
  | quiet => exact h0
  | setmode mode => exact h0
  | store => exact h0
  | file => exact (closelogfile_refiled hh env).held
  | insert h =>
    obtain ⟨st, lb, rfl, -⟩ := appenderAsync_frame h
    exact h0
  | direct data => exact hwrite data
  | drain h =>
    obtain ⟨lb, rfl, -⟩ := drainBuffer_frame h
    exact h0
  | write data => exact hwrite data
  | free h =>
    obtain ⟨mt, -, rfl⟩ := Option.map_eq_some_iff.mp h
    exact h0

end Steps

end MTAppenderFile.Loglib.Steps
