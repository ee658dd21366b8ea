import MTAppenderFile.Loglib.Steps

/-! # The way through the worker and through `close`

While the program appends and closes, the own worker goes round its loop (`LoopFlow`), the shared one makes
its passes under the spinlock (`InPass`), and the thread that closes goes from the store of the flag to the
end of the buffer, and on to the end of the appender (`CloseFlow`). `phase` says how far it has come: the
flag is set in phase `1`, the worker is done in phase `2`, the buffer has ended in phase `3`, and in phase
`4` the appender is in no list any more. -/

namespace MTAppenderFile.Loglib.Flow

open MTAppenderFile.Comm.CTypes
open MTAppenderFile.Loglib.Base
open MTAppenderFile.Loglib.Files
open MTAppenderFile.Loglib.Formatter
open MTAppenderFile.Loglib.Appender
open MTAppenderFile.Loglib.Threads
open MTAppenderFile.Loglib.Steps

/-- The way through `__log_thread_task`, in a function that goes on at `next`. -/
inductive TaskFlow (buff : Bool) (within : TaskPc → Pc) (next : Pc) : TaskPc → Pc → Prop
  | skip (h : buff = false) : TaskFlow buff within next .load next
  | load (h : buff = true) : TaskFlow buff within next .load (within .drain)
  | empty : TaskFlow buff within next .drain next
  | drain (data : Bytes) : TaskFlow buff within next .drain (within (.write data))
  | write (data : Bytes) : TaskFlow buff within next (.write data) next

/-- The way through the loop of the own worker, as long as there is a buffer. -/
inductive LoopFlow (flag : Bool) : LoopPc → Pc → Prop
  | top : LoopFlow flag .top (.loop (.task .load))
  | load : LoopFlow flag (.task .load) (.loop (.task .drain))
  | empty : LoopFlow flag (.task .drain) (.loop .load)
  | drain (data : Bytes) : LoopFlow flag (.task .drain) (.loop (.task (.write data)))
  | write (data : Bytes) : LoopFlow flag (.task (.write data)) (.loop .load)
  | stop (h : flag = true) : LoopFlow flag .load .idle
  | wait (h : flag = false) : LoopFlow flag .load (.loop .wait)
  | again : LoopFlow flag .wait (.loop .top)

/-- In a pass of the shared worker, under the spinlock. -/
def InPass : Pc → Prop
  | .pass .load => True
  | .pass (.task _) => True
  | .pass .unlock => True
  | _ => False

/-- The way through `mtaf_log_appender_close`, called by the program, and then through
`mtaf_log_appender_destroy`, whose own call of `close` returns at once. -/
inductive CloseFlow (s : Sys) : Pc → Pc → Prop
  | load : CloseFlow s (.close .close .load) (.close .close .store)
  | store : CloseFlow s (.close .close .store) (.close .close .join)
  | join (hth : s.p.mlog.sgThreadAsync = .own) (h : s.pc 0 = .idle) :
      CloseFlow s (.close .close .join) (.close .close .free)
  | task (hth : s.p.mlog.sgThreadAsync = .shared) :
      CloseFlow s (.close .close .join) (.close .close (.task .load))
  | taskLoad : CloseFlow s (.close .close (.task .load)) (.close .close (.task .drain))
  | empty : CloseFlow s (.close .close (.task .drain)) (.close .close .free)
  | drain (data : Bytes) :
      CloseFlow s (.close .close (.task .drain)) (.close .close (.task (.write data)))
  | write (data : Bytes) : CloseFlow s (.close .close (.task (.write data))) (.close .close .free)
  | free : CloseFlow s (.close .close .free) (.close .close .file)
  | file : CloseFlow s (.close .close .file) (.close .destroy .load)
  | destroy : CloseFlow s (.close .destroy .load) .erase
  | erase (h : s.spin = none) : CloseFlow s .erase .delete
  | delete : CloseFlow s .delete .idle

/-- A step of the thread `t` that closes, at `pc`. It moves no other thread. -/
structure Closes (t : ℕ) (s : Sys) (pc : Pc) (s' : Sys) : Prop where
  flow : CloseFlow s pc (s'.pc t)
  others : ∀ u, u ≠ t → s'.pc u = s.pc u
  listed : s'.pc t = .delete → s'.listed = false
  deleted : pc ≠ .delete → s'.deleted = s.deleted

/-- How far a thread has come with `close` and `destroy`. -/
def phase : Pc → ℕ
  | .close .close .join => 1
  | .close .close (.task _) => 1
  | .close .close .free => 2
  | .close .close .file => 3
  | .close .destroy _ => 3
  | .erase => 3
  | .delete => 4
  | _ => 0

/-- The steps to the end of `destroy`, at most. -/
def stepsLeft : Pc → ℕ
  | .close .close .join => 9
  | .close .close (.task .load) => 8
  | .close .close (.task .drain) => 7
  | .close .close (.task (.write _)) => 6
  | .close .close .free => 5
  | .close .close .file => 4
  | .close .destroy _ => 3
  | .erase => 2
  | .delete => 1
  | _ => 0

/-- What a thread other than the worker does: it appends or closes. Only with the shared worker does
`close` flush. -/
def Role (th : ThreadAsync) : Pc → Prop
  | .idle => True
  | .append _ _ _ => True
  | .close .close (.task _) => th = .shared
  | .close .close _ => True
  | .close .destroy pc => pc = .load
  | .erase => True
  | .delete => True
  | _ => False

theorem chunk_of_role {th : ThreadAsync} {pc : Pc} (h : Role th pc) (hk : kind pc ≠ .close) :
    chunk pc = none := by
  cases pc with
  | idle => rfl
  | append info log pc => cases pc <;> rfl
  | close stage pc => exact absurd rfl hk
  | erase => rfl
  | delete => rfl
  | _ => exact h.elim

theorem chunk_of_not_inPass {pc : PassPc} (h : ¬ InPass (.pass pc)) : chunk (.pass pc) = none := by
  cases pc with
  | task pc => exact absurd trivial h
  | _ => rfl

theorem phase_of_kind {pc : Pc} (h : kind pc ≠ .close) : phase pc = 0 := by
  unfold phase
  split <;> first | rfl | exact absurd rfl h

theorem phase_workerStart (th : ThreadAsync) : phase (workerStart th) = 0 := by cases th <;> rfl

theorem kind_of_phase {pc : Pc} (h : 1 ≤ phase pc) : kind pc = .close := by
  by_contra hk
  rw [phase_of_kind hk] at h
  omega

theorem eq_delete_of_phase {pc : Pc} : phase pc = 4 ↔ pc = .delete := by
  unfold phase
  split <;> simp_all

theorem Role.act_ne_drain {pc : Pc} (h : Role .own pc) : act pc ≠ .drain := by
  intro ha
  cases pc with
  | append info log pc => cases pc <;> cases ha
  | close stage pc =>
    cases stage with
    | close => cases pc <;> first | cases h; done | cases ha
    | destroy => cases h; cases ha
  | idle => cases ha
  | erase => cases ha
  | delete => cases ha
  | _ => exact h

section Exec

variable {lc : Libc} {env : FileEnv} {t : ℕ} {s s' : Sys}

theorem taskFlow_of_runTask {within : TaskPc → Pc} {next : Pc} {pc : TaskPc}
    (h : s.runTask lc env t within next pc = some s') :
    ∃ p pc', s' = Sys.goto { s with p := p } t pc' ∧
      TaskFlow s.p.mlog.sgLogBuff.isSome within next pc pc' := by
  obtain ⟨⟨p, pc'⟩, ht, rfl⟩ := Option.map_eq_some_iff.mp h
  refine ⟨p, _, rfl, ?_⟩
  cases pc with
  | load =>
    cases ht
    cases hb : s.p.mlog.sgLogBuff with
    | none => exact .skip rfl
    | some lb => exact .load rfl
  | drain =>
    rw [taskStep] at ht
    split_ifs at ht
    obtain ⟨⟨q, tmp⟩, -, ht⟩ := Option.map_eq_some_iff.mp ht
    cases ht
    cases tmp with
    | none => exact .empty
    | some data => exact .drain data
  | write data => cases ht; exact .write data

theorem loopFlow_of_loopStep {pc : LoopPc} (hb : s.p.mlog.sgLogBuff.isSome)
    (h : loopStep lc env t s pc = some s') : LoopFlow s.p.mlog.sgLogClose pc (s'.pc t) := by
  have hb' : s.p.mlog.sgLogBuff.isNone = false := by rw [← Option.not_isSome, hb]; rfl
  cases pc with
  | top =>
    cases h
    rw [goto_pc_self, hb']
    exact .top
  | task pc =>
    obtain ⟨p, pc', rfl, hf⟩ := taskFlow_of_runTask h
    rw [goto_pc_self]
    cases hf with
    | skip hn => rw [hb] at hn; cases hn
    | load => exact .load
    | empty => exact .empty
    | drain data => exact .drain data
    | write data => exact .write data
  | load =>
    cases h
    rw [goto_pc_self]
    split_ifs with hf
    · exact .stop hf
    · exact .wait (by simpa using hf)
  | wait =>
    cases h
    rw [goto_pc_self]
    exact .again

theorem pass_of_passStep {pc : PassPc} (hspin : InPass (.pass pc) → s.spin.isSome)
    (h : passStep lc env t s pc = some s') :
    (s'.pc t = .idle ∨ ∃ pc', s'.pc t = .pass pc') ∧ (InPass (s'.pc t) → s'.spin.isSome) ∧
      (InPass (s'.pc t) → InPass (.pass pc) ∨ s.listed = true) := by
  cases pc with
  | lock =>
    rw [passStep] at h
    split_ifs at h with _ hl <;> cases h <;> rw [goto_pc_self]
    · exact ⟨.inr ⟨_, rfl⟩, fun _ => rfl, fun _ => .inr hl⟩
    · exact ⟨.inl rfl, False.elim, False.elim⟩
  | load =>
    cases h
    rw [goto_pc_self]
    exact ⟨.inr ⟨_, rfl⟩, fun _ => hspin trivial, fun _ => .inl trivial⟩
  | task pc =>
    obtain ⟨p, pc', rfl, hf⟩ := taskFlow_of_runTask h
    rw [goto_pc_self]
    refine ⟨.inr ?_, fun _ => hspin trivial, fun _ => .inl trivial⟩
    cases hf <;> exact ⟨_, rfl⟩
  | unlock =>
    cases h
    rw [goto_pc_self]
    exact ⟨.inr ⟨_, rfl⟩, False.elim, False.elim⟩
  | wait =>
    cases h
    rw [goto_pc_self]
    exact ⟨.inr ⟨_, rfl⟩, False.elim, False.elim⟩

theorem worker_of_appendStep {info : Option LogInfo} {log : Option CStr} {pc : AppendPc} (ht : t ≠ 0)
    (hth : s.p.mlog.sgThreadAsync = .own) (h : appendStep lc env info log t s pc = some s') :
    s'.pc 0 = s.pc 0 := by
  have hgoto : ∀ (s₁ : Sys) pc', s₁.pc = s.pc → (s₁.goto t pc').pc 0 = s.pc 0 := by
    intro s₁ pc' hpc
    rw [goto_pc_of_ne _ ht.symm, hpc]
  cases pc with
  | load => cases h; exact hgoto _ _ rfl
  | mode =>
    rw [appendStep] at h
    split_ifs at h
    · obtain ⟨r, -, h⟩ := Option.bind_eq_some_iff.mp h
      cases h; exact hgoto _ _ rfl
    · cases h; exact hgoto _ _ rfl
  | async =>
    obtain ⟨p, -, h⟩ := Option.bind_eq_some_iff.mp h
    rw [Option.some_inj, hth] at h
    rw [if_neg fun hc => by cases hc.2] at h
    subst h
    exact hgoto _ _ rfl
  | write data => cases h; exact hgoto _ _ rfl

theorem closes_goto {pc pc' : Pc} {s₁ : Sys} (hpc : s₁.pc = s.pc) (hf : CloseFlow s pc pc')
    (hl : pc' = .delete → s₁.listed = false) (hd : pc ≠ .delete → s₁.deleted = s.deleted) :
    Closes t s pc (s₁.goto t pc') := by
  refine ⟨?_, fun u hu => ?_, ?_, hd⟩
  · rw [goto_pc_self]; exact hf
  · rw [goto_pc_of_ne _ hu, hpc]
  · rw [goto_pc_self]; exact hl

/-- **A step of the thread that closes.** -/
theorem closes_of_exec {pc : Pc} (hrole : Role s.p.mlog.sgThreadAsync pc) (hk : kind pc = .close)
    (hflag : s.p.mlog.sgLogClose = true ↔ 1 ≤ phase pc)
    (hbuff : phase pc ≤ 2 → s.p.mlog.sgLogBuff.isSome) (h : exec lc env t s pc = some s') :
    Closes t s pc s' := by
  cases pc with
  | close stage pc =>
    cases stage with
    | destroy =>
      cases hrole
      cases h
      rw [if_pos (hflag.mpr (show 1 ≤ 3 by decide))]
      exact closes_goto rfl .destroy (fun hd => by cases hd) fun _ => rfl
    | close =>
      cases pc with
      | load =>
        cases h
        rw [if_neg fun hc => by cases hflag.mp hc]
        exact closes_goto rfl .load (fun hd => by cases hd) fun _ => rfl
      | store =>
        cases h
        exact closes_goto rfl .store (fun hd => by cases hd) fun _ => rfl
      | join =>
        rw [exec, closeStep] at h
        cases hth : s.p.mlog.sgThreadAsync with
        | own =>
          simp only [hth, Option.ite_none_right_eq_some, Option.some_inj] at h
          obtain ⟨hi, rfl⟩ := h
          exact closes_goto rfl (.join hth (Pc.isIdle_iff.mp hi)) (fun hd => by cases hd) fun _ => rfl
        | shared =>
          simp only [hth, Option.some_inj] at h
          subst h
          exact closes_goto rfl (.task hth) (fun hd => by cases hd) fun _ => rfl
      | task pc =>
        obtain ⟨p, pc', rfl, hf⟩ := taskFlow_of_runTask h
        have hb := hbuff (show 1 ≤ 2 by decide)
        have hflow : CloseFlow s (.close .close (.task pc)) pc' ∧ pc' ≠ .delete := by
          cases hf with
          | skip hn => rw [hb] at hn; cases hn
          | load => exact ⟨.taskLoad, by rintro ⟨⟩⟩
          | empty => exact ⟨.empty, by rintro ⟨⟩⟩
          | drain data => exact ⟨.drain data, by rintro ⟨⟩⟩
          | write data => exact ⟨.write data, by rintro ⟨⟩⟩
        exact closes_goto rfl hflow.1 (fun hd => absurd hd hflow.2) fun _ => rfl
      | free =>
        obtain ⟨p, -, rfl⟩ := Option.map_eq_some_iff.mp h
        exact closes_goto rfl .free (fun hd => by cases hd) fun _ => rfl
      | file =>
        cases h
        exact closes_goto rfl .file (fun hd => by cases hd) fun _ => rfl
  | erase =>
    rw [exec] at h
    split_ifs at h with hs
    cases h
    exact closes_goto rfl (.erase (by simpa using hs)) (fun _ => rfl) fun _ => rfl
  | delete =>
    cases h
    exact closes_goto rfl .delete (fun hd => by cases hd) fun hd => absurd rfl hd
  | _ => cases hk

end Exec

section Phase

variable {s : Sys} {pc pc' : Pc}

theorem CloseFlow.role (h : CloseFlow s pc pc') (hr : Role s.p.mlog.sgThreadAsync pc) :
    Role s.p.mlog.sgThreadAsync pc' := by
  cases h <;> trivial

/-- Phase `1` begins with the store of the flag. -/
theorem CloseFlow.one_le_phase (h : CloseFlow s pc pc') (hd : pc ≠ .delete) :
    1 ≤ phase pc' ↔ 1 ≤ phase pc ∨ act pc = .store := by
  cases h <;> first | exact absurd rfl hd | simp [phase, act, taskAct]

/-- Phase `3` begins with the end of the buffer. -/
theorem CloseFlow.phase_le_two (h : CloseFlow s pc pc') (hd : pc ≠ .delete) :
    phase pc' ≤ 2 ↔ phase pc ≤ 2 ∧ act pc ≠ .free := by
  cases h <;> first | exact absurd rfl hd | simp [phase, act, taskAct]

theorem CloseFlow.store_of_phase (h : CloseFlow s pc pc') (hp : ¬ 1 ≤ phase pc) (hp' : 1 ≤ phase pc') :
    pc = .close .close .store := by
  cases h with
  | load => cases hp'
  | store => rfl
  | delete => cases hp'
  | _ => exact absurd (by simp [phase]) hp

/-- Behind the store, every step leads on to the end. -/
theorem CloseFlow.stepsLeft_lt (h : CloseFlow s pc pc') (hp : 1 ≤ phase pc) :
    stepsLeft pc' < stepsLeft pc := by
  cases h with
  | load => cases hp
  | store => cases hp
  | _ => simp [stepsLeft]

/-- With the own worker, phase `2` begins when the worker has ended. -/
theorem CloseFlow.joined (h : CloseFlow s pc pc') (hr : Role .own pc) (hp : 2 ≤ phase pc') :
    s.pc 0 = .idle ∨ 2 ≤ phase pc := by
  cases h with
  | load => cases hp
  | store => exact absurd hp (by decide)
  | join hth hi => exact .inl hi
  | task hth => exact absurd hp (show ¬ 2 ≤ 1 by decide)
  | taskLoad => cases hr
  | empty => cases hr
  | drain data => cases hr
  | write data => cases hr
  | free => exact .inr (Nat.le_refl 2)
  | file => exact .inr (show 2 ≤ 3 by decide)
  | destroy => exact .inr (show 2 ≤ 3 by decide)
  | erase hs => exact .inr (show 2 ≤ 3 by decide)
  | delete => cases hp

end Phase

end MTAppenderFile.Loglib.Flow
