import MTAppenderFile.Loglib.Shutdown

/-! # What `close` and `destroy` keep

With the shared worker, `close` drains the buffer itself. With its own worker, it waits for the end of the
worker, which drains the buffer first and tests the flag afterwards: a worker that is between the two when
the flag is set (`Past`) does not come back to the buffer, and `close` wipes it. Every other record that
had been appended before the call of `close` is in the log file when `destroy` returns
(`close_keeps_iff`). -/

namespace MTAppenderFile.Loglib.Closing

open MTAppenderFile.Lib.Buffered
open MTAppenderFile.Lib.Handover
open MTAppenderFile.Lib.Run
open MTAppenderFile.Comm.CTypes
open MTAppenderFile.Loglib.Base
open MTAppenderFile.Loglib.Buffer
open MTAppenderFile.Loglib.Files
open MTAppenderFile.Loglib.Formatter
open MTAppenderFile.Loglib.Appender
open MTAppenderFile.Loglib.Session
open MTAppenderFile.Loglib.Exactness
open MTAppenderFile.Loglib.Threads
open MTAppenderFile.Loglib.Steps
open MTAppenderFile.Loglib.Pipeline
open MTAppenderFile.Loglib.Interleaving
open MTAppenderFile.Loglib.Flow
open MTAppenderFile.Loglib.Shutdown

/-! ### The store of the flag -/

/-- A run from `s` to `y` sets the flag at `x`: there, thread `c` is about to store it. -/
def StoredAt (lc : Libc) (s : Sys) (c : ℕ) (x y : Sys × Hist) : Prop :=
  Reach (tstep lc) OneClose (s, .empty) x ∧ x.1.pc c = .close .close .store ∧
    ∃ env x₁, OneClose x (.run c env) ∧ tstep lc x (.run c env) = some x₁ ∧
      Reach (tstep lc) OneClose x₁ y

/-- Between the drain and the test of the flag, in the loop of the own worker. -/
def Past : Pc → Prop
  | .loop (.task (.write _)) => True
  | .loop .load => True
  | _ => False

/-- Before the drain, in the loop of the own worker. -/
def ToDrain : Pc → Prop
  | .loop .top => True
  | .loop (.task .load) => True
  | .loop (.task .drain) => True
  | .loop .wait => True
  | _ => False

/-- The buffer will be drained: the thread that closes waits for a worker that will do so, or will do so
itself. -/
def WillDrain (th : ThreadAsync) (worker : Pc) : Pc → Prop
  | .close .close .join => th = .own → ToDrain worker
  | .close .close (.task .load) => True
  | .close .close (.task .drain) => True
  | _ => False

/-- **Behind the store**: thread `c` has set the flag, and the records `D` had been appended before its
call. -/
structure Behind (p₀ : Proc) (c : ℕ) (D : List Record) (x : Sys × Hist) : Prop
    extends Shutting p₀ x where
  stored : 1 ≤ phase (x.1.pc c)
  dueEq : x.2.due c = D

/-- **The records `D` are safe**: they are somewhere, and not in the buffer any more unless it will be
drained. -/
structure Safe (p₀ : Proc) (c : ℕ) (D : List Record) (x : Sys × Hist) : Prop
    extends Behind p₀ c D x where
  held : ∀ r ∈ D, Held x.2.pipe r
  safe : WillDrain x.1.p.mlog.sgThreadAsync (x.1.pc 0) (x.1.pc c) ∨ ∀ r ∈ D, r ∉ x.2.pipe.buf

/-- **The record `r` is lost**: the own worker does not come back to the buffer. -/
structure Lost (p₀ : Proc) (c : ℕ) (D : List Record) (r : Record) (x : Sys × Hist) : Prop
    extends Behind p₀ c D x where
  own : x.1.p.mlog.sgThreadAsync = .own
  past : Past (x.1.pc 0) ∨ x.1.pc 0 = .idle
  mem : r ∈ D
  out : r ∉ x.2.pipe.out
  hand : ∀ u, r ∉ x.2.pipe.hand u

section Steps

variable {lc : Libc} {env : FileEnv} {p₀ : Proc} {x x' : Sys × Hist} {l : Label} {c : ℕ}
  {D : List Record} {r : Record}

theorem Behind.kind (h : Behind p₀ c D x) : kind (x.1.pc c) = .close := kind_of_phase h.stored

theorem Behind.mem_log (h : Behind p₀ c D x) (hr : r ∈ D) : r ∈ x.2.pipe.log :=
  h.due c r (h.dueEq ▸ hr)

theorem Behind.arrival_ne (h : Behind p₀ c D x) (lc : Libc) (hr : r ∈ D) (t : ℕ) :
    (moveOf lc x.2.pipe.log.length t x.1).arrival ≠ some r := by
  intro ha
  have := h.number r (h.mem_log hr)
  rw [arrival_moveOf ha] at this
  omega

theorem Behind.ne_of_idle (h : Behind p₀ c D x) {t : ℕ} (hi : x.1.pc t = .idle) : c ≠ t := by
  rintro rfl
  have hk := h.kind
  rw [hi] at hk
  cases hk

theorem Behind.step (h : Behind p₀ c D x) (hl : OneClose x l) (hs : tstep lc x l = some x') :
    Gone x' ∨ Behind p₀ c D x' := by
  rcases h.toShutting.step hl hs with hg | h'
  · exact .inl hg
  cases l with
  | call t call =>
    obtain ⟨-, -, hi, rfl⟩ := tstep_call hs
    have hc := h.ne_of_idle hi
    refine .inr ⟨h', ?_, ?_⟩
    · rw [goto_pc_of_ne _ hc]; exact h.stored
    · exact (Function.update_of_ne hc ..).trans h.dueEq
  | run t env =>
    obtain ⟨-, he, hx⟩ := tstep_run hs
    by_cases hc : t = c
    · subst hc
      by_cases hd : x.1.pc t = .delete
      · exact .inl (h.gone hd he)
      · refine .inr ⟨h', ?_, by rw [hx]; exact h.dueEq⟩
        exact ((h.closes h.kind he).flow.one_le_phase hd).mpr (.inl h.stored)
    · refine .inr ⟨h', ?_, by rw [hx]; exact h.dueEq⟩
      rw [h.closer_same h.kind hc hs]
      exact h.stored

theorem willDrain_of_flow {s : Sys} {w pc pc' : Pc} (hf : CloseFlow s pc pc') (hd : act pc ≠ .drain)
    (h : WillDrain s.p.mlog.sgThreadAsync (s.pc 0) pc) : WillDrain s.p.mlog.sgThreadAsync w pc' := by
  cases hf with
  | join hth hi =>
    have h0 := h hth
    rw [hi] at h0
    exact h0
  | task hth => trivial
  | taskLoad => trivial
  | empty => exact absurd rfl hd
  | drain data => exact absurd rfl hd
  | _ => exact h.elim

theorem toDrain_of_flow {flag : Bool} {pc : LoopPc} {pc' : Pc} (hf : LoopFlow flag pc pc')
    (hd : act (.loop pc) ≠ .drain) (h : ToDrain (.loop pc)) : ToDrain pc' := by
  cases hf with
  | top => trivial
  | load => trivial
  | empty => exact absurd rfl hd
  | drain data => exact absurd rfl hd
  | again => trivial
  | _ => exact h.elim

theorem past_or_toDrain (pc : LoopPc) : Past (.loop pc) ∨ ToDrain (.loop pc) := by
  cases pc with
  | task pc =>
    cases pc with
    | write data => exact .inl trivial
    | _ => exact .inr trivial
  | load => exact .inl trivial
  | _ => exact .inr trivial

theorem act_ne_free_of_willDrain {th : ThreadAsync} {w pc : Pc} (h : WillDrain th w pc) :
    act pc ≠ .free := by
  unfold WillDrain at h
  split at h
  · rintro ⟨⟩
  · rintro ⟨⟩
  · rintro ⟨⟩
  · exact h.elim

theorem act_ne_drain_of_past {pc : Pc} (h : Past pc) : act pc ≠ .drain := by
  unfold Past at h
  split at h
  · rintro ⟨⟩
  · rintro ⟨⟩
  · exact h.elim

/-- **The way to the drain.** -/
theorem Behind.willDrain (h : Behind p₀ c D x) {t : ℕ} (hs : tstep lc x (.run t env) = some x')
    (hd : act (x.1.pc t) ≠ .drain)
    (hw : WillDrain x.1.p.mlog.sgThreadAsync (x.1.pc 0) (x.1.pc c)) :
    WillDrain x.1.p.mlog.sgThreadAsync (x'.1.pc 0) (x'.1.pc c) := by
  obtain ⟨-, he, -⟩ := tstep_run hs
  by_cases hc : t = c
  · subst hc
    exact willDrain_of_flow (h.closes h.kind he).flow hd hw
  rw [h.closer_same h.kind hc hs]
  -- the thread that closes stays where it is; if it waits for the worker, the worker may have moved
  generalize x.1.pc c = pc at hw
  unfold WillDrain at hw ⊢
  split at hw <;> try trivial
  intro hth
  by_cases ht : t = 0
  · subst ht
    obtain ⟨pc, hpc, hflow⟩ := h.loopFlow hth hs
    rw [hpc] at hd hw
    exact toDrain_of_flow hflow hd (hw hth)
  · rw [h.worker_same hth ht hs]; exact hw hth

/-- **Safe records stay safe.** -/
theorem Safe.step (h : Safe p₀ c D x) (hdir : p₀.mlog.sgLogdir ≠ []) (hl : OneClose x l)
    (hs : tstep lc x l = some x') : Gone x' ∨ Safe p₀ c D x' := by
  rcases h.toBehind.step hl hs with hg | h'
  · exact .inl hg
  cases l with
  | call t call =>
    obtain ⟨-, ht, hi, rfl⟩ := tstep_call hs
    have hc := h.ne_of_idle hi
    refine .inr ⟨h', h.held, ?_⟩
    rw [goto_pc_of_ne _ hc, goto_pc_of_ne _ ht.symm]
    exact h.safe
  | run t env =>
    obtain ⟨-, he, hx⟩ := tstep_run hs
    have hdir' : x.1.p.mlog.sgLogdir ≠ [] := by rw [h.coupled.holds.same.dir]; exact hdir
    have hth := ((exec_stepped he).does.frame h.coupled.holds.handle).same.thread
    have hnew : ∀ r ∈ D, r ∈ x'.2.pipe.buf → r ∈ x.2.pipe.buf := by
      intro r hr hb
      rw [hx] at hb
      exact (mem_buf_move hb).resolve_right (h.arrival_ne lc hr t)
    refine .inr ⟨h', fun r hr => ?_, ?_⟩
    · rw [hx]
      refine (h.held r hr).move (fun hm => ?_) fun u hm => absurd (dir_of_lose hm) hdir'
      -- the buffer ends behind the drain
      have ha := act_of_wipe hm
      rcases h.safe with hw | hb
      · rw [h.single c t h.kind (kind_of_act ha rfl)] at hw
        exact absurd ha (act_ne_free_of_willDrain hw)
      · exact hb r hr
    · by_cases hd : act (x.1.pc t) = .drain
      · right
        intro r _ hb
        rw [hx, moveOf, hd] at hb
        exact absurd hb List.not_mem_nil
      · rw [hth]
        exact h.safe.imp (h.willDrain hs hd) fun hb r hr hb' => hb r hr (hnew r hr hb')

/-- **A lost record stays lost.** -/
theorem Lost.step (h : Lost p₀ c D r x) (hl : OneClose x l) (hs : tstep lc x l = some x') :
    Gone x' ∨ Lost p₀ c D r x' := by
  rcases h.toBehind.step hl hs with hg | h'
  · exact .inl hg
  cases l with
  | call t call =>
    obtain ⟨-, ht, -, rfl⟩ := tstep_call hs
    refine .inr ⟨h', h.own, ?_, h.mem, h.out, h.hand⟩
    rw [goto_pc_of_ne _ ht.symm]
    exact h.past
  | run t env =>
    obtain ⟨-, he, hx⟩ := tstep_run hs
    have hth := ((exec_stepped he).does.frame h.coupled.holds.handle).same.thread
    have hflag : x.1.p.mlog.sgLogClose = true := h.flag.mpr ⟨c, h.stored⟩
    have hd : act (x.1.pc t) ≠ .drain := by
      by_cases ht : t = 0
      · subst ht
        rcases h.past with hp | hp
        · exact act_ne_drain_of_past hp
        · rw [hp]; rintro ⟨⟩
      · have hr := h.role t ht
        rw [h.own] at hr
        exact hr.act_ne_drain
    obtain ⟨ho, hh⟩ := not_mem_move h.out h.hand (fun u hm => hd (act_of_drain hm).1)
      (h.arrival_ne lc h.mem t)
    refine .inr ⟨h', hth.trans h.own, ?_, h.mem, by rw [hx]; exact ho, fun u => by rw [hx]; exact hh u⟩
    by_cases ht : t = 0
    · subst ht
      obtain ⟨pc, hpc, hflow⟩ := h.loopFlow h.own hs
      have hp := h.past
      rw [hpc] at hp
      generalize x'.1.pc 0 = pc' at hflow
      cases hflow with
      | write data => exact .inl trivial
      | stop hf => exact .inr rfl
      | wait hf => rw [hflag] at hf; cases hf
      | _ => rcases hp with hp | hp <;> cases hp
    · rw [h.worker_same h.own ht hs]; exact h.past

theorem reach_inv {P : Sys × Hist → Prop} {y : Sys × Hist} (hr : Reach (tstep lc) OneClose x y)
    (hy : ¬ Gone y) (h₀ : P x)
    (hstep : ∀ z l z', P z → OneClose z l → tstep lc z l = some z' → Gone z' ∨ P z') : P y := by
  refine (hr.inv (P := fun z => Gone z ∨ P z) (.inr h₀) ?_).resolve_left hy
  rintro z l z' (hz | hz) hl hs
  · exact absurd hz (not_gone_of_tstep hs)
  · exact hstep z l z' hz hl hs

theorem Shutting.store (h : Shutting p₀ x) (hpc : x.1.pc c = .close .close .store)
    (hl : OneClose x (.run c env)) (hs : tstep lc x (.run c env) = some x') :
    Behind p₀ c (x.2.due c) x' ∧ x'.1.pc c = .close .close .join ∧ x'.1.pc 0 = x.1.pc 0 ∧
      x'.2 = x.2 := by
  have hk : kind (x.1.pc c) = .close := by rw [hpc]; rfl
  have hc : c ≠ 0 := by rintro rfl; exact h.worker_kind hk
  have h' := h.run_close hk (by rw [hpc]; rintro ⟨⟩) hl hs
  obtain ⟨-, he, hx⟩ := tstep_run hs
  obtain ⟨hflow, hothers, -, -⟩ := h.closes hk he
  have hx' : x'.2 = x.2 := by rw [hx, moveOf, hpc]; rfl
  have hpc' : x'.1.pc c = .close .close .join := by
    rw [hpc] at hflow
    generalize x'.1.pc c = pc' at hflow
    cases hflow
    rfl
  exact ⟨⟨h', by rw [hpc']; exact Nat.le_refl 1, by rw [hx']⟩, hpc', hothers 0 hc.symm, hx'⟩

theorem exists_storedAt {s : Sys} (hs : Started lc .async s)
    (hr : Reach (tstep lc) OneClose (s, .empty) x) (hx : Shutting s.p x) (hp : 1 ≤ phase (x.1.pc c)) :
    ∃ y, StoredAt lc s c y x := by
  induction hr with
  | refl =>
    have hc : phase (s.pc c) = 0 := hs.forall_pc (Q := fun pc => phase pc = 0) rfl phase_workerStart c
    rw [hc] at hp
    cases hp
  | @tail y x l hy hl hstep ih =>
    have hy' := (Started.reach_shutting hs hy).resolve_left (not_gone_of_tstep hstep)
    by_cases hpy : 1 ≤ phase (y.1.pc c)
    · obtain ⟨z, hz, hzc, env, z₁, hzl, hzs, hzr⟩ := ih hy' hpy
      exact ⟨z, hz, hzc, env, z₁, hzl, hzs, hzr.tail hl hstep⟩
    cases l with
    | call t call =>
      obtain ⟨-, -, -, rfl⟩ := tstep_call hstep
      by_cases hc : c = t
      · subst hc
        rw [goto_pc_self] at hp
        cases call <;> cases hp
      · rw [goto_pc_of_ne _ hc] at hp
        exact absurd hp hpy
    | run t env =>
      obtain ⟨-, he, -⟩ := tstep_run hstep
      have hk : kind (y.1.pc t) = .close := by
        by_contra hk
        rw [phase_of_stepped (exec_stepped he) hk c] at hp
        exact hpy hp
      have hflow := hy'.closes hk he
      by_cases hc : c = t
      · subst hc
        exact ⟨y, hy, hflow.flow.store_of_phase hpy hp, env, x, hl, hstep, .refl⟩
      · rw [hflow.others c hc] at hp
        exact absurd hp hpy

/-- The records that had been appended before the call are safe, if the worker is not past its drain when
the flag is set, or has left none of them in the buffer. -/
theorem Shutting.safe (h : Shutting p₀ x) (hdir : p₀.mlog.sgLogdir ≠ [])
    (hpc : x.1.pc c = .close .close .store)
    (hpast : x.1.p.mlog.sgThreadAsync = .own → Past (x.1.pc 0) → ∀ r ∈ x.2.due c, r ∉ x.2.pipe.buf)
    (hl : OneClose x (.run c env)) (hs : tstep lc x (.run c env) = some x') :
    Safe p₀ c (x.2.due c) x' := by
  obtain ⟨hb, hpc', h0, hx⟩ := Shutting.store h hpc hl hs
  have hk : kind (x.1.pc c) = .close := by rw [hpc]; rfl
  have hphase : ∀ u, phase (x.1.pc u) ≤ 0 :=
    (forall_phase_le fun u hu => h.phase_others hk hu).mpr (by rw [hpc]; exact Nat.le_refl 0)
  have hth : x'.1.p.mlog.sgThreadAsync = x.1.p.mlog.sgThreadAsync :=
    hb.coupled.holds.same.thread.trans h.coupled.holds.same.thread.symm
  refine ⟨hb, fun r hr => ?_, ?_⟩
  · rw [hx]
    exact h.kept hdir (fun u => (hphase u).trans (Nat.zero_le 2)) r (h.due c r hr)
  rw [hth, hpc', h0, hx]
  cases hown : x.1.p.mlog.sgThreadAsync with
  | shared => exact .inl fun h0 => by cases h0
  | own =>
    rcases (atWork_own hown).mp h.worker with ⟨pc, hw⟩ | ⟨-, hflag⟩
    · rw [hw] at hpast ⊢
      rcases past_or_toDrain pc with hp | hd
      · exact .inr (hpast hown hp)
      · exact .inl fun _ => hd
    · obtain ⟨u, hu⟩ := h.flag.mp hflag
      exact absurd (hu.trans (hphase u)) (by decide)

/-- A record in the buffer is lost, if the own worker is past its drain when the flag is set. -/
theorem Shutting.lost (h : Shutting p₀ x) (hown : x.1.p.mlog.sgThreadAsync = .own)
    (hpc : x.1.pc c = .close .close .store) (hpast : Past (x.1.pc 0)) (hr : r ∈ x.2.due c)
    (hb : r ∈ x.2.pipe.buf) (hl : OneClose x (.run c env))
    (hs : tstep lc x (.run c env) = some x') : Lost p₀ c (x.2.due c) r x' := by
  obtain ⟨hbehind, -, h0, hx⟩ := Shutting.store h hpc hl hs
  have hth : x'.1.p.mlog.sgThreadAsync = x.1.p.mlog.sgThreadAsync :=
    hbehind.coupled.holds.same.thread.trans h.coupled.holds.same.thread.symm
  have hn : ∀ p, p ≠ .buf → r ∉ x.2.pipe.items p := fun p hp hi => hp (h.apart.once r p .buf hi hb)
  refine ⟨hbehind, hth.trans hown, .inl (h0 ▸ hpast), hr, ?_, fun u => ?_⟩
  · rw [hx]; exact hn .out (by rintro ⟨⟩)
  · rw [hx]; exact hn (.hand u) (by rintro ⟨⟩)

end Steps

/-! ### Two runs -/

/-- Appends. -/
def AppendCall : Call → Prop
  | .append _ _ => True
  | _ => False

section Runs

variable {lc : Libc} {s : Sys} {x : Sys × Hist} {l : Label} {c : ℕ}

theorem oneClose_of_append (h : Allowed AppendCall x l) : OneClose x l := by
  cases l with
  | call t c => cases c <;> trivial
  | run t env => exact h

theorem exists_store (hr : Reach (tstep lc) OneClose (s, .empty) x)
    (hx : Shutting s.p x) (hc : c ≠ 0) (hi : x.1.pc c = .idle)
    (hone : ∀ u, kind (x.1.pc u) ≠ .close) :
    ∃ y, Reach (tstep lc) OneClose (s, .empty) y ∧ Shutting s.p y ∧ y.1.pc c = .close .close .store ∧
      y.2 = { x.2 with due := Function.update x.2.due c x.2.pipe.log } ∧
      (∀ u, u ≠ c → y.1.pc u = x.1.pc u) ∧ y.1.spin = x.1.spin := by
  have hcall : tstep lc x (.call c .closeDestroy) = some (x.1.goto c (.close .close .load),
      { x.2 with due := Function.update x.2.due c x.2.pipe.log }) := by
    rw [tstep, Threads.step, if_pos ⟨hx.deleted, hc, Pc.isIdle_iff.mpr hi⟩]
    rfl
  have hl : OneClose x (.call c .closeDestroy) := hone
  have h₁ := hx.call hl hcall
  have hpc : (x.1.goto c (.close .close .load)).pc c = .close .close .load := goto_pc_self ..
  obtain ⟨y, hl₁, hs₁, hy, hcl, hspin, hy₂⟩ := h₁.close_step lc (c := c) (by rw [hpc]; rfl)
    (by rw [hpc]; rintro ⟨⟩) (fun _ h0 => by rw [hpc] at h0; cases h0)
    (fun h0 => by rw [hpc] at h0; cases h0)
  refine ⟨y, (hr.tail hl hcall).tail hl₁ hs₁, hy, ?_, ?_, fun u hu => ?_, hspin⟩
  · have hf := hcl.flow
    rw [hpc] at hf
    generalize y.1.pc c = pc at hf
    cases hf
    rfl
  · rw [hy₂, moveOf, hpc]; rfl
  · rw [hcl.others u hu, goto_pc_of_ne _ hu]

/-- A lap of the own worker around an empty buffer, up to the test of the flag. -/
theorem AloneReach.lap {h : Hist} (hr : AloneReach lc AppendCall (s, .empty) (s, h))
    (hd : s.deleted = false) (hpc : s.pc 0 = .loop .top) {lb : LogBuffer} (hl : Live s.p lb)
    (hc : lb.content = []) :
    AloneReach lc AppendCall (s, .empty)
      (Sys.goto { s with p := { s.p with mlog := { s.p.mlog with sgLogBuff := some lb.clear } } } 0
        (.loop .load), { h with pipe := h.pipe.move (.drain 0) }) := by
  let p₁ : Proc := { s.p with mlog := { s.p.mlog with sgLogBuff := some lb.clear } }
  have he₁ : exec lc .ok 0 s (s.pc 0) = some (s.goto 0 (.loop (.task .load))) := by
    rw [hpc, exec, loopStep, hl.buff]; rfl
  have h₁ := hr.quiet hd (by rw [hpc]; rfl) he₁
  let s₂ : Sys := s.goto 0 (.loop (.task .drain))
  have he₂ : exec lc .ok 0 (s.goto 0 (.loop (.task .load)))
      ((s.goto 0 (.loop (.task .load))).pc 0) = some s₂ := by
    rw [goto_pc_self, exec, loopStep, Sys.runTask, taskStep, goto_p, hl.buff]
    exact congrArg some (goto_goto ..)
  have h₂ := h₁.quiet hd (by rw [goto_pc_self]; rfl) he₂
  have hpc₂ : s₂.pc 0 = .loop (.task .drain) := goto_pc_self ..
  have he₃ : exec lc .ok 0 s₂ (s₂.pc 0) = some (Sys.goto { s with p := p₁ } 0 (.loop .load)) := by
    rw [hpc₂, exec, loopStep, Sys.runTask, taskStep, goto_p, hl.buff, drainBuffer_eq hl, if_pos hc]
    exact congrArg some (goto_goto { s with p := p₁ } 0 _ _)
  refine h₂.tail (a := .run 0 .ok) ⟨stepOk_ok (by rw [hpc₂]; rintro _ _ ⟨⟩), fun _ hb => ?_⟩ ?_
  · exact absurd (hl.buffered.trans hc) hb
  · rw [tstep_of_exec (s := s₂) hd he₃, moveOf, hpc₂]; rfl

/-- A new appender with its own worker, which is past its drain when thread `1` has appended `"a\n"` and is
about to set the flag. -/
theorem exists_past (lc : Libc) :
    ∃ s x, Started lc .async s ∧ s.p.mlog.sgThreadAsync = .own ∧ sink s.p = ⟨[], []⟩ ∧
      Reach (tstep lc) OneClose (s, .empty) x ∧ Shutting s.p x ∧ x.1.pc 1 = .close .close .store ∧
      x.1.pc 0 = .loop .load ∧ x.1.spin = none ∧ x.2.due 1 = [(0, ascii "a\n")] ∧
      x.2.pipe.log = [(0, ascii "a\n")] ∧ x.2.pipe.buf = [(0, ascii "a\n")] := by
  obtain ⟨s, hs, hw, hth, -, hfile⟩ :=
    exists_started lc .own .async (fun _ => rfl) ⟨ascii "d", by decide⟩ ⟨ascii "n", by decide⟩
  obtain ⟨lb, ho, hc, hmode, -⟩ := hs.open_spec
  have hr₀ : AloneReach lc AppendCall (s, .empty) (s, .empty) := .refl
  have hr₁ := AloneReach.lap hr₀ hs.deleted hw ho.toLive hc
  have h₁ := hs.reach_tracked (hr₁.mono fun _ _ hl => hl.1)
  obtain ⟨hl, hcontent⟩ := h₁.coupled.holds.live _ rfl
  have hi : Function.update s.pc 0 (.loop .load) 1 = .idle := by
    rw [Function.update_of_ne (by decide), hs.others 1 (by decide)]
  obtain ⟨p, he, hr₂⟩ := hr₁.append (t := 1) hs.deleted (by decide) hi (by rw [goto_pc_self]; rintro ⟨⟩)
    ⟨hl, ho.flag⟩ hmode textA (by decide) (by rw [hl.good.content_eq_nil_iff.mp hcontent]; decide) trivial
  have hr₃ := hr₂.mono fun _ _ hl => oneClose_of_append hl.1
  have hx := Started.shutting_of_reach hs hr₃ hs.deleted
  have hkind : ∀ u, kind (Function.update s.pc 0 (.loop .load) u) ≠ .close := by
    intro u
    by_cases hu : u = 0
    · subst hu
      rw [Function.update_self]; rintro ⟨⟩
    · rw [Function.update_of_ne hu, hs.others u hu]; rintro ⟨⟩
  obtain ⟨y, hr, hy, hpc, hy₂, hothers, hspin⟩ := exists_store hr₃ hx (c := 1) (by decide)
    hi hkind
  have hw₀ : y.1.pc 0 = Function.update s.pc 0 (.loop .load) 0 := hothers 0 (by decide)
  refine ⟨s, y, hs, hth, hfile, hr, hy, hpc, ?_, hspin.trans hs.spin, ?_, ?_, ?_⟩
  · rw [hw₀, Function.update_self]
  · rw [hy₂]; rfl
  · rw [hy₂]; rfl
  · rw [hy₂]; rfl

end Runs

/-! ### The promise of `close` -/

/-- **What `close` and `destroy` keep**, in every interleaving of appends, the steps of the worker and one
call of `close` and `destroy`. When `destroy` returns, the records that had been appended before the call of
`close` are in the log file exactly when the directory is not empty (or there are none) and, with the own
worker, none of them was in the buffer when the flag was set while the worker was past its drain. -/
theorem close_keeps_iff {lc : Libc} {s : Sys} (hs : Started lc .async s) {y : Sys × Hist}
    (hr : Reach (tstep lc) OneClose (s, .empty) y) {c : ℕ} (hret : y.1.pc c = .delete) :
    logFile y.1.p = logFile s.p ++ bytes y.2.pipe.out ∧ (∃ x, StoredAt lc s c x y) ∧
    ∀ x, StoredAt lc s c x y → y.2.due c = x.2.due c ∧
      ((∀ r ∈ y.2.due c, r ∈ y.2.pipe.out) ↔
        (s.p.mlog.sgLogdir ≠ [] ∨ y.2.due c = []) ∧
        (s.p.mlog.sgThreadAsync = .own → Past (x.1.pc 0) → ∀ r ∈ y.2.due c, r ∉ x.2.pipe.buf)) := by
  have hk : kind (y.1.pc c) = .close := by rw [hret]; rfl
  have hngone : ¬ Gone y := fun hg => hg.2 c hk
  have hy := (Started.reach_shutting hs hr).resolve_left hngone
  have hasync := (Started.reach_inAsync hs hr).resolve_left hngone
  refine ⟨hy.toTracked.logFile hs hasync, exists_storedAt hs hr hy (by rw [hret]; decide), fun x hx => ?_⟩
  obtain ⟨hrx, hpc, env, x₁, hl, hstep, hry⟩ := hx
  have hxs := (Started.reach_shutting hs hrx).resolve_left (not_gone_of_tstep hstep)
  have hth : x.1.p.mlog.sgThreadAsync = s.p.mlog.sgThreadAsync := hxs.coupled.holds.same.thread
  -- what holds behind the store holds at the end
  have hb : Behind s.p c (x.2.due c) y :=
    reach_inv hry hngone (Shutting.store hxs hpc hl hstep).1 fun _ _ _ hz hl hs => hz.step hl hs
  refine ⟨hb.dueEq, ?_⟩
  rw [hb.dueEq]
  constructor
  · intro hout
    refine ⟨?_, fun hown hpast r hr hbuf => ?_⟩
    · by_cases hdir : s.p.mlog.sgLogdir = []
      · right
        rw [hy.empty hdir] at hout
        exact List.eq_nil_iff_forall_not_mem.mpr fun r hr => List.not_mem_nil (hout r hr)
      · exact .inl hdir
    · have hlost : Lost s.p c (x.2.due c) r y :=
        reach_inv hry hngone (Shutting.lost hxs (hth.trans hown) hpc hpast hr hbuf hl hstep)
          fun _ _ _ hz hl hs => hz.step hl hs
      exact hlost.out (hout r hr)
  · rintro ⟨hdir, hpast⟩ r hr
    have hdir' : s.p.mlog.sgLogdir ≠ [] := by
      rcases hdir with hd | hd
      · exact hd
      · rw [hd] at hr; exact absurd hr List.not_mem_nil
    have hsafe : Safe s.p c (x.2.due c) y :=
      reach_inv hry hngone (Shutting.safe hxs hdir' hpc (fun hown => hpast (hth.symm.trans hown)) hl hstep)
        fun _ _ _ hz hl hs => hz.step hdir' hl hs
    refine (hy.apart.mem_out_iff (hsafe.held r hr)).mpr ⟨?_, fun u => ?_⟩
    · rcases hsafe.safe with hw | hb
      · rw [hret] at hw; exact hw.elim
      · exact hb r hr
    · rw [hy.hand_eq_nil hret u]; exact List.not_mem_nil

theorem close_keeps_iff_append :
    ∃ (s : Sys) (y : Sys × Hist), Started utc .async s ∧ y.1.pc 1 = .delete ∧
      y.2.due 1 = [(0, ascii "a\n")] ∧ (0, ascii "a\n") ∈ y.2.pipe.out ∧
      logFile y.1.p = logFile s.p ++ bytes y.2.pipe.out := by
  -- the shared worker does not move
  obtain ⟨s, p, lb, hs, hw, hth, -, -, -, -, hdir, hr₀⟩ :=
    exists_appended utc .shared (show AppendCall _ from trivial)
  have hr₁ := hr₀.mono fun _ _ hl => oneClose_of_append hl.1
  have hx := Started.shutting_of_reach hs hr₁ hs.deleted
  obtain ⟨x, hr, hxs, hpc, hx₂, -, hspin⟩ := exists_store hr₁ hx (c := 1) (by decide)
    (hs.others 1 (by decide)) fun u => Started.kind_ne_close hs u
  have hth' : x.1.p.mlog.sgThreadAsync = .shared := hxs.coupled.holds.same.thread.trans hth
  obtain ⟨x₁, hl, hstep, hx₁, hcl, hspin₁, -⟩ := hxs.close_step utc (c := 1) (by rw [hpc]; rfl)
    (by rw [hpc]; rintro ⟨⟩) (fun h0 => by rw [hth'] at h0; cases h0)
    (fun h0 => by rw [hpc] at h0; cases h0)
  obtain ⟨hb, -, -, -⟩ := Shutting.store hxs hpc hl hstep
  obtain ⟨y, hry, hret, -⟩ := hx₁.finish utc hb.stored
    (fun h0 => by rw [hx₁.coupled.holds.same.thread, hth] at h0; cases h0)
    ((hspin₁.trans hspin).trans hs.spin)
  obtain ⟨hfile, -, hiff⟩ := close_keeps_iff hs ((hr.tail hl hstep).trans hry) hret
  obtain ⟨hdue, hiff⟩ := hiff x ⟨hr, hpc, .ok, x₁, hl, hstep, hry⟩
  have hdue' : y.2.due 1 = [(0, ascii "a\n")] := by rw [hdue, hx₂]; rfl
  refine ⟨s, y, hs, hret, hdue', hiff.mpr ⟨.inl ?_, fun h0 => ?_⟩ _ ?_, hfile⟩
  · rw [← hx.coupled.holds.same.dir]; exact hdir
  · rw [hth] at h0; cases h0
  · rw [hdue']; exact List.mem_singleton_self _

/-- **A lost record**: the own worker has drained the empty buffer when thread `1` appends `"a\n"` and closes;
it finds the flag set and ends, and `close` wipes the buffer. -/
theorem close_loses :
    ∃ (s : Sys) (y : Sys × Hist), Started utc .async s ∧ s.p.mlog.sgThreadAsync = .own ∧
      Reach (tstep utc) OneClose (s, .empty) y ∧ y.1.pc 1 = .delete ∧
      y.2.due 1 = [(0, ascii "a\n")] ∧ (0, ascii "a\n") ∉ y.2.pipe.out ∧ logFile y.1.p = [] := by
  obtain ⟨s, x, hs, hth, hfile, hr, hx, hpc, hw, hspin, hdue, hlog, hbuf⟩ := exists_past utc
  have hth' : x.1.p.mlog.sgThreadAsync = .own := hx.coupled.holds.same.thread.trans hth
  -- the store of the flag
  obtain ⟨x₁, hl, hstep, hx₁, hcl, hspin₁, hx₁₂⟩ := hx.close_step utc (c := 1) (by rw [hpc]; rfl)
    (by rw [hpc]; rintro ⟨⟩) (fun _ h0 => by rw [hpc] at h0; cases h0)
    (fun h0 => by rw [hpc] at h0; cases h0)
  have hlost : Lost s.p 1 (x.2.due 1) (0, ascii "a\n") x₁ :=
    Shutting.lost hx hth' hpc (by rw [hw]; trivial) (by rw [hdue]; exact List.mem_singleton_self _)
      (by rw [hbuf]; exact List.mem_singleton_self _) hl hstep
  have hw₁ : x₁.1.pc 0 = .loop .load := (hcl.others 0 (by decide)).trans hw
  -- the worker finds the flag set
  have he : exec utc .ok 0 x₁.1 (x₁.1.pc 0) = some (x₁.1.goto 0 .idle) := by
    rw [hw₁, exec, loopStep, if_pos (hlost.flag.mpr ⟨1, hlost.stored⟩)]
  have hs₂ := tstep_of_exec (h := x₁.2) hlost.deleted he
  have hl₂ : OneClose x₁ (.run 0 .ok) := stepOk_ok (by rw [hw₁]; rintro _ _ ⟨⟩)
  have hlost₂ := (hlost.step hl₂ hs₂).resolve_left fun hg => hg.2 1 (by
    rw [goto_pc_of_ne _ (by decide)]; exact hlost.kind)
  obtain ⟨y, hry, hret, hlogy⟩ := hlost₂.finish utc hlost₂.stored (fun _ => goto_pc_self ..)
    ((hspin₁.trans hspin : x₁.1.spin = none))
  have hy : Lost s.p 1 (x.2.due 1) (0, ascii "a\n") y :=
    reach_inv hry (fun hg => hg.2 1 (by rw [hret]; rfl)) hlost₂ fun _ _ _ hz hl hs => hz.step hl hs
  have hlog' : y.2.pipe.log = [(0, ascii "a\n")] := by
    rw [hlogy, moveOf, hw₁]
    show x₁.2.pipe.log = _
    rw [hx₁₂, moveOf, hpc]
    exact hlog
  have hout : y.2.pipe.out = [] := by
    refine List.eq_nil_iff_forall_not_mem.mpr fun r hr => ?_
    have := hy.apart.logged r .out hr
    rw [hlog', List.mem_singleton] at this
    exact hy.out (this ▸ hr)
  refine ⟨s, y, hs, hth, ((hr.tail hl hstep).tail hl₂ hs₂).trans hry, hret, hy.dueEq.trans hdue, hy.out,
    hy.toTracked.logFile_of_out hfile hout⟩

end MTAppenderFile.Loglib.Closing
