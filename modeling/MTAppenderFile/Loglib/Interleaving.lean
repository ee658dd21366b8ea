import MTAppenderFile.Loglib.Exactness
import MTAppenderFile.Loglib.Pipeline

/-! # Interleavings of an open appender

As long as no thread closes the appender, it stays open (`Running`): a thread that is about to drain or to
write can do so, and an append call that nobody interrupts puts its record in the buffer
(`AloneReach.append`). -/

namespace MTAppenderFile.Loglib.Interleaving

open MTAppenderFile.Lib.Handover
open MTAppenderFile.Lib.Run
open MTAppenderFile.Comm.CTypes
open MTAppenderFile.Loglib.Base
open MTAppenderFile.Loglib.Buffer
open MTAppenderFile.Loglib.Files
open MTAppenderFile.Loglib.Formatter
open MTAppenderFile.Loglib.Appender
open MTAppenderFile.Loglib.Session
open MTAppenderFile.Loglib.Lifecycle
open MTAppenderFile.Loglib.Exactness
open MTAppenderFile.Loglib.Threads
open MTAppenderFile.Loglib.Steps
open MTAppenderFile.Loglib.Pipeline

/-- **An open appender with its threads.** -/
structure Running (p₀ : Proc) (x : Sys × Hist) : Prop extends Tracked p₀ x where
  flag : x.1.p.mlog.sgLogClose = false
  buff : x.1.p.mlog.sgLogBuff.isSome
  close : ∀ t, kind (x.1.pc t) ≠ .close
  deleted : x.1.deleted = false

theorem Started.kind_ne_close {lc : Libc} {mode : AppendMode} {s : Sys} (h : Started lc mode s) (t : ℕ) :
    kind (s.pc t) ≠ .close := by
  refine h.forall_pc (Q := fun pc => kind pc ≠ .close) (by rintro ⟨⟩) (fun th => ?_) t
  rw [kind_workerStart]; rintro ⟨⟩

theorem Started.running {lc : Libc} {mode : AppendMode} {s : Sys} (h : Started lc mode s) :
    Running s.p (s, .empty) := by
  obtain ⟨lb, ho, -, -⟩ := h.open_spec
  exact ⟨h.tracked, ho.flag, by rw [ho.buff]; rfl, Started.kind_ne_close h, h.deleted⟩

theorem eq_closeDestroy {c : Call} (h : kind c.entry = .close) : c = .closeDestroy := by
  cases c <;> first | rfl | cases h

section Steps

variable {lc : Libc} {calls : Call → Prop} {p₀ : Proc} {x x' : Sys × Hist} {l : Label}

theorem Running.run (h : Running p₀ x) {t : ℕ} {env : FileEnv} (hok : StepOk x.1 t env)
    (hs : tstep lc x (.run t env) = some x') : Running p₀ x' := by
  have ht : Tracked p₀ x' := h.toTracked.step (l := .run t env) (show Allowed (fun _ => True) x _ from hok) hs
  obtain ⟨-, he, -⟩ := tstep_run hs
  have hst := exec_stepped he
  have hf := hst.does.frame h.coupled.holds.handle
  have hclose := h.close t
  refine ⟨ht, ?_, ?_, hst.forall_pc (Q := fun pc => kind pc ≠ .close) h.close (fun th => ?_) ?_, ?_⟩
  · rw [Bool.eq_false_iff, ne_eq, hf.flag, h.flag]
    rintro (h0 | h0)
    · cases h0
    · exact hclose (kind_of_act h0 rfl)
  · exact hf.buff.mpr ⟨h.buff, fun h0 => hclose (kind_of_act h0 rfl)⟩
  · rw [kind_workerStart]; rintro ⟨⟩
  · exact hst.kind_ne_close hclose
  · rw [hst.rest.deleted hclose, h.deleted]

/-- **Every step but a call of `close` keeps the appender open.** -/
theorem Running.step (h : Running p₀ x) (hcalls : ¬ calls .closeDestroy) (hl : Allowed calls x l)
    (hs : tstep lc x l = some x') : Running p₀ x' := by
  cases l with
  | run t env => exact h.run hl hs
  | call t c =>
    have ht := h.toTracked.step hl hs
    obtain ⟨-, -, -, rfl⟩ := tstep_call hs
    refine ⟨ht, h.flag, h.buff, fun u => ?_, h.deleted⟩
    by_cases hu : u = t
    · subst hu
      rw [goto_pc_self]
      intro hk
      rw [eq_closeDestroy hk] at hl
      exact hcalls hl
    · rw [goto_pc_of_ne _ hu]; exact h.close u

theorem Running.opened (h : Running p₀ x) :
    ∃ lb, Opened x.1.p lb ∧ lb.content = bytes x.2.pipe.buf := by
  obtain ⟨lb, hlb⟩ := Option.isSome_iff_exists.mp h.buff
  obtain ⟨hl, hc⟩ := h.coupled.holds.live lb hlb
  exact ⟨lb, ⟨hl, h.flag⟩, hc⟩

theorem stepOk_ok {s : Sys} {t : ℕ} (h : ∀ info log, act (s.pc t) ≠ .insert info log) :
    StepOk s t .ok := ⟨FileEnv.succeeds_ok, fun info log ha => absurd ha (h info log)⟩

theorem Running.others {s' : Sys} {t u : ℕ} {env : FileEnv}
    (he : exec lc env t x.1 (x.1.pc t) = some s') (hw : x.1.pc 0 ≠ .idle) (hu : u ≠ t) :
    s'.pc u = x.1.pc u := by
  rcases (exec_stepped he).others u hu with h | ⟨-, h, -⟩
  · exact h
  · exact absurd h hw

theorem drainBuffer_eq {p : Proc} {lb : LogBuffer} (hl : Live p lb) :
    drainBuffer p = some ({ p with mlog := { p.mlog with sgLogBuff := some lb.clear } },
      if lb.content = [] then none else some lb.content) := by
  obtain ⟨tmp, hf, ht⟩ := flushLogBuff_eq hl
  rw [drainBuffer, hf, ← ht]; rfl

theorem Running.deliver (h : Running p₀ x) (lc : Libc) (hdir : x.1.p.mlog.sgLogdir ≠ []) {t : ℕ}
    (ht : x.2.pipe.hand t ≠ []) :
    ∃ x', tstep lc x (.run t .ok) = some x' ∧ StepOk x.1 t .ok ∧ Running p₀ x' ∧
      x'.2 = { x.2 with pipe := x.2.pipe.move (.deliver t) } ∧
      (x.1.pc 0 ≠ .idle → ∀ u, u ≠ t → x'.1.pc u = x.1.pc u) := by
  obtain ⟨data, ha⟩ := chunk_ne_none_iff.mp fun hc => ht (h.coupled.hand_eq_nil.mpr hc)
  obtain ⟨s', he⟩ := exec_write_enabled (s := x.1) lc .ok t ha
  have hs := tstep_of_exec (h := x.2) h.deleted he
  have hok : StepOk x.1 t .ok := stepOk_ok (by rw [ha]; rintro _ _ ⟨⟩)
  refine ⟨_, hs, hok, h.run hok hs, ?_,
    fun hw u hu => Running.others he hw hu⟩
  simp only [moveOf, ha, if_neg hdir]

theorem Running.drain (h : Running p₀ x) (lc : Libc) {t : ℕ} (ht : act (x.1.pc t) = .drain) :
    ∃ x', tstep lc x (.run t .ok) = some x' ∧ StepOk x.1 t .ok ∧ Running p₀ x' ∧
      x'.2 = { x.2 with pipe := x.2.pipe.move (.drain t) } ∧
      (x.1.pc 0 ≠ .idle → ∀ u, u ≠ t → x'.1.pc u = x.1.pc u) := by
  obtain ⟨lb, ho, -⟩ := h.opened
  obtain ⟨s', he⟩ := exec_drain_enabled lc .ok t ht (by rw [ho.buff]; rfl)
    (drainBuffer_eq ho.toLive)
  have hs := tstep_of_exec (h := x.2) h.deleted he
  have hok : StepOk x.1 t .ok := stepOk_ok (by rw [ht]; rintro _ _ ⟨⟩)
  refine ⟨_, hs, hok, h.run hok hs, ?_,
    fun hw u hu => Running.others he hw hu⟩
  simp only [moveOf, ht]

end Steps

/-! ### Calls that nobody interrupts -/

/-- No thread drains records while another one has drained bytes to write. -/
def Alone (x : Sys × Hist) : Label → Prop
  | .call _ _ => True
  | .run t _ => act (x.1.pc t) = .drain → buffered x.1.p ≠ [] → ∀ u, chunk (x.1.pc u) = none

section Calls

variable {lc : Libc} {calls : Call → Prop} {x₀ : Sys × Hist} {s s' : Sys} {h : Hist} {t : ℕ}

/-- The states reached without two drains at a time. -/
abbrev AloneReach (lc : Libc) (calls : Call → Prop) (x₀ x : Sys × Hist) : Prop :=
  Reach (tstep lc) (fun x l => Allowed calls x l ∧ Alone x l) x₀ x

theorem AloneReach.call (hr : AloneReach lc calls x₀ (s, h)) (hd : s.deleted = false) (ht : t ≠ 0)
    (hi : s.pc t = .idle) {c : Call} (hc : calls c) :
    AloneReach lc calls x₀
      (s.goto t c.entry, { h with due := Function.update h.due t h.pipe.log }) := by
  refine hr.tail (a := .call t c) ⟨hc, trivial⟩ ?_
  rw [tstep, Threads.step, if_pos ⟨hd, ht, Pc.isIdle_iff.mpr hi⟩]
  rfl

theorem AloneReach.quiet (hr : AloneReach lc calls x₀ (s, h)) (hd : s.deleted = false)
    (ha : act (s.pc t) = .quiet) (he : exec lc .ok t s (s.pc t) = some s') :
    AloneReach lc calls x₀ (s', h) := by
  have hm : moveOf lc h.pipe.log.length t s = .stay := by rw [moveOf, ha]
  refine hr.tail (a := .run t .ok) ⟨⟨FileEnv.succeeds_ok, ?_⟩, ?_⟩ ?_
  · rw [ha]; rintro _ _ ⟨⟩
  · intro hdrain; rw [ha] at hdrain; cases hdrain
  · rw [tstep_of_exec hd he, hm]; rfl

/-- **An append call** of a thread, from its call to its return. -/
theorem AloneReach.append (hr : AloneReach lc calls x₀ (s, h)) (hd : s.deleted = false) (ht : t ≠ 0)
    (hi : s.pc t = .idle) (hw : s.pc 0 ≠ .idle) {lb : LogBuffer} (ho : Opened s.p lb)
    (hmode : s.p.mlog.sgMode = .async) (body : CStr) (hne : body.bytes ≠ [])
    (hlt : lb.buff.length < 153600 * 4 / 5) (hc : calls (.append none (some body))) :
    ∃ p', Effect s.p p' (lb.write (formatRecord body.bytes)).2 (sink s.p) ∧
      AloneReach lc calls x₀ ({ s with p := p' },
        { pipe := h.pipe.move (.insert (h.pipe.log.length, formatRecord body.bytes))
          due := Function.update h.due t h.pipe.log }) := by
  have hp := printed_none lc s.p.statics hne
  obtain ⟨p', entry, ha, he, -, -, -, -, hent⟩ := appenderAsync_effect ho.toLive hp
  rw [hent (by omega)] at he
  refine ⟨p', he, ?_⟩
  have h₁ := hr.call hd ht hi hc
  have he₁ : exec lc .ok t (s.goto t (Call.append none (some body)).entry)
      ((s.goto t (Call.append none (some body)).entry).pc t) =
      some (s.goto t (.append none (some body) .mode)) := by
    simp [exec, Call.entry, appendStep, ho.flag]
  have h₂ := h₁.quiet hd (by rw [goto_pc_self]; rfl) he₁
  have he₂ : exec lc .ok t (s.goto t (.append none (some body) .mode))
      ((s.goto t (.append none (some body) .mode)).pc t) =
      some (s.goto t (.append none (some body) .async)) := by
    simp [exec, appendStep, hmode]
  have h₃ := h₂.quiet hd (by rw [goto_pc_self]; rfl) he₂
  have hidle : Sys.goto { s with p := p' } t .idle = { s with p := p' } :=
    goto_eq_self (s := { s with p := p' }) hi
  have hstart : Sys.start { s with p := p' } = { s with p := p' } := by
    rw [Sys.start, if_neg fun h => hw (Pc.isIdle_iff.mp h)]
  have hx : exec lc .ok t (s.goto t (.append none (some body) .async))
      ((s.goto t (.append none (some body) .async)).pc t) = some { s with p := p' } := by
    have hg : Sys.goto { s.goto t (.append none (some body) .async) with p := p' } t .idle =
        { s with p := p' } := by rw [← hidle]; simp only [Sys.goto, Function.update_idem]
    simp only [goto_pc_self, exec, appendStep, goto_p, ha, Option.bind_eq_bind, Option.bind_some, hg,
      hstart, ite_self]
  refine h₃.tail (a := .run t .ok) ⟨⟨FileEnv.succeeds_ok, fun _ _ _ => ?_⟩, ?_⟩ ?_
  · rw [goto_p, ho.bufferLength]; exact hlt
  · intro h; rw [goto_pc_self] at h; cases h
  · rw [tstep_of_exec (s := s.goto t _) hd hx]
    simp only [moveOf, goto_pc_self, act, goto_p, ho.buff, printed_of hp]
    rfl

/-- **An append call** in sync mode. -/
theorem AloneReach.appendSync (hr : AloneReach lc calls x₀ (s, h)) (hd : s.deleted = false) (ht : t ≠ 0)
    (hi : s.pc t = .idle) {lb : LogBuffer} (ho : Opened s.p lb) (hmode : s.p.mlog.sgMode = .sync)
    (hdir : s.p.mlog.sgLogdir ≠ []) (body : CStr) (hne : body.bytes ≠ []) (hc : calls (.append none (some body))) :
    ∃ p', Effect s.p p' lb (writeBack lc .ok s.p.mlog (formatRecord body.bytes) (sink s.p)) ∧
      AloneReach lc calls x₀ ({ s with p := p' },
        { pipe := h.pipe.move (.direct (h.pipe.log.length, formatRecord body.bytes))
          due := Function.update h.due t h.pipe.log }) := by
  let data := formatRecord body.bytes
  have hp := printed_none lc s.p.statics hne
  refine ⟨_, log2file_effect ho.toLive data, ?_⟩
  have h₁ := hr.call hd ht hi hc
  have he₁ : exec lc .ok t (s.goto t (Call.append none (some body)).entry)
      ((s.goto t (Call.append none (some body)).entry).pc t) =
      some (s.goto t (.append none (some body) .mode)) := by
    simp [exec, Call.entry, appendStep, ho.flag]
  have h₂ := h₁.quiet hd (by rw [goto_pc_self]; rfl) he₁
  have he₂ : exec lc .ok t (s.goto t (.append none (some body) .mode))
      ((s.goto t (.append none (some body) .mode)).pc t) =
      some (s.goto t (.append none (some body) (.write data))) := by
    simp only [goto_pc_self, exec, appendStep, goto_p, hmode, if_true, appenderSyncBuffer_eq hp,
      Option.bind_eq_bind, Option.bind_some]
    exact congrArg some (goto_goto s t _ _)
  have h₃ := h₂.quiet hd (by rw [goto_pc_self]; rfl) he₂
  have hidle : Sys.goto { s with p := log2file lc .ok data s.p } t .idle =
      { s with p := log2file lc .ok data s.p } := goto_eq_self (s := { s with p := log2file lc .ok data s.p }) hi
  have hx : exec lc .ok t (s.goto t (.append none (some body) (.write data)))
      ((s.goto t (.append none (some body) (.write data))).pc t) =
      some { s with p := log2file lc .ok data s.p } := by
    rw [goto_pc_self, exec, appendStep, ← hidle]
    exact congrArg some (goto_goto { s with p := log2file lc .ok data s.p } t _ _)
  refine h₃.tail (a := .run t .ok) ⟨stepOk_ok (by rw [goto_pc_self]; rintro _ _ ⟨⟩), fun h => ?_⟩ ?_
  · rw [goto_pc_self] at h; cases h
  · rw [tstep_of_exec (s := s.goto t _) hd hx]
    have hm : moveOf lc h.pipe.log.length t (s.goto t (.append none (some body) (.write data))) =
        .direct (h.pipe.log.length, data) := by
      rw [moveOf, goto_pc_self]
      exact if_neg hdir
    rw [hm]

/-- **A call of `flush_sync`** in async mode, up to its drain. -/
theorem AloneReach.flushSync (hr : AloneReach lc calls x₀ (s, h)) (hd : s.deleted = false)
    (ht : t ≠ 0) (hi : s.pc t = .idle) (hmode : s.p.mlog.sgMode = .async) (hc : calls .flushSync) :
    AloneReach lc calls x₀
      (s.goto t (.flush .drain), { h with due := Function.update h.due t h.pipe.log }) := by
  have h₁ := hr.call hd ht hi hc
  exact h₁.quiet (t := t) hd (by rw [goto_pc_self]; rfl)
    (by simp [exec, Call.entry, flushStep, hmode])

/-- The rest of `flush_sync`, if there is nothing to drain. -/
theorem AloneReach.flushed_empty (hr : AloneReach lc calls x₀ (s, h)) (hd : s.deleted = false)
    (hpc : s.pc t = .flush .drain) {lb : LogBuffer} (hl : Live s.p lb) (hc : lb.content = []) :
    ∃ p', AloneReach lc calls x₀ (Sys.goto { s with p := p' } t (.flush (.ret false)),
      { h with pipe := h.pipe.move (.drain t) }) := by
  let p₁ : Proc := { s.p with mlog := { s.p.mlog with sgLogBuff := some lb.clear } }
  have he : exec lc .ok t s (s.pc t) = some (Sys.goto { s with p := p₁ } t (.flush (.ret false))) := by
    rw [hpc, exec, flushStep, drainBuffer_eq hl, if_pos hc]; rfl
  refine ⟨p₁, hr.tail (a := .run t .ok) ⟨stepOk_ok (by rw [hpc]; rintro _ _ ⟨⟩), fun _ hb => ?_⟩ ?_⟩
  · exact absurd (hl.buffered.trans hc) hb
  · rw [tstep_of_exec hd he, moveOf, hpc]; rfl

theorem AloneReach.drained (hr : AloneReach lc calls x₀ (s, h)) (hd : s.deleted = false)
    (hpc : s.pc t = .flush .drain) {lb : LogBuffer} (hl : Live s.p lb) (hc : lb.content ≠ [])
    (ha : ∀ u, chunk (s.pc u) = none) :
    ∃ x, AloneReach lc calls x₀ x ∧ x.1.deleted = false ∧ x.1.p.mlog.sgLogdir = s.p.mlog.sgLogdir ∧
      x.1.p.mlog.sgMode = s.p.mlog.sgMode ∧ x.1.pc t = .flush (.write lb.content) ∧
      x.2 = { h with pipe := h.pipe.move (.drain t) } := by
  let p₁ : Proc := { s.p with mlog := { s.p.mlog with sgLogBuff := some lb.clear } }
  have he : exec lc .ok t s (s.pc t) =
      some (Sys.goto { s with p := p₁ } t (.flush (.write lb.content))) := by
    rw [hpc, exec, flushStep, drainBuffer_eq hl, if_neg hc]; rfl
  refine ⟨(Sys.goto { s with p := p₁ } t (.flush (.write lb.content)),
      { h with pipe := h.pipe.move (.drain t) }), hr.tail (a := .run t .ok)
    ⟨stepOk_ok (by rw [hpc]; rintro _ _ ⟨⟩), fun _ _ => ha⟩ ?_, hd, rfl, rfl, goto_pc_self .., rfl⟩
  rw [tstep_of_exec hd he, moveOf, hpc]; rfl

theorem tstep_flush_write (lc : Libc) {x : Sys × Hist} (hd : x.1.deleted = false) {data : Bytes}
    (hpc : x.1.pc t = .flush (.write data)) (hdir : x.1.p.mlog.sgLogdir ≠ []) :
    ∃ x', tstep lc x (.run t .ok) = some x' ∧ x'.1.pc t = .flush (.ret false) ∧
      x'.2 = { x.2 with pipe := x.2.pipe.move (.deliver t) } := by
  have he : exec lc .ok t x.1 (x.1.pc t) =
      some (Sys.goto { x.1 with p := log2file lc .ok data x.1.p } t (.flush (.ret false))) := by
    rw [hpc]; rfl
  have hm : moveOf lc x.2.pipe.log.length t x.1 = .deliver t := by
    simp only [moveOf, hpc, act]; exact if_neg hdir
  exact ⟨_, (tstep_of_exec hd he).trans (by rw [hm]), goto_pc_self .., rfl⟩

/-- **A call of `setmode`**, from its call to its return. -/
theorem AloneReach.setmode (hr : AloneReach lc calls x₀ (s, h)) (hd : s.deleted = false) (ht : t ≠ 0)
    (hi : s.pc t = .idle) (hc : calls (.setmode .sync)) :
    AloneReach lc calls x₀ ({ s with p := logAppenderSetmode .sync s.p },
      { h with due := Function.update h.due t h.pipe.log }) := by
  have h₁ := hr.call hd ht hi hc
  let s₁ : Sys := { s with p := logAppenderSetmode .sync s.p }
  have h₂ : AloneReach lc calls x₀ (s₁.goto t (.setmode .start),
      { h with due := Function.update h.due t h.pipe.log }) := by
    have hpc : (s.goto t (Call.setmode .sync).entry).pc t = .setmode (.store .sync) := goto_pc_self ..
    refine h₁.tail (a := .run t .ok) ⟨stepOk_ok (by rw [hpc]; rintro _ _ ⟨⟩), fun hdr => ?_⟩ ?_
    · rw [hpc] at hdr; cases hdr
    · have he : exec lc .ok t (s.goto t (Call.setmode .sync).entry)
          ((s.goto t (Call.setmode .sync).entry).pc t) = some (s₁.goto t (.setmode .start)) := by
        rw [hpc, exec, setmodeStep]
        exact congrArg some (goto_goto s₁ t _ _)
      rw [tstep_of_exec (s := s.goto t (Call.setmode .sync).entry) hd he, moveOf, hpc]
      rfl
  have he₁ : exec lc .ok t (s₁.goto t (.setmode .start)) ((s₁.goto t (.setmode .start)).pc t) =
      some (s₁.goto t .idle) := by
    simp [exec, setmodeStep, s₁, logAppenderSetmode]
  have h₃ := h₂.quiet (s := s₁.goto t (.setmode .start)) hd (by rw [goto_pc_self]; rfl) he₁
  rwa [goto_eq_self (s := s₁) hi] at h₃

end Calls

/-! ### A new appender -/

/-- A new appender that was opened in async mode, or with the shared thread, and its worker is running. -/
theorem exists_started (lc : Libc) (th : ThreadAsync) (mode : AppendMode) (hmode : th = .own → mode = .async)
    (dir name : CStr) :
    ∃ s, Started lc mode s ∧ s.pc 0 = workerStart th ∧ s.p.mlog.sgThreadAsync = th ∧
      s.p.mlog.sgLogdir = dir.bytes ∧ sink s.p = ⟨[], []⟩ := by
  let p₀ : Proc := .create (th = .shared) (fun _ => []) ⟨0, 0⟩
  have hc : Closed p₀ := closed_create _ _ _
  have hr : Reachable lc p₀ := ⟨_, _, _, .refl⟩
  obtain ⟨p, hs, -, hd, -, -, hth, -, hf⟩ :=
    logAppenderOpen_spec hc lc .ok (fun _ => rfl) .ok mode dir name
  have hth' : p.mlog.sgThreadAsync = th := by rw [hth]; cases th <;> rfl
  refine ⟨⟨p, fun t => if t = 0 then workerStart th else .idle, none, th = .shared, false⟩,
    ⟨⟨p₀, .ok, .ok, dir, name, hr, rfl, hs⟩, fun t ht => if_neg ht, ?_, rfl, ?_, rfl⟩, rfl, hth', hd,
    ?_⟩
  · rw [hth']
    cases th with
    | shared => exact .inr rfl
    | own => exact (if_pos (hmode rfl)).symm
  · rw [hth']; exact decide_eq_true_iff
  · rw [hf]
    exact openBack_of_nil recovered_resize_nil .ok mode dir.bytes _

theorem exists_appended (lc : Libc) (th : ThreadAsync) {calls : Call → Prop}
    (hcalls : calls (.append none (some textA))) :
    ∃ s p lb, Started lc .async s ∧ s.pc 0 = workerStart th ∧ s.p.mlog.sgThreadAsync = th ∧
      sink s.p = ⟨[], []⟩ ∧ Opened p lb ∧ lb.content = ascii "a\n" ∧ p.mlog.sgMode = .async ∧
      p.mlog.sgLogdir ≠ [] ∧ AloneReach lc calls (s, .empty) ({ s with p := p },
        ⟨⟨[(0, ascii "a\n")], [(0, ascii "a\n")], fun _ => [], []⟩, fun _ => []⟩) := by
  obtain ⟨s, hs, hw, hth, hdir, hfile⟩ :=
    exists_started lc th .async (fun _ => rfl) ⟨ascii "d", by decide⟩ ⟨ascii "n", by decide⟩
  have hw' : s.pc 0 ≠ .idle := by rw [hw]; cases th <;> rintro ⟨⟩
  obtain ⟨lb, ho, hc, hmode, -⟩ := hs.open_spec
  have hr₀ : AloneReach lc calls (s, .empty) (s, .empty) := .refl
  obtain ⟨p, he, hr⟩ := hr₀.append (t := 1) hs.deleted (by decide) (hs.others 1 (by decide))
    hw' ho hmode textA (by decide) (by rw [ho.good.content_eq_nil_iff.mp hc]; decide) hcalls
  have hdue : Function.update (Hist.empty.due) 1 Hist.empty.pipe.log = fun _ => [] :=
    Function.update_eq_self 1 _
  rw [hdue] at hr
  have ht : Tracked s.p _ := hs.reach_tracked (hr.mono fun _ _ hl => hl.1)
  obtain ⟨hl, hcontent⟩ := ht.coupled.holds.live _ he.live.buff
  exact ⟨s, p, _, hs, hw, hth, hfile, ⟨hl, he.flag.trans ho.flag⟩, hcontent, he.mode.trans hmode,
    by rw [he.dir, hdir]; decide, hr⟩

end MTAppenderFile.Loglib.Interleaving
