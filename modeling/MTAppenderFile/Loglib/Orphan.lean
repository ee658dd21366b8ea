import MTAppenderFile.Loglib.Lives
import MTAppenderFile.Loglib.Exactness

/-! # Records without a worker

The shared worker leaves its loop when it finds `shared_appenders()` empty under the spinlock. Until its
`cleanup` sets `isended`, `isruning` says that it runs. `append` starts the worker only if `isruning` says that it
does not run; so an appender that is made, opened and appended to in between has records and no worker. Nor does
`append` look at what `start` returns, which is an error if `pthread_create` fails (`records_orphaned`).

As long as no `append` on an appender with the shared thread asks `isruning` in between, or fails to start the
worker, no records are left without a worker (`no_orphan`): whenever the worker is leaving, or has ended, some call
is on its way to start it again for every appender that has records. -/

namespace MTAppenderFile.Loglib.World

open MTAppenderFile.Lib.Run
open MTAppenderFile.Comm.CTypes
open MTAppenderFile.Loglib.Base
open MTAppenderFile.Loglib.Buffer
open MTAppenderFile.Loglib.Files
open MTAppenderFile.Loglib.Formatter
open MTAppenderFile.Loglib.Appender
open MTAppenderFile.Loglib.Session (buffered)
open MTAppenderFile.Loglib.Exactness (textA)

/-- **Records without a worker**: no call is in progress, the shared worker has ended, and an open appender with
the shared thread has records. -/
def Orphaned (w : State) : Prop :=
  (∀ n, w.pc (.caller n) = .idle) ∧ w.pc (.worker .shared) = .idle ∧
    ∃ m, m.useShareThread = true ∧ w.alive m = true ∧ (w.apps m).sgLogClose = false ∧
      buffered (w.app m) ≠ []

/-- The shared worker has found no appender, and not yet set `isended`. -/
def Leaving (pc : Pc) : Prop :=
  pc = .pass .exit ∨ pc = .routine .shared .cleanLock ∨ pc = .routine .shared .clean

/-- No `append` on an appender with the shared thread asks `isruning` while the worker is leaving, or fails to start
the worker when it has ended. -/
def KeepsServed (w : State) : Label → Prop
  | .run t env => ∀ m info log, m.useShareThread = true →
      (w.pc t = .append m info log .isruning → ¬ Leaving (w.pc (.worker .shared))) ∧
      (w.pc t = .append m info log (.start .start) → (w.thread .shared).isended = true → env.create = .ok)
  | _ => True

/-- In `append`, between the buffer and `isruning`, or in `open`, before the buffer is flushed. -/
def BeforeTest (m : Mlog) (pc : Pc) : Prop :=
  (∃ info log, pc = .append m info log .length ∨ pc = .append m info log .notify ∨
    pc = .append m info log .isruning) ∨
  ∃ mode filedir filename, pc = .open m mode filedir filename .flush

/-- In `append`, between `isruning` and the start of the worker. -/
def BeforeStart (m : Mlog) (pc : Pc) : Prop :=
  ∃ info log, pc = .append m info log (.start .lock) ∨ pc = .append m info log (.start .start)

/-- The program has the appender, and it has records for the shared worker. -/
def Holding (w : State) (m : Mlog) : Prop :=
  w.given m = true ∧ m.useShareThread = true ∧ buffered (w.app m) ≠ []

/-- **Every record has a worker, or a call that starts one.** -/
structure Served (w : State) : Prop where
  leaving : Leaving (w.pc (.worker .shared)) → ∀ m, Holding w m → ∃ t, BeforeTest m (w.pc t)
  ended : (w.thread .shared).isended = true → ∀ m, Holding w m →
    ∃ t, BeforeTest m (w.pc t) ∨ BeforeStart m (w.pc t)

/-! ### Filling a buffer -/

/-- Where a thread goes on that has put something in a buffer. -/
def AppOp.Fills (P : Pc → Prop) : {α : Type} → AppOp α → (α → Pc) → Prop
  | _, .insert _ _, k => P (k true)
  | _, .buff _, k => P (k ())
  | _, _, _ => True

/-- Where a thread goes on that has put something in a buffer. -/
def Stmt.Fills : Stmt → Prop
  | .app m op k => op.Fills (BeforeTest m) k
  | _ => True

section Fills

variable {m : Mlog} {a : Async} {ret : Pc}

theorem log2fileCode_fills {data : Bytes} {here : Log2filePc → Pc} (pc : Log2filePc) :
    (log2fileCode m data here ret pc).Fills := by cases pc <;> trivial

theorem taskCode_fills {here : TaskPc → Pc} (pc : TaskPc) : (taskCode m here ret pc).Fills := by
  cases pc with
  | file data pc => rw [taskCode]; exact log2fileCode_fills pc
  | _ => trivial

theorem startCode_fills {here : StartPc → Pc} (pc : StartPc) : (startCode a here ret pc).Fills := by
  cases pc <;> trivial

theorem setmodeCode_fills {mode : AppendMode} {here : SetmodePc → Pc} (pc : SetmodePc) :
    (setmodeCode m mode here ret pc).Fills := by
  cases pc with
  | start pc => rw [setmodeCode]; exact startCode_fills pc
  | _ => trivial

theorem closeCode_fills {here : ClosePc → Pc} (pc : ClosePc) : (closeCode m here ret pc).Fills := by
  cases pc with
  | task pc => rw [closeCode]; exact taskCode_fills pc
  | _ => trivial

/-- **Who puts something in a buffer** goes on before the test of `isruning`, or before the flush of `open`. -/
theorem code_fills (pc : Pc) : (code pc).Fills := by
  cases pc with
  | idle => trivial
  | create m pc => cases pc <;> trivial
  | «open» m mode filedir filename pc =>
    cases pc with
    | buff block => exact .inr ⟨mode, filedir, filename, rfl⟩
    | setmode tmp pc => rw [code, openCode]; exact setmodeCode_fills pc
    | file data pc => rw [code, openCode]; exact log2fileCode_fills pc
    | _ => trivial
  | append m info log pc =>
    cases pc with
    | insert => exact .inl ⟨info, log, .inl rfl⟩
    | file data pc => rw [code, appendCode]; exact log2fileCode_fills pc
    | start pc => rw [code, appendCode]; exact startCode_fills pc
    | scan pc => cases pc <;> trivial
    | _ => trivial
  | setmode m mode pc => exact setmodeCode_fills pc
  | flush m pc => cases pc <;> trivial
  | flushSync m pc =>
    cases pc with
    | file data pc => rw [code, flushSyncCode]; exact log2fileCode_fills pc
    | _ => trivial
  | close m pc => exact closeCode_fills pc
  | destroy m pc =>
    cases pc with
    | close pc => rw [code, destroyCode]; exact closeCode_fills pc
    | _ => trivial
  | routine a pc => cases pc <;> trivial
  | loop m pc =>
    cases pc with
    | task pc => rw [code, loopCode]; exact taskCode_fills pc
    | wait pc => cases pc <;> trivial
    | _ => trivial
  | pass pc =>
    cases pc with
    | task it m pc => rw [code, passCode]; exact taskCode_fills pc
    | wait pc => cases pc <;> trivial
    | _ => trivial

end Fills

/-! ### The worker and the callers -/

section Orphan

variable {lc : Libc} {env : Env} {t u : Tid} {w w₁ w' : State} {m : Mlog} {pc : Pc}

theorem Effect.buffered_cases (he : Effect lc env t w (code (w.pc t)) w₁ pc) (m : Mlog) :
    buffered (w₁.app m) = [] ∨ buffered (w₁.app m) = buffered (w.app m) ∨ BeforeTest m pc := by
  have hsame : (w₁.apps m).sgLogBuff = (w.apps m).sgLogBuff →
      buffered (w₁.app m) = buffered (w.app m) := by
    intro hb
    unfold buffered
    rw [show (w₁.app m).mlog.sgLogBuff = _ from hb]
    rfl
  have hnil : ∀ {lb : Option LogBuffer}, (w₁.apps m).sgLogBuff = lb → (∀ l, lb = some l → l.content = []) →
      buffered (w₁.app m) = [] := by
    intro lb hb hl
    unfold buffered
    rw [show (w₁.app m).mlog.sgLogBuff = _ from hb]
    cases lb with
    | none => rfl
    | some l => exact hl l rfl
  rcases he.spec m with happ | ⟨α, op, k, a, hst, rfl, hspec⟩
  · exact .inr (.inl (hsame (by rw [happ])))
  have hfills := code_fills (w.pc t)
  rw [hst] at hfills
  cases op with
  | insert =>
    obtain ⟨lb, lb', hb, hy, hok⟩ := hspec
    cases a with
    | true => exact .inr (.inr hfills)
    | false => exact .inr (.inl (hsame (by rw [hy, hb, hok rfl])))
  | buff => exact .inr (.inr hfills)
  | drain =>
    obtain ⟨lb, -, hy⟩ := hspec
    refine .inl (hnil (by rw [hy]) ?_)
    rintro _ ⟨⟩
    exact LogBuffer.content_clear lb
  | free => exact .inl (hnil (by rw [hspec]) (by rintro _ ⟨⟩))
  | _ => exact .inr (.inl (hsame (hspec.sgLogBuff rfl)))

theorem not_leaving_pass {c : PassPc} (hc : c ≠ .exit) : ¬ Leaving (.pass c) := by
  rintro (h | h | h) <;> cases h
  exact hc rfl

theorem Effect.leaving_prev (he : Effect lc env t w (code (w.pc t)) w₁ pc) (h : Leaving pc) :
    Leaving (w.pc t) ∨ w.pc t = .pass .empty ∧ w.sharedAppenders.items = [] := by
  generalize w.pc t = pc₀ at he ⊢
  have hfn : pc₀.fn = .worker .shared := by
    rcases he.leads (code_leads_fn pc₀) with rfl | hfn
    · rcases h with h | h | h <;> cases h
    · rw [← hfn]
      rcases h with rfl | rfl | rfl <;> rfl
  cases pc₀ with
  | routine a c =>
    cases hfn
    cases c with
    | cleanLock => exact .inl (.inr (.inl rfl))
    | clean => exact .inl (.inr (.inr rfl))
    | _ =>
      cases he
      rcases h with h | h | h <;> cases h
  | pass c =>
    cases c with
    | exit => exact .inl (.inl rfl)
    | empty =>
      cases he with
      | vec hr =>
        cases hr
        cases hi : w.sharedAppenders.items with
        | nil => exact .inr ⟨rfl, rfl⟩
        | cons n l =>
          rw [hi] at h
          exact absurd h (not_leaving_pass (by rintro ⟨⟩))
    | task it n c =>
      have hl : (taskCode n (fun c => .pass (.task it n c)) (.pass (.next it)) c).Leads fun pc => ¬ Leaving pc :=
        taskCode_leads (fun c => not_leaving_pass (by rintro ⟨⟩)) (not_leaving_pass (by rintro ⟨⟩)) c
      exact absurd h (he.leads hl)
    | wait c =>
      have hl : (waitCode .shared (fun c => .pass (.wait c)) (.pass .lock) c).Leads fun pc => ¬ Leaving pc :=
        waitCode_leads (fun c => not_leaving_pass (by rintro ⟨⟩)) (not_leaving_pass (by rintro ⟨⟩)) c
      exact absurd h (he.leads hl)
    | cond it =>
      have hl : (code (.pass (.cond it))).Leads fun pc => ¬ Leaving pc := by
        intro more
        dsimp only
        split_ifs
        exacts [not_leaving_pass (by rintro ⟨⟩), not_leaving_pass (by rintro ⟨⟩)]
      exact absurd h (he.leads hl)
    | load it n =>
      have hl : (code (.pass (.load it n))).Leads fun pc => ¬ Leaving pc := by
        intro closed
        dsimp only
        split_ifs
        exacts [not_leaving_pass (by rintro ⟨⟩), not_leaving_pass (by rintro ⟨⟩)]
      exact absurd h (he.leads hl)
    | _ =>
      cases he
      exact absurd h (not_leaving_pass (by rintro ⟨⟩))
  | _ => cases hfn

theorem leaving_of_cleanup {k : Pc} (h : code pc = .cleanup .shared k) : Leaving pc := by
  have hby := code_by pc
  rw [h] at hby
  cases pc with
  | routine a c =>
    cases c <;> cases h
    exact .inr (.inr rfl)
  | loop n c => cases hby
  | pass c =>
    cases c with
    | task it n c =>
      cases c with
      | file data c => cases c <;> cases h
      | _ => cases h
    | wait c => cases c <;> cases h
    | _ => cases h
  | _ => cases hby

theorem Effect.beforeTest (he : Effect lc env t w (code (w.pc t)) w₁ pc) (h : BeforeTest m (w.pc t)) :
    BeforeTest m pc ∨ buffered (w₁.app m) = [] ∨
      ∃ info log, w.pc t = .append m info log .isruning ∧
        ((w.thread .shared).isended = true → BeforeStart m pc) := by
  rcases h with ⟨info, log, h | h | h⟩ | ⟨mode, filedir, filename, h⟩
  · rw [h] at he
    have hl : (code (.append m info log .length)).Leads (BeforeTest m) := by
      intro full
      dsimp only
      split_ifs
      exacts [.inl ⟨info, log, .inr (.inl rfl)⟩, .inl ⟨info, log, .inr (.inr rfl)⟩]
    exact .inl (he.leads hl)
  · rw [h] at he
    cases he
    exact .inl (.inl ⟨info, log, .inr (.inr rfl)⟩)
  · refine .inr (.inr ⟨info, log, h, fun hend => ?_⟩)
    rw [h] at he
    cases he with
    | isruning =>
      rw [hend]
      exact ⟨info, log, .inl rfl⟩
  · rw [h] at he
    cases he with
    | @app _ _ _ _ p _ _ hr =>
      obtain ⟨lb, -, hy⟩ := AppOp.run_spec hr
      refine .inr (.inl ?_)
      have happ : (w.setApp m p).apps m = p.mlog := Function.update_self ..
      unfold buffered
      rw [show ((w.setApp m p).app m).mlog = p.mlog from happ, hy]
      exact LogBuffer.content_clear lb

theorem Effect.beforeStart (he : Effect lc env t w (code (w.pc t)) w₁ pc) (h : BeforeStart m (w.pc t))
    (hc : ∀ info log, w.pc t = .append m info log (.start .start) → (w.thread .shared).isended = true →
      env.create = .ok)
    (hend : (w₁.thread .shared).isended = true) : BeforeStart m pc := by
  obtain ⟨info, log, h | h⟩ := h
  · rw [h] at he
    cases he
    exact ⟨info, log, .inr rfl⟩
  · have hok := hc info log h
    rw [h] at he
    cases he with
    | failed hb hfailed => cases (hok hb).symm.trans hfailed
    | spawn hb =>
      rw [show ((w.spawn .shared).thread .shared).isended = false by simp [State.spawn, State.goto]] at hend
      cases hend
    | started hb => cases hb.symm.trans hend

theorem Synced.beforeTest_of_ne (hs : Synced w) (he : Effect lc env t w (code (w.pc t)) w₁ pc) (hu : u ≠ t) :
    BeforeTest m ((w₁.goto t pc).pc u) = BeforeTest m (w.pc u) := by
  refine hs.eq_of_ne he hu ?_
  rintro pc ⟨a, hfn⟩
  refine propext (iff_of_false ?_ ?_)
  · rintro (⟨info, log, rfl | rfl | rfl⟩ | ⟨mode, filedir, filename, rfl⟩) <;> cases hfn
  · rintro (⟨info, log, h | h | h⟩ | ⟨mode, filedir, filename, h⟩) <;> cases h

theorem Synced.beforeStart_of_ne (hs : Synced w) (he : Effect lc env t w (code (w.pc t)) w₁ pc) (hu : u ≠ t) :
    BeforeStart m ((w₁.goto t pc).pc u) = BeforeStart m (w.pc u) := by
  refine hs.eq_of_ne he hu ?_
  rintro pc ⟨a, hfn⟩
  refine propext (iff_of_false ?_ ?_)
  · rintro ⟨info, log, rfl | rfl⟩ <;> cases hfn
  · rintro ⟨info, log, h | h⟩ <;> cases h

/-- An appender that has records had them before the statement, or got them by it. -/
theorem Lives.holding_prev (hl : Lives w) (he : Effect lc env t w (code (w.pc t)) w₁ pc)
    (h : Holding (w₁.goto t pc) m) : Holding w m ∨ BeforeTest m pc := by
  obtain ⟨hg, hsh, hb⟩ := h
  have hgiven : w.given m = true ∨ buffered (w.app m) = [] := by
    rcases he.given with hg' | ⟨n, hst, hg'⟩
    · exact .inl (hg' ▸ hg)
    · by_cases hmn : m = n
      · subst hmn
        have hby := code_by (w.pc t)
        rw [hst] at hby
        right
        unfold buffered
        rw [show (w.app m).mlog.sgLogBuff = none from (hl.fresh t m hby).2.1]
      · refine .inl ?_
        have hg : w₁.given m = true := hg
        rwa [hg', Function.update_of_ne hmn] at hg
  rcases he.buffered_cases m with hn | hsame | hf
  · exact absurd hn hb
  · rcases hgiven with hg₀ | hn
    · exact .inl ⟨hg₀, hsh, fun hn => hb (hsame.trans hn)⟩
    · exact absurd (hsame.trans hn) hb
  · exact .inr hf

theorem leaving_of_woken (h : Leaving (woken pc)) : Leaving pc := by
  unfold woken at h
  split at h
  · rcases h with h | h | h <;> cases h
  · rcases h with h | h | h <;> cases h
  · exact h

theorem Served.run (h : Served w) (hs : Synced w) (hl : Lives w) (hc : KeepsServed w (.run t env))
    (he : Effect lc env t w (code (w.pc t)) w₁ pc) : Served (w₁.goto t pc) := by
  have hself : (w₁.goto t pc).pc t = pc := goto_pc_self ..
  refine ⟨fun hleave m hm => ?_, fun hend m hm => ?_⟩
  · rcases hl.holding_prev he hm with hm₀ | hf
    swap
    · exact ⟨t, by rw [hself]; exact hf⟩
    -- the worker was leaving before the step: the list has the appender
    have hbefore : Leaving (w.pc (.worker .shared)) := by
      by_cases ht : Tid.worker .shared = t
      · subst ht
        rw [hself] at hleave
        refine (he.leaving_prev hleave).resolve_right ?_
        rintro ⟨-, hnil⟩
        have hmem := ((hl.given m hm₀.1).2 hm₀.2.1).mpr rfl
        rw [hnil] at hmem
        cases hmem
      · rw [goto_pc_of_ne _ ht] at hleave
        rcases he.pc_worker .shared with hp | ⟨-, hp⟩ | ⟨-, -, hp⟩
        · rwa [hp] at hleave
        · rw [hp] at hleave
          exact leaving_of_woken hleave
        · rw [hp] at hleave
          rcases hleave with h | h | h <;> cases h
    obtain ⟨u, hu⟩ := h.leaving hbefore m hm₀
    by_cases hut : u = t
    · subst hut
      rcases he.beforeTest hu with hf | hn | ⟨info, log, hpc, -⟩
      · exact ⟨u, by rw [hself]; exact hf⟩
      · exact absurd hn hm.2.2
      · exact absurd hbefore ((hc m info log hm.2.1).1 hpc)
    · exact ⟨u, by rw [hs.beforeTest_of_ne he hut]; exact hu⟩
  · rcases hl.holding_prev he hm with hm₀ | hf
    swap
    · exact ⟨t, .inl (by rw [hself]; exact hf)⟩
    rcases he.worker .shared with ⟨hsame, -, -⟩ | ⟨hst, -⟩ | ⟨-, -, hend', -⟩
    · -- it had ended before the step
      have hend₀ : (w.thread .shared).isended = true := hsame.symm.trans hend
      obtain ⟨u, hu⟩ := h.ended hend₀ m hm₀
      by_cases hut : u = t
      · subst hut
        rcases hu with hu | hu
        · rcases he.beforeTest hu with hf | hn | ⟨info, log, -, hstart⟩
          · exact ⟨u, .inl (by rw [hself]; exact hf)⟩
          · exact absurd hn hm.2.2
          · exact ⟨u, .inr (by rw [hself]; exact hstart hend₀)⟩
        · have hcreate := fun info log => (hc m info log hm.2.1).2
          exact ⟨u, .inr (by rw [hself]; exact he.beforeStart hu hcreate hend)⟩
      · exact ⟨u, by rw [hs.beforeTest_of_ne he hut, hs.beforeStart_of_ne he hut]; exact hu⟩
    · -- it ends now
      have hby := code_by (w.pc t)
      rw [hst] at hby
      have ht : t = .worker .shared := hs.eq_worker hby
      have hleave := leaving_of_cleanup hst
      rw [ht] at hleave
      obtain ⟨u, hu⟩ := h.leaving hleave m hm₀
      have hut : u ≠ t := by
        rintro rfl
        rw [← ht] at hleave
        rcases hleave with h | h | h <;> rw [h] at hu <;>
          rcases hu with ⟨info, log, hu | hu | hu⟩ | ⟨mode, filedir, filename, hu⟩ <;> cases hu
      exact ⟨u, .inl (by rw [hs.beforeTest_of_ne he hut]; exact hu)⟩
    · exact absurd (hend.symm.trans hend') (by rintro ⟨⟩)

theorem Served.enter (h : Served w) {n : ℕ} (hi : w.pc (.caller n) = .idle)
    (hholding : ∀ m, Holding (w₁.goto (.caller n) pc) m → Holding w m) (hthread : w₁.thread = w.thread)
    (hpc : w₁.pc = w.pc) : Served (w₁.goto (.caller n) pc) := by
  have hother : ∀ {u}, u ≠ .caller n → (w₁.goto (.caller n) pc).pc u = w.pc u := fun hu => by
    rw [goto_pc_of_ne _ hu, hpc]
  have hidle : ∀ {m u}, BeforeTest m (w.pc u) ∨ BeforeStart m (w.pc u) → u ≠ .caller n := by
    rintro m u hu rfl
    rw [hi] at hu
    rcases hu with (⟨info, log, hu | hu | hu⟩ | ⟨mode, filedir, filename, hu⟩) | ⟨info, log, hu | hu⟩ <;> cases hu
  refine ⟨fun hleave m hm => ?_, fun hend m hm => ?_⟩
  · rw [hother (by simp)] at hleave
    obtain ⟨u, hu⟩ := h.leaving hleave m (hholding m hm)
    exact ⟨u, by rw [hother (hidle (.inl hu))]; exact hu⟩
  · have hend' : (w₁.thread .shared).isended = true := hend
    rw [hthread] at hend'
    obtain ⟨u, hu⟩ := h.ended hend' m (hholding m hm)
    exact ⟨u, by rw [hother (hidle hu)]; exact hu⟩

theorem Served.step {l : Label} (h : Served w) (hs : Synced w) (hl : Lives w) (hc : KeepsServed w l)
    (hstep : World.step lc w l = some w') : Served w' := by
  rcases step_cases hstep with ⟨n, share, -, hi, rfl⟩ | ⟨n, m, u, -, hi, -, rfl⟩ |
    ⟨t, env, w₁, pc, rfl, he, rfl⟩
  · refine h.enter hi (fun m hm => ?_) rfl rfl
    obtain ⟨hg, hsh, hb⟩ := hm
    have hne : m ≠ ⟨share, w.created⟩ := by
      rintro rfl
      exact Nat.lt_irrefl _ (hl.bound _ (hl.given _ hg).1)
    refine ⟨hg, hsh, fun hn => hb ?_⟩
    have happ : (w.new ⟨share, w.created⟩).apps m = w.apps m := Function.update_of_ne hne ..
    unfold buffered at hn ⊢
    rwa [show (((w.new ⟨share, w.created⟩).goto (.caller n) (createEntry ⟨share, w.created⟩)).app m).mlog = _
      from happ]
  · refine h.enter hi (fun m' hm => ?_) (passed_thread ..) (passed_pc ..)
    obtain ⟨hg, hsh, hb⟩ := hm
    exact ⟨passed_given hg, hsh, by cases u <;> exact hb⟩
  · exact h.run hs hl hc he

end Orphan

/-- **No records are left without a worker**, as long as no `append` asks `isruning` while the shared worker is
leaving, or fails to start it. -/
theorem no_orphan (lc : Libc) (files : Disk) (statics : FormatStatics) (w : State)
    (h : Reach (step lc) KeepsServed (.init files statics) w) : ¬ Orphaned w := by
  have hinit : Served (.init files statics) :=
    { leaving := by rintro (h | h | h) <;> cases h
      ended := by rintro - m ⟨hg, -⟩; cases hg }
  have hinv : (Synced w ∧ Lives w) ∧ Served w := by
    refine h.inv (P := fun w => (Synced w ∧ Lives w) ∧ Served w)
      ⟨⟨synced_init files statics, lives_init files statics⟩, hinit⟩ fun s l s' hw hc hstep => ?_
    obtain ⟨⟨hs, hl⟩, hserved⟩ := hw
    exact ⟨⟨hs.step hstep, hl.step hs hstep⟩, hserved.step hs hl hc hstep⟩
  obtain ⟨⟨hs, hl⟩, hserved⟩ := hinv
  rintro ⟨hcallers, hworker, m, hsh, halive, -, hb⟩
  have hend : (w.thread .shared).isended = true := (hs.ended .shared).mpr (by rw [hworker]; rfl)
  -- every thread is outside of the functions of the program
  have hfn : ∀ t, w.pc t = .idle ∨ ∃ a, (w.pc t).fn = .worker a := by
    rintro (n | a)
    · exact .inl (hcallers n)
    · exact (hs.worker a).imp_right fun h => ⟨a, h⟩
  have hgiven : w.given m = true := by
    refine (hl.kept m halive).resolve_right ?_
    rintro ⟨t, b, hb⟩
    rcases hfn t with hi | ⟨a, ha⟩
    · rw [hi] at hb
      cases hb
    · rw [listed_eq_none (by rw [ha]; rintro m ⟨⟩) (by rw [ha]; rintro m ⟨⟩)] at hb
      cases hb
  obtain ⟨t, ht⟩ := hserved.ended hend m ⟨hgiven, hsh, hb⟩
  have hcall : ¬ (w.pc t = .idle ∨ ∃ a, (w.pc t).fn = .worker a) := by
    rcases ht with (⟨info, log, ht | ht | ht⟩ | ⟨mode, filedir, filename, ht⟩) | ⟨info, log, ht | ht⟩ <;> rw [ht] <;>
      rintro (h | ⟨a, h⟩) <;> cases h
  exact hcall (hfn t)

/-- A record is appended to a first appender between the flush of `close` and the end of the buffer, which starts the
shared worker, and the appender is destroyed; the worker finds the list empty and leaves its loop; a record is
appended to a second appender; and the worker ends. -/
def appendWhileLeaving : List Label :=
  openNew 0 ++
  .call 0 ⟨true, 0⟩ (.append none (some textA)) :: runs (.caller 0) 1 ++
  .call 1 ⟨true, 0⟩ .close :: runs (.caller 1) 9 ++
  runs (.caller 0) 16 ++
  runs (.caller 1) 6 ++
  .call 0 ⟨true, 0⟩ .destroy :: runs (.caller 0) 5 ++
  runs (.worker .shared) 5 ++
  openNew 1 ++
  .call 0 ⟨true, 1⟩ (.append none (some textA)) :: runs (.caller 0) 15 ++
  runs (.worker .shared) 3

/-- A record is appended to a new appender, and `pthread_create` fails. -/
def appendUnstarted : List Label :=
  openNew 0 ++
  .call 0 ⟨true, 0⟩ (.append none (some textA)) :: runs (.caller 0) 8 ++
  .run (.caller 0) { Env.ok with create := .failed 0 } :: runs (.caller 0) 9

/-- What is to be seen at the end of a run that leaves records in `m` without a worker. -/
theorem orphaned_of_run {ls : List Label} {m : Mlog} (hm : m.useShareThread = true) (hby : ∀ l ∈ ls, l.By [0, 1])
    (hrun : (run (step utc) (.init (fun _ => []) ⟨0, 0⟩) ls).any (fun w =>
      (w.pc (.caller 0)).isIdle && (w.pc (.caller 1)).isIdle && (w.pc (.worker .shared)).isIdle &&
        w.alive m && !(w.apps m).sgLogClose && decide (buffered (w.app m) ≠ [])) = true) :
    ∃ w, run (step utc) (.init (fun _ => []) ⟨0, 0⟩) ls = some w ∧ Orphaned w := by
  obtain ⟨w, hw, hb⟩ := (Option.any_eq_true _ _).mp hrun
  simp only [Bool.and_eq_true, isIdle_iff, Bool.not_eq_true', decide_eq_true_iff] at hb
  obtain ⟨⟨⟨⟨⟨h₀, h₁⟩, hworker⟩, halive⟩, hopen⟩, hrecords⟩ := hb
  have hidle : IdleBut [0, 1] w := idleBut_of_run hw hby
  exact ⟨w, hw, hidle.idle (by simp [h₀, h₁]), hworker, m, hm, halive, hopen, hrecords⟩

theorem records_orphaned :
    (∃ w, Reach (step utc) (fun _ _ => True) (.init (fun _ => []) ⟨0, 0⟩) w ∧ Orphaned w) ∧
      ∃ w, run (step utc) (.init (fun _ => []) ⟨0, 0⟩) appendUnstarted = some w ∧ Orphaned w := by
  obtain ⟨w, hw, horphaned⟩ : ∃ w, run (step utc) (.init (fun _ => []) ⟨0, 0⟩) appendWhileLeaving = some w ∧
      Orphaned w := orphaned_of_run (m := ⟨true, 1⟩) rfl (by decide) (by decide +kernel)
  exact ⟨⟨w, reach_of_run (meets_of_forall fun _ _ => trivial) hw, horphaned⟩,
    orphaned_of_run (m := ⟨true, 0⟩) rfl (by decide) (by decide +kernel)⟩

/-- Whether the worker is leaving. -/
def Pc.leaves : Pc → Bool
  | .pass .exit => true
  | .routine .shared .cleanLock => true
  | .routine .shared .clean => true
  | _ => false

/-- A test of `KeepsServed`. -/
def servedTest (w : State) : Label → Bool
  | .run t env => match w.pc t with
    | .append _ _ _ .isruning => !(w.pc (.worker .shared)).leaves
    | .append _ _ _ (.start .start) => env.create = .ok
    | _ => true
  | _ => true

theorem keepsServed_of_test {w : State} {l : Label} (h : servedTest w l = true) : KeepsServed w l := by
  cases l with
  | run t env =>
    intro m info log _
    refine ⟨fun ht hleaving => ?_, fun ht _ => ?_⟩
    · rw [servedTest, ht] at h
      rcases hleaving with hw | hw | hw <;> rw [hw] at h <;> cases h
    · rw [servedTest, ht] at h
      exact of_decide_eq_true h
  | _ => trivial

/-- A record is appended to a first appender, which starts the worker; the worker writes it to the file and goes to
sleep. A second record is appended, and the appender is destroyed. The worker is woken, finds no appender and ends. A
record is appended to a second appender, which starts the worker again. -/
def twoLives : List Label :=
  openNew 0 ++
  .call 0 ⟨true, 0⟩ (.append none (some textA)) :: runs (.caller 0) 18 ++
  runs (.worker .shared) 22 ++
  .call 0 ⟨true, 0⟩ (.append none (some textA)) :: runs (.caller 0) 15 ++
  .call 0 ⟨true, 0⟩ .destroy :: runs (.caller 0) 23 ++
  runs (.worker .shared) 9 ++
  openNew 1 ++
  .call 0 ⟨true, 1⟩ (.append none (some textA)) :: runs (.caller 0) 18 ++
  runs (.worker .shared) 3

theorem no_orphan_twoLives :
    ∃ w, run (step utc) (.init (fun _ => []) ⟨0, 0⟩) twoLives = some w ∧ (∀ n, w.pc (.caller n) = .idle) ∧
      buffered (w.app ⟨true, 1⟩) ≠ [] ∧ ¬ Orphaned w := by
  have hrun : (run (step utc) (.init (fun _ => []) ⟨0, 0⟩) twoLives).any (fun w =>
      (w.pc (.caller 0)).isIdle && decide (buffered (w.app ⟨true, 1⟩) ≠ [])) = true := by
    decide +kernel
  obtain ⟨w, hw, hb⟩ := (Option.any_eq_true _ _).mp hrun
  simp only [Bool.and_eq_true, isIdle_iff, decide_eq_true_iff] at hb
  have hidle : IdleBut [0] w := idleBut_of_run hw (by decide +kernel)
  have hmeets : Meets (step utc) KeepsServed (.init (fun _ => []) ⟨0, 0⟩) twoLives :=
    meets_of_test [0] servedTest (fun w l _ _ h => keepsServed_of_test h) (by decide +kernel)
      (by decide +kernel)
  exact ⟨w, hw, hidle.idle (by simp [hb.1]), hb.2,
    no_orphan utc (fun _ => []) ⟨0, 0⟩ w (reach_of_run hmeets hw)⟩

end MTAppenderFile.Loglib.World
