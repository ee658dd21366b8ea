import MTAppenderFile.Loglib.Lives
import MTAppenderFile.Loglib.Exactness

/-! # The wake-up of a worker by `close`

`close` sets `sg_log_close`, wakes the appender's own worker and joins it. The worker tests `sg_log_close`
without the mutex of the condition, and `notifyAll` neither takes that mutex nor sets `anyway_notify_`. If the
broadcast falls between the test and `pthread_cond_timedwait`, nobody wakes the worker, and `close` waits for the
end of the time-out (`close_hangs`).

As long as no broadcast falls there, and no appender is opened while it is being closed, `close` never waits for
a sleeping worker (`close_wakes_worker`): once the broadcast has been made, the flag is set, so the worker does
not go to sleep again. -/

namespace MTAppenderFile.Loglib.World

open MTAppenderFile.Lib.Run
open MTAppenderFile.Comm.CTypes
open MTAppenderFile.Loglib.Base
open MTAppenderFile.Loglib.Files
open MTAppenderFile.Loglib.Formatter
open MTAppenderFile.Loglib.Appender
open MTAppenderFile.Loglib.Exactness (textA)

/-- In the `pthread_join` of a call that closes `m`. -/
def Joining (m : Mlog) (pc : Pc) : Prop :=
  ∃ tid, pc = .close m (.pthreadJoin tid) ∨ pc = .destroy m (.close (.pthreadJoin tid))

/-- Whether a thread is in that join. -/
def Pc.joins (m : Mlog) : Pc → Bool
  | .close n (.pthreadJoin _) => n = m
  | .destroy n (.close (.pthreadJoin _)) => n = m
  | _ => false

/-- Whether a thread is the worker of `m` in its sleep. -/
def Pc.sleeps (m : Mlog) : Pc → Bool
  | .loop n (.wait .blocked) => n = m
  | _ => false

/-- **A lost wake-up**: a call that closes an appender with a thread of its own is in the join, behind its
broadcast, and the worker sleeps. -/
def LostWakeup (w : State) : Prop :=
  ∃ t m, m.useShareThread = false ∧ Joining m (w.pc t) ∧
    w.pc (.worker (.own m)) = .loop m (.wait .blocked)

/-- The worker of `m` has seen that the appender is open, and does not sleep yet. -/
def BeforeSleep (m : Mlog) (pc : Pc) : Prop :=
  pc = .loop m (.wait .lock) ∨ pc = .loop m (.wait .cas) ∨ pc = .loop m (.wait .block)

/-- No broadcast of `close` while the worker is on its way to sleep, and `sg_log_close` is not set to `false`
between a store of `true` and the end of the join. -/
def WakesInTime (w : State) : Label → Prop
  | .run t _ => ∀ m, m.useShareThread = false →
      (closing m (w.pc t) = some .notify → ¬ BeforeSleep m (w.pc (.worker (.own m)))) ∧
      ((code (w.pc t)).stores m = some false → ∀ u,
        closing m (w.pc u) ≠ some .notify ∧ closing m (w.pc u) ≠ some .join)
  | _ => True

/-- On its way to sleep, or asleep. -/
def Sleepy (m : Mlog) (pc : Pc) : Prop := BeforeSleep m pc ∨ pc = .loop m (.wait .blocked)

/-- **What a call that closes `m` knows**: behind its store the flag is set, and behind its broadcast the worker
does not sleep. -/
structure Told (m : Mlog) (w : State) : Prop where
  flag : ∀ u, closing m (w.pc u) = some .notify ∨ closing m (w.pc u) = some .join →
    (w.apps m).sgLogClose = true
  awake : ∀ u, closing m (w.pc u) = some .join → ¬ Sleepy m (w.pc (.worker (.own m)))

section Wakeup

variable {lc : Libc} {env : Env} {t u : Tid} {w w₁ w' : State} {m : Mlog} {pc : Pc}

theorem joining_of_joins (h : pc.joins m = true) : Joining m pc := by
  unfold Pc.joins at h
  split at h
  · exact ⟨_, .inl (by rw [of_decide_eq_true h])⟩
  · exact ⟨_, .inr (by rw [of_decide_eq_true h])⟩
  · cases h

theorem eq_of_sleeps (h : pc.sleeps m = true) : pc = .loop m (.wait .blocked) := by
  unfold Pc.sleeps at h
  split at h
  · rw [of_decide_eq_true h]
  · cases h

theorem closing_of_joining (h : Joining m pc) : closing m pc = some .join := by
  obtain ⟨tid, rfl | rfl⟩ := h
  · exact if_pos rfl
  · exact if_pos rfl

theorem sleepy_of_woken (h : Sleepy m (woken pc)) : BeforeSleep m pc := by
  unfold woken at h
  split at h
  · rcases h with (h | h | h) | h <;> cases h
  · rcases h with (h | h | h) | h <;> cases h
  · next hne _ =>
    rcases h with h | h
    · exact h
    · exact absurd h (hne m)

theorem not_sleepy_routine {a : Async} {r : RoutinePc} : ¬ Sleepy m (.routine a r) := by
  rintro ((h | h | h) | h) <;> cases h

theorem not_sleepy_loop {n : Mlog} {c : LoopPc} (hc : ∀ p, c ≠ .wait p) : ¬ Sleepy m (.loop n c) := by
  rintro ((h | h | h) | h) <;> cases h <;> exact hc _ rfl

theorem Effect.sleepy_worker (he : Effect lc env t w (code (w.pc t)) w₁ pc) (h : Sleepy m pc) :
    Sleepy m (w.pc t) ∨ (w.apps m).sgLogClose = false := by
  generalize w.pc t = pc₀ at he ⊢
  have hfn : pc₀.fn = .worker (.own m) := by
    rcases he.leads (code_leads_fn pc₀) with rfl | hfn
    · rcases h with (h | h | h) | h <;> cases h
    · rw [← hfn]
      rcases h with (rfl | rfl | rfl) | rfl <;> rfl
  cases pc₀ with
  | routine a r =>
    cases hfn
    have hl : (code (.routine (.own m) r)).Leads fun pc => ¬ Sleepy m pc :=
      routineCode_leads (fun r => not_sleepy_routine) (by rintro ((h | h | h) | h) <;> cases h)
        (not_sleepy_loop (by rintro _ ⟨⟩)) r
    exact absurd h (he.leads hl)
  | loop n c =>
    cases hfn
    cases c with
    | load =>
      cases he with
      | @app _ _ _ _ p closed _ hr =>
        cases hr
        cases hc : (w.apps m).sgLogClose with
        | false => exact .inr rfl
        | true =>
          rw [show (w.app m).mlog.sgLogClose = true from hc] at h
          exact absurd h not_sleepy_routine
    | wait p =>
      cases p with
      | lock => exact .inl (.inl (.inl rfl))
      | cas => exact .inl (.inl (.inr (.inl rfl)))
      | block => exact .inl (.inl (.inr (.inr rfl)))
      | blocked => exact .inl (.inr rfl)
      | _ =>
        cases he
        rcases h with (h | h | h) | h <;> cases h
    | top =>
      have hl : (code (.loop m .top)).Leads fun pc => ¬ Sleepy m pc := by
        intro null
        dsimp only
        split_ifs
        exacts [not_sleepy_routine, not_sleepy_loop (by rintro _ ⟨⟩)]
      exact absurd h (he.leads hl)
    | task c =>
      have hl : (taskCode m (fun c => .loop m (.task c)) (.loop m .load) c).Leads fun pc => ¬ Sleepy m pc :=
        taskCode_leads (fun c => not_sleepy_loop (by rintro _ ⟨⟩)) (not_sleepy_loop (by rintro _ ⟨⟩)) c
      exact absurd h (he.leads hl)
  | _ => cases hfn

theorem Effect.sleepy (he : Effect lc env t w (code (w.pc t)) w₁ pc)
    (h : Sleepy m ((w₁.goto t pc).pc (.worker (.own m)))) :
    Sleepy m (w.pc (.worker (.own m))) ∨ (w.apps m).sgLogClose = false := by
  by_cases ht : Tid.worker (.own m) = t
  · subst ht
    rw [goto_pc_self] at h
    exact he.sleepy_worker h
  · rw [goto_pc_of_ne _ ht] at h
    rcases he.pc_worker (.own m) with hp | ⟨-, hp⟩ | ⟨-, -, hp⟩
    · rw [hp] at h
      exact .inl h
    · rw [hp] at h
      exact .inl (.inl (sleepy_of_woken h))
    · rw [hp] at h
      rcases h with (h | h | h) | h <;> cases h

theorem Told.run (h : Told m w) (hm : m.useShareThread = false) (hs : Synced w) (hc : WakesInTime w (.run t env))
    (he : Effect lc env t w (code (w.pc t)) w₁ pc) : Told m (w₁.goto t pc) := by
  obtain ⟨hawake, hopen⟩ := hc m hm
  -- the flag, for a call that was behind its store before the step
  have hflag : ∀ u, closing m (w.pc u) = some .notify ∨ closing m (w.pc u) = some .join →
      (w₁.apps m).sgLogClose = true := fun u hu =>
    he.stays_closed (fun hst => hu.elim (hopen hst u).1 (hopen hst u).2) (h.flag u hu)
  -- and the worker, for a call that was behind its broadcast
  have hsleep : ∀ u, closing m (w.pc u) = some .join →
      ¬ Sleepy m ((w₁.goto t pc).pc (.worker (.own m))) := fun u hu hsl => by
    rcases he.sleepy hsl with hsl | hf
    · exact h.awake u hu hsl
    · rw [h.flag u (.inr hu)] at hf
      cases hf
  refine ⟨fun u hu => ?_, fun u hu => ?_⟩
  · show (w₁.apps m).sgLogClose = true
    by_cases hut : u = t
    · subst hut
      rw [goto_pc_self] at hu
      rcases hu with hu | hu
      · obtain ⟨s, hs, hm⟩ := he.closing_prev hu
        cases hm with
        | stay => exact hflag u (.inl hs)
        | store hf => exact hf
      · obtain ⟨s, hs, hm⟩ := he.closing_prev hu
        cases hm with
        | stay => exact hflag u (.inr hs)
        | notify => exact hflag u (.inl hs)
    · rw [hs.closing_of_ne he hut] at hu
      exact hflag u hu
  · by_cases hut : u = t
    · subst hut
      rw [goto_pc_self] at hu
      obtain ⟨s, hsu, hm⟩ := he.closing_prev hu
      cases hm with
      | stay => exact hsleep u hsu
      | notify hw =>
        -- this is the broadcast
        obtain ⟨n, rfl⟩ := hs.caller_of_closing hsu
        rw [goto_pc_of_ne _ (by simp), hw, goto_pc_self]
        exact fun hsl => hawake hsu (sleepy_of_woken hsl)
    · rw [hs.closing_of_ne he hut] at hu
      exact hsleep u hu

theorem Told.enter (h : Told m w) {n : ℕ} (hcl : ∀ s, closing m pc = some s → s = .load)
    (hflag : (w.apps m).sgLogClose = true → (w₁.apps m).sgLogClose = true) (hpc : w₁.pc = w.pc) :
    Told m (w₁.goto (.caller n) pc) := by
  have hold : ∀ {u s}, closing m ((w₁.goto (.caller n) pc).pc u) = some s → s ≠ .load →
      closing m (w.pc u) = some s := by
    intro u s hu hs
    by_cases hut : u = .caller n
    · rw [hut, goto_pc_self] at hu
      exact absurd (hcl s hu) hs
    · rwa [goto_pc_of_ne _ hut, hpc] at hu
  refine ⟨fun u hu => hflag (h.flag u (hu.imp (hold · (by simp)) (hold · (by simp)))), fun u hu => ?_⟩
  rw [goto_pc_of_ne _ (by simp), hpc]
  exact h.awake u (hold hu (by simp))

theorem Told.step {l : Label} (h : Told m w) (hm : m.useShareThread = false) (hs : Synced w) (hc : WakesInTime w l)
    (hstep : step lc w l = some w') : Told m w' := by
  rcases step_cases hstep with ⟨n, share, -, -, rfl⟩ | ⟨n, m', u, -, -, -, rfl⟩ |
    ⟨t, env, w₁, pc, rfl, he, rfl⟩
  · refine h.enter (by rintro s ⟨⟩) (fun hf => ?_) rfl
    show (Function.update w.apps _ _ m).sgLogClose = true
    by_cases hm : m = ⟨share, w.created⟩
    · rw [hm, Function.update_self]
      rfl
    · rw [Function.update_of_ne hm]
      exact hf
  · cases u with
    | close | destroy =>
      refine h.enter (fun s hs => ?_) id rfl
      rw [Use.entry, closing, Option.ite_none_right_eq_some] at hs
      exact (Option.some_inj.mp hs.2).symm
    | _ => exact h.enter (by rintro s ⟨⟩) id rfl
  · exact h.run hm hs hc he

end Wakeup

/-- **`close` does not wait for a sleeping worker**, as long as no broadcast falls between the worker's test of
`sg_log_close` and its sleep, and no appender is opened while it is being closed. -/
theorem close_wakes_worker (lc : Libc) (files : Disk) (statics : FormatStatics) (w : State)
    (h : Reach (step lc) WakesInTime (.init files statics) w) : ¬ LostWakeup w := by
  have hinit : ∀ m, Told m (.init files statics) := fun m =>
    { flag := by rintro u (hu | hu) <;> cases hu
      awake := by rintro u ⟨⟩ }
  have hinv : Synced w ∧ ∀ m, m.useShareThread = false → Told m w := by
    refine h.inv (P := fun w => Synced w ∧ ∀ m, m.useShareThread = false → Told m w)
      ⟨synced_init files statics, fun m _ => hinit m⟩ fun s l s' hs hc hstep => ?_
    exact ⟨hs.1.step hstep, fun m hm => (hs.2 m hm).step hm hs.1 hc hstep⟩
  rintro ⟨t, m, hm, hj, hw⟩
  exact (hinv.2 m hm).awake t (closing_of_joining hj) (.inr hw)

/-- An appender with a thread of its own is opened; its worker finds it open; `close` stores the flag and wakes
the worker; the worker goes to sleep; and `close` goes on to the join. -/
def broadcastBeforeSleep (m : Mlog) : List Label :=
  .create 0 false :: runs (.caller 0) 3 ++
  .call 0 m (.open .async dirD nameN) :: runs (.caller 0) 16 ++
  runs (.worker (.own m)) 8 ++
  .call 0 m .close :: runs (.caller 0) 3 ++
  runs (.worker (.own m)) 3 ++
  runs (.caller 0) 5

theorem close_hangs :
    ∃ w, Reach (step utc) (fun _ _ => True) (.init (fun _ => []) ⟨0, 0⟩) w ∧ LostWakeup w := by
  have hrun : (run (step utc) (.init (fun _ => []) ⟨0, 0⟩) (broadcastBeforeSleep ⟨false, 0⟩)).any (fun w =>
      (w.pc (.caller 0)).joins ⟨false, 0⟩ && (w.pc (.worker (.own ⟨false, 0⟩))).sleeps ⟨false, 0⟩) = true := by
    decide +kernel
  obtain ⟨w, hw, hb⟩ := (Option.any_eq_true _ _).mp hrun
  rw [Bool.and_eq_true] at hb
  exact ⟨w, reach_of_run (meets_of_forall fun _ _ => trivial) hw, .caller 0, ⟨false, 0⟩, rfl,
    joining_of_joins hb.1, eq_of_sleeps hb.2⟩

/-- Whether the worker of `m` has seen that the appender is open, and does not sleep yet. -/
def Pc.dozes (m : Mlog) : Pc → Bool
  | .loop n (.wait .lock) => n = m
  | .loop n (.wait .cas) => n = m
  | .loop n (.wait .block) => n = m
  | _ => false

theorem dozes_of_beforeSleep {m : Mlog} {pc : Pc} (h : BeforeSleep m pc) : pc.dozes m = true := by
  rcases h with rfl | rfl | rfl
  · exact decide_eq_true rfl
  · exact decide_eq_true rfl
  · exact decide_eq_true rfl

/-- A test of `WakesInTime`. -/
def wakesTest (ns : List ℕ) (w : State) : Label → Bool
  | .run t _ => (w.pc t).fn.mlog.all fun m =>
    !(closing m (w.pc t) = some .notify && (w.pc (.worker (.own m))).dozes m) &&
      !((code (w.pc t)).stores m = some false && ns.any fun k =>
        closing m (w.pc (.caller k)) = some .notify || closing m (w.pc (.caller k)) = some .join)
  | _ => true

theorem wakesInTime_of_test {ns : List ℕ} {w : State} {l : Label} (hs : Synced w) (hi : IdleBut ns w)
    (h : wakesTest ns w l = true) : WakesInTime w l := by
  cases l with
  | run t env =>
    refine fun m _ => ⟨fun hn hb => ?_, fun hst u => ?_⟩
    · have hm : (w.pc t).fn.mlog = some m := mlog_of_closes (exists_closing_iff.mp ⟨_, hn⟩)
      rw [wakesTest, hm] at h
      simp [hn, dozes_of_beforeSleep hb] at h
    · have hm : (w.pc t).fn.mlog = some m := mlog_of_opens (by_of_stores hst (code_by _))
      rw [wakesTest, hm] at h
      simp only [Option.all_some, hst, Bool.and_eq_true, Bool.not_eq_true', decide_true, Bool.true_and,
        List.any_eq_false, Bool.or_eq_true, decide_eq_true_iff, not_or] at h
      rw [← not_or]
      intro hu
      obtain ⟨k, rfl⟩ : ∃ k, u = .caller k := hu.elim hs.caller_of_closing hs.caller_of_closing
      by_cases hns : k ∈ ns
      · exact (not_or.mpr (h.2 k hns)) hu
      · rw [hi k hns] at hu
        rcases hu with hu | hu <;> cases hu
  | _ => trivial

/-- A record is appended to an appender with a thread of its own; its worker writes it to the file and goes to sleep. -/
def sleepingWorker (m : Mlog) : List Label :=
  .create 0 false :: runs (.caller 0) 3 ++
  .call 0 m (.open .async dirD nameN) :: runs (.caller 0) 16 ++
  .call 0 m (.append none (some textA)) :: runs (.caller 0) 13 ++
  runs (.worker (.own m)) 15

/-- `close` stores the flag, wakes the worker and comes to the join. -/
def closingAsleep (m : Mlog) : List Label := .call 1 m .close :: runs (.caller 1) 8

theorem close_wakes_worker_asleep :
    ∃ w₀ w, run (step utc) (.init (fun _ => []) ⟨0, 0⟩) (sleepingWorker ⟨false, 0⟩) = some w₀ ∧
      w₀.pc (.worker (.own ⟨false, 0⟩)) = .loop ⟨false, 0⟩ (.wait .blocked) ∧
      run (step utc) w₀ (closingAsleep ⟨false, 0⟩) = some w ∧ Joining ⟨false, 0⟩ (w.pc (.caller 1)) ∧
      ¬ LostWakeup w := by
  have hrun : (run (step utc) (.init (fun _ => []) ⟨0, 0⟩) (sleepingWorker ⟨false, 0⟩)).any (fun w₀ =>
      (w₀.pc (.worker (.own ⟨false, 0⟩))).sleeps ⟨false, 0⟩ &&
        (run (step utc) w₀ (closingAsleep ⟨false, 0⟩)).any fun w => (w.pc (.caller 1)).joins ⟨false, 0⟩) = true := by
    decide +kernel
  obtain ⟨w₀, hw₀, hb⟩ := (Option.any_eq_true _ _).mp hrun
  rw [Bool.and_eq_true] at hb
  obtain ⟨w, hw, hj⟩ := (Option.any_eq_true _ _).mp hb.2
  have hmeets : Meets (step utc) WakesInTime (.init (fun _ => []) ⟨0, 0⟩)
      (sleepingWorker ⟨false, 0⟩ ++ closingAsleep ⟨false, 0⟩) :=
    meets_of_test [0, 1] (wakesTest [0, 1]) (fun w l hs hi h => wakesInTime_of_test hs hi h) (by decide +kernel)
      (by decide +kernel)
  have hall : run (step utc) (.init (fun _ => []) ⟨0, 0⟩) (sleepingWorker ⟨false, 0⟩ ++ closingAsleep ⟨false, 0⟩) =
      some w := by
    rw [run_append, hw₀]
    exact hw
  exact ⟨w₀, w, hw₀, eq_of_sleeps hb.1, hw, joining_of_joins hj,
    close_wakes_worker utc (fun _ => []) ⟨0, 0⟩ w (reach_of_run hmeets hall)⟩

end MTAppenderFile.Loglib.World
