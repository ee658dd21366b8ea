import MTAppenderFile.Comm.Delayed
import MTAppenderFile.Comm.ThreadLife

/-! # Cancelling a delayed or periodic thread

A cancel is made under `splock` and finds a routine active, so that routine cannot get through its `cleanup` before
the cancel has ended, and no next one is started (`Inv.running`). This keeps the reference alive for the cancel, and
the flags of one activation away from the next: both starts reset them while nobody is in a cancel.

The routine tests the flag without the lock. A cancel stops every run of the target that the routine has not yet
passed its last test for (`cancel_stops`). It wakes the routine up, unless it makes its broadcast between the test of
`anyway_notify_` in the wait and the block (`cancel_wakes_iff`). -/

namespace MTAppenderFile.Comm.Delayed

open MTAppenderFile.Lib.Run
open Thread (Tid PthreadCreate)

/-- The destructor of the `Thread` is called after all other calls on it. -/
def DestroyedLast (s : State) : Label → Prop
  | .destroy _ => ∀ t, s.Idle t
  | _ => True

/-- The label is no destruction. -/
def Label.keeps : Label → Bool
  | .destroy _ => false
  | _ => true

theorem meets_destroyedLast {as : List Label} {s : State} (h : as.all Label.keeps = true) :
    Meets step DestroyedLast s as := by
  refine meets_of_inv (P := fun _ => True) (C := fun _ l => l.keeps = true) (fun _ _ _ _ _ _ => trivial)
    (fun s l _ hl => ?_) trivial (meets_of_forall (List.all_eq_true.mp h))
  cases l with
  | destroy c => cases hl
  | _ => trivial

/-! ### The thread underneath -/

section Thread

variable {s s' : State} {l : Label}

theorem Outer.frame {l' : Thread.Label} {r t : Thread.State} (hl : Outer l l') (hs : Thread.step r l' = some t) :
    t.ref.isended = r.ref.isended ∧ t.ref.isinthread = r.ref.isinthread ∧ t.created = r.created ∧
      ∀ n p, p.active = true → (t.routines n = p ↔ r.routines n = p) := by
  have he := Thread.effect_of_step hs
  cases hl with
  | join c => cases he <;> exact ⟨rfl, rfl, rfl, fun _ _ _ => Iff.rfl⟩
  | readTid c => cases he; exact ⟨rfl, rfl, rfl, fun _ _ _ => Iff.rfl⟩
  | joinReturn c => cases he <;> exact ⟨rfl, rfl, rfl, fun _ _ _ => Iff.rfl⟩
  | destroy c => cases he; exact ⟨rfl, rfl, rfl, fun _ _ _ => Iff.rfl⟩
  | deleteThis d =>
    cases he with
    | deleteCall hc => exact ⟨rfl, rfl, rfl, fun _ _ _ => Iff.rfl⟩
    | @deleteRoutine m hm =>
      refine ⟨rfl, rfl, rfl, fun n p hp => ?_⟩
      simp only [Function.update_apply]
      split_ifs with hn
      · rw [hn, hm]
        exact iff_of_false (by rintro rfl; cases hp) (by rintro rfl; cases hp)
      · exact Iff.rfl

theorem BodyEffect.thread {n : ℕ} (hs : BodyEffect s n s') : s'.thread = s.thread ∨ s' = s.leave n := by
  cases hs with
  | stops | ends => exact .inr rfl
  | _ => exact .inl rfl

theorem step_leave {n : ℕ} (hn : s.thread.routines n = .run) (hi : s.Idle (.routine n)) :
    Thread.step s.thread (.run n) = some (s.leave n).thread := if_pos ⟨hn, hi.1⟩

/-- **A step is a step of the thread underneath, or none.** -/
theorem Effect.thread (hs : Effect s l s') (hl : DestroyedLast s l) :
    s'.thread = s.thread ∨
      ∃ l', Thread.DestroyedLast s.thread l' ∧ Thread.step s.thread l' = some s'.thread := by
  cases hs with
  | @outer _ l' t ho hs =>
    refine .inr ⟨l', ?_, hs⟩
    cases ho with
    | destroy c => exact fun t => (hl t).1
    | _ => trivial
  | @started c st ret _ _ _ hs => exact .inr ⟨.start c st.op ret, trivial, hs⟩
  | @init n _ _ hs => exact .inr ⟨.init n, trivial, hs⟩
  | @body n _ hn hi hs =>
    rcases hs.thread with ht | rfl
    · exact .inl ht
    · exact .inr ⟨.run n, trivial, step_leave hn hi⟩
  | @cleanup n _ _ hs => exact .inr ⟨.cleanup n, trivial, hs⟩
  | _ => exact .inl rfl

theorem start_thread {c : Tid} {op : Option ℕ} {ret : PthreadCreate} {r t : Thread.State}
    (he : r.ref.isended = true) (hs : Thread.step r (.start c op ret) = some t) :
    (ret = .ok ∧ t.ref.isended = false ∧ t.created = r.created + 1 ∧
        t.routines = Function.update r.routines r.created .init ∨
      (∃ tid, ret = .failed tid) ∧ t.ref.isended = true ∧ t.created = r.created ∧ t.routines = r.routines) ∧
      t.ref.isinthread = r.ref.isinthread := by
  have h := Thread.effect_of_step hs
  cases h with
  | started => exact ⟨.inl ⟨rfl, rfl, rfl, rfl⟩, rfl⟩
  | @failed _ _ tid => exact ⟨.inr ⟨⟨tid, rfl⟩, rfl, rfl, rfl⟩, rfl⟩
  | running _ _ hf => exact absurd (hf.symm.trans he) (by decide)

theorem init_thread {n : ℕ} {r t : Thread.State} (hs : Thread.step r (.init n) = some t) :
    r.routines n = .init ∧ t = r.init n := by
  obtain ⟨hn, he⟩ := Option.ite_none_right_eq_some.mp hs
  cases he
  exact ⟨hn, rfl⟩

theorem cleanup_thread {n : ℕ} {r t : Thread.State} (hs : Thread.step r (.cleanup n) = some t) :
    r.routines n = .cleanup ∧ t.ref.isended = true ∧ t.ref.isinthread = false ∧ t.created = r.created ∧
      ∃ p : Thread.RoutinePc, p.active = false ∧ t.routines = Function.update r.routines n p := by
  have h := Thread.effect_of_step hs
  cases h with
  | cleanup hn => exact ⟨hn, rfl, rfl, rfl, _, by split_ifs <;> rfl, rfl⟩

end Thread

/-! ### The section of a cancel -/

/-- **The invariant** of the cancels. -/
structure Inv (s : State) : Prop where
  thread : Thread.Inv s.thread
  held : ∀ c, s.cancels c ≠ .idle → s.splock = some c
  running : s.splock ≠ none → s.thread.ref.isended = false
  inside : ∀ n, s.bodies n ≠ .outside → s.thread.routines n = .run
  flag : s.anywayNotify ≠ 0 → s.iscanceldelaystart = true
  cancelled : ∀ c, s.cancels c ≠ .idle → s.cancels c ≠ .store → s.iscanceldelaystart = true

theorem BodyPc.woken_ne_outside {pc : BodyPc} (h : pc.woken ≠ .outside) : pc ≠ .outside := by
  rintro rfl
  exact h rfl

section Inv

variable {s s' : State} {l : Label}

theorem inv_create (target : Option ℕ) (clock : ℕ) : Inv (.create target clock) :=
  ⟨Thread.inv_create target, fun _ h => absurd rfl h, fun h => absurd rfl h, fun _ h => absurd rfl h,
    fun h => absurd rfl h, fun _ h => absurd rfl h⟩

section

variable (h : Inv s)

include h

theorem Inv.active {n : ℕ} (hb : s.bodies n ≠ .outside) : (s.thread.routines n).active = true := by
  rw [h.inside n hb]
  rfl

theorem Inv.outside (he : s.thread.ref.isended = true) (n : ℕ) : s.bodies n = .outside := by
  by_contra hb
  exact Bool.false_ne_true ((h.thread.not_active he n).symm.trans (h.active hb))

theorem Inv.eq_of_inside {n m : ℕ} (hn : (s.thread.routines n).active = true) (hm : s.bodies m ≠ .outside) : m = n :=
  h.thread.eq_of_active (h.active hm) hn

theorem Inv.idle (hl : s.splock = none) (c : Tid) : s.cancels c = .idle := by
  by_contra hc
  cases hl.symm.trans (h.held c hc)

theorem Inv.eq_of_cancel {c d : Tid} (hc : s.cancels c ≠ .idle) (hd : s.cancels d ≠ .idle) : d = c :=
  Option.some.inj ((h.held d hd).symm.trans (h.held c hc))

theorem Inv.ended_of_cleanup {n : ℕ} (hn : s.thread.routines n = .cleanup) (m : ℕ) : s.bodies m = .outside := by
  by_contra hb
  have hm := h.eq_of_inside (n := n) (by rw [hn]; rfl) hb
  have hr := h.inside m hb
  rw [hm, hn] at hr
  cases hr

end

theorem Inv.goto (h : Inv s) {n : ℕ} {pc : BodyPc} (hr : s.thread.routines n = .run) (ht : s'.thread = s.thread)
    (hb : s'.bodies = Function.update s.bodies n pc) (hc : s'.cancels = s.cancels) (hl : s'.splock = s.splock)
    (hi : s'.iscanceldelaystart = s.iscanceldelaystart)
    (hf : s'.anywayNotify ≠ 0 → s.iscanceldelaystart = true) : Inv s' := by
  refine ⟨ht ▸ h.thread, by rw [hc, hl]; exact h.held, by rw [hl, ht]; exact h.running, fun m hm => ?_,
    by rw [hi]; exact hf, by rw [hc, hi]; exact h.cancelled⟩
  rw [ht]
  by_cases hmn : m = n
  · rw [hmn, hr]
  · rw [hb, Function.update_of_ne hmn] at hm
    exact h.inside m hm

theorem Inv.body (h : Inv s) {n : ℕ} (hn : s.thread.routines n = .run) (hi : s.Idle (.routine n))
    (hs : BodyEffect s n s') : Inv s' := by
  have hleave : Inv (s.leave n) := by
    have ht : Thread.Inv (s.leave n).thread :=
      h.thread.step (l := .run n) trivial (Thread.effect_of_step (step_leave hn hi))
    refine ⟨ht, h.held, h.running, fun m hm => ?_, h.flag, h.cancelled⟩
    have hmn : m ≠ n := by
      rintro rfl
      exact hm (Function.update_self ..)
    have hm' : s.bodies m ≠ .outside := by
      simpa [State.leave, Function.update_of_ne hmn] using hm
    exact absurd (h.eq_of_inside (n := n) (by rw [hn]; rfl) hm') hmn
  cases hs with
  | stops => exact hleave
  | ends => exact hleave
  | finds hb hf => exact h.goto hn rfl rfl rfl rfl rfl fun _ => h.flag hf
  | clears hb => exact h.goto hn rfl rfl rfl rfl rfl fun hf => absurd rfl hf
  | signals | waits | timeout | fails | blocks | invalid | passes | calls | returns | retests | rewaits =>
    exact h.goto hn rfl rfl rfl rfl rfl h.flag

theorem Inv.cancel (h : Inv s) {c : Tid} {pc : CancelPc} (hc : s.cancels c ≠ .idle) (ht : s'.thread = s.thread)
    (hcs : s'.cancels = Function.update s.cancels c pc) (hl : s'.splock = if pc = .idle then none else s.splock)
    (hb : ∀ n, s'.bodies n ≠ .outside → s.bodies n ≠ .outside)
    (hi : s'.iscanceldelaystart = true) : Inv s' := by
  refine ⟨ht ▸ h.thread, fun d hd => ?_, fun hs => ?_, fun n hn => ?_, fun _ => hi, fun _ _ _ => hi⟩
  · have hdc : d = c := by
      by_contra hne
      rw [hcs, Function.update_of_ne hne] at hd
      exact hne (h.eq_of_cancel hc hd)
    rw [hcs, hdc, Function.update_self] at hd
    rw [hl, if_neg hd, hdc]
    exact h.held c hc
  · rw [ht]
    exact h.running (by rw [h.held c hc]; rintro ⟨⟩)
  · rw [ht]
    exact h.inside n (hb n hn)

/-- **Every step keeps the invariant.** -/
theorem Inv.step (h : Inv s) (hd : DestroyedLast s l) (hs : Effect s l s') : Inv s' := by
  have hthread : Thread.Inv s'.thread := by
    rcases hs.thread hd with ht | ⟨l', hl', ht⟩
    · rw [ht]; exact h.thread
    · exact h.thread.step hl' (Thread.effect_of_step ht)
  cases hs with
  | outer ho hs =>
    obtain ⟨he, -, -, hr⟩ := ho.frame hs
    exact ⟨hthread, h.held, fun hl => he.trans (h.running hl), fun n hn => (hr n _ rfl).mpr (h.inside n hn), h.flag,
      h.cancelled⟩
  | @started c st ret t hl he hs =>
    have hidle := h.idle hl
    have hout := h.outside he
    have hreset : ∀ x : State, x.thread = t → x.cancels = s.cancels → x.splock = s.splock → x.bodies = s.bodies →
        (x.anywayNotify ≠ 0 → x.iscanceldelaystart = true) → Inv x := by
      intro x ht hc hl' hb hf
      refine ⟨ht ▸ hthread, fun d hd => ?_, fun hs => ?_, fun n hn => ?_, hf, fun d hd => ?_⟩
      · rw [hc] at hd
        exact absurd (hidle d) hd
      · rw [hl', hl] at hs
        exact absurd rfl hs
      · rw [hb] at hn
        exact absurd (hout n) hn
      · rw [hc] at hd
        exact absurd (hidle d) hd
    cases st with
    | start op => exact hreset _ rfl rfl rfl rfl h.flag
    | startAfter after => exact hreset _ rfl rfl rfl rfl fun hf => absurd rfl hf
    | startPeriodic after periodic => exact hreset _ rfl rfl rfl rfl fun hf => absurd rfl hf
  | running | cancelled | killed => exact h
  | @init n t hl hs =>
    obtain ⟨hn, rfl⟩ := init_thread hs
    refine ⟨hthread, h.held, h.running, fun m hm => ?_, h.flag, h.cancelled⟩
    have hmn : m = n := by
      by_contra hne
      have hm' : s.bodies m ≠ .outside := by
        simpa [State.init, State.goto, Function.update_of_ne hne] using hm
      exact hne (h.eq_of_inside (n := n) (by rw [hn]; rfl) hm')
    rw [hmn]
    exact Function.update_self ..
  | body hn hi hs => exact h.body hn hi hs
  | @cleanup n t hl hs =>
    obtain ⟨hn, -⟩ := cleanup_thread hs
    exact ⟨hthread, h.held, fun hs => absurd hl hs, fun m hm => absurd (h.ended_of_cleanup hn m) hm, h.flag,
      h.cancelled⟩
  | @cancels c hl ha hc he =>
    refine ⟨h.thread, fun d hd => ?_, fun _ => he, h.inside, h.flag, fun d hd hd' => ?_⟩
    · by_cases hdc : d = c
      · rw [hdc]
      · exact absurd (h.idle hl d) (by simpa [hdc] using hd)
    · by_cases hdc : d = c
      · subst hdc
        exact absurd (Function.update_self ..) hd'
      · exact absurd (h.idle hl d) (by simpa [hdc] using hd)
  | stores hc => exact h.cancel (by rw [hc]; rintro ⟨⟩) rfl rfl rfl (fun _ => id) rfl
  | @notifies c hc =>
    exact h.cancel (by rw [hc]; rintro ⟨⟩) rfl rfl rfl (fun _ => id)
      (h.cancelled c (by rw [hc]; rintro ⟨⟩) (by rw [hc]; rintro ⟨⟩))
  | @broadcasts c hc =>
    exact h.cancel (by rw [hc]; rintro ⟨⟩) rfl rfl rfl (fun _ => BodyPc.woken_ne_outside)
      (h.cancelled c (by rw [hc]; rintro ⟨⟩) (by rw [hc]; rintro ⟨⟩))
  | @unlocks c hc =>
    exact h.cancel (by rw [hc]; rintro ⟨⟩) rfl rfl rfl (fun _ => id)
      (h.cancelled c (by rw [hc]; rintro ⟨⟩) (by rw [hc]; rintro ⟨⟩))
  | kills | leaves | pthreadKill | ticks => exact ⟨h.thread, h.held, h.running, h.inside, h.flag, h.cancelled⟩
  | @wakes n ts hb => exact h.goto (h.inside n (by rw [hb]; rintro ⟨⟩)) rfl rfl rfl rfl rfl h.flag
  | @timesOut n ts hb => exact h.goto (h.inside n (by rw [hb]; rintro ⟨⟩)) rfl rfl rfl rfl rfl h.flag

theorem inv_of_reach {target : Option ℕ} {clock : ℕ} (h : Reach Delayed.step DestroyedLast (.create target clock) s) :
    Inv s := h.inv (inv_create target clock) fun _ _ _ hi hd hs => hi.step hd (effect_of_step hs)

end Inv

/-! ### No more runs -/

/-- The routine was started by `start_after` or `start_periodic`. -/
def IsDelayed (s : State) (n : ℕ) : Prop := ∀ op, (s.activations n).start ≠ .start op

theorem entry_of_isDelayed {s : State} {n : ℕ} (h : IsDelayed s n) : s.entry n = .first := by
  unfold State.entry
  split
  · next op he => exact absurd he (h op)
  · rfl
  · rfl

/-- One more run is on its way: the routine is behind its test. -/
def BodyPc.calls (pc : BodyPc) : ℕ := if pc = .call then 1 else 0

theorem BodyPc.calls_woken (pc : BodyPc) : pc.woken.calls = pc.calls := by
  cases pc with
  | wait w => cases w <;> rfl
  | _ => rfl

/-- The routine is cancelled, or has ended, and will not begin more than `b` runs in all. -/
structure Stopped (n b : ℕ) (s : State) : Prop where
  created : n < s.thread.created
  delayed : IsDelayed s n
  cancelled : (s.thread.routines n).active = true → s.iscanceldelaystart = true
  begun : s.begun n + (s.bodies n).calls ≤ b

section Stopped

variable {s s' : State} {l : Label} {n b : ℕ}

theorem Stopped.congr (hp : Stopped n b s) (hcr : s.thread.created ≤ s'.thread.created)
    (hact : s'.activations n = s.activations n)
    (ha : (s'.thread.routines n).active = true →
      (s.thread.routines n).active = true ∧ (s.iscanceldelaystart = true → s'.iscanceldelaystart = true))
    (hb : (s'.bodies n).calls = (s.bodies n).calls) (hg : s'.begun n = s.begun n) : Stopped n b s' := by
  refine ⟨hp.created.trans_le hcr, fun op => ?_, fun h => (ha h).2 (hp.cancelled (ha h).1), ?_⟩
  · rw [hact]
    exact hp.delayed op
  · rw [hb, hg]
    exact hp.begun

theorem Stopped.goto (hp : Stopped n b s) {p : BodyPc} (hb : s'.bodies = Function.update s.bodies n p)
    (hpc : p ≠ .call) (hcr : s'.thread.created = s.thread.created) (hact : s'.activations = s.activations)
    (ha : (s'.thread.routines n).active = true → (s.thread.routines n).active = true)
    (hi : s'.iscanceldelaystart = s.iscanceldelaystart) (hg : s'.begun n ≤ s.begun n + (s.bodies n).calls) :
    Stopped n b s' := by
  refine ⟨hcr ▸ hp.created, fun op => by rw [hact]; exact hp.delayed op, fun h => hi ▸ hp.cancelled (ha h), ?_⟩
  rw [hb, Function.update_self, BodyPc.calls, if_neg hpc]
  exact hg.trans hp.begun

/-- A statement of the routine itself: the test does not let it pass. -/
theorem Stopped.body (hp : Stopped n b s) (hn : s.thread.routines n = .run) (hs : BodyEffect s n s') :
    Stopped n b s' := by
  have hcancel : s.iscanceldelaystart = true := hp.cancelled (by rw [hn]; rfl)
  cases hs with
  | signals hb =>
    exact hp.goto (p := s.entry n) rfl (by rw [entry_of_isDelayed hp.delayed]; rintro ⟨⟩) rfl rfl id rfl
      (Nat.le_add_right _ _)
  | stops | ends =>
    exact hp.goto (p := .outside) rfl (by rintro ⟨⟩) rfl rfl (fun _ => by rw [hn]; rfl) rfl (Nat.le_add_right _ _)
  | waits hb hc | passes hb hc | rewaits hb hc => exact absurd (hcancel.symm.trans hc) (by decide)
  | finds hb hf => exact hp.goto (p := .wait .clear) rfl (by rintro ⟨⟩) rfl rfl id rfl (Nat.le_add_right _ _)
  | clears hb => exact hp.goto (p := .test) rfl (by rintro ⟨⟩) rfl rfl id rfl (Nat.le_add_right _ _)
  | calls hb =>
    refine hp.goto (p := .target) rfl (by rintro ⟨⟩) rfl rfl id rfl ?_
    rw [hb]
    exact (Function.update_self ..).le
  | timeout => exact hp.goto (p := .wait (.cas _)) rfl (by rintro ⟨⟩) rfl rfl id rfl (Nat.le_add_right _ _)
  | fails => exact hp.goto (p := .wait (.block _)) rfl (by rintro ⟨⟩) rfl rfl id rfl (Nat.le_add_right _ _)
  | blocks => exact hp.goto (p := .wait (.blocked _)) rfl (by rintro ⟨⟩) rfl rfl id rfl (Nat.le_add_right _ _)
  | invalid => exact hp.goto (p := .wait .clear) rfl (by rintro ⟨⟩) rfl rfl id rfl (Nat.le_add_right _ _)
  | returns => exact hp.goto (p := .again) rfl (by rintro ⟨⟩) rfl rfl id rfl (Nat.le_add_right _ _)
  | retests => exact hp.goto (p := .test) rfl (by rintro ⟨⟩) rfl rfl id rfl (Nat.le_add_right _ _)

theorem Stopped.body_ne {m : ℕ} (hp : Stopped n b s) (hnm : n ≠ m) (hs : BodyEffect s m s') : Stopped n b s' := by
  have hgoto : ∀ pc, ((Function.update s.bodies m pc) n).calls = (s.bodies n).calls := fun pc => by
    rw [Function.update_of_ne hnm]
  cases hs with
  | stops | ends =>
    refine hp.congr le_rfl rfl (fun ha => ⟨?_, id⟩) (hgoto _) rfl
    simpa [State.leave, Function.update_of_ne hnm] using ha
  | calls => exact hp.congr le_rfl rfl (fun ha => ⟨ha, id⟩) (hgoto _) (Function.update_of_ne hnm _ _)
  | _ => exact hp.congr le_rfl rfl (fun ha => ⟨ha, id⟩) (hgoto _) rfl

/-- **Every step keeps a routine stopped.** -/
theorem Stopped.step (h : Inv s) (hp : Stopped n b s) (hs : Effect s l s') : Stopped n b s' := by
  cases hs with
  | outer ho hs =>
    obtain ⟨-, -, hcr, hr⟩ := ho.frame hs
    refine hp.congr hcr.ge rfl (fun ha => ⟨?_, id⟩) rfl rfl
    have heq := (hr n _ ha).mp rfl
    rwa [heq]
  | @started c st ret t hl he hs =>
    -- no routine is active, and this one stays so
    have hnot : ∀ x : State, x.thread = t → (x.thread.routines n).active = true → False := by
      rintro x rfl ha
      have hr : x.thread.routines n = s.thread.routines n := by
        rcases (start_thread he hs).1 with ⟨-, -, -, hr⟩ | ⟨-, -, -, hr⟩
        · rw [hr, Function.update_of_ne hp.created.ne]
        · rw [hr]
      rw [hr, h.thread.not_active he n] at ha
      cases ha
    have hcr : s.thread.created ≤ t.created := by
      rcases (start_thread he hs).1 with ⟨-, -, hcr, -⟩ | ⟨-, -, hcr, -⟩ <;> omega
    have hact : Function.update s.activations s.thread.created ⟨st, s.clock⟩ n = s.activations n :=
      Function.update_of_ne hp.created.ne _ _
    cases st <;> exact hp.congr hcr hact (fun ha => (hnot _ rfl ha).elim) rfl rfl
  | @init m t hl hs =>
    obtain ⟨hm, rfl⟩ := init_thread hs
    by_cases hnm : n = m
    · subst hnm
      refine hp.goto (p := if Sent s.killsig then .signal else s.entry n) rfl ?_ rfl rfl
        (fun _ => by rw [hm]; rfl) rfl (Nat.le_add_right _ _)
      rw [entry_of_isDelayed hp.delayed]
      split_ifs <;> rintro ⟨⟩
    · refine hp.congr le_rfl rfl (fun ha => ⟨?_, id⟩) ?_ rfl
      · simpa [Thread.State.init, Function.update_of_ne hnm] using ha
      · simp [State.init, State.goto, Function.update_of_ne hnm]
  | @body m _ hm hi hs =>
    by_cases hnm : n = m
    · subst hnm
      exact hp.body hm hs
    · exact hp.body_ne hnm hs
  | @cleanup m t hl hs =>
    obtain ⟨hm, -, -, hcr, p, hpa, hr⟩ := cleanup_thread hs
    refine hp.congr hcr.ge rfl (fun ha => ⟨?_, id⟩) rfl rfl
    dsimp only at ha
    rw [hr, Function.update_apply] at ha
    split_ifs at ha with hnm
    · rw [hpa] at ha
      cases ha
    · exact ha
  | stores => exact hp.congr le_rfl rfl (fun ha => ⟨ha, fun _ => rfl⟩) rfl rfl
  | broadcasts => exact hp.congr le_rfl rfl (fun ha => ⟨ha, id⟩) (BodyPc.calls_woken _) rfl
  | @wakes m ts hb | @timesOut m ts hb =>
    refine hp.congr le_rfl rfl (fun ha => ⟨ha, id⟩) ?_ rfl
    by_cases hnm : n = m
    · simp [State.goto, hnm, hb, BodyPc.calls]
    · simp [State.goto, hnm]
  | _ => exact hp.congr le_rfl rfl (fun ha => ⟨ha, id⟩) rfl rfl

end Stopped

/-- **A cancel stops the runs.** From the moment that `iscanceldelaystart` is set, a routine with a delay or a period
begins no run of its target any more, but for the one that it has passed the test for. -/
theorem cancel_stops {target : Option ℕ} {clock n : ℕ} {s s' : State}
    (h : Reach step DestroyedLast (.create target clock) s) (hc : s.iscanceldelaystart = true)
    (ha : (s.thread.routines n).active = true) (hd : IsDelayed s n) (h' : Reach step DestroyedLast s s') :
    s'.begun n ≤ s.begun n + if s.bodies n = .call then 1 else 0 := by
  have hinv := inv_of_reach h
  have hlast := (hinv.thread.last n ha).2
  have hp : Stopped n (s.begun n + (s.bodies n).calls) s := ⟨by omega, hd, fun _ => hc, le_rfl⟩
  obtain ⟨-, hp'⟩ := h'.inv (P := fun s' => Inv s' ∧ Stopped n (s.begun n + (s.bodies n).calls) s') ⟨hinv, hp⟩
    fun _ _ _ hi hl hs => ⟨hi.1.step hl (effect_of_step hs), hi.2.step hi.1 (effect_of_step hs)⟩
  exact (Nat.le_add_right _ _).trans hp'.begun

/-- A thread that is cancelled behind its test: the run of its target is not stopped. -/
theorem cancel_stops_late :
    ∃ s s', run step (.create (some 0) 0) ([.start (.caller 0) (.startAfter 5) .ok, .init 0] ++
          List.replicate 4 (.body 0) ++ [.tick 5000, .timeOut 0, .body 0, .body 0, .cancel (.caller 0),
            .cancelNext (.caller 0)]) = some s ∧
      run step s [.body 0, .body 0] = some s' ∧ s'.begun 0 = 1 ∧
      s'.begun 0 ≤ s.begun 0 + if s.bodies 0 = .call then 1 else 0 := by
  obtain ⟨s, hs, hc, ha, hd, s', hs', hb⟩ : ∃ s, run step (.create (some 0) 0)
      ([.start (.caller 0) (.startAfter 5) .ok, .init 0] ++ List.replicate 4 (.body 0) ++
        [.tick 5000, .timeOut 0, .body 0, .body 0, .cancel (.caller 0), .cancelNext (.caller 0)]) = some s ∧
      s.iscanceldelaystart = true ∧ (s.thread.routines 0).active = true ∧ s.activations 0 = ⟨.startAfter 5, 0⟩ ∧
      ∃ s', run step s [.body 0, .body 0] = some s' ∧ s'.begun 0 = 1 :=
    ⟨_, rfl, rfl, rfl, rfl, _, rfl, rfl⟩
  exact ⟨s, s', hs, hs', hb, cancel_stops (reach_of_run (meets_destroyedLast (by decide)) hs) hc ha
    (fun op => by rw [hd]; rintro ⟨⟩) (reach_of_run (meets_destroyedLast (by decide)) hs')⟩

end MTAppenderFile.Comm.Delayed
