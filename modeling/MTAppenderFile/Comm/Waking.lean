import MTAppenderFile.Comm.Cancel

/-! # How a cancelled thread ends

Once `iscanceldelaystart` is set, a routine has at most six statements left between `init` and `cleanup`, whatever the
other threads do, and it can take each of them at once, but for a wait that it is in (`cancelled_ends`). A wait like
that lasts to its time-out only if the broadcast of the cancel was not in time, that is, came between the test of
`anyway_notify_` and the block (`cancel_wakes_iff`). -/

namespace MTAppenderFile.Comm.Delayed

open MTAppenderFile.Lib.Run
open Thread (Tid PthreadCreate)

/-! ### The statements that are left -/

/-- The statements that a cancelled routine has left before `cleanup`. -/
def BodyPc.rank : BodyPc → ℕ
  | .outside => 0
  | .test | .first => 1
  | .signal | .again | .wait .clear => 2
  | .target | .wait (.blocked _) => 3
  | .call | .wait (.block _) => 4
  | .wait (.cas _) => 5
  | .wait (.timeout _) => 6

theorem BodyPc.rank_le (pc : BodyPc) : pc.rank ≤ 6 := by
  cases pc with
  | wait w => cases w <;> exact Nat.le_of_ble_eq_true rfl
  | _ => decide

theorem BodyPc.rank_woken (pc : BodyPc) : pc.woken.rank ≤ pc.rank := by
  cases pc with
  | wait w => cases w <;> exact Nat.le_of_ble_eq_true rfl
  | _ => exact le_rfl

/-- The next statement of the routine. -/
def Label.isBody (n : ℕ) : Label → Bool
  | .body m => m = n
  | _ => false

/-- A routine behind `init` that is cancelled, or has ended. -/
structure Ending (n : ℕ) (s : State) : Prop where
  created : n < s.thread.created
  entered : s.thread.routines n ≠ .init
  delayed : IsDelayed s n
  cancelled : (s.thread.routines n).active = true → s.iscanceldelaystart = true

section Ending

variable {s s' : State} {l : Label} {n : ℕ}

/-- A statement of a cancelled routine is one of those that it has left. -/
theorem BodyEffect.rank (hd : IsDelayed s n) (hc : s.iscanceldelaystart = true) (hs : BodyEffect s n s') :
    (s'.bodies n).rank + 1 ≤ (s.bodies n).rank := by
  cases hs with
  | signals hb => simp [hb, entry_of_isDelayed hd, BodyPc.rank]
  | stops hb => rcases hb with hb | hb <;> simp [hb, BodyPc.rank]
  | waits _ hf | passes _ hf | rewaits _ hf => exact absurd (hc.symm.trans hf) (by decide)
  | ends hb | timeout hb | finds hb | fails hb | blocks hb | invalid hb | clears hb | calls hb | returns hb
  | retests hb => simp [hb, BodyPc.rank]

/-- **Every step keeps a routine at its end**, and no step of others gives it more statements. -/
theorem Ending.step (h : Inv s) (hp : Ending n s) (hs : Effect s l s') :
    Ending n s' ∧ (s'.bodies n).rank + (l.isBody n).toNat ≤ (s.bodies n).rank := by
  have hsame : ∀ {x : State}, s.thread.created ≤ x.thread.created → x.activations n = s.activations n →
      ((x.thread.routines n).active = true ∨ x.thread.routines n = .init →
        x.thread.routines n = s.thread.routines n) →
      (s.iscanceldelaystart = true → x.iscanceldelaystart = true) → Ending n x := by
    intro x hcr hact hr hi
    refine ⟨hp.created.trans_le hcr, fun he => hp.entered ((hr (.inr he)).symm.trans he),
      fun op => by rw [hact]; exact hp.delayed op, fun ha => hi (hp.cancelled ?_)⟩
    rw [← hr (.inl ha)]
    exact ha
  cases hs with
  | outer ho hs =>
    obtain ⟨-, -, hcr, hr⟩ := ho.frame hs
    cases ho <;>
      exact ⟨hsame hcr.ge rfl (fun ha => ((hr n _ (ha.elim id fun he => by rw [he]; rfl)).mp rfl).symm) id, le_rfl⟩
  | @started c st ret t hl he hs =>
    have hr : t.routines n = s.thread.routines n := by
      rcases (start_thread he hs).1 with ⟨-, -, -, hr⟩ | ⟨-, -, -, hr⟩
      · rw [hr, Function.update_of_ne hp.created.ne]
      · rw [hr]
    have hcr : s.thread.created ≤ t.created := by
      rcases (start_thread he hs).1 with ⟨-, -, hcr, -⟩ | ⟨-, -, hcr, -⟩ <;> omega
    have hact : Function.update s.activations s.thread.created ⟨st, s.clock⟩ n = s.activations n :=
      Function.update_of_ne hp.created.ne _ _
    have hnot : (t.routines n).active = true → False := by
      rw [hr, h.thread.not_active he n]
      exact Bool.false_ne_true
    have hend : ∀ x : State, x.thread = t → x.activations n = s.activations n → Ending n x := by
      rintro x rfl hx
      exact ⟨hp.created.trans_le hcr, by rw [hr]; exact hp.entered, fun op => by rw [hx]; exact hp.delayed op,
        fun ha => (hnot ha).elim⟩
    cases st <;> exact ⟨hend _ rfl hact, le_rfl⟩
  | @init m t hl hs =>
    obtain ⟨hm, rfl⟩ := init_thread hs
    have hnm : n ≠ m := by
      rintro rfl
      exact hp.entered hm
    refine ⟨hsame le_rfl rfl (fun _ => Function.update_of_ne hnm _ _) id, ?_⟩
    simp [State.init, State.goto, hnm, Label.isBody]
  | @body m _ hm hi hs =>
    by_cases hnm : n = m
    · subst hnm
      have hc : s.iscanceldelaystart = true := hp.cancelled (by rw [hm]; rfl)
      refine ⟨?_, by simpa [Label.isBody] using hs.rank hp.delayed hc⟩
      have hleave : Ending n (s.leave n) :=
        ⟨hp.created, by simp [State.leave], hp.delayed, fun _ => hc⟩
      rcases hs.thread with ht | rfl
      · refine ⟨ht ▸ hp.created, ht ▸ hp.entered, fun op => ?_, fun _ => ?_⟩
        · cases hs <;> exact hp.delayed op
        · cases hs <;> exact hc
      · exact hleave
    · have hb : s'.bodies n = s.bodies n ∧ s'.activations = s.activations ∧
          s'.thread.created = s.thread.created ∧ s'.thread.routines n = s.thread.routines n ∧
          s'.iscanceldelaystart = s.iscanceldelaystart := by
        cases hs <;> simp [State.goto, State.leave, hnm]
      obtain ⟨hb, hact, hcr, hr, hi⟩ := hb
      refine ⟨hsame hcr.ge (by rw [hact]) (fun _ => hr) (by rw [hi]; exact id), ?_⟩
      rw [hb]
      simp [Label.isBody, Ne.symm hnm]
  | @cleanup m t hl hs =>
    obtain ⟨hm, -, -, hcr, p, hpa, hr⟩ := cleanup_thread hs
    refine ⟨hsame hcr.ge rfl (fun ha => ?_) id, le_rfl⟩
    dsimp only at ha ⊢
    rw [hr, Function.update_apply] at ha ⊢
    split_ifs at ha ⊢ with hnm
    · rcases ha with ha | rfl
      · rw [hpa] at ha
        cases ha
      · cases hpa
    · rfl
  | stores => exact ⟨hsame le_rfl rfl (fun _ => rfl) (fun _ => rfl), le_rfl⟩
  | broadcasts => exact ⟨hsame le_rfl rfl (fun _ => rfl) id, BodyPc.rank_woken _⟩
  | @wakes m ts hb | @timesOut m ts hb =>
    refine ⟨hsame le_rfl rfl (fun _ => rfl) id, ?_⟩
    by_cases hnm : n = m
    · simp [hnm, hb, BodyPc.rank, Label.isBody]
    · simp [State.goto, hnm, Label.isBody]
  | _ => exact ⟨hsame le_rfl rfl (fun _ => rfl) id, le_rfl⟩

theorem isSome_body (h : Inv s) (hb : s.bodies n ≠ .outside) (hi : s.Idle (.routine n))
    (hw : ∀ ts, s.bodies n ≠ .wait (.blocked ts)) : (Delayed.step s (.body n)).isSome = true := by
  simp only [Delayed.step, h.inside n hb, hi, and_self, if_true]
  unfold State.body
  split
  · contradiction
  · rfl
  · rfl
  · rfl
  · rfl
  · rfl
  · next ts hts => exact absurd hts (hw ts)
  · rfl
  · rfl
  · rfl
  · split <;> rfl
  · rfl

end Ending

/-- **A cancelled thread ends.** From the moment that `iscanceldelaystart` is set, a routine with a delay or a period
takes at most six statements more before `cleanup`, with any steps of others between them; and where it is not in a
call that its target has made, it can go on, unless it is asleep in the one wait that it was in. -/
theorem cancelled_ends {target : Option ℕ} {clock n : ℕ} {s s' : State} {as : List Label}
    (h : Reach step DestroyedLast (.create target clock) s) (hc : s.iscanceldelaystart = true)
    (hn : s.thread.routines n = .run) (hd : IsDelayed s n) (hm : Meets step DestroyedLast s as)
    (hr : run step s as = some s') :
    as.countP (Label.isBody n) + (s'.bodies n).rank ≤ (s.bodies n).rank ∧ (s.bodies n).rank ≤ 6 ∧
      (s'.bodies n ≠ .outside → s'.Idle (.routine n) →
        (step s' (.body n)).isSome = true ∨ ∃ ts, s'.bodies n = .wait (.blocked ts)) := by
  have hinv := inv_of_reach h
  have hactive : (s.thread.routines n).active = true := by rw [hn]; rfl
  have hlast := (hinv.thread.last n hactive).2
  have hp : Ending n s := ⟨by omega, by rw [hn]; rintro ⟨⟩, hd, fun _ => hc⟩
  have hcount : ∀ (as : List Label) (s : State), Inv s → Ending n s → Meets step DestroyedLast s as →
      run step s as = some s' → as.countP (Label.isBody n) + (s'.bodies n).rank ≤ (s.bodies n).rank := by
    intro as
    induction as with
    | nil =>
      intro s _ _ _ hr
      cases hr
      simp
    | cons a as ih =>
      intro s hi hp hm hr
      obtain ⟨s₁, hs, hr⟩ := Option.bind_eq_some_iff.mp hr
      obtain ⟨hp₁, hrank⟩ := hp.step hi (effect_of_step hs)
      have := ih s₁ (hi.step hm.1 (effect_of_step hs)) hp₁ (hm.2 s₁ hs) hr
      rw [List.countP_cons]
      cases ha : Label.isBody n a <;> simp only [ha, Bool.toNat_false, Bool.toNat_true] at hrank ⊢ <;> simp <;> omega
  refine ⟨hcount as s hinv hp hm hr, BodyPc.rank_le _, fun hb hi => ?_⟩
  by_cases hw : ∃ ts, s'.bodies n = .wait (.blocked ts)
  · exact .inr hw
  · exact .inl (isSome_body (inv_of_reach (h.trans (reach_of_run hm hr))) hb hi (not_exists.mp hw))

/-- A cancel in the second run of the target: three statements are left. -/
theorem cancelled_ends_periodic :
    ∃ s s', run step (.create (some 0) 0) ([.start (.caller 0) (.startPeriodic 0 10) .ok, .init 0] ++
          List.replicate 4 (.body 0) ++ [.timeOut 0] ++ List.replicate 3 (.body 0) ++
          [.cancel (.caller 0), .cancelNext (.caller 0)]) = some s ∧
      run step s [.body 0, .cancelNext (.caller 0), .body 0] = some s' ∧ s'.bodies 0 = .test ∧
      (2 + (s'.bodies 0).rank ≤ (s.bodies 0).rank ∧ (s.bodies 0).rank ≤ 6 ∧ (step s' (.body 0)).isSome = true) := by
  obtain ⟨s, hs, hc, hn, hd, s', hs', hb, hi⟩ : ∃ s, run step (.create (some 0) 0)
      ([.start (.caller 0) (.startPeriodic 0 10) .ok, .init 0] ++ List.replicate 4 (.body 0) ++ [.timeOut 0] ++
        List.replicate 3 (.body 0) ++ [.cancel (.caller 0), .cancelNext (.caller 0)]) = some s ∧
      s.iscanceldelaystart = true ∧ s.thread.routines 0 = .run ∧ s.activations 0 = ⟨.startPeriodic 0 10, 0⟩ ∧
      ∃ s', run step s [.body 0, .cancelNext (.caller 0), .body 0] = some s' ∧ s'.bodies 0 = .test ∧
        s'.Idle (.routine 0) := ⟨_, rfl, rfl, rfl, rfl, _, rfl, rfl, rfl, rfl, rfl⟩
  obtain ⟨hcount, hsix, hnext⟩ := cancelled_ends (reach_of_run (meets_destroyedLast (by decide)) hs) hc hn
    (fun op => by rw [hd]; rintro ⟨⟩) (meets_destroyedLast (by decide)) hs'
  refine ⟨s, s', hs, hs', hb, hcount, hsix, ?_⟩
  exact (hnext (by rw [hb]; rintro ⟨⟩) hi).resolve_right (by rw [hb]; rintro ⟨_, ⟨⟩⟩)

/-! ### The broadcast -/

/-- Asleep, or past the test of `anyway_notify_` and about to be. -/
def BodyPc.Sleeps : BodyPc → Prop
  | .wait (.block ts) => ts.Valid
  | .wait (.blocked _) => True
  | _ => False

/-- About to test `anyway_notify_`. -/
def BodyPc.untested : BodyPc → Bool
  | .wait (.timeout _) | .wait (.cas _) => true
  | _ => false

/-- A cancel has made its broadcast, and none is before it. -/
def Broadcast (s : State) : Prop :=
  s.iscanceldelaystart = true ∧ ∀ c, s.cancels c = .idle ∨ s.cancels c = .unlock

/-- **Cancelled routines are awake.** -/
def Awake (s : State) : Prop := Broadcast s → ∀ n, ¬ (s.bodies n).Sleeps

/-- No cancel makes its broadcast while a routine is between the test of `anyway_notify_` and the block. -/
def InTime (s : State) : Label → Prop
  | .cancelNext c => s.cancels c = .broadcast → ∀ n ts, s.bodies n = .wait (.block ts) → ¬ ts.Valid
  | _ => True

/-- A routine that is about to test the flag finds it set, behind its store by a cancel. -/
def Flagged (s : State) : Prop :=
  s.iscanceldelaystart = true → (∀ c, s.cancels c ≠ .store ∧ s.cancels c ≠ .anywayNotify) →
    ∀ n, (s.bodies n).untested = true → s.anywayNotify ≠ 0

theorem BodyPc.untested_woken (pc : BodyPc) : pc.woken.untested = pc.untested := by
  cases pc with
  | wait w => cases w <;> rfl
  | _ => rfl

theorem BodyPc.sleeps_woken {pc : BodyPc} : pc.woken.Sleeps ↔ ∃ ts, pc = .wait (.block ts) ∧ ts.Valid := by
  cases pc with
  | wait w =>
    cases w with
    | block ts => exact ⟨fun h => ⟨ts, rfl, h⟩, by rintro ⟨_, ⟨⟩, hv⟩; exact hv⟩
    | _ => exact ⟨False.elim, by rintro ⟨_, ⟨⟩, -⟩⟩
  | _ => exact ⟨False.elim, by rintro ⟨_, ⟨⟩, -⟩⟩

section Awake

variable {s s' : State} {l : Label}

theorem Broadcast.flagged (hb : Broadcast s) (c : Tid) : s.cancels c ≠ .store ∧ s.cancels c ≠ .anywayNotify := by
  rcases hb.2 c with hc | hc <;> rw [hc] <;> exact ⟨by rintro ⟨⟩, by rintro ⟨⟩⟩

theorem Inv.of_goto (h : Inv s) {n : ℕ} {p : BodyPc → Prop} (hn : s.thread.routines n = .run) (pc : BodyPc)
    (hp : ¬ p .outside) {m : ℕ} (hm : p (Function.update s.bodies n pc m)) : p pc := by
  by_cases hmn : m = n
  · rwa [hmn, Function.update_self] at hm
  · rw [Function.update_of_ne hmn] at hm
    by_cases hb : s.bodies m = .outside
    · rw [hb] at hm
      exact absurd hm hp
    · exact absurd (h.eq_of_inside (n := n) (by rw [hn]; rfl) hb) hmn

theorem BodyEffect.awake (h : Inv s) (hf : Flagged s) (ha : Awake s) {n : ℕ} (hn : s.thread.routines n = .run)
    (hs : BodyEffect s n s') : Flagged s' ∧ Awake s' := by
  have hgoto : ∀ {x : State} (pc : BodyPc), x.bodies = Function.update s.bodies n pc →
      x.iscanceldelaystart = s.iscanceldelaystart → x.cancels = s.cancels →
      (s.iscanceldelaystart = true → pc.untested = true →
        (s.bodies n).untested = true ∧ x.anywayNotify = s.anywayNotify) →
      (Broadcast s → ¬ pc.Sleeps) → Flagged x ∧ Awake x := by
    intro x pc hb hi hc hu hsl
    refine ⟨fun hx hcs m hm => ?_, fun hx m hm => ?_⟩
    · rw [hb] at hm
      have hpc := h.of_goto (p := fun b => b.untested = true) hn pc (by decide) hm
      obtain ⟨hold, hflag⟩ := hu (hi ▸ hx) hpc
      rw [hflag]
      exact hf (hi ▸ hx) (hc ▸ hcs) n hold
    · rw [hb] at hm
      exact hsl ⟨hi ▸ hx.1, hc ▸ hx.2⟩ (h.of_goto (p := BodyPc.Sleeps) hn pc id hm)
  cases hs with
  | signals hb =>
    refine hgoto (s.entry n) rfl rfl rfl (fun _ hu => ?_) fun _ hsl => ?_
    · unfold State.entry at hu
      split at hu <;> cases hu
    · unfold State.entry at hsl
      split at hsl <;> exact hsl
  | stops hb hc => exact hgoto .outside rfl rfl rfl (by rintro _ ⟨⟩) fun _ => id
  | waits hb hc | rewaits hb hc =>
    exact hgoto (.wait (.timeout _)) rfl rfl rfl (fun hx => absurd (hc.symm.trans hx) (by decide)) fun _ => id
  | timeout hb => exact hgoto (.wait (.cas _)) rfl rfl rfl (fun _ _ => ⟨by rw [hb]; rfl, rfl⟩) fun _ => id
  | finds hb hfl => exact hgoto (.wait .clear) rfl rfl rfl (by rintro _ ⟨⟩) fun _ => id
  | fails hb hfl =>
    refine hgoto (.wait (.block _)) rfl rfl rfl (by rintro _ ⟨⟩) fun hbr => ?_
    exact absurd hfl (hf hbr.1 hbr.flagged n (by rw [hb]; rfl))
  | @blocks ts hb hv =>
    refine hgoto (.wait (.blocked _)) rfl rfl rfl (by rintro _ ⟨⟩) fun hbr => absurd ?_ (ha hbr n)
    rw [hb]
    exact hv
  | invalid hb hv => exact hgoto (.wait .clear) rfl rfl rfl (by rintro _ ⟨⟩) fun _ => id
  | clears hb => exact hgoto .test rfl rfl rfl (by rintro _ ⟨⟩) fun _ => id
  | passes hb hc => exact hgoto .call rfl rfl rfl (by rintro _ ⟨⟩) fun _ => id
  | calls hb => exact hgoto .target rfl rfl rfl (by rintro _ ⟨⟩) fun _ => id
  | returns hb hp => exact hgoto .again rfl rfl rfl (by rintro _ ⟨⟩) fun _ => id
  | ends hb hp => exact hgoto .outside rfl rfl rfl (by rintro _ ⟨⟩) fun _ => id
  | retests hb hc => exact hgoto .test rfl rfl rfl (by rintro _ ⟨⟩) fun _ => id

/-- **Every step in time keeps both.** -/
theorem Awake.step (h : Inv s) (hf : Flagged s) (ha : Awake s) (hs : Effect s l s') :
    Flagged s' ∧ (InTime s l → Awake s') := by
  -- where nobody is between `init` and `cleanup` there is nothing to show
  have hout : ∀ x : State, (∀ n, x.bodies n = .outside) → Flagged x ∧ Awake x := fun x hx =>
    ⟨fun _ _ n hn => (by rw [hx n] at hn; cases hn), fun _ n hn => (by rw [hx n] at hn; exact hn)⟩
  -- a cancel that is not behind its broadcast
  have hbefore : ∀ {x : State} {c : Tid}, x.cancels c ≠ .idle → x.cancels c ≠ .unlock → Awake x :=
    fun h₁ h₂ hbr => absurd (hbr.2 _) (not_or.mpr ⟨h₁, h₂⟩)
  cases hs with
  | outer => exact ⟨hf, fun _ => ha⟩
  | @started c st ret t hl he hs =>
    have hx := hout { s.started st ret with thread := t } fun n => by cases st <;> exact h.outside he n
    exact ⟨hx.1, fun _ => hx.2⟩
  | running | cancelled | killed => exact ⟨hf, fun _ => ha⟩
  | @init n t hl hs =>
    obtain ⟨hn, rfl⟩ := init_thread hs
    have hpc : ∀ {p : BodyPc → Prop} (m : ℕ), ¬ p .outside → ¬ p .signal → ¬ p .first → ¬ p .call →
        ¬ p ((s.init n).bodies m) := by
      intro p m h₁ h₂ h₃ h₄ hm
      by_cases hmn : m = n
      · rw [hmn, State.init, State.bodies_goto] at hm
        unfold State.entry at hm
        split_ifs at hm
        · exact h₂ hm
        · split at hm <;> contradiction
      · rw [State.init, State.bodies_goto_of_ne _ hmn] at hm
        refine h₁ ?_
        by_cases hb : s.bodies m = .outside
        · rwa [hb] at hm
        · exact absurd (h.eq_of_inside (n := n) (by rw [hn]; rfl) hb) hmn
    have huntested := fun m => hpc (p := fun b => b.untested = true) m (by rintro ⟨⟩) (by rintro ⟨⟩) (by rintro ⟨⟩)
      (by rintro ⟨⟩)
    exact ⟨fun _ _ m hm => absurd hm (huntested m),
      fun _ _ m => hpc (p := BodyPc.Sleeps) m id id id id⟩
  | body hn hi hs =>
    have hx := hs.awake h hf ha hn
    exact ⟨hx.1, fun _ => hx.2⟩
  | cleanup => exact ⟨hf, fun _ => ha⟩
  | @cancels c hl hal hc he =>
    exact ⟨fun _ hcs => absurd (Function.update_self ..) (hcs c).1,
      fun _ => hbefore (c := c) (by simp) (by simp)⟩
  | @stores c hc =>
    exact ⟨fun _ hcs => absurd (Function.update_self ..) (hcs c).2,
      fun _ => hbefore (c := c) (by simp) (by simp)⟩
  | @notifies c hc =>
    exact ⟨fun _ _ _ _ => (by decide : (1 : UInt32) ≠ 0), fun _ => hbefore (c := c) (by simp) (by simp)⟩
  | @broadcasts c hc =>
    have hothers : ∀ d, s.cancels d ≠ .store ∧ s.cancels d ≠ .anywayNotify := fun d => by
      by_cases hd : s.cancels d = .idle
      · rw [hd]
        exact ⟨by rintro ⟨⟩, by rintro ⟨⟩⟩
      · rw [h.eq_of_cancel (c := c) (by rw [hc]; rintro ⟨⟩) hd, hc]
        exact ⟨by rintro ⟨⟩, by rintro ⟨⟩⟩
    refine ⟨fun hi _ n hn => hf hi hothers n ((BodyPc.untested_woken _).symm.trans hn), fun hit _ n hn => ?_⟩
    obtain ⟨ts, hb, hv⟩ := BodyPc.sleeps_woken.mp hn
    exact hit hc n ts hb hv
  | @unlocks c hc =>
    have hothers : ∀ d, s.cancels d = .idle ∨ s.cancels d = .unlock := fun d => by
      by_cases hd : s.cancels d = .idle
      · exact .inl hd
      · rw [h.eq_of_cancel (c := c) (by rw [hc]; rintro ⟨⟩) hd]
        exact .inr hc
    refine ⟨fun hi _ => hf hi fun d => ?_, fun _ hbr => ha ⟨hbr.1, hothers⟩⟩
    exact Broadcast.flagged (s := s) ⟨hi, hothers⟩ d
  | kills | leaves | pthreadKill | ticks => exact ⟨hf, fun _ => ha⟩
  | @wakes n ts hb | @timesOut n ts hb =>
    have hn := h.inside n (by rw [hb]; rintro ⟨⟩)
    have huntested := fun m => h.of_goto (p := fun b => b.untested = true) (m := m) hn (.wait .clear) (by rintro ⟨⟩)
    exact ⟨fun _ _ m hm => absurd (huntested m hm) (by rintro ⟨⟩),
      fun _ _ m hm => h.of_goto (p := BodyPc.Sleeps) hn (.wait .clear) id hm⟩

/-- A broadcast that is not in time leaves a routine that is about to sleep. -/
theorem not_awake_of_not_inTime (h : Inv s) (hit : ¬ InTime s l) :
    ∃ s', Delayed.step s l = some s' ∧ ¬ Awake s' := by
  cases l with
  | cancelNext c =>
    simp only [InTime, Classical.not_imp, not_forall, not_not] at hit
    obtain ⟨hc, n, ts, hb, hv⟩ := hit
    refine ⟨{ s with
      bodies := fun n => (s.bodies n).woken
      cancels := Function.update s.cancels c .unlock }, by simp only [Delayed.step, State.cancel, hc], fun ha => ?_⟩
    have hcancel := h.cancelled c (by rw [hc]; rintro ⟨⟩) (by rw [hc]; rintro ⟨⟩)
    refine ha ⟨hcancel, fun d => ?_⟩ n (BodyPc.sleeps_woken.mpr ⟨ts, hb, hv⟩)
    by_cases hdc : d = c
    · exact .inr (by rw [hdc]; exact Function.update_self ..)
    · refine .inl ((Function.update_of_ne hdc ..).trans ?_)
      by_contra hd
      exact hdc (h.eq_of_cancel (c := c) (by rw [hc]; rintro ⟨⟩) hd)
  | _ => exact absurd trivial hit

end Awake

/-- **When a cancel wakes the routine up.** In a run, no routine is asleep or about to be after the broadcast of its
cancel, exactly if no broadcast comes between the test of `anyway_notify_` and the block. -/
theorem cancel_wakes_iff (target : Option ℕ) (clock : ℕ) {as : List Label}
    (hm : Meets step DestroyedLast (.create target clock) as) :
    Meets step (fun s l => ∀ s', step s l = some s' → Awake s') (.create target clock) as ↔
      Meets step InTime (.create target clock) as := by
  refine meets_iff_of_keeps (P := fun s => Inv s ∧ Flagged s ∧ Awake s) (fun s l hi hl => ?_)
    (fun s l s' hi hl hit hs => ?_) ⟨inv_create target clock, by rintro ⟨⟩, by rintro _ _ ⟨⟩⟩ hm
  · constructor
    · intro ha
      by_contra hit
      obtain ⟨s', hs, hn⟩ := not_awake_of_not_inTime hi.1 hit
      exact hn (ha s' hs)
    · exact fun hit s' hs => (hi.2.2.step hi.1 hi.2.1 (effect_of_step hs)).2 hit
  · have hx := hi.2.2.step hi.1 hi.2.1 (effect_of_step hs)
    exact ⟨hi.1.step hl (effect_of_step hs), hx.1, hx.2 hit⟩

/-- A thread that is cancelled before its `init`. -/
theorem cancel_wakes_iff_early :
    Meets step (fun s l => ∀ s', step s l = some s' → Awake s') (.create (some 0) 0)
      [.start (.caller 0) (.startAfter 5) .ok, .cancel (.caller 0), .cancelNext (.caller 0), .cancelNext (.caller 0),
        .cancelNext (.caller 0), .cancelNext (.caller 0), .init 0, .body 0, .cleanup 0] := by
  refine (cancel_wakes_iff (some 0) 0 (meets_destroyedLast (by decide))).mpr ?_
  refine meets_of_step trivial rfl (meets_of_step trivial rfl (meets_of_step (by rintro ⟨⟩) rfl ?_))
  refine meets_of_step (by rintro ⟨⟩) rfl ?_
  refine meets_of_step (by rintro _ n ts ⟨⟩) rfl (meets_of_step (by rintro ⟨⟩) rfl ?_)
  exact meets_of_step trivial rfl (meets_of_step trivial rfl (meets_of_step trivial rfl trivial))

end MTAppenderFile.Comm.Delayed
