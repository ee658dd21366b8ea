import MTAppenderFile.Comm.Cancel

/-! # The reference and the signals of a delayed thread

With the delayed starts, the cancels and `kill`, a `Thread` still has one active routine, and its reference the life
that it has without them (`reference_life`): a cancel and a `kill` behind its unlock find it there.

`killsig` is written while a routine is started and not yet `isinthread`, and `cleanup` clears it. So `init` sends the
signal of the last `kill` in that time, if it is one from 1 to 32, and none that was meant for a routine before
(`signals_sent`), although it reads it again without the lock. A later `kill` reads `tid()` without the lock, as `join`
does, and reaches the routine that it has found active, if that does not end before (`kill_found_iff`). -/

namespace MTAppenderFile.Comm.Delayed

open MTAppenderFile.Lib.Run
open Thread (Tid PthreadCreate)

/-! ### The reference -/

/-- The steps that access the reference: all but the return of `pthread_join`, and time. -/
def Accesses : Label → Prop
  | .joinReturn _ | .tick _ => False
  | _ => True

/-- A `kill` behind its unlock has its `Thread`. -/
def Killing (s : State) : Prop := ∀ c, s.kills c ≠ none → s.thread.alive = true

section Reference

variable {s s' : State} {l : Label}

theorem Outer.alive {l' : Thread.Label} {r t : Thread.State} (hl : Outer l l') (hs : Thread.step r l' = some t) :
    t.alive = r.alive ∨ ∃ c, l = .destroy c := by
  have he := Thread.effect_of_step hs
  cases hl with
  | destroy c => exact .inr ⟨c, rfl⟩
  | join | readTid | joinReturn | deleteThis => cases he <;> exact .inl rfl

theorem start_alive {c : Tid} {op : Option ℕ} {ret : PthreadCreate} {r t : Thread.State}
    (hs : Thread.step r (.start c op ret) = some t) : r.alive = true ∧ t.alive = r.alive := by
  have h := Thread.effect_of_step hs
  cases h with
  | started ha | failed ha | running ha => exact ⟨ha, rfl⟩

theorem Killing.step (hk : Killing s) (hd : DestroyedLast s l) (hs : Effect s l s') : Killing s' := by
  cases hs with
  | outer ho hs =>
    intro c hc
    rcases ho.alive hs with ha | ⟨d, rfl⟩
    · exact ha.trans (hk c hc)
    · exact absurd (hd c).2.2 hc
  | @started c st ret t _ _ hs =>
    have ha := (start_alive hs).2
    cases st <;> exact fun c hc => ha.trans (hk c hc)
  | init _ hs =>
    obtain ⟨-, rfl⟩ := init_thread hs
    exact hk
  | @body n _ _ _ hs => cases hs <;> exact hk
  | @cleanup n t _ hs =>
    have he := Thread.effect_of_step hs
    cases he
    exact hk
  | kills ha => exact fun _ _ => ha
  | @pthreadKill c _ _ hc => exact fun _ _ => hk c (by rw [hc]; rintro ⟨⟩)
  | _ => exact hk

end Reference

/-- **The life of the reference.** There is at most one active routine, the count is one for the `Thread` and one for
that routine, and the reference is deleted at most once. It is there in a cancel, in a `kill` behind its unlock, and
at every step that accesses it. -/
theorem reference_life {target : Option ℕ} {clock : ℕ} {s : State}
    (h : Reach step DestroyedLast (.create target clock) s) :
    (∀ n m, (s.thread.routines n).active = true → (s.thread.routines m).active = true → n = m) ∧
      s.thread.ref.count =
        s.thread.alive.toNat + (List.range s.thread.created).countP (fun n => (s.thread.routines n).active) ∧
      s.thread.deletes ≤ 1 ∧ (∀ c, s.cancels c ≠ .idle ∨ s.kills c ≠ none → s.thread.deletes = 0) ∧
      ∀ l s', step s l = some s' → Accesses l → s.thread.deletes = 0 := by
  obtain ⟨hinv, hkill⟩ := h.inv (P := fun s => Inv s ∧ Killing s) ⟨inv_create target clock, fun _ hc => absurd rfl hc⟩
    fun _ _ _ hi hd hs => ⟨hi.1.step hd (effect_of_step hs), hi.2.step hd (effect_of_step hs)⟩
  have hthread := hinv.thread
  have hended : s.thread.ref.isended = false → s.thread.deletes = 0 := fun he =>
    (hthread.needed fun hu => Bool.false_ne_true (he.symm.trans hu.2)).1
  have hcancel : ∀ c, s.cancels c ≠ .idle → s.thread.deletes = 0 := fun c hc =>
    hended (hinv.running (by rw [hinv.held c hc]; rintro ⟨⟩))
  have hbody : ∀ n, s.bodies n ≠ .outside → s.thread.deletes = 0 := fun n hb =>
    (hthread.needed_of_active (hinv.active hb)).1
  refine ⟨fun n m => hthread.eq_of_active, by rw [hthread.countP]; exact hthread.count, ?_, fun c hc => ?_,
    fun l s' hs hl => ?_⟩
  · by_contra hlt
    have := (hthread.deleted (by omega)).2
    omega
  · exact hc.elim (hcancel c) fun hc => (hthread.needed_of_alive (hkill c hc)).1
  · have he := effect_of_step hs
    cases he with
    | @outer _ l' _ ho ht =>
      refine hthread.accesses (Thread.effect_of_step ht) ?_
      cases ho <;> exact hl
    | started _ _ ht => exact (hthread.needed_of_alive (start_alive ht).1).1
    | running he => exact hended he
    | @init n _ _ ht => exact (hthread.needed_of_active (n := n) (by rw [(init_thread ht).1]; rfl)).1
    | @body n _ hn => exact (hthread.needed_of_active (n := n) (by rw [hn]; rfl)).1
    | @cleanup n _ _ ht => exact (hthread.needed_of_active (n := n) (by rw [(cleanup_thread ht).1]; rfl)).1
    | cancels _ ha | kills ha => exact (hthread.needed_of_alive ha).1
    | cancelled | killed =>
      obtain ⟨⟨-, ha, -⟩, -⟩ := Option.ite_none_right_eq_some.mp hs
      exact (hthread.needed_of_alive ha).1
    | leaves he => exact hended he
    | stores hc | notifies hc | broadcasts hc | unlocks hc => exact hcancel _ (by rw [hc]; rintro ⟨⟩)
    | pthreadKill hc => exact (hthread.needed_of_alive (hkill _ (by rw [hc]; rintro ⟨⟩))).1
    | wakes hb | timesOut hb => exact hbody _ (by rw [hb]; rintro ⟨⟩)
    | ticks => exact hl.elim

/-- A cancel in a `Thread` with one routine. -/
theorem reference_life_cancel :
    ∃ s, run step (.create (some 0) 0) [.start (.caller 0) (.startAfter 5) .ok, .cancel (.caller 0)] = some s ∧
      s.cancels (.caller 0) = .store ∧ s.thread.ref.count = 2 ∧ s.thread.deletes = 0 := by
  obtain ⟨s, hs, hc, hcount⟩ : ∃ s, run step (.create (some 0) 0)
      [.start (.caller 0) (.startAfter 5) .ok, .cancel (.caller 0)] = some s ∧ s.cancels (.caller 0) = .store ∧
      s.thread.ref.count = 2 := ⟨_, rfl, rfl, rfl⟩
  obtain ⟨-, -, -, hdel, -⟩ := reference_life (reach_of_run (meets_destroyedLast (by decide)) hs)
  exact ⟨s, hs, hc, hcount, hdel (.caller 0) (.inl (by rw [hc]; rintro ⟨⟩))⟩

/-! ### Signals -/

/-- What `init` makes of `killsig`. -/
def sentOf (requested : List ℤ) : List ℤ := (requested.head?.filter fun sig => Sent sig).toList

/-- **The invariant** of `killsig`. -/
structure Killsig (s : State) : Prop where
  ended : s.thread.ref.isended = true → s.killsig = 0 ∧ s.thread.ref.isinthread = false
  inthread : ∀ n, (s.thread.routines n).active = true → (s.thread.ref.isinthread = false ↔ s.thread.routines n = .init)
  stored : ∀ n, s.thread.routines n = .init → s.killsig = (s.requested n).head?.getD 0
  fresh : ∀ n, s.thread.created ≤ n → s.requested n = [] ∧ s.signals n = []
  waiting : ∀ n, s.thread.routines n = .init → s.signals n = []
  signal : ∀ n, s.bodies n = .signal →
    Sent s.killsig ∧ (s.requested n).head? = some s.killsig ∧ s.signals n = []
  sent : ∀ n < s.thread.created, s.thread.routines n ≠ .init → s.bodies n ≠ .signal →
    s.signals n = sentOf (s.requested n)

theorem killsig_create (target : Option ℕ) (clock : ℕ) : Killsig (.create target clock) :=
  ⟨fun _ => ⟨rfl, rfl⟩, by rintro _ ⟨⟩, by rintro _ ⟨⟩, fun _ _ => ⟨rfl, rfl⟩, by rintro _ ⟨⟩, by rintro _ ⟨⟩,
    fun n hn => absurd hn (Nat.not_lt_zero n)⟩

section Killsig

variable {s s' : State} {l : Label}

theorem Killsig.congr (hk : Killsig s) (he : s'.thread.ref.isended = s.thread.ref.isended)
    (hin : s'.thread.ref.isinthread = s.thread.ref.isinthread) (hcr : s'.thread.created = s.thread.created)
    (hr : ∀ n p, p.active = true → (s'.thread.routines n = p ↔ s.thread.routines n = p))
    (hsig : s'.killsig = s.killsig) (hreq : s'.requested = s.requested) (hsent : s'.signals = s.signals)
    (hb : ∀ n, s'.bodies n = .signal ↔ s.bodies n = .signal) : Killsig s' := by
  have hinit : ∀ n, s'.thread.routines n = .init ↔ s.thread.routines n = .init := fun n => hr n _ rfl
  refine ⟨by rw [he, hsig, hin]; exact hk.ended, fun n ha => ?_, ?_, by rw [hcr, hreq, hsent]; exact hk.fresh, ?_,
    ?_, ?_⟩
  · rw [hin, hinit]
    refine hk.inthread n ?_
    rw [(hr n _ ha).mp rfl]
    exact ha
  · simpa only [hinit, hsig, hreq] using hk.stored
  · simpa only [hinit, hsent] using hk.waiting
  · simpa only [hb, hsig, hreq, hsent] using hk.signal
  · simpa only [hcr, ne_eq, hinit, hb, hreq, hsent] using hk.sent

/-- A statement of a routine that is not behind the unlock of `init` leaves the signals alone. -/
theorem BodyEffect.signals_eq {n : ℕ} (hs : BodyEffect s n s') (hb : s.bodies n ≠ .signal) :
    s'.killsig = s.killsig ∧ s'.requested = s.requested ∧ s'.signals = s.signals ∧
      s'.thread.ref = s.thread.ref ∧ s'.thread.created = s.thread.created ∧
      (∀ m, s'.bodies m = .signal ↔ s.bodies m = .signal) ∧
      ∀ m, s'.thread.routines m = s.thread.routines m ∨ m = n ∧ s'.thread.routines m = .cleanup := by
  have hgoto : ∀ (pc : BodyPc), pc ≠ .signal →
      ∀ m, Function.update s.bodies n pc m = .signal ↔ s.bodies m = .signal := by
    intro pc hpc m
    by_cases hmn : m = n
    · rw [hmn, Function.update_self]
      exact iff_of_false hpc hb
    · rw [Function.update_of_ne hmn]
  have hleave : ∀ m, (s.leave n).thread.routines m = s.thread.routines m ∨
      m = n ∧ (s.leave n).thread.routines m = .cleanup := fun m => by
    by_cases hmn : m = n
    · exact .inr ⟨hmn, by simp [State.leave, hmn]⟩
    · exact .inl (by simp [State.leave, hmn])
  cases hs with
  | signals hx => exact absurd hx hb
  | stops => exact ⟨rfl, rfl, rfl, rfl, rfl, hgoto .outside (by rintro ⟨⟩), hleave⟩
  | ends => exact ⟨rfl, rfl, rfl, rfl, rfl, hgoto .outside (by rintro ⟨⟩), hleave⟩
  | waits => exact ⟨rfl, rfl, rfl, rfl, rfl, hgoto (.wait _) (by rintro ⟨⟩), fun _ => .inl rfl⟩
  | timeout => exact ⟨rfl, rfl, rfl, rfl, rfl, hgoto (.wait _) (by rintro ⟨⟩), fun _ => .inl rfl⟩
  | finds => exact ⟨rfl, rfl, rfl, rfl, rfl, hgoto (.wait _) (by rintro ⟨⟩), fun _ => .inl rfl⟩
  | fails => exact ⟨rfl, rfl, rfl, rfl, rfl, hgoto (.wait _) (by rintro ⟨⟩), fun _ => .inl rfl⟩
  | blocks => exact ⟨rfl, rfl, rfl, rfl, rfl, hgoto (.wait _) (by rintro ⟨⟩), fun _ => .inl rfl⟩
  | invalid => exact ⟨rfl, rfl, rfl, rfl, rfl, hgoto (.wait _) (by rintro ⟨⟩), fun _ => .inl rfl⟩
  | clears => exact ⟨rfl, rfl, rfl, rfl, rfl, hgoto .test (by rintro ⟨⟩), fun _ => .inl rfl⟩
  | passes => exact ⟨rfl, rfl, rfl, rfl, rfl, hgoto .call (by rintro ⟨⟩), fun _ => .inl rfl⟩
  | calls => exact ⟨rfl, rfl, rfl, rfl, rfl, hgoto .target (by rintro ⟨⟩), fun _ => .inl rfl⟩
  | returns => exact ⟨rfl, rfl, rfl, rfl, rfl, hgoto .again (by rintro ⟨⟩), fun _ => .inl rfl⟩
  | retests => exact ⟨rfl, rfl, rfl, rfl, rfl, hgoto .test (by rintro ⟨⟩), fun _ => .inl rfl⟩
  | rewaits => exact ⟨rfl, rfl, rfl, rfl, rfl, hgoto (.wait _) (by rintro ⟨⟩), fun _ => .inl rfl⟩

theorem BodyPc.woken_eq_signal {pc : BodyPc} : pc.woken = .signal ↔ pc = .signal := by
  cases pc with
  | wait w => cases w <;> exact iff_of_false (by rintro ⟨⟩) (by rintro ⟨⟩)
  | _ => exact Iff.rfl

theorem State.entry_ne_signal (s : State) (n : ℕ) : s.entry n ≠ .signal := by
  unfold State.entry
  split <;> rintro ⟨⟩

theorem Killsig.body (h : Inv s) (hk : Killsig s) {n : ℕ} (hn : s.thread.routines n = .run) (hs : BodyEffect s n s') :
    Killsig s' := by
  by_cases hb : s.bodies n = .signal
  · -- the `pthread_kill` of `init`
    obtain ⟨hsent, hhead, hnil⟩ := hk.signal n hb
    cases hs with
    | signals =>
      have hne : ∀ m, (s.goto n (s.entry n)).bodies m ≠ .signal := fun m => by
        by_cases hmn : m = n
        · rw [hmn, State.bodies_goto]
          exact s.entry_ne_signal n
        · rw [State.bodies_goto_of_ne _ hmn]
          intro hm
          exact hmn (h.eq_of_inside (n := n) (by rw [hn]; rfl) (by rw [hm]; rintro ⟨⟩))
      have hlt : n < s.thread.created := by
        have := (h.thread.last n (by rw [hn]; rfl)).2
        omega
      have hothers : ∀ m, m ≠ n → Function.update s.signals n (s.killsig :: s.signals n) m = s.signals m :=
        fun m hmn => Function.update_of_ne hmn ..
      refine ⟨hk.ended, hk.inthread, hk.stored, fun m hm => ?_, fun m hm => ?_, fun m hm => absurd hm (hne m),
        fun m hm hr _ => ?_⟩
      · have hmn : m ≠ n := fun he => by rw [he] at hm; exact absurd hlt (Nat.not_lt.mpr hm)
        exact ⟨(hk.fresh m hm).1, (hothers m hmn).trans (hk.fresh m hm).2⟩
      · have hmn : m ≠ n := by
          rintro rfl
          cases hn.symm.trans hm
        exact (hothers m hmn).trans (hk.waiting m hm)
      · by_cases hmn : m = n
        · subst hmn
          simp [sentOf, hhead, hnil, State.goto, Option.filter, hsent]
        · refine (hothers m hmn).trans (hk.sent m hm hr fun hx => ?_)
          exact hmn (h.eq_of_inside (n := n) (by rw [hn]; rfl) (by rw [hx]; rintro ⟨⟩))
    | stops hx => rcases hx with hx | hx <;> cases hb.symm.trans hx
    | waits hx | timeout hx | finds hx | fails hx | blocks hx | invalid hx | clears hx | passes hx | calls hx
    | returns hx | ends hx | retests hx | rewaits hx => cases hb.symm.trans hx
  · obtain ⟨hsig, hreq, hsent, href, hcr, hbod, hr⟩ := hs.signals_eq hb
    have hinit : ∀ m, s'.thread.routines m = .init ↔ s.thread.routines m = .init := fun m => by
      rcases hr m with hm | ⟨rfl, hm⟩
      · rw [hm]
      · rw [hm, hn]
        exact iff_of_false (by rintro ⟨⟩) (by rintro ⟨⟩)
    refine ⟨by rw [href, hsig]; exact hk.ended, fun m ha => ?_, ?_, by rw [hcr, hreq, hsent]; exact hk.fresh, ?_, ?_,
    ?_⟩
    · rw [href, hinit]
      refine hk.inthread m ?_
      rcases hr m with hm | ⟨rfl, -⟩
      · rwa [← hm]
      · rw [hn]
        rfl
    · simpa only [hinit, hsig, hreq] using hk.stored
    · simpa only [hinit, hsent] using hk.waiting
    · simpa only [hbod, hsig, hreq, hsent] using hk.signal
    · simpa only [hcr, ne_eq, hinit, hbod, hreq, hsent] using hk.sent

theorem Killsig.start (h : Inv s) (hk : Killsig s) {c : Tid} {op : Option ℕ} {ret : PthreadCreate} {t : Thread.State}
    (he : s.thread.ref.isended = true) (hs : Thread.step s.thread (.start c op ret) = some t) (hthread : s'.thread = t)
    (hsig : s'.killsig = s.killsig) (hreq : s'.requested = s.requested) (hsent : s'.signals = s.signals)
    (hb : s'.bodies = s.bodies) : Killsig s' := by
  obtain ⟨hcases, hin⟩ := start_thread he hs
  subst hthread
  have hno := h.thread.not_active he
  have hinit : ∀ n, s.thread.routines n ≠ .init := fun n hn => by
    have hf := hno n
    rw [hn] at hf
    cases hf
  -- a routine that is active is the one that was made
  have hnew : ∀ n, (s'.thread.routines n).active = true → n = s.thread.created ∧ s'.thread.routines n = .init := by
    intro n ha
    rcases hcases with ⟨-, -, -, hr⟩ | ⟨-, -, -, hr⟩
    · by_cases hmn : n = s.thread.created
      · exact ⟨hmn, by rw [hr, hmn, Function.update_self]⟩
      · rw [hr, Function.update_of_ne hmn, hno n] at ha
        cases ha
    · rw [hr, hno n] at ha
      cases ha
  have hcr : s.thread.created ≤ s'.thread.created := by
    rcases hcases with ⟨-, -, hcr, -⟩ | ⟨-, -, hcr, -⟩ <;> omega
  have hfresh := hk.fresh s.thread.created le_rfl
  refine ⟨fun _ => ?_, fun n ha => ?_, fun n hn => ?_, fun n hn => ?_, fun n hn => ?_, fun n hn => ?_,
    fun n hn hr _ => ?_⟩
  · rw [hsig, hin]
    exact hk.ended he
  · exact iff_of_true (hin.trans (hk.ended he).2) (hnew n ha).2
  · rw [(hnew n (by rw [hn]; rfl)).1, hsig, hreq, hfresh.1]
    exact (hk.ended he).1
  · rw [hreq, hsent]
    exact hk.fresh n (hcr.trans hn)
  · rw [(hnew n (by rw [hn]; rfl)).1, hsent]
    exact hfresh.2
  · rw [hb, h.outside he n] at hn
    cases hn
  · rw [hsent, hreq]
    have hlt : n < s.thread.created := by
      rcases hcases with ⟨-, -, hcr, hr'⟩ | ⟨-, -, hcr, -⟩
      · have hmn : n ≠ s.thread.created := by
          rintro rfl
          rw [hr', Function.update_self] at hr
          exact hr rfl
        omega
      · omega
    exact hk.sent n hlt (hinit n) (by rw [h.outside he n]; rintro ⟨⟩)

theorem Killsig.init (h : Inv s) (hk : Killsig s) {n : ℕ} (hn : s.thread.routines n = .init) :
    Killsig { s.init n with thread := s.thread.init n } := by
  have hactive : (s.thread.routines n).active = true := by rw [hn]; rfl
  obtain ⟨he, -⟩ := h.thread.last n hactive
  have hothers : ∀ m, m ≠ n → (s.thread.routines m).active = false := fun m hmn =>
    eq_false_of_ne_true fun hm => hmn (h.thread.eq_of_active hm hactive)
  have hr : ∀ m, m ≠ n → (s.thread.init n).routines m = s.thread.routines m := fun m hmn =>
    Function.update_of_ne hmn ..
  have hself : (s.thread.init n).routines n = .run := Function.update_self ..
  have hinit : ∀ m, (s.thread.init n).routines m ≠ .init := fun m hm => by
    by_cases hmn : m = n
    · rw [hmn, hself] at hm
      cases hm
    · have hf := hothers m hmn
      rw [← hr m hmn, hm] at hf
      cases hf
  have hbodies : ∀ m, m ≠ n → s.bodies m = .outside := fun m hmn => by
    by_contra hb
    exact absurd ((hothers m hmn).symm.trans (h.active hb)) (by decide)
  have hstored := hk.stored n hn
  refine ⟨fun hf => absurd (hf.symm.trans he) (by decide), fun m _ => iff_of_false (by rintro ⟨⟩) (hinit m),
    fun m hm => absurd hm (hinit m), hk.fresh, fun m hm => absurd hm (hinit m), fun m hm => ?_, fun m hm _ hb => ?_⟩
  · have hmn : m = n := by
      by_contra hne
      rw [State.init] at hm
      dsimp only at hm
      rw [State.bodies_goto_of_ne _ hne, hbodies m hne] at hm
      cases hm
    subst hmn
    have hsent : Sent s.killsig := by
      by_contra hns
      simp only [State.init, State.bodies_goto, hns, if_false] at hm
      exact s.entry_ne_signal m hm
    refine ⟨hsent, ?_, hk.waiting m hn⟩
    cases hh : (s.requested m).head? with
    | none =>
      rw [hh] at hstored
      exact absurd hsent.1 (by rw [hstored]; decide)
    | some sig =>
      rw [hh] at hstored
      exact (congrArg some hstored.symm : some sig = some s.killsig) ▸ hh
  · by_cases hmn : m = n
    · subst hmn
      have hns : ¬ Sent s.killsig := fun hsent => by
        simp only [State.init, State.bodies_goto, hsent, if_true] at hb
        exact hb rfl
      refine (hk.waiting m hn).trans ?_
      change [] = sentOf (s.requested m)
      cases hh : (s.requested m).head? with
      | none => simp [sentOf, hh]
      | some sig =>
        rw [hh] at hstored
        have hsig : s.killsig = sig := hstored
        rw [hsig] at hns
        simp [sentOf, hh, Option.filter, hns]
    · refine hk.sent m hm (fun hx => ?_) (by rw [hbodies m hmn]; rintro ⟨⟩)
      have hf := hothers m hmn
      rw [hx] at hf
      cases hf

/-- **Every step keeps the invariant** of `killsig`. -/
theorem Killsig.step (h : Inv s) (hk : Killsig s) (hs : Effect s l s') : Killsig s' := by
  cases hs with
  | outer ho hs =>
    obtain ⟨he, hin, hcr, hr⟩ := ho.frame hs
    exact hk.congr he hin hcr hr rfl rfl rfl fun n => Iff.rfl
  | @started c st ret t hl he hs => cases st <;> exact hk.start h he hs rfl rfl rfl rfl rfl
  | running | cancelled | killed => exact hk
  | @init n t hl hs =>
    obtain ⟨hn, rfl⟩ := init_thread hs
    exact hk.init h hn
  | body hn hi hs => exact hk.body h hn hs
  | @cleanup n t hl hs =>
    obtain ⟨hn, he, hin, hcr, p, hp, hr⟩ := cleanup_thread hs
    have hactive : (s.thread.routines n).active = true := by rw [hn]; rfl
    have hno : ∀ m, (t.routines m).active = false := fun m => by
      rw [hr, Function.update_apply]
      split_ifs with hmn
      · exact hp
      · exact eq_false_of_ne_true fun hm => hmn (h.thread.eq_of_active hm hactive)
    have hinit : ∀ m, t.routines m ≠ .init := fun m hm => by
      have hf := hno m
      rw [hm] at hf
      cases hf
    refine ⟨fun _ => ⟨rfl, hin⟩, fun m hm => absurd ((hno m).symm.trans hm) (by decide),
      fun m hm => absurd hm (hinit m),
      fun m hm => hk.fresh m (hcr ▸ hm), fun m hm => absurd hm (hinit m), fun m hm => ?_, fun m hm _ hb => ?_⟩
    · have hout := h.ended_of_cleanup hn m
      rw [hout] at hm
      cases hm
    · refine hk.sent m (hcr ▸ hm) (fun hx => ?_) hb
      by_cases hmn : m = n
      · rw [hmn, hn] at hx
        cases hx
      · exact hmn (h.thread.eq_of_active (by rw [hx]; rfl) hactive)
  | @leaves c sig he hi =>
    obtain ⟨n, hcr, hactive⟩ := h.thread.running he
    have hn : s.thread.routines n = .init := (hk.inthread n hactive).mp hi
    have hlast : s.thread.created - 1 = n := by omega
    have hothers : ∀ m, m ≠ n →
        Function.update s.requested (s.thread.created - 1) (sig :: s.requested (s.thread.created - 1)) m =
          s.requested m := fun m hmn => Function.update_of_ne (by rwa [hlast]) ..
    refine ⟨fun hf => absurd (hf.symm.trans he) (by decide), hk.inthread, fun m hm => ?_, fun m hm => ?_, hk.waiting,
      fun m hm => ?_, fun m hm hr hb => ?_⟩
    · have hmn : m = n := h.thread.eq_of_active (by rw [hm]; rfl) hactive
      dsimp only
      rw [hmn, hlast, Function.update_self]
      rfl
    · have hmn : m ≠ n := fun hx => absurd hm (by rw [hx]; dsimp only; omega)
      exact ⟨(hothers m hmn).trans (hk.fresh m hm).1, (hk.fresh m hm).2⟩
    · have hmn := h.eq_of_inside (n := n) hactive (m := m) (by rw [hm]; rintro ⟨⟩)
      have hrun := h.inside m (by rw [hm]; rintro ⟨⟩)
      rw [hmn, hn] at hrun
      cases hrun
    · have hmn : m ≠ n := by
        rintro rfl
        exact hr hn
      exact (hk.sent m hm hr hb).trans (congrArg sentOf (hothers m hmn).symm)
  | @broadcasts c hc =>
    exact hk.congr rfl rfl rfl (fun _ _ _ => Iff.rfl) rfl rfl rfl fun n => BodyPc.woken_eq_signal
  | @wakes n ts hb | @timesOut n ts hb =>
    refine hk.congr rfl rfl rfl (fun _ _ _ => Iff.rfl) rfl rfl rfl fun m => ?_
    by_cases hmn : m = n
    · rw [hmn, State.bodies_goto, hb]
      exact iff_of_false (by rintro ⟨⟩) (by rintro ⟨⟩)
    · rw [State.bodies_goto_of_ne _ hmn]
  | _ => exact hk.congr rfl rfl rfl (fun _ _ _ => Iff.rfl) rfl rfl rfl fun n => Iff.rfl

end Killsig

/-- **The signals that `init` sends.** A routine that is through its `init` was sent the signal of the last `kill`
that came before it was `isinthread`, once, if this is a signal from 1 to 32; and no other. -/
theorem signals_sent {target : Option ℕ} {clock n : ℕ} {s : State}
    (h : Reach step DestroyedLast (.create target clock) s) (hn : n < s.thread.created)
    (hr : s.thread.routines n ≠ .init) (hb : s.bodies n ≠ .signal) :
    s.signals n = ((s.requested n).head?.filter fun sig => Sent sig).toList := by
  obtain ⟨-, hk⟩ := h.inv (P := fun s => Inv s ∧ Killsig s) ⟨inv_create target clock, killsig_create target clock⟩
    fun _ _ _ hi hd hs => ⟨hi.1.step hd (effect_of_step hs), hi.2.step hi.1 (effect_of_step hs)⟩
  exact hk.sent n hn hr hb

/-- Two signals before `init`: the last one is sent. -/
theorem signals_sent_last :
    ∃ s, run step (.create (some 0) 0) [.start (.caller 0) (.start none) .ok, .kill (.caller 0) 3, .kill (.caller 1) 15,
        .init 0, .body 0] = some s ∧ s.requested 0 = [15, 3] ∧
      s.signals 0 = ((s.requested 0).head?.filter fun sig => Sent sig).toList := by
  obtain ⟨s, hs, hreq, hn, hr, hb⟩ : ∃ s, run step (.create (some 0) 0)
      [.start (.caller 0) (.start none) .ok, .kill (.caller 0) 3, .kill (.caller 1) 15, .init 0, .body 0] = some s ∧
      s.requested 0 = [15, 3] ∧ 0 < s.thread.created ∧ s.thread.routines 0 ≠ .init ∧ s.bodies 0 ≠ .signal :=
    ⟨_, rfl, rfl, Nat.zero_lt_one, by rintro ⟨⟩, by rintro ⟨⟩⟩
  exact ⟨s, hs, hreq, signals_sent (reach_of_run (meets_destroyedLast (by decide)) hs) hn hr hb⟩

/-! ### A later `kill` -/

/-- **The kills reach their routines**: at each `kill` behind its unlock `tid` has the routine that it has found active,
which has not ended; and so it was at each `pthread_kill` of a `kill`. -/
structure KillsFound (s : State) : Prop where
  unlocked : ∀ c sig found, s.kills c = some (sig, found) → s.reached = some (.routine found)
  killed : ∀ k ∈ s.killed, k.2.1 = some (.routine k.1)

/-- No routine ends while a `kill` is behind its unlock. -/
def EndsUnkilled (s : State) : Label → Prop
  | .cleanup _ => ∀ c, s.kills c = none
  | _ => True

/-- `tid` has the active routine. -/
def Tids (s : State) : Prop :=
  s.thread.ref.isended = false → s.thread.ref.tid = some (.routine (s.thread.created - 1))

section Tids

variable {s s' : State} {l : Label}

theorem reached_iff (h : Inv s) (ht : Tids s) {n : ℕ} :
    s.reached = some (.routine n) ↔ s.thread.ref.isended = false ∧ s.thread.created = n + 1 := by
  constructor
  · intro hr
    unfold State.reached at hr
    split at hr
    · split_ifs at hr with hactive
      cases hr
      exact h.thread.last n hactive
    · next hne => exact absurd hr (hne n)
  · rintro ⟨he, hcr⟩
    obtain ⟨k, hk, hactive⟩ := h.thread.running he
    have hkn : k = n := by omega
    subst hkn
    have htid := ht he
    rw [hcr, Nat.add_sub_cancel] at htid
    rw [State.reached, htid]
    exact if_pos hactive

theorem Outer.tid {l' : Thread.Label} {r t : Thread.State} (hl : Outer l l') (hs : Thread.step r l' = some t) :
    t.ref.tid = r.ref.tid := by
  have he := Thread.effect_of_step hs
  cases hl <;> cases he <;> rfl

theorem start_tid {c : Tid} {op : Option ℕ} {ret : PthreadCreate} {r t : Thread.State}
    (he : r.ref.isended = true) (hs : Thread.step r (.start c op ret) = some t) (ht : t.ref.isended = false) :
    t.ref.tid = some (.routine (t.created - 1)) := by
  have h := Thread.effect_of_step hs
  cases h with
  | started => rfl
  | failed => cases ht
  | running _ _ hf => exact absurd (hf.symm.trans he) (by decide)

theorem Effect.frame (hs : Effect s l s') (hstart : ∀ c st ret, l ≠ .start c st ret) (hcleanup : ∀ n, l ≠ .cleanup n)
    (hkill : ∀ c sig, l ≠ .kill c sig) (hpthread : ∀ c, l ≠ .pthreadKill c) :
    s'.thread.ref.tid = s.thread.ref.tid ∧ s'.thread.ref.isended = s.thread.ref.isended ∧
      s'.thread.created = s.thread.created ∧ s'.kills = s.kills ∧ s'.killed = s.killed := by
  cases hs with
  | outer ho hs =>
    obtain ⟨he, -, hcr, -⟩ := ho.frame hs
    exact ⟨ho.tid hs, he, hcr, rfl, rfl⟩
  | started | running => exact absurd rfl (hstart _ _ _)
  | init _ hs =>
    obtain ⟨-, rfl⟩ := init_thread hs
    exact ⟨rfl, rfl, rfl, rfl, rfl⟩
  | body _ _ hs => cases hs <;> exact ⟨rfl, rfl, rfl, rfl, rfl⟩
  | cleanup => exact absurd rfl (hcleanup _)
  | killed | kills | leaves => exact absurd rfl (hkill _ _)
  | pthreadKill => exact absurd rfl (hpthread _)
  | _ => exact ⟨rfl, rfl, rfl, rfl, rfl⟩

theorem Tids.step (ht : Tids s) (hs : Effect s l s') : Tids s' := by
  have hframe := hs.frame
  cases hs with
  | @started c st ret t hl he hs =>
    cases st <;> exact start_tid he hs
  | cleanup hl hs =>
    obtain ⟨-, he, -⟩ := cleanup_thread hs
    exact fun hf => absurd (hf.symm.trans he) (by decide)
  | running | killed | kills | leaves | pthreadKill => exact ht
  | @outer _ l' _ ho =>
    obtain ⟨htid, he, hcr, -⟩ := hframe (by cases ho <;> rintro _ _ _ ⟨⟩) (by cases ho <;> rintro _ ⟨⟩)
      (by cases ho <;> rintro _ _ ⟨⟩) (by cases ho <;> rintro _ ⟨⟩)
    rw [Tids, htid, he, hcr]
    exact ht
  | init | body | cancels | cancelled | stores | notifies | broadcasts | unlocks | wakes | timesOut | ticks =>
    obtain ⟨htid, he, hcr, -⟩ := hframe (by rintro _ _ _ ⟨⟩) (by rintro _ ⟨⟩) (by rintro _ _ ⟨⟩) (by rintro _ ⟨⟩)
    rw [Tids, htid, he, hcr]
    exact ht

/-- **A step keeps the kills on their routines exactly if it ends none of them.** -/
theorem KillsFound.step_iff (h : Inv s) (ht : Tids s) (hf : KillsFound s) (hd : DestroyedLast s l)
    (hs : Effect s l s') : KillsFound s' ↔ EndsUnkilled s l := by
  have h' : Inv s' := h.step hd hs
  have ht' : Tids s' := ht.step hs
  have hframe := hs.frame
  -- a pending `kill` has found the active routine
  have hpending : ∀ {c sig found}, s.kills c = some (sig, found) →
      s.thread.ref.isended = false ∧ s.thread.created = found + 1 := fun hc =>
    (reached_iff h ht).mp (hf.unlocked _ _ _ hc)
  have hsame : s'.thread.ref.isended = s.thread.ref.isended ∧ s'.thread.created = s.thread.created ∧
      s'.kills = s.kills ∧ s'.killed = s.killed → KillsFound s' := by
    rintro ⟨he, hcr, hk, hkd⟩
    refine ⟨fun c sig found hc => (reached_iff h' ht').mpr ?_, by rw [hkd]; exact hf.killed⟩
    rw [he, hcr]
    exact hpending (by rw [← hk]; exact hc)
  cases hs with
  | @started c st ret t hl he hs =>
    have hnone : ∀ {x : State}, x.kills = s.kills → x.killed = s.killed → KillsFound x := fun hk hkd =>
      ⟨fun d sig found hc => by
        rw [hk] at hc
        exact absurd ((hpending hc).1.symm.trans he) (by decide), by rw [hkd]; exact hf.killed⟩
    refine iff_of_true ?_ trivial
    cases st <;> exact hnone rfl rfl
  | running | killed => exact iff_of_true hf trivial
  | @cleanup n t hl hs =>
    obtain ⟨-, he, -⟩ := cleanup_thread hs
    constructor
    · intro hf' c
      refine Option.eq_none_iff_forall_not_mem.mpr fun k hk => ?_
      have hend : t.ref.isended = false := ((reached_iff h' ht').mp (hf'.unlocked c k.1 k.2 hk)).1
      exact absurd (hend.symm.trans he) (by decide)
    · intro hnone
      refine ⟨fun c sig found hc => ?_, hf.killed⟩
      have hnone' : s.kills c = none := hnone c
      cases hnone'.symm.trans hc
  | @kills c sig ha hc he hi =>
    refine iff_of_true ⟨fun d sig' found hd => (reached_iff h' ht').mpr ?_, hf.killed⟩ trivial
    dsimp only at hd
    rw [Function.update_apply] at hd
    split_ifs at hd
    · cases hd
      obtain ⟨n, hcr, -⟩ := h.thread.running he
      exact ⟨he, by dsimp only; omega⟩
    · exact hpending hd
  | leaves => exact iff_of_true (hsame ⟨rfl, rfl, rfl, rfl⟩) trivial
  | @pthreadKill c sig found hc =>
    refine iff_of_true ⟨fun d sig' found' hd => ?_, fun k hk => ?_⟩ trivial
    · dsimp only at hd
      rw [Function.update_apply] at hd
      split_ifs at hd
      exact hf.unlocked d sig' found' hd
    · rcases List.mem_cons.mp hk with rfl | hk
      · exact hf.unlocked c sig found hc
      · exact hf.killed k hk
  | @outer _ l' _ ho =>
    exact iff_of_true (hsame (hframe (by cases ho <;> rintro _ _ _ ⟨⟩) (by cases ho <;> rintro _ ⟨⟩)
      (by cases ho <;> rintro _ _ ⟨⟩) (by cases ho <;> rintro _ ⟨⟩)).2) (by cases ho <;> trivial)
  | init | body | cancels | cancelled | stores | notifies | broadcasts | unlocks | wakes | timesOut | ticks =>
    exact iff_of_true (hsame (hframe (by rintro _ _ _ ⟨⟩) (by rintro _ ⟨⟩) (by rintro _ _ ⟨⟩)
      (by rintro _ ⟨⟩)).2) trivial

end Tids

/-- **A later `kill` reaches its routine**, behind each step of a run, exactly if no routine in it ends between the
unlock of a `kill` and its `pthread_kill`. -/
theorem kill_found_iff (target : Option ℕ) (clock : ℕ) {as : List Label}
    (hm : Meets step DestroyedLast (.create target clock) as) :
    Meets step (fun s l => ∀ s', step s l = some s' → KillsFound s') (.create target clock) as ↔
      Meets step (fun s l => ∀ s', step s l = some s' → EndsUnkilled s l) (.create target clock) as := by
  refine meets_iff_of_keeps (P := fun s => Inv s ∧ Tids s ∧ KillsFound s) (fun s l hi hl => ?_)
    (fun s l s' hi hl hk hs => ?_)
    ⟨inv_create target clock, by rintro ⟨⟩, by rintro _ _ _ ⟨⟩, by rintro _ ⟨⟩⟩ hm
  · exact forall₂_congr fun s' hs => hi.2.2.step_iff hi.1 hi.2.1 hl (effect_of_step hs)
  · have he := effect_of_step hs
    exact ⟨hi.1.step hl he, hi.2.1.step he, (hi.2.2.step_iff hi.1 hi.2.1 hl he).mpr (hk s' hs)⟩

/-- Two routines, of which each is sent a signal while it runs. -/
def killEach : List Label :=
  [.start (.caller 0) (.start none) .ok, .init 0, .kill (.caller 0) 15, .pthreadKill (.caller 0), .body 0, .body 0,
    .cleanup 0, .start (.caller 0) (.start none) .ok, .init 1, .kill (.caller 1) 3, .body 1, .pthreadKill (.caller 1)]

theorem kill_found_iff_each :
    Meets step (fun s l => ∀ s', step s l = some s' → KillsFound s') (.create (some 0) 0) killEach ∧
      ∃ s, run step (.create (some 0) 0) killEach = some s ∧
        s.killed = [(1, some (.routine 1), 3), (0, some (.routine 0), 15)] := by
  refine ⟨(kill_found_iff (some 0) 0 (meets_destroyedLast (by decide))).mpr ?_, _, rfl, rfl⟩
  refine meets_of_step (fun _ _ => trivial) rfl (meets_of_step (fun _ _ => trivial) rfl ?_)
  refine meets_of_step (fun _ _ => trivial) rfl (meets_of_step (fun _ _ => trivial) rfl ?_)
  refine meets_of_step (fun _ _ => trivial) rfl (meets_of_step (fun _ _ => trivial) rfl ?_)
  refine meets_of_step (fun _ _ c => ?_) rfl (meets_of_step (fun _ _ => trivial) rfl ?_)
  · -- the `kill` of the first routine has returned
    by_cases hc : c = .caller 0
    · rw [hc]
      rfl
    · exact (Function.update_of_ne hc ..).trans (Function.update_of_ne hc ..)
  refine meets_of_step (fun _ _ => trivial) rfl (meets_of_step (fun _ _ => trivial) rfl ?_)
  exact meets_of_step (fun _ _ => trivial) rfl (meets_of_step (fun _ _ => trivial) rfl trivial)

end MTAppenderFile.Comm.Delayed
