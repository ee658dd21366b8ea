import MTAppenderFile.Comm.Cancel

/-! # When a delayed or periodic thread runs its target

The times that `start_after` and `start_periodic` are given lie in fields that the next start overwrites, and the
routine reads them without the lock; it reads those of its own start (`Given`). A wait ends by its time-out, by a
cancel, or spuriously, and after a cancel no test lets the routine pass. So, as long as no wait ends spuriously, a run
of the target does not begin before its time: the delay for the first one, and a period more for each next one
(`not_early`). -/

namespace MTAppenderFile.Comm.Delayed

open MTAppenderFile.Lib.Run
open Thread (Tid PthreadCreate)
open Timeout (Timespec makeTimeout gettimeofday nsec_makeTimeout valid_makeTimeout)

/-- A wait ends spuriously. -/
def Label.isWake : Label → Bool
  | .wake _ => true
  | _ => false

/-- No wait ends spuriously. -/
def NoWake (s : State) (l : Label) : Prop := DestroyedLast s l ∧ l.isWake = false

namespace Activation

variable (a : Activation)

/-- The delay of the first run, in milliseconds. -/
def after : ℤ :=
  match a.start with
  | .start _ => 0
  | .startAfter after | .startPeriodic after _ => after

/-- The time between two runs. -/
def periodic : ℤ :=
  match a.start with
  | .startPeriodic _ periodic => periodic
  | _ => 0

/-- When the run `k` is due, in microseconds; a negative time counts as none. -/
def due (k : ℕ) : ℕ := a.clock + 1000 * (a.after.toNat + k * a.periodic.toNat)

theorem due_mono {k m : ℕ} (h : k ≤ m) : a.due k ≤ a.due m :=
  Nat.add_le_add_left (Nat.mul_le_mul_left _ (Nat.add_le_add_left (Nat.mul_le_mul_right _ h) _)) _

theorem due_succ (k : ℕ) : a.due (k + 1) = a.due k + 1000 * a.periodic.toNat := by
  simp only [due, Nat.add_mul, Nat.one_mul]
  omega

theorem due_zero : a.due 0 = a.clock + 1000 * a.after.toNat := by
  simp [due]

/-- Not started by `start`. -/
def IsDelayed : Prop := ∀ op, a.start ≠ .start op

/-- Started by `start_periodic`. -/
def IsPeriodic : Prop := ∃ after periodic, a.start = .startPeriodic after periodic

/-- What holds where a routine is, for its activation, the runs of its target that it has begun, and the time. -/
def Timely (begun : ℕ) (cancelled : Bool) (clock : ℕ) : BodyPc → Prop
  | .outside => True
  | .signal => begun = 0 ∧ a.clock ≤ clock
  | .first => begun = 0 ∧ a.clock ≤ clock ∧ a.IsDelayed
  | .wait (.timeout ms) => a.due begun ≤ clock + 1000 * ms.toNat
  | .wait (.cas ts) | .wait (.block ts) | .wait (.blocked ts) =>
    a.due begun ≤ clock ∨ ts.Valid ∧ a.due begun * 1000 ≤ ts.nsec
  | .wait .clear | .test => cancelled = true ∨ a.due begun ≤ clock
  | .call => a.due begun ≤ clock
  | .target => 0 < begun
  | .again => 0 < begun ∧ a.IsPeriodic

theorem Timely.mono {begun clock clock' : ℕ} {cancelled cancelled' : Bool} (hclock : clock ≤ clock')
    (hc : cancelled = true → cancelled' = true) {pc : BodyPc} (h : a.Timely begun cancelled clock pc) :
    a.Timely begun cancelled' clock' pc := by
  cases pc with
  | outside => trivial
  | signal => exact ⟨h.1, h.2.trans hclock⟩
  | first => exact ⟨h.1, h.2.1.trans hclock, h.2.2⟩
  | test => exact h.imp hc hclock.trans'
  | call => exact hclock.trans' h
  | target | again => exact h
  | wait w =>
    cases w with
    | timeout ms => exact h.trans (Nat.add_le_add_right hclock _)
    | cas ts | block ts | blocked ts => exact h.imp_left hclock.trans'
    | clear => exact h.imp hc hclock.trans'

end Activation

/-- The fields have the times of the last start. -/
def Given (s : State) (a : Activation) : Prop :=
  a.IsDelayed → s.aftertime = a.after ∧ (a.IsPeriodic → s.periodictime = a.periodic)

/-- The runs that a routine without a period has begun at most. -/
def BodyPc.limit : BodyPc → ℕ
  | .outside | .target | .again => 1
  | _ => 0

/-- **The invariant** of the times. -/
structure Timing (s : State) : Prop where
  given : s.thread.ref.isended = false → Given s (s.activations (s.thread.created - 1))
  fresh : ∀ n, s.thread.created ≤ n ∨ s.thread.routines n = .init → s.begun n = 0
  started : ∀ n, s.thread.routines n = .init → (s.activations n).clock ≤ s.clock
  timely : ∀ n, (s.activations n).Timely (s.begun n) s.iscanceldelaystart s.clock (s.bodies n)
  begun : ∀ n k, k < s.begun n → (s.activations n).due k ≤ s.clock
  once : ∀ n, (s.activations n).IsPeriodic ∨ s.begun n ≤ (s.bodies n).limit

theorem timing_create (target : Option ℕ) (clock : ℕ) : Timing (.create target clock) :=
  ⟨by rintro ⟨⟩, fun _ _ => rfl, by rintro _ ⟨⟩, fun _ => trivial, by rintro _ _ ⟨⟩, fun _ => .inr (Nat.zero_le _)⟩

section Timing

variable {s s' : State} {l : Label}

theorem Timing.congr (ht : Timing s) (he : s'.thread.ref.isended = false → s.thread.ref.isended = false)
    (hcr : s'.thread.created = s.thread.created)
    (hinit : ∀ n, s'.thread.routines n = .init → s.thread.routines n = .init)
    (hgiven : s'.aftertime = s.aftertime ∧ s'.periodictime = s.periodictime)
    (hact : s'.activations = s.activations) (hbegun : s'.begun = s.begun) (hclock : s.clock ≤ s'.clock)
    (hi : s.iscanceldelaystart = true → s'.iscanceldelaystart = true)
    (hb : ∀ n, s'.bodies n = s.bodies n ∨
      (s.activations n).Timely (s.begun n) s'.iscanceldelaystart s'.clock (s'.bodies n) ∧
        ((s.activations n).IsPeriodic ∨ s.begun n ≤ (s'.bodies n).limit)) : Timing s' := by
  refine ⟨fun hf => ?_, fun n hn => ?_, fun n hn => ?_, fun n => ?_, fun n k hk => ?_, fun n => ?_⟩
  · have hg := ht.given (he hf)
    rwa [Given, hcr, hact, hgiven.1, hgiven.2]
  · rw [hbegun]
    exact ht.fresh n (hn.imp hcr.ge.trans (hinit n))
  · rw [hact]
    exact (ht.started n (hinit n hn)).trans hclock
  · rw [hact, hbegun]
    rcases hb n with hb | hb
    · rw [hb]
      exact (ht.timely n).mono _ hclock hi
    · exact hb.1
  · rw [hact]
    rw [hbegun] at hk
    exact (ht.begun n k hk).trans hclock
  · rw [hact, hbegun]
    rcases hb n with hb | hb
    · rw [hb]
      exact ht.once n
    · exact hb.2

theorem Timing.goto (ht : Timing s) {n : ℕ} {pc : BodyPc} (hthread : s'.thread = s.thread)
    (hb : s'.bodies = Function.update s.bodies n pc)
    (hgiven : s'.aftertime = s.aftertime ∧ s'.periodictime = s.periodictime)
    (hact : s'.activations = s.activations) (hbegun : s'.begun = s.begun) (hclock : s'.clock = s.clock)
    (hi : s'.iscanceldelaystart = s.iscanceldelaystart)
    (hpc : (s.activations n).Timely (s.begun n) s.iscanceldelaystart s.clock pc)
    (honce : (s.activations n).IsPeriodic ∨ s.begun n ≤ pc.limit) : Timing s' := by
  refine ht.congr (by rw [hthread]; exact id) (by rw [hthread]) (by rw [hthread]; exact fun _ => id) hgiven hact hbegun
    hclock.ge (by rw [hi]; exact id) fun m => ?_
  rw [hb, hi, hclock]
  by_cases hmn : m = n
  · rw [hmn, Function.update_self]
    exact .inr ⟨hpc, honce⟩
  · exact .inl (Function.update_of_ne hmn ..)

theorem Timing.leave (ht : Timing s) {n : ℕ} (hlimit : (s.bodies n).limit ≤ 1) : Timing (s.leave n) := by
  refine ht.congr id rfl (fun m hm => ?_) ⟨rfl, rfl⟩ rfl rfl le_rfl id fun m => ?_
  · by_cases hmn : m = n
    · simp [State.leave, hmn] at hm
    · simpa [State.leave, hmn] using hm
  · by_cases hmn : m = n
    · rw [hmn, State.bodies_leave]
      exact .inr ⟨trivial, (ht.once n).imp_right hlimit.trans'⟩
    · exact .inl (Function.update_of_ne hmn ..)

theorem BodyPc.limit_le (pc : BodyPc) : pc.limit ≤ 1 := by
  cases pc <;> first | exact le_rfl | exact Nat.zero_le _

theorem timely_entry {n : ℕ} (hbegun : s.begun n = 0) (hclock : (s.activations n).clock ≤ s.clock) :
    (s.activations n).Timely (s.begun n) s.iscanceldelaystart s.clock (s.entry n) ∧ s.begun n ≤ (s.entry n).limit := by
  unfold State.entry
  split
  · next op he =>
    refine ⟨?_, hbegun.le⟩
    simp [Activation.Timely, hbegun, Activation.due_zero, Activation.after, he, hclock]
  · next x he => exact ⟨⟨hbegun, hclock, fun op => by rw [he]; rintro ⟨⟩⟩, hbegun.le⟩
  · next x p he => exact ⟨⟨hbegun, hclock, fun op => by rw [he]; rintro ⟨⟩⟩, hbegun.le⟩

/-- **A statement of the active routine is timely.** -/
theorem Timing.body (h : Inv s) (ht : Timing s) {n : ℕ} (hn : s.thread.routines n = .run) (hs : BodyEffect s n s') :
    Timing s' := by
  have hactive : (s.thread.routines n).active = true := by rw [hn]; rfl
  obtain ⟨he, hlast⟩ := h.thread.last n hactive
  have hgiven : Given s (s.activations n) := by
    have := ht.given he
    rwa [hlast, Nat.add_sub_cancel] at this
  have htimely := ht.timely n
  have honce := ht.once n
  cases hs with
  | signals hb =>
    rw [hb] at htimely
    obtain ⟨hentry, hlim⟩ := timely_entry htimely.1 htimely.2
    exact ht.goto (n := n) rfl rfl ⟨rfl, rfl⟩ rfl rfl rfl rfl hentry (.inr hlim)
  | stops => exact ht.leave (BodyPc.limit_le _)
  | ends => exact ht.leave (BodyPc.limit_le _)
  | waits hb hc =>
    rw [hb] at htimely honce
    refine ht.goto (n := n) rfl rfl ⟨rfl, rfl⟩ rfl rfl rfl rfl ?_ honce
    have hclock := htimely.2.1
    rw [Activation.Timely, htimely.1, Activation.due_zero, (hgiven htimely.2.2).1]
    omega
  | @timeout ms hb =>
    rw [hb] at htimely honce
    refine ht.goto (n := n) rfl rfl ⟨rfl, rfl⟩ rfl rfl rfl rfl ?_ honce
    have hdue : (s.activations n).due (s.begun n) ≤ s.clock + 1000 * ms.toNat := htimely
    by_cases hms : 0 ≤ ms
    · refine .inr ⟨valid_makeTimeout hms, ?_⟩
      rw [nsec_makeTimeout]
      omega
    · exact .inl (by omega)
  | finds hb hf =>
    rw [hb] at honce
    exact ht.goto (n := n) rfl rfl ⟨rfl, rfl⟩ rfl rfl rfl rfl (.inl (h.flag hf)) honce
  | fails hb | blocks hb =>
    rw [hb] at htimely honce
    exact ht.goto (n := n) rfl rfl ⟨rfl, rfl⟩ rfl rfl rfl rfl htimely honce
  | invalid hb hv =>
    rw [hb] at htimely honce
    exact ht.goto (n := n) rfl rfl ⟨rfl, rfl⟩ rfl rfl rfl rfl (.inr (htimely.resolve_right fun hx => hv hx.1)) honce
  | clears hb =>
    rw [hb] at htimely honce
    exact ht.goto (n := n) rfl rfl ⟨rfl, rfl⟩ rfl rfl rfl rfl htimely honce
  | passes hb hc =>
    rw [hb] at htimely honce
    exact ht.goto (n := n) rfl rfl ⟨rfl, rfl⟩ rfl rfl rfl rfl
      (htimely.resolve_left fun hx => absurd (hc.symm.trans hx) (by decide)) honce
  | calls hb =>
    rw [hb] at htimely honce
    have hdue : (s.activations n).due (s.begun n) ≤ s.clock := htimely
    refine ⟨ht.given, fun m hm => ?_, ht.started, fun m => ?_, fun m k hk => ?_, fun m => ?_⟩
    · have hmn : m ≠ n := by
        rintro rfl
        rcases hm with hm | hm
        · exact absurd hm (by dsimp only [State.goto]; omega)
        · cases hn.symm.trans hm
      exact (Function.update_of_ne hmn ..).trans (ht.fresh m hm)
    · by_cases hmn : m = n
      · rw [hmn]
        simp [Activation.Timely, State.goto]
      · simpa [State.goto, hmn] using ht.timely m
    · by_cases hmn : m = n
      · subst hmn
        dsimp only at hk
        rw [Function.update_self] at hk
        exact (Activation.due_mono _ (Nat.lt_succ_iff.mp hk)).trans hdue
      · dsimp only at hk
        rw [Function.update_of_ne hmn] at hk
        exact ht.begun m k hk
    · by_cases hmn : m = n
      · subst hmn
        refine honce.imp id fun hz => ?_
        simp [BodyPc.limit] at hz ⊢
        exact hz
      · simpa [State.goto, hmn] using ht.once m
  | returns hb hp =>
    rw [hb] at htimely
    exact ht.goto (n := n) rfl rfl ⟨rfl, rfl⟩ rfl rfl rfl rfl ⟨htimely, _, _, hp⟩ (.inl ⟨_, _, hp⟩)
  | retests hb hc =>
    rw [hb] at htimely
    exact ht.goto (n := n) rfl rfl ⟨rfl, rfl⟩ rfl rfl rfl rfl (.inl hc) (.inl htimely.2)
  | rewaits hb hc =>
    rw [hb] at htimely
    obtain ⟨hpos, hper⟩ := htimely
    refine ht.goto (n := n) rfl rfl ⟨rfl, rfl⟩ rfl rfl rfl rfl ?_ (.inl hper)
    -- a period more than the run before
    have hlast := ht.begun n (s.begun n - 1) (by omega)
    have hsucc := Activation.due_succ (s.activations n) (s.begun n - 1)
    have hdelayed : (s.activations n).IsDelayed := fun op => by
      obtain ⟨x, p, hx⟩ := hper
      rw [hx]
      rintro ⟨⟩
    rw [Nat.sub_add_cancel hpos] at hsucc
    rw [Activation.Timely, (hgiven hdelayed).2 hper]
    omega

/-- A start that finds no routine active: the fields have its times, if it makes a routine. -/
theorem Timing.start (h : Inv s) (ht : Timing s) {c : Tid} {st : Start} {ret : PthreadCreate} {t : Thread.State}
    (he : s.thread.ref.isended = true) (hs : Thread.step s.thread (.start c st.op ret) = some t) :
    Timing { s.started st ret with thread := t } := by
  have hout := h.outside he
  have hinit : ∀ n, s.thread.routines n ≠ .init := fun n hn => by
    have hf := h.thread.not_active he n
    rw [hn] at hf
    cases hf
  have hzero : s.begun s.thread.created = 0 := ht.fresh _ (.inl le_rfl)
  have hthread := (start_thread he hs).1
  have hroutine : ∀ n, t.created ≤ n ∨ t.routines n = .init → s.thread.created ≤ n := fun n hn => by
    rcases hthread with ⟨-, -, hcr, hr⟩ | ⟨-, -, hcr, hr⟩
    · by_cases hmn : n = s.thread.created
      · exact hmn.ge
      · rw [hr, Function.update_of_ne hmn] at hn
        have := hn.resolve_right (hinit n)
        omega
    · rw [hr] at hn
      exact hcr.ge.trans (hn.resolve_right (hinit n))
  -- the start changes `activations` at the number of the next routine
  have hall : ∀ x : State, x.thread = t → x.bodies = s.bodies → x.begun = s.begun → x.clock = s.clock →
      x.activations = Function.update s.activations s.thread.created ⟨st, s.clock⟩ →
      (ret = .ok → Given x ⟨st, s.clock⟩) → Timing x := by
    rintro x rfl hb hbegun hclock hact hgiven
    refine ⟨fun hf => ?_, fun n hn => ?_, fun n hn => ?_, fun n => ?_, fun n k hk => ?_, fun n => ?_⟩
    · rcases hthread with ⟨hret, -, hcr, -⟩ | ⟨-, hf', -⟩
      · rw [hcr, Nat.add_sub_cancel, hact, Function.update_self]
        exact hgiven hret
      · exact absurd (hf.symm.trans hf') (by decide)
    · rw [hbegun]
      exact ht.fresh n (.inl (hroutine n hn))
    · have hcr : n = s.thread.created := by
        rcases hthread with ⟨-, -, -, hr⟩ | ⟨-, -, -, hr⟩
        · by_contra hmn
          rw [hr, Function.update_of_ne hmn] at hn
          exact hinit n hn
        · rw [hr] at hn
          exact absurd hn (hinit n)
      rw [hact, hcr, Function.update_self, hclock]
    · rw [hb, hout n]
      trivial
    · rw [hbegun] at hk
      have hmn : n ≠ s.thread.created := by
        rintro rfl
        rw [hzero] at hk
        exact absurd hk (Nat.not_lt_zero k)
      rw [hact, Function.update_of_ne hmn, hclock]
      exact ht.begun n k hk
    · rw [hact, hbegun, hb]
      by_cases hmn : n = s.thread.created
      · rw [hmn, hzero]
        exact .inr (Nat.zero_le _)
      · rw [Function.update_of_ne hmn]
        exact ht.once n
  cases st with
  | start op => exact hall _ rfl rfl rfl rfl rfl fun _ hd => absurd rfl (hd op)
  | startAfter x =>
    refine hall _ rfl rfl rfl rfl rfl fun hret _ => ⟨?_, by rintro ⟨_, _, ⟨⟩⟩⟩
    subst hret
    rfl
  | startPeriodic x p =>
    refine hall _ rfl rfl rfl rfl rfl fun hret _ => ⟨?_, fun _ => ?_⟩
    all_goals
      subst hret
      rfl

/-- **Every step is timely.** -/
theorem Timing.step (h : Inv s) (ht : Timing s) (hl : NoWake s l) (hs : Effect s l s') : Timing s' := by
  cases hs with
  | outer ho hs =>
    obtain ⟨he, -, hcr, hr⟩ := ho.frame hs
    exact ht.congr (fun hf => he.symm.trans hf) hcr (fun n hn => (hr n .init rfl).mp hn) ⟨rfl, rfl⟩ rfl rfl le_rfl id
      fun n => .inl rfl
  | started hl he hs => exact ht.start h he hs
  | running | cancelled | killed => exact ht
  | @init n t _ hs =>
    obtain ⟨hn, rfl⟩ := init_thread hs
    refine ht.congr id rfl (fun m hm => ?_) ⟨rfl, rfl⟩ rfl rfl le_rfl id fun m => ?_
    · by_cases hmn : m = n
      · rw [hmn, hn]
      · simpa [Thread.State.init, hmn] using hm
    · by_cases hmn : m = n
      · have hzero := ht.fresh n (.inr hn)
        have hclock := ht.started n hn
        subst hmn
        rw [State.init, State.bodies_goto]
        refine .inr ?_
        split_ifs
        · exact ⟨⟨hzero, hclock⟩, .inr hzero.le⟩
        · obtain ⟨hentry, hlim⟩ := timely_entry hzero hclock
          exact ⟨hentry, .inr hlim⟩
      · exact .inl (State.bodies_goto_of_ne _ hmn _)
  | body hn hi hs => exact ht.body h hn hs
  | @cleanup n t _ hs =>
    obtain ⟨hn, he, -, hcr, p, hp, hr⟩ := cleanup_thread hs
    refine ht.congr (fun hf => absurd (hf.symm.trans he) (by decide)) hcr (fun m hm => ?_) ⟨rfl, rfl⟩ rfl rfl le_rfl id
      fun m => .inl rfl
    dsimp only at hm
    rw [hr, Function.update_apply] at hm
    split_ifs at hm
    · rw [hm] at hp
      cases hp
    · exact hm
  | cancels | notifies | unlocks | kills | leaves | pthreadKill =>
    exact ht.congr id rfl (fun _ => id) ⟨rfl, rfl⟩ rfl rfl le_rfl id fun n => .inl rfl
  | stores => exact ht.congr id rfl (fun _ => id) ⟨rfl, rfl⟩ rfl rfl le_rfl (fun _ => rfl) fun n => .inl rfl
  | @broadcasts c hc =>
    have hcancel := h.cancelled c (by rw [hc]; rintro ⟨⟩) (by rw [hc]; rintro ⟨⟩)
    refine ht.congr id rfl (fun _ => id) ⟨rfl, rfl⟩ rfl rfl le_rfl id fun n => ?_
    dsimp only
    unfold BodyPc.woken
    split
    · next ts hb =>
      have honce := ht.once n
      rw [hb] at honce
      exact .inr ⟨.inl hcancel, honce⟩
    · exact .inl rfl
  | wakes => cases hl.2
  | @timesOut n ts hb hp =>
    have htimely := ht.timely n
    have honce := ht.once n
    rw [hb] at htimely honce
    refine ht.goto (n := n) rfl rfl ⟨rfl, rfl⟩ rfl rfl rfl rfl (.inr ?_) honce
    rcases htimely with hd | ⟨-, hd⟩
    · exact hd
    · have hpassed : ts.nsec ≤ s.clock * 1000 := hp
      omega
  | ticks => exact ht.congr id rfl (fun _ => id) ⟨rfl, rfl⟩ rfl rfl (Nat.le_add_right _ _) id fun n => .inl rfl

end Timing

/-- **No run is early.** In every state reached without a spurious end of a wait, each run of its target that a
routine has begun was due: the first one when the delay has passed since its start, and each next one a period
later. Without a period there is one run at most. -/
theorem not_early {target : Option ℕ} {clock : ℕ} {s : State} (h : Reach step NoWake (.create target clock) s)
    (n : ℕ) :
    (∀ k < s.begun n, (s.activations n).due k ≤ s.clock) ∧ ((s.activations n).IsPeriodic ∨ s.begun n ≤ 1) := by
  obtain ⟨-, ht⟩ := h.inv (P := fun s => Inv s ∧ Timing s) ⟨inv_create target clock, timing_create target clock⟩
    fun _ _ _ hi hl hs => ⟨hi.1.step hl.1 (effect_of_step hs), hi.2.step hi.1 hl (effect_of_step hs)⟩
  exact ⟨ht.begun n, (ht.once n).imp_right fun hle => hle.trans (BodyPc.limit_le _)⟩

/-- A start at 1 s, with a delay of 5 ms. -/
theorem not_early_after :
    ∃ s, run step (.create (some 0) 1000000) ([.start (.caller 0) (.startAfter 5) .ok, .init 0] ++
        List.replicate 4 (.body 0) ++ [.tick 5000, .timeOut 0] ++ List.replicate 3 (.body 0)) = some s ∧
      s.begun 0 = 1 ∧ (s.activations 0).due 0 = 1005000 ∧ (s.activations 0).due 0 ≤ s.clock := by
  obtain ⟨s, hs, hb, hd⟩ : ∃ s, run step (.create (some 0) 1000000)
      ([.start (.caller 0) (.startAfter 5) .ok, .init 0] ++ List.replicate 4 (.body 0) ++ [.tick 5000, .timeOut 0] ++
        List.replicate 3 (.body 0)) = some s ∧ s.begun 0 = 1 ∧ (s.activations 0).due 0 = 1005000 :=
    ⟨_, rfl, rfl, rfl⟩
  have hm : Meets step NoWake (.create (some 0) 1000000) ([.start (.caller 0) (.startAfter 5) .ok, .init 0] ++
      List.replicate 4 (.body 0) ++ [.tick 5000, .timeOut 0] ++ List.replicate 3 (.body 0)) :=
    (meets_destroyedLast (by decide)).and (meets_of_forall (by decide))
  exact ⟨s, hs, hb, hd, (not_early (reach_of_run hm hs) 0).1 0 (by omega)⟩

end MTAppenderFile.Comm.Delayed
