import MTAppenderFile.Comm.Condition
import MTAppenderFile.Comm.Thread
import MTAppenderFile.Comm.Timeout

/-! # Delayed and periodic threads

A `Thread` (`comm/mtaf_thread.h`) can also be started with a delay, and again and again with a period. The routine
waits for that in `condtime`, and `cancel_after` and `cancel_periodic`, which are the same, set `iscanceldelaystart`
and wake it up. A `kill` before the routine is `isinthread` leaves its signal in `killsig`, and `init` sends it.

This is the `Thread` of `Comm.Thread` with these functions. A section under `splock` is one step there, and so it is
here, but for the section of a cancel: the routine reads the flags that it writes without the lock, so each of its
statements is a step, and the lock is held from the first to the last. Also a step each are the statements of a routine
between `init` and `cleanup`, the `pthread_kill`s behind an unlock, the return of a wait by its time-out or spuriously,
and the passing of time. The mutex of `condtime` is left out: only routines take it, and there is one at a time.

For what is said of it, the state counts the runs of the target, and keeps how each routine was started and which
signals it was sent. -/

namespace MTAppenderFile.Comm.Delayed

open Thread (Tid PthreadCreate)
open Timeout (Timespec gettimeofday makeTimeout)
open Condition (atomicCas32)

/-- A call that starts a routine: `start`, `start_after` or `start_periodic`. -/
inductive Start
  | start (op : Option ℕ)
  | startAfter (after : ℤ)
  | startPeriodic (after periodic : ℤ)
  deriving DecidableEq

/-- A new target. -/
def Start.op : Start → Option ℕ
  | .start op => op
  | .startAfter _ | .startPeriodic _ _ => none

/-- Where a thread is in a cancel: before its next statement. -/
inductive CancelPc
  | idle
  | store
  | anywayNotify
  | broadcast
  | unlock
  deriving DecidableEq

/-- Where a routine is in `condtime.wait`: before `makeTimeout`, before the test of the flag, before
`pthread_cond_timedwait`, asleep in it, or before the store of the flag. -/
inductive WaitPc
  | timeout (millisecond : ℤ)
  | cas (ts : Timespec)
  | block (ts : Timespec)
  | blocked (ts : Timespec)
  | clear
  deriving DecidableEq

/-- Where a routine is between `init` and `cleanup`: behind the unlock in `init`, before the test that comes first,
in its wait, before the test behind it, before its target, in it, or before the test behind it. -/
inductive BodyPc
  | outside
  | signal
  | first
  | wait (w : WaitPc)
  | test
  | call
  | target
  | again
  deriving DecidableEq

/-- How a routine was started, and when. -/
structure Activation where
  start : Start
  clock : ℕ

/-- A `Thread` with the fields that the delayed and the periodic start, the cancels and `kill` are about; `begun`
counts the runs of the target that each routine has begun, `signals` has the signals that its `init` has sent and
`requested` those of the calls of `kill` that left them to it, the last one first. A `kill` behind its unlock keeps
the routine that it has found active, and `killed` has that routine, the thread that is `reached` and the signal of
each `pthread_kill` of a `kill`. -/
structure State where
  thread : Thread.State
  aftertime : ℤ
  periodictime : ℤ
  iscanceldelaystart : Bool
  anywayNotify : UInt32
  killsig : ℤ
  splock : Option Tid
  cancels : Tid → CancelPc
  kills : Tid → Option (ℤ × ℕ)
  bodies : ℕ → BodyPc
  clock : ℕ
  activations : ℕ → Activation
  begun : ℕ → ℕ
  signals : ℕ → List ℤ
  requested : ℕ → List ℤ
  killed : List (ℕ × Option Tid × ℤ)

/-- `LONG_MAX`. -/
def longMax : ℤ := 2 ^ 63 - 1

/-- A new `Thread`. -/
def State.create (target : Option ℕ) (clock : ℕ) : State where
  thread := .create target
  aftertime := longMax
  periodictime := longMax
  iscanceldelaystart := false
  anywayNotify := 0
  killsig := 0
  splock := none
  cancels := fun _ => .idle
  kills := fun _ => none
  bodies := fun _ => .outside
  clock := clock
  activations := fun _ => ⟨.start none, clock⟩
  begun := fun _ => 0
  signals := fun _ => []
  requested := fun _ => []
  killed := []

/-- The signals that `init` sends: `0 < killsig && killsig <= 32`. -/
def Sent (sig : ℤ) : Prop := 0 < sig ∧ sig ≤ 32

instance (sig : ℤ) : Decidable (Sent sig) := inferInstanceAs (Decidable (_ ∧ _))

/-- What a broadcast does to a routine. -/
def BodyPc.woken : BodyPc → BodyPc
  | .wait (.blocked _) => .wait .clear
  | pc => pc

namespace State

variable (s : State)

/-- A thread is in no call. -/
def Idle (c : Tid) : Prop := s.thread.calls c = .idle ∧ s.cancels c = .idle ∧ s.kills c = none

instance (c : Tid) : Decidable (s.Idle c) := inferInstanceAs (Decidable (_ ∧ _))

/-- A thread can make a call: it is in none, and a routine is in its target. -/
def MayCall (c : Tid) : Prop :=
  s.Idle c ∧ match c with
    | .caller _ => True
    | .routine n => s.bodies n = .target

instance : ∀ c, Decidable (s.MayCall c)
  | .caller _ => inferInstanceAs (Decidable (_ ∧ True))
  | .routine _ => inferInstanceAs (Decidable (_ ∧ _ = _))

/-- The routine goes to another place between `init` and `cleanup`. -/
def goto (n : ℕ) (pc : BodyPc) : State := { s with bodies := Function.update s.bodies n pc }

/-- The routine goes on to `cleanup`. -/
def leave (n : ℕ) : State :=
  { s with
    thread := { s.thread with routines := Function.update s.thread.routines n .cleanup }
    bodies := Function.update s.bodies n .outside }

@[simp] theorem bodies_goto (n : ℕ) (pc : BodyPc) : (s.goto n pc).bodies n = pc := Function.update_self ..

@[simp] theorem bodies_goto_of_ne {n m : ℕ} (h : m ≠ n) (pc : BodyPc) : (s.goto n pc).bodies m = s.bodies m :=
  Function.update_of_ne h ..

@[simp] theorem bodies_leave (n : ℕ) : (s.leave n).bodies n = .outside := Function.update_self ..

/-- What a start does beside the work of `start`: the fields of `start_after` and `start_periodic`, and what they are
when `pthread_create` fails. -/
def started (st : Start) (ret : PthreadCreate) : State :=
  let failed := match ret with
    | .ok => false
    | .failed _ => true
  let s := { s with activations := Function.update s.activations s.thread.created ⟨st, s.clock⟩ }
  match st with
  | .start _ => s
  | .startAfter after =>
    { s with
      anywayNotify := 0
      iscanceldelaystart := false
      aftertime := if failed then longMax else after }
  | .startPeriodic after periodic =>
    { s with
      anywayNotify := 0
      iscanceldelaystart := false
      aftertime := if failed then longMax else after
      periodictime := if failed then longMax else periodic }

/-- Where a routine begins behind `init`. -/
def entry (n : ℕ) : BodyPc :=
  match (s.activations n).start with
  | .start _ => .call
  | .startAfter _ | .startPeriodic _ _ => .first

/-- `init(arg)` beside the work of the routine that was started by `start`. -/
def init (n : ℕ) : State := s.goto n (if Sent s.killsig then .signal else s.entry n)

/-- The next statement of `cancel_after` or `cancel_periodic`. -/
def cancel (c : Tid) : Option State :=
  match s.cancels c with
  | .store => some { s with
      iscanceldelaystart := true
      cancels := Function.update s.cancels c .anywayNotify }
  | .anywayNotify => some { s with
      anywayNotify := 1
      cancels := Function.update s.cancels c .broadcast }
  | .broadcast => some { s with
      bodies := fun n => (s.bodies n).woken
      cancels := Function.update s.cancels c .unlock }
  | .unlock => some { s with
      splock := none
      cancels := Function.update s.cancels c .idle }
  | .idle => none

/-- `kill(sig)` up to the unlock. -/
def kill (c : Tid) (sig : ℤ) : State :=
  if s.thread.ref.isended then s
  else if s.thread.ref.isinthread then
    { s with kills := Function.update s.kills c (some (sig, s.thread.created - 1)) }
  else { s with
    killsig := sig
    requested := Function.update s.requested (s.thread.created - 1) (sig :: s.requested (s.thread.created - 1)) }

/-- The thread that a `pthread_kill` to `tid` reaches: a routine only as long as it has not ended. -/
def reached : Option Tid :=
  match s.thread.ref.tid with
  | some (.routine n) => if (s.thread.routines n).active then some (.routine n) else none
  | tid => tid

/-- The next statement of a routine between `init` and `cleanup`. -/
def body (n : ℕ) : Option State :=
  match s.bodies n with
  | .outside => none
  | .signal => some { s.goto n (s.entry n) with
      signals := Function.update s.signals n (s.killsig :: s.signals n) }
  | .first => some (if s.iscanceldelaystart then s.leave n else s.goto n (.wait (.timeout s.aftertime)))
  | .wait (.timeout ms) => some (s.goto n (.wait (.cas (makeTimeout (gettimeofday s.clock) ms))))
  | .wait (.cas ts) =>
    let (anywayNotify, old) := atomicCas32 s.anywayNotify 0 1
    some { s.goto n (.wait (if old = 0 then .block ts else .clear)) with anywayNotify := anywayNotify }
  | .wait (.block ts) => some (s.goto n (.wait (if ts.Valid then .blocked ts else .clear)))
  | .wait (.blocked _) => none
  | .wait .clear => some { s.goto n .test with anywayNotify := 0 }
  | .test => some (if s.iscanceldelaystart then s.leave n else s.goto n .call)
  | .call => some { s.goto n .target with begun := Function.update s.begun n (s.begun n + 1) }
  | .target =>
    match (s.activations n).start with
    | .startPeriodic _ _ => some (s.goto n .again)
    | .start _ | .startAfter _ => some (s.leave n)
  | .again => some (s.goto n (if s.iscanceldelaystart then .test else .wait (.timeout s.periodictime)))

end State

/-- The steps: a start; the steps of `Comm.Thread` that leave the fields here alone; `init` and `cleanup` of a routine
and its statements between them; a cancel and its statements; a `kill` and its `pthread_kill`; the return of a wait,
spuriously or by its time-out; and time. -/
inductive Label
  | start (c : Tid) (st : Start) (ret : PthreadCreate)
  | join (c : Tid)
  | readTid (c : Tid)
  | joinReturn (c : Tid)
  | destroy (c : Tid)
  | deleteThis (d : Tid ⊕ ℕ)
  | init (n : ℕ)
  | body (n : ℕ)
  | cleanup (n : ℕ)
  | cancel (c : Tid)
  | cancelNext (c : Tid)
  | kill (c : Tid) (sig : ℤ)
  | pthreadKill (c : Tid)
  | wake (n : ℕ)
  | timeOut (n : ℕ)
  | tick (us : ℕ)

open State in
/-- One step. -/
def step (s : State) : Label → Option State
  | .start c st ret =>
    if s.splock = none ∧ s.MayCall c then
      (Thread.step s.thread (.start c st.op ret)).map fun t =>
        if s.thread.ref.isended then { s.started st ret with thread := t } else s
    else none
  | .join c =>
    if s.splock = none ∧ s.MayCall c then (Thread.step s.thread (.join c)).map fun t => { s with thread := t } else none
  | .readTid c => (Thread.step s.thread (.readTid c)).map fun t => { s with thread := t }
  | .joinReturn c => (Thread.step s.thread (.joinReturn c)).map fun t => { s with thread := t }
  | .destroy c =>
    if s.splock = none ∧ s.MayCall c then
      (Thread.step s.thread (.destroy c)).map fun t => { s with thread := t }
    else none
  | .deleteThis d => (Thread.step s.thread (.deleteThis d)).map fun t => { s with thread := t }
  | .init n =>
    if s.splock = none then (Thread.step s.thread (.init n)).map fun t => { s.init n with thread := t } else none
  | .body n => if s.thread.routines n = .run ∧ s.Idle (.routine n) then s.body n else none
  | .cleanup n =>
    if s.splock = none then
      (Thread.step s.thread (.cleanup n)).map fun t => { s with thread := t, killsig := 0 }
    else none
  | .cancel c =>
    if s.splock = none ∧ s.thread.alive ∧ s.MayCall c then
      some (if s.thread.ref.isended then s
        else { s with splock := some c, cancels := Function.update s.cancels c .store })
    else none
  | .cancelNext c => s.cancel c
  | .kill c sig => if s.splock = none ∧ s.thread.alive ∧ s.MayCall c then some (s.kill c sig) else none
  | .pthreadKill c =>
    match s.kills c with
    | some (sig, found) => some { s with
        kills := Function.update s.kills c none
        killed := (found, s.reached, sig) :: s.killed }
    | none => none
  | .wake n =>
    match s.bodies n with
    | .wait (.blocked _) => some (s.goto n (.wait .clear))
    | _ => none
  | .timeOut n =>
    match s.bodies n with
    | .wait (.blocked ts) => if ts.Passed s.clock then some (s.goto n (.wait .clear)) else none
    | _ => none
  | .tick us => some { s with clock := s.clock + us }

/-- The steps of `Comm.Thread` that leave the fields here alone. -/
inductive Outer : Label → Thread.Label → Prop
  | join (c : Tid) : Outer (.join c) (.join c)
  | readTid (c : Tid) : Outer (.readTid c) (.readTid c)
  | joinReturn (c : Tid) : Outer (.joinReturn c) (.joinReturn c)
  | destroy (c : Tid) : Outer (.destroy c) (.destroy c)
  | deleteThis (d : Tid ⊕ ℕ) : Outer (.deleteThis d) (.deleteThis d)

/-- **What a statement of a routine does.** -/
inductive BodyEffect (s : State) (n : ℕ) : State → Prop
  | signals (hb : s.bodies n = .signal) :
    BodyEffect s n { s.goto n (s.entry n) with signals := Function.update s.signals n (s.killsig :: s.signals n) }
  | stops (hb : s.bodies n = .first ∨ s.bodies n = .test) (hc : s.iscanceldelaystart = true) :
    BodyEffect s n (s.leave n)
  | waits (hb : s.bodies n = .first) (hc : s.iscanceldelaystart = false) :
    BodyEffect s n (s.goto n (.wait (.timeout s.aftertime)))
  | timeout {ms : ℤ} (hb : s.bodies n = .wait (.timeout ms)) :
    BodyEffect s n (s.goto n (.wait (.cas (makeTimeout (gettimeofday s.clock) ms))))
  | finds {ts : Timespec} {anywayNotify : UInt32} (hb : s.bodies n = .wait (.cas ts)) (hf : s.anywayNotify ≠ 0) :
    BodyEffect s n { s.goto n (.wait .clear) with anywayNotify := anywayNotify }
  | fails {ts : Timespec} (hb : s.bodies n = .wait (.cas ts)) (hf : s.anywayNotify = 0) :
    BodyEffect s n (s.goto n (.wait (.block ts)))
  | blocks {ts : Timespec} (hb : s.bodies n = .wait (.block ts)) (hv : ts.Valid) :
    BodyEffect s n (s.goto n (.wait (.blocked ts)))
  | invalid {ts : Timespec} (hb : s.bodies n = .wait (.block ts)) (hv : ¬ ts.Valid) :
    BodyEffect s n (s.goto n (.wait .clear))
  | clears (hb : s.bodies n = .wait .clear) : BodyEffect s n { s.goto n .test with anywayNotify := 0 }
  | passes (hb : s.bodies n = .test) (hc : s.iscanceldelaystart = false) : BodyEffect s n (s.goto n .call)
  | calls (hb : s.bodies n = .call) :
    BodyEffect s n { s.goto n .target with begun := Function.update s.begun n (s.begun n + 1) }
  | returns {after periodic : ℤ} (hb : s.bodies n = .target)
    (hp : (s.activations n).start = .startPeriodic after periodic) : BodyEffect s n (s.goto n .again)
  | ends (hb : s.bodies n = .target) (hp : ∀ after periodic, (s.activations n).start ≠ .startPeriodic after periodic) :
    BodyEffect s n (s.leave n)
  | retests (hb : s.bodies n = .again) (hc : s.iscanceldelaystart = true) : BodyEffect s n (s.goto n .test)
  | rewaits (hb : s.bodies n = .again) (hc : s.iscanceldelaystart = false) :
    BodyEffect s n (s.goto n (.wait (.timeout s.periodictime)))

/-- **What a step does.** -/
inductive Effect (s : State) : Label → State → Prop
  | outer {l : Label} {l' : Thread.Label} {t : Thread.State} (hl : Outer l l') (hs : Thread.step s.thread l' = some t) :
    Effect s l { s with thread := t }
  | started {c : Tid} {st : Start} {ret : PthreadCreate} {t : Thread.State} (hl : s.splock = none)
    (he : s.thread.ref.isended = true) (hs : Thread.step s.thread (.start c st.op ret) = some t) :
    Effect s (.start c st ret) { s.started st ret with thread := t }
  | running {c : Tid} {st : Start} {ret : PthreadCreate} (he : s.thread.ref.isended = false) :
    Effect s (.start c st ret) s
  | init {n : ℕ} {t : Thread.State} (hl : s.splock = none) (hs : Thread.step s.thread (.init n) = some t) :
    Effect s (.init n) { s.init n with thread := t }
  | body {n : ℕ} {s' : State} (hn : s.thread.routines n = .run) (hi : s.Idle (.routine n)) (hs : BodyEffect s n s') :
    Effect s (.body n) s'
  | cleanup {n : ℕ} {t : Thread.State} (hl : s.splock = none) (hs : Thread.step s.thread (.cleanup n) = some t) :
    Effect s (.cleanup n) { s with thread := t, killsig := 0 }
  | cancels {c : Tid} (hl : s.splock = none) (ha : s.thread.alive = true) (hc : s.MayCall c)
    (he : s.thread.ref.isended = false) :
    Effect s (.cancel c) { s with splock := some c, cancels := Function.update s.cancels c .store }
  | cancelled {c : Tid} (he : s.thread.ref.isended = true) : Effect s (.cancel c) s
  | stores {c : Tid} (hc : s.cancels c = .store) : Effect s (.cancelNext c) { s with
      iscanceldelaystart := true
      cancels := Function.update s.cancels c .anywayNotify }
  | notifies {c : Tid} (hc : s.cancels c = .anywayNotify) : Effect s (.cancelNext c) { s with
      anywayNotify := 1
      cancels := Function.update s.cancels c .broadcast }
  | broadcasts {c : Tid} (hc : s.cancels c = .broadcast) : Effect s (.cancelNext c) { s with
      bodies := fun n => (s.bodies n).woken
      cancels := Function.update s.cancels c .unlock }
  | unlocks {c : Tid} (hc : s.cancels c = .unlock) : Effect s (.cancelNext c) { s with
      splock := none
      cancels := Function.update s.cancels c .idle }
  | killed {c : Tid} {sig : ℤ} (he : s.thread.ref.isended = true) : Effect s (.kill c sig) s
  | kills {c : Tid} {sig : ℤ} (ha : s.thread.alive = true) (hc : s.MayCall c) (he : s.thread.ref.isended = false)
    (hi : s.thread.ref.isinthread = true) :
    Effect s (.kill c sig) { s with kills := Function.update s.kills c (some (sig, s.thread.created - 1)) }
  | leaves {c : Tid} {sig : ℤ} (he : s.thread.ref.isended = false) (hi : s.thread.ref.isinthread = false) :
    Effect s (.kill c sig) { s with
      killsig := sig
      requested := Function.update s.requested (s.thread.created - 1) (sig :: s.requested (s.thread.created - 1)) }
  | pthreadKill {c : Tid} {sig : ℤ} {found : ℕ} (hc : s.kills c = some (sig, found)) :
    Effect s (.pthreadKill c) { s with
      kills := Function.update s.kills c none
      killed := (found, s.reached, sig) :: s.killed }
  | wakes {n : ℕ} {ts : Timespec} (hb : s.bodies n = .wait (.blocked ts)) : Effect s (.wake n) (s.goto n (.wait .clear))
  | timesOut {n : ℕ} {ts : Timespec} (hb : s.bodies n = .wait (.blocked ts)) (hp : ts.Passed s.clock) :
    Effect s (.timeOut n) (s.goto n (.wait .clear))
  | ticks {us : ℕ} : Effect s (.tick us) { s with clock := s.clock + us }

section Effect

variable {s s' : State}

theorem bodyEffect_of_body {n : ℕ} (h : s.body n = some s') : BodyEffect s n s' := by
  unfold State.body at h
  split at h
  · cases h
  · next hb => cases h; exact .signals hb
  · next hb =>
    cases h
    split_ifs with hc
    · exact .stops (.inl hb) hc
    · exact .waits hb (Bool.eq_false_iff.mpr hc)
  · next hb => cases h; exact .timeout hb
  · next ts hb =>
    cases h
    by_cases hf : s.anywayNotify = 0
    · have he := BodyEffect.fails hb hf
      simpa [atomicCas32, State.goto, hf] using he
    · have he := @BodyEffect.finds s n ts (atomicCas32 s.anywayNotify 0 1).1 hb hf
      simpa [atomicCas32, hf] using he
  · next hb =>
    cases h
    split_ifs with hv
    · exact .blocks hb hv
    · exact .invalid hb hv
  · cases h
  · next hb => cases h; exact .clears hb
  · next hb =>
    cases h
    split_ifs with hc
    · exact .stops (.inr hb) hc
    · exact .passes hb (Bool.eq_false_iff.mpr hc)
  · next hb => cases h; exact .calls hb
  · next hb =>
    split at h
    · next hp => cases h; exact .returns hb hp
    · next hp => cases h; exact .ends hb fun a p he => by rw [hp] at he; cases he
    · next hp => cases h; exact .ends hb fun a p he => by rw [hp] at he; cases he
  · next hb =>
    cases h
    split_ifs with hc
    · exact .retests hb hc
    · exact .rewaits hb (Bool.eq_false_iff.mpr hc)

theorem effect_cancelNext {c : Tid} (h : s.cancel c = some s') : Effect s (.cancelNext c) s' := by
  unfold State.cancel at h
  split at h
  · next hc => cases h; exact .stores hc
  · next hc => cases h; exact .notifies hc
  · next hc => cases h; exact .broadcasts hc
  · next hc => cases h; exact .unlocks hc
  · cases h

theorem effect_kill {c : Tid} {sig : ℤ} (ha : s.thread.alive = true) (hc : s.MayCall c) :
    Effect s (.kill c sig) (s.kill c sig) := by
  unfold State.kill
  split_ifs with he hi
  · exact .killed he
  · exact .kills ha hc (Bool.eq_false_iff.mpr he) hi
  · exact .leaves (Bool.eq_false_iff.mpr he) (Bool.eq_false_iff.mpr hi)

/-- **Every step is one of these.** -/
theorem effect_of_step {l : Label} (h : step s l = some s') : Effect s l s' := by
  cases l with
  | start c st ret =>
    obtain ⟨⟨hl, -⟩, h⟩ := Option.ite_none_right_eq_some.mp h
    obtain ⟨t, hs, he⟩ := Option.map_eq_some_iff.mp h
    subst he
    split_ifs with he
    · exact .started hl he hs
    · exact .running (Bool.eq_false_iff.mpr he)
  | join c =>
    obtain ⟨-, h⟩ := Option.ite_none_right_eq_some.mp h
    obtain ⟨t, hs, he⟩ := Option.map_eq_some_iff.mp h
    subst he
    exact .outer (.join c) hs
  | readTid c =>
    obtain ⟨t, hs, he⟩ := Option.map_eq_some_iff.mp h
    subst he
    exact .outer (.readTid c) hs
  | joinReturn c =>
    obtain ⟨t, hs, he⟩ := Option.map_eq_some_iff.mp h
    subst he
    exact .outer (.joinReturn c) hs
  | destroy c =>
    obtain ⟨-, h⟩ := Option.ite_none_right_eq_some.mp h
    obtain ⟨t, hs, he⟩ := Option.map_eq_some_iff.mp h
    subst he
    exact .outer (.destroy c) hs
  | deleteThis d =>
    obtain ⟨t, hs, he⟩ := Option.map_eq_some_iff.mp h
    subst he
    exact .outer (.deleteThis d) hs
  | init n =>
    obtain ⟨hl, h⟩ := Option.ite_none_right_eq_some.mp h
    obtain ⟨t, hs, he⟩ := Option.map_eq_some_iff.mp h
    subst he
    exact .init hl hs
  | body n =>
    obtain ⟨⟨hn, hi⟩, h⟩ := Option.ite_none_right_eq_some.mp h
    exact .body hn hi (bodyEffect_of_body h)
  | cleanup n =>
    obtain ⟨hl, h⟩ := Option.ite_none_right_eq_some.mp h
    obtain ⟨t, hs, he⟩ := Option.map_eq_some_iff.mp h
    subst he
    exact .cleanup hl hs
  | cancel c =>
    obtain ⟨⟨hl, ha, hc⟩, h⟩ := Option.ite_none_right_eq_some.mp h
    cases h
    split_ifs with he
    · exact .cancelled he
    · exact .cancels hl ha hc (Bool.eq_false_iff.mpr he)
  | cancelNext c => exact effect_cancelNext h
  | kill c sig =>
    obtain ⟨⟨-, ha, hc⟩, h⟩ := Option.ite_none_right_eq_some.mp h
    cases h
    exact effect_kill ha hc
  | pthreadKill c =>
    simp only [step] at h
    split at h
    · next hc => cases h; exact .pthreadKill hc
    · cases h
  | wake n =>
    simp only [step] at h
    split at h
    · next hb => cases h; exact .wakes hb
    · cases h
  | timeOut n =>
    simp only [step] at h
    split at h
    · next hb =>
      obtain ⟨hp, he⟩ := Option.ite_none_right_eq_some.mp h
      cases he
      exact .timesOut hb hp
    · cases h
  | tick us => cases h; exact .ticks

end Effect

end MTAppenderFile.Comm.Delayed
