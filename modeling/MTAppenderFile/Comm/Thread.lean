import Mathlib.Data.List.Basic
import Mathlib.Logic.Function.Basic
import Mathlib.Tactic.Common

/-! # A `Thread` object

A `Thread` (`comm/mtaf_thread.h`) runs its target on a pthread, as often as it is started, and shares a
`RunnableReference` with the routines that run. Both count in it, and the last one deletes it.

This is one `Thread` with all that may happen to it: calls of `start`, `join` and the destructor, from any threads,
the routines themselves among them, and the routines, numbered as `pthread_create` makes them. A section under
`splock` is one step. What is done without the lock is a step of its own: in `join` the read of `tid()` with the
call of `pthread_join`, and its return; the run of the target; and the `delete this` at the end of `RemoveRef`.

The assertions are not compiled in, but `start` is not called without a target. The identifiers that
`pthread_create` gives are all different; one that fails leaves any `tid`. Left out are the delayed and the
periodic start, `kill`, `unsafe_exit`, and the name of the thread. -/

namespace MTAppenderFile.Comm.Thread

/-- The threads: those that call the functions, and the routines of this `Thread`. -/
inductive Tid
  | caller (n : ℕ)
  | routine (n : ℕ)
  deriving DecidableEq

/-- `Thread::RunnableReference`; `none` is a `tid` of `0`, and a target of `NULL`. -/
structure RunnableReference where
  target : Option ℕ
  count : ℕ
  tid : Option Tid
  isjoined : Bool
  isended : Bool
  isinthread : Bool

namespace RunnableReference

/-- `AddRef()`. -/
def addRef (r : RunnableReference) : RunnableReference := { r with count := r.count + 1 }

/-- `RemoveRef(_lock)` up to the unlock, with `willdel`. -/
def removeRef (r : RunnableReference) : RunnableReference × Bool :=
  ({ r with count := r.count - 1 }, r.count - 1 = 0)

end RunnableReference

/-- Where a thread is in a call: behind the unlock in `join`, in its `pthread_join`, or before `delete this`. A
`join` keeps the routine that it has found active, which the code does not. -/
inductive CallPc
  | idle
  | unlocked (found : ℕ)
  | joining (found : ℕ) (tid : Option Tid)
  | delete
  deriving DecidableEq

/-- Where a routine is: before `init`, in its target, before `cleanup`, before `delete this`, or at its end. -/
inductive RoutinePc
  | none
  | init
  | run
  | cleanup
  | delete
  | ended
  deriving DecidableEq

/-- Started, with the cleanup to come. -/
def RoutinePc.active : RoutinePc → Bool
  | .init | .run | .cleanup => true
  | _ => false

/-- What `pthread_create` does; when it fails, `tid` is undefined. -/
inductive PthreadCreate
  | ok
  | failed (tid : Option Tid)

/-- A `Thread` with its reference, the calls and the routines. `joins` and `detaches` count the returns of
`pthread_join` and the calls of `pthread_detach` on each routine, and `deletes` the destructions of the
reference. -/
structure State where
  ref : RunnableReference
  alive : Bool
  calls : Tid → CallPc
  routines : ℕ → RoutinePc
  created : ℕ
  deletes : ℕ
  joins : ℕ → ℕ
  detaches : ℕ → ℕ

/-- A new `Thread`. -/
def State.create (target : Option ℕ) : State where
  ref := RunnableReference.addRef ⟨target, 0, none, false, true, false⟩
  alive := true
  calls := fun _ => .idle
  routines := fun _ => .none
  created := 0
  deletes := 0
  joins := fun _ => 0
  detaches := fun _ => 0

namespace State

/-- `start()` and `start(op)`. -/
def start (s : State) (c : Tid) (op : Option ℕ) (ret : PthreadCreate) : State :=
  if s.ref.isended then
    let ref := match op with
      | some r => { s.ref with target := some r }
      | none => s.ref
    let ref := { ref with isended := false }.addRef
    match ret with
    | .ok => { s with
        ref := { ref with tid := some (.routine s.created) }
        routines := Function.update s.routines s.created .init
        created := s.created + 1 }
    | .failed tid =>
      let (ref, willdel) := { ref with tid := tid, isended := true }.removeRef
      { s with ref := ref, calls := if willdel then Function.update s.calls c .delete else s.calls }
  else s

/-- `join()` up to the unlock; a thread does not join itself. -/
def join (s : State) (c : Tid) : State :=
  if s.ref.tid = some c then s
  else if s.ref.isended then s
  else { s with
    ref := { s.ref with isjoined := true }
    calls := Function.update s.calls c (.unlocked (s.created - 1)) }

/-- `~Thread()` up to the unlock. -/
def destroy (s : State) (c : Tid) : State :=
  let (ref, willdel) := s.ref.removeRef
  { s with ref := ref, alive := false, calls := if willdel then Function.update s.calls c .delete else s.calls }

/-- `init(arg)` of the routine `n`. -/
def init (s : State) (n : ℕ) : State :=
  { s with ref := { s.ref with isinthread := true }, routines := Function.update s.routines n .run }

/-- `cleanup(arg)` of the routine `n` up to the unlock. -/
def cleanup (s : State) (n : ℕ) : State :=
  let detaches := if s.ref.isjoined then s.detaches else Function.update s.detaches n (s.detaches n + 1)
  let (ref, willdel) := { s.ref with isinthread := false, isended := true, isjoined := false }.removeRef
  { s with
    ref := ref
    detaches := detaches
    routines := Function.update s.routines n (if willdel then .delete else .ended) }

/-- The destructor of the reference. -/
def deleted (s : State) : State := { s with ref := { s.ref with target := none }, deletes := s.deletes + 1 }

/-- A thread can make a call: it is in none, and a routine is in its target. -/
def MayCall (s : State) (c : Tid) : Prop :=
  s.calls c = .idle ∧ match c with
    | .caller _ => True
    | .routine n => s.routines n = .run

instance (s : State) : ∀ c, Decidable (s.MayCall c)
  | .caller _ => inferInstanceAs (Decidable (_ ∧ True))
  | .routine _ => inferInstanceAs (Decidable (_ ∧ _ = _))

end State

/-- The steps: the sections of calls and routines, the read of `tid()`, the return of `pthread_join`, the end of
the target, and `delete this` of a call or of a routine. -/
inductive Label
  | start (c : Tid) (op : Option ℕ) (ret : PthreadCreate)
  | join (c : Tid)
  | readTid (c : Tid)
  | joinReturn (c : Tid)
  | destroy (c : Tid)
  | init (n : ℕ)
  | run (n : ℕ)
  | cleanup (n : ℕ)
  | deleteThis (d : Tid ⊕ ℕ)

open State in
/-- One step. `pthread_join` waits for the end of a routine, and finds no other thread. -/
def step (s : State) : Label → Option State
  | .start c op ret =>
    if s.alive ∧ s.MayCall c ∧ (s.ref.isended → op.isSome ∨ s.ref.target.isSome) then some (s.start c op ret) else none
  | .join c => if s.alive ∧ s.MayCall c then some (s.join c) else none
  | .readTid c =>
    match s.calls c with
    | .unlocked found => some { s with calls := Function.update s.calls c (.joining found s.ref.tid) }
    | _ => none
  | .joinReturn c =>
    match s.calls c with
    | .joining _ (some (.routine n)) =>
      if s.routines n = .ended then
        some { s with
          calls := Function.update s.calls c .idle
          joins := Function.update s.joins n (s.joins n + 1) }
      else none
    | .joining _ _ => some { s with calls := Function.update s.calls c .idle }
    | _ => none
  | .destroy c => if s.alive ∧ s.MayCall c then some (s.destroy c) else none
  | .init n => if s.routines n = .init then some (s.init n) else none
  | .run n =>
    if s.routines n = .run ∧ s.calls (.routine n) = .idle then
      some { s with routines := Function.update s.routines n .cleanup }
    else none
  | .cleanup n => if s.routines n = .cleanup then some (s.cleanup n) else none
  | .deleteThis (.inl c) =>
    if s.calls c = .delete then some { s.deleted with calls := Function.update s.calls c .idle } else none
  | .deleteThis (.inr n) =>
    if s.routines n = .delete then some { s.deleted with routines := Function.update s.routines n .ended } else none

/-- **What a step does**, one case for each way through its section. -/
inductive Effect (s : State) : Label → State → Prop
  | started {c : Tid} {op : Option ℕ} (ha : s.alive = true) (hc : s.MayCall c) (he : s.ref.isended = true) :
    Effect s (.start c op .ok) { s with
      ref := { s.ref with
        target := op.or s.ref.target, count := s.ref.count + 1, tid := some (.routine s.created), isended := false }
      routines := Function.update s.routines s.created .init
      created := s.created + 1 }
  | failed {c : Tid} {op : Option ℕ} {tid : Option Tid} (ha : s.alive = true) (hc : s.MayCall c)
    (he : s.ref.isended = true) :
    Effect s (.start c op (.failed tid)) { s with
      ref := { s.ref with target := op.or s.ref.target, tid := tid, isended := true }
      calls := if s.ref.count = 0 then Function.update s.calls c .delete else s.calls }
  | running {c : Tid} {op : Option ℕ} {ret : PthreadCreate} (ha : s.alive = true) (hc : s.MayCall c)
    (he : s.ref.isended = false) : Effect s (.start c op ret) s
  | returned {c : Tid} (ha : s.alive = true) (hc : s.MayCall c) : Effect s (.join c) s
  | found {c : Tid} (ha : s.alive = true) (hc : s.MayCall c) (ht : s.ref.tid ≠ some c) (he : s.ref.isended = false) :
    Effect s (.join c) { s with
      ref := { s.ref with isjoined := true }
      calls := Function.update s.calls c (.unlocked (s.created - 1)) }
  | readTid {c : Tid} {k : ℕ} (hc : s.calls c = .unlocked k) :
    Effect s (.readTid c) { s with calls := Function.update s.calls c (.joining k s.ref.tid) }
  | joined {c : Tid} {k n : ℕ} (hc : s.calls c = .joining k (some (.routine n))) (hn : s.routines n = .ended) :
    Effect s (.joinReturn c) { s with
      calls := Function.update s.calls c .idle
      joins := Function.update s.joins n (s.joins n + 1) }
  | notFound {c : Tid} {k : ℕ} {tid : Option Tid} (hc : s.calls c = .joining k tid)
    (ht : ∀ n, tid ≠ some (.routine n)) :
    Effect s (.joinReturn c) { s with calls := Function.update s.calls c .idle }
  | destroy {c : Tid} (ha : s.alive = true) (hc : s.MayCall c) : Effect s (.destroy c) { s with
      ref := { s.ref with count := s.ref.count - 1 }
      alive := false
      calls := if s.ref.count - 1 = 0 then Function.update s.calls c .delete else s.calls }
  | init {n : ℕ} (hn : s.routines n = .init) : Effect s (.init n) (s.init n)
  | run {n : ℕ} (hn : s.routines n = .run) (hc : s.calls (.routine n) = .idle) :
    Effect s (.run n) { s with routines := Function.update s.routines n .cleanup }
  | cleanup {n : ℕ} (hn : s.routines n = .cleanup) : Effect s (.cleanup n) { s with
      ref := { s.ref with count := s.ref.count - 1, isinthread := false, isended := true, isjoined := false }
      detaches := if s.ref.isjoined then s.detaches else Function.update s.detaches n (s.detaches n + 1)
      routines := Function.update s.routines n (if s.ref.count - 1 = 0 then .delete else .ended) }
  | deleteCall {c : Tid} (hc : s.calls c = .delete) :
    Effect s (.deleteThis (.inl c)) { s.deleted with calls := Function.update s.calls c .idle }
  | deleteRoutine {n : ℕ} (hn : s.routines n = .delete) :
    Effect s (.deleteThis (.inr n)) { s.deleted with routines := Function.update s.routines n .ended }

section Effect

variable {s s' : State}

theorem effect_start {c : Tid} {op : Option ℕ} {ret : PthreadCreate} (ha : s.alive = true) (hc : s.MayCall c) :
    Effect s (.start c op ret) (s.start c op ret) := by
  unfold State.start
  cases he : s.ref.isended with
  | false => exact .running ha hc he
  | true =>
    have hop : (match op with
        | some r => { s.ref with target := some r }
        | none => s.ref) = { s.ref with target := op.or s.ref.target } := by
      cases op <;> rfl
    rw [if_pos rfl, hop]
    cases ret with
    | ok => exact .started ha hc he
    | failed tid =>
      have h := @Effect.failed s c op tid ha hc he
      by_cases h0 : s.ref.count = 0 <;>
        simpa [RunnableReference.addRef, RunnableReference.removeRef, h0] using h

theorem effect_join {c : Tid} (ha : s.alive = true) (hc : s.MayCall c) : Effect s (.join c) (s.join c) := by
  unfold State.join
  split_ifs with ht he
  · exact .returned ha hc
  · exact .returned ha hc
  · exact .found ha hc ht (Bool.eq_false_iff.mpr he)

theorem effect_destroy {c : Tid} (ha : s.alive = true) (hc : s.MayCall c) : Effect s (.destroy c) (s.destroy c) := by
  have h := Effect.destroy ha hc
  by_cases h0 : s.ref.count - 1 = 0 <;> simpa [State.destroy, RunnableReference.removeRef, h0] using h

theorem effect_cleanup {n : ℕ} (hn : s.routines n = .cleanup) : Effect s (.cleanup n) (s.cleanup n) := by
  have h := Effect.cleanup hn
  by_cases h0 : s.ref.count - 1 = 0 <;> simpa [State.cleanup, RunnableReference.removeRef, h0] using h

/-- **Every step is one of these.** -/
theorem effect_of_step {l : Label} (h : step s l = some s') : Effect s l s' := by
  cases l with
  | start c op ret =>
    obtain ⟨⟨ha, hc, -⟩, he⟩ := Option.ite_none_right_eq_some.mp h
    cases he
    exact effect_start ha hc
  | join c =>
    obtain ⟨⟨ha, hc⟩, he⟩ := Option.ite_none_right_eq_some.mp h
    cases he
    exact effect_join ha hc
  | readTid c =>
    simp only [step] at h
    split at h
    · next hc => cases h; exact .readTid hc
    · cases h
  | joinReturn c =>
    simp only [step] at h
    split at h
    · next hc =>
      obtain ⟨hn, he⟩ := Option.ite_none_right_eq_some.mp h
      cases he
      exact .joined hc hn
    · next k tid hne hc =>
      cases h
      exact .notFound hc fun n ht => hne n (by rw [ht])
    · cases h
  | destroy c =>
    obtain ⟨⟨ha, hc⟩, he⟩ := Option.ite_none_right_eq_some.mp h
    cases he
    exact effect_destroy ha hc
  | init n =>
    obtain ⟨hn, he⟩ := Option.ite_none_right_eq_some.mp h
    cases he
    exact .init hn
  | run n =>
    obtain ⟨⟨hn, hc⟩, he⟩ := Option.ite_none_right_eq_some.mp h
    cases he
    exact .run hn hc
  | cleanup n =>
    obtain ⟨hn, he⟩ := Option.ite_none_right_eq_some.mp h
    cases he
    exact effect_cleanup hn
  | deleteThis d =>
    cases d with
    | inl c =>
      obtain ⟨hc, he⟩ := Option.ite_none_right_eq_some.mp h
      cases he
      exact .deleteCall hc
    | inr n =>
      obtain ⟨hn, he⟩ := Option.ite_none_right_eq_some.mp h
      cases he
      exact .deleteRoutine hn

end Effect

/-- The destructor of the `Thread` is called after all other calls on it. -/
def DestroyedLast (s : State) : Label → Prop
  | .destroy _ => ∀ t, s.calls t = .idle
  | _ => True

end MTAppenderFile.Comm.Thread
