import MTAppenderFile.Lib.Run
import Mathlib.Logic.Function.Basic
import Mathlib.Tactic.Common

/-! # A `Condition` with one waiting thread

A `Condition` (`comm/mtaf_condition.h`) is a pthread condition with a flag, `anyway_notify_`, for what is notified
while nobody waits. `notifyAll(true)` sets it before its broadcast, and `wait` tests it before it blocks, and clears
it in any case.

One thread waits, again and again, and any number of threads notify. Each access to the mutex, the flag and the
pthread condition is a step. `notifyAll` does not take the mutex, so it can run between the test and the block of the
waiter, and then the notification is lost (`notified_then_blocked`). This is the only way to lose one
(`forced_notification`), and it is closed to a thread that holds the mutex (`not_lost_of_locked`).

Left out are `notifyOne`, and `cancelAnyWayNotify`, which takes a notification back. -/

namespace MTAppenderFile.Comm.Condition

open MTAppenderFile.Lib.Run

variable {ι : Type*}

/-- `atomic_cas32(mem, with, cmp)`: the value behind it, and the one it returns. -/
def atomicCas32 (mem new cmp : UInt32) : UInt32 × UInt32 := (if mem = cmp then new else mem, mem)

/-- The threads: the one that waits, and those that notify. -/
inductive Tid (ι : Type*)
  | waiter
  | notifier (n : ι)
  deriving DecidableEq

/-- What `pthread_cond_wait` and `pthread_cond_timedwait` return. -/
inductive Ret
  | ok
  | etimedout
  deriving DecidableEq

/-- A call of `wait`: with a `ScopedLock` of its own, or in that of the caller; with a time-out or without. -/
structure WaitCall where
  ownLock : Bool
  timed : Bool

/-- Where the waiter is in a call: `block` is the entry of `pthread_cond_wait` or `pthread_cond_timedwait`, `blocked`
its sleep and `relock` its way out. -/
inductive WaitPc
  | idle
  | lock
  | cas
  | block
  | blocked
  | relock (ret : Ret)
  | clear (ret : Ret)
  | unlock (ret : Ret)
  | done (ret : Ret)
  deriving DecidableEq

namespace WaitPc

/-- What a broadcast does to the waiter. -/
def woken : WaitPc → WaitPc
  | .blocked => .relock .ok
  | pc => pc

/-- The flag has not been tested since the last call. -/
def untested : WaitPc → Bool
  | .idle | .lock | .cas => true
  | _ => false

/-- The flag was not set, and the waiter blocks. -/
def sleeps : WaitPc → Bool
  | .block | .blocked => true
  | _ => false

/-- Inside the lock. -/
def holds : WaitPc → Bool
  | .cas | .block | .clear _ | .unlock _ => true
  | _ => false

theorem untested_woken (pc : WaitPc) : pc.woken.untested = pc.untested := by cases pc <;> rfl

theorem holds_woken (pc : WaitPc) : pc.woken.holds = pc.holds := by cases pc <;> rfl

theorem eq_block_of_woken {pc : WaitPc} (h : pc.woken.sleeps = true) : pc = .block := by
  cases pc with
  | block => rfl
  | _ => cases h

end WaitPc

/-- Where a notifier is in a call. Behind the store of a forced notification it keeps how many waits had returned
before the store, which the code does not. -/
inductive NotifyPc
  | idle
  | store
  | broadcast (stored : Option ℕ)
  deriving DecidableEq

/-- A condition with its threads. `returned` counts the waits that have returned; `notified` has, for each forced
notification that has made its store and its broadcast, how many had returned before the store. -/
structure State (ι : Type*) where
  anywayNotify : UInt32
  mutex : Option (Tid ι)
  call : WaitCall
  waiter : WaitPc
  notifiers : ι → NotifyPc
  returned : ℕ
  notified : List ℕ

/-- A new condition. -/
def State.create : State ι where
  anywayNotify := 0
  mutex := none
  call := ⟨true, false⟩
  waiter := .idle
  notifiers := fun _ => .idle
  returned := 0
  notified := []

/-- The steps: a thread locks and unlocks the mutex outside of the calls; `wait` is called; the waiter goes on in its
call; it is woken spuriously, or by the time-out; `notifyAll` is called; and a notifier goes on in its call. -/
inductive Label (ι : Type*)
  | lock (t : Tid ι)
  | unlock (t : Tid ι)
  | wait (call : WaitCall)
  | waiter
  | wake
  | timeOut
  | notifyAll (n : ι) (anywaynotify : Bool)
  | notifier (n : ι)

namespace State

variable [DecidableEq ι] (s : State ι)

/-- A thread is in no call. -/
def Outside : Tid ι → Prop
  | .waiter => s.waiter = .idle
  | .notifier n => s.notifiers n = .idle

instance : ∀ t, Decidable (s.Outside t)
  | .waiter => inferInstanceAs (Decidable (_ = _))
  | .notifier _ => inferInstanceAs (Decidable (_ = _))

/-- The next statement of `wait`. -/
def wait : Option (State ι) :=
  match s.waiter with
  | .lock => if s.mutex = none then some { s with mutex := some .waiter, waiter := .cas } else none
  | .cas =>
    let (anywayNotify, old) := atomicCas32 s.anywayNotify 0 1
    some { s with anywayNotify := anywayNotify, waiter := if old = 0 then .block else .clear .ok }
  | .block => some { s with mutex := none, waiter := .blocked }
  | .relock ret => if s.mutex = none then some { s with mutex := some .waiter, waiter := .clear ret } else none
  | .clear ret => some { s with anywayNotify := 0, waiter := if s.call.ownLock then .unlock ret else .done ret }
  | .unlock ret => some { s with mutex := none, waiter := .done ret }
  | .done _ => some { s with waiter := .idle, returned := s.returned + 1 }
  | .idle | .blocked => none

/-- The next statement of `notifyAll`. -/
def notifyAll (n : ι) : Option (State ι) :=
  match s.notifiers n with
  | .store => some { s with
      anywayNotify := 1
      notifiers := Function.update s.notifiers n (.broadcast (some s.returned)) }
  | .broadcast stored => some { s with
      waiter := s.waiter.woken
      notifiers := Function.update s.notifiers n .idle
      notified := stored.toList ++ s.notified }
  | .idle => none

end State

section Step

variable [DecidableEq ι]

/-- One step. `wait(lock)` is called with the mutex locked. -/
def step (s : State ι) : Label ι → Option (State ι)
  | .lock t => if s.Outside t ∧ s.mutex = none then some { s with mutex := some t } else none
  | .unlock t => if s.Outside t ∧ s.mutex = some t then some { s with mutex := none } else none
  | .wait call =>
    if s.waiter = .idle ∧ (call.ownLock ∨ s.mutex = some .waiter) then
      some { s with call := call, waiter := if call.ownLock then .lock else .cas }
    else none
  | .waiter => s.wait
  | .wake => if s.waiter = .blocked then some { s with waiter := .relock .ok } else none
  | .timeOut => if s.waiter = .blocked ∧ s.call.timed then some { s with waiter := .relock .etimedout } else none
  | .notifyAll n anywaynotify =>
    if s.notifiers n = .idle then
      some { s with notifiers := Function.update s.notifiers n (if anywaynotify then .store else .broadcast none) }
    else none
  | .notifier n => s.notifyAll n

/-- **What a step does.** -/
inductive Effect (s : State ι) : Label ι → State ι → Prop
  | locked {t : Tid ι} (hm : s.mutex = none) : Effect s (.lock t) { s with mutex := some t }
  | unlocked {t : Tid ι} (ho : s.Outside t) (hm : s.mutex = some t) : Effect s (.unlock t) { s with mutex := none }
  | called {call : WaitCall} (hw : s.waiter = .idle) (hm : call.ownLock = true ∨ s.mutex = some .waiter) :
    Effect s (.wait call) { s with call := call, waiter := if call.ownLock then .lock else .cas }
  | locks (hw : s.waiter = .lock) : Effect s .waiter { s with mutex := some .waiter, waiter := .cas }
  | finds (hw : s.waiter = .cas) (hf : s.anywayNotify ≠ 0) {anywayNotify : UInt32} :
    Effect s .waiter { s with anywayNotify := anywayNotify, waiter := .clear .ok }
  | fails (hw : s.waiter = .cas) (hf : s.anywayNotify = 0) : Effect s .waiter { s with waiter := .block }
  | blocks (hw : s.waiter = .block) : Effect s .waiter { s with mutex := none, waiter := .blocked }
  | relocks {ret : Ret} (hw : s.waiter = .relock ret) :
    Effect s .waiter { s with mutex := some .waiter, waiter := .clear ret }
  | clears {ret : Ret} (hw : s.waiter = .clear ret) :
    Effect s .waiter { s with anywayNotify := 0, waiter := if s.call.ownLock then .unlock ret else .done ret }
  | unlocks {ret : Ret} (hw : s.waiter = .unlock ret) : Effect s .waiter { s with mutex := none, waiter := .done ret }
  | returns {ret : Ret} (hw : s.waiter = .done ret) :
    Effect s .waiter { s with waiter := .idle, returned := s.returned + 1 }
  | wakes (hw : s.waiter = .blocked) : Effect s .wake { s with waiter := .relock .ok }
  | timesOut (hw : s.waiter = .blocked) : Effect s .timeOut { s with waiter := .relock .etimedout }
  | notifies {n : ι} {anywaynotify : Bool} : Effect s (.notifyAll n anywaynotify) { s with
      notifiers := Function.update s.notifiers n (if anywaynotify then .store else .broadcast none) }
  | stores {n : ι} (hn : s.notifiers n = .store) : Effect s (.notifier n) { s with
      anywayNotify := 1
      notifiers := Function.update s.notifiers n (.broadcast (some s.returned)) }
  | broadcasts {n : ι} {stored : Option ℕ} (hn : s.notifiers n = .broadcast stored) : Effect s (.notifier n) { s with
      waiter := s.waiter.woken
      notifiers := Function.update s.notifiers n .idle
      notified := stored.toList ++ s.notified }

variable {s s' : State ι}

theorem effect_wait (h : s.wait = some s') : Effect s .waiter s' := by
  unfold State.wait at h
  split at h
  · next hw =>
    obtain ⟨-, he⟩ := Option.ite_none_right_eq_some.mp h
    cases he
    exact .locks hw
  · next hw =>
    cases h
    by_cases hf : s.anywayNotify = 0
    · have he := Effect.fails hw hf
      simpa [atomicCas32, hf] using he
    · have he := @Effect.finds _ _ s hw hf (atomicCas32 s.anywayNotify 0 1).1
      simpa [atomicCas32, hf] using he
  · next hw => cases h; exact .blocks hw
  · next hw =>
    obtain ⟨-, he⟩ := Option.ite_none_right_eq_some.mp h
    cases he
    exact .relocks hw
  · next hw => cases h; exact .clears hw
  · next hw => cases h; exact .unlocks hw
  · next hw => cases h; exact .returns hw
  · cases h
  · cases h

/-- **Every step is one of these.** -/
theorem effect_of_step {l : Label ι} (h : step s l = some s') : Effect s l s' := by
  cases l with
  | lock t =>
    obtain ⟨⟨-, hm⟩, he⟩ := Option.ite_none_right_eq_some.mp h
    cases he
    exact .locked hm
  | unlock t =>
    obtain ⟨⟨ho, hm⟩, he⟩ := Option.ite_none_right_eq_some.mp h
    cases he
    exact .unlocked ho hm
  | wait call =>
    obtain ⟨⟨hw, hm⟩, he⟩ := Option.ite_none_right_eq_some.mp h
    cases he
    exact .called hw hm
  | waiter => exact effect_wait h
  | wake =>
    obtain ⟨hw, he⟩ := Option.ite_none_right_eq_some.mp h
    cases he
    exact .wakes hw
  | timeOut =>
    obtain ⟨⟨hw, -⟩, he⟩ := Option.ite_none_right_eq_some.mp h
    cases he
    exact .timesOut hw
  | notifyAll n anywaynotify =>
    obtain ⟨-, he⟩ := Option.ite_none_right_eq_some.mp h
    cases he
    exact .notifies
  | notifier n =>
    simp only [step, State.notifyAll] at h
    split at h
    · next hn => cases h; exact .stores hn
    · next hn => cases h; exact .broadcasts hn
    · cases h

end Step

/-! ### Forced notifications -/

/-- **A lost notification**: the waiter is blocked, and a forced notification has made both its store and its
broadcast since the last wait returned. -/
def Lost (s : State ι) : Prop := s.waiter = .blocked ∧ s.returned ∈ s.notified

/-- A forced notification has made its store since the last wait returned. -/
def Stored (s : State ι) : Prop :=
  s.returned ∈ s.notified ∨ ∃ n, s.notifiers n = .broadcast (some s.returned)

/-- No forced notification makes its broadcast between the test and the block of the waiter, if its store is behind
the return of the last wait. -/
def InTime (s : State ι) : Label ι → Prop
  | .notifier n => s.waiter = .block → s.notifiers n ≠ .broadcast (some s.returned)
  | _ => True

/-- A forced notification makes its broadcast with the mutex locked. -/
def Locked (s : State ι) : Label ι → Prop
  | .notifier n => ∀ k, s.notifiers n = .broadcast (some k) → s.mutex = some (.notifier n)
  | _ => True

/-- **The invariant** of the flag. -/
structure Inv (s : State ι) : Prop where
  stored : ∀ n k, s.notifiers n = .broadcast (some k) → k ≤ s.returned
  notified : ∀ k ∈ s.notified, k ≤ s.returned
  flag : s.waiter.untested = true → Stored s → s.anywayNotify = 1
  asleep : s.waiter.sleeps = true → s.returned ∉ s.notified

section Inv

variable {s s' : State ι} {l : Label ι}

theorem inv_create : Inv (.create : State ι) :=
  ⟨nofun, nofun, fun _ hst => by rcases hst with hk | ⟨n, hn⟩ <;> contradiction, nofun⟩

theorem Inv.not_lost (h : Inv s) : ¬ Lost s := fun ⟨hw, hk⟩ => h.asleep (by rw [hw]; rfl) hk

variable [DecidableEq ι]

/-- A notifier that is behind its store was there before, if this is not where it has gone. -/
theorem broadcast_of_update {f : ι → NotifyPc} {n m : ι} {pc : NotifyPc} {k : ℕ} (hpc : pc ≠ .broadcast (some k))
    (h : Function.update f n pc m = .broadcast (some k)) : f m = .broadcast (some k) := by
  by_cases hmn : m = n
  · rw [hmn, Function.update_self] at h
    exact absurd h hpc
  · rwa [Function.update_of_ne hmn] at h

/-- **Every step keeps the invariant.** -/
theorem Inv.step (h : Inv s) (hc : InTime s l) (hs : Effect s l s') : Inv s' := by
  cases hs with
  | locked hm => exact ⟨h.stored, h.notified, h.flag, h.asleep⟩
  | unlocked ho hm => exact ⟨h.stored, h.notified, h.flag, h.asleep⟩
  | called hw hm =>
    refine ⟨h.stored, h.notified, fun _ => h.flag (by rw [hw]; rfl), fun hsl => ?_⟩
    dsimp only at hsl
    split_ifs at hsl <;> cases hsl
  | locks hw => exact ⟨h.stored, h.notified, fun _ => h.flag (by rw [hw]; rfl), nofun⟩
  | finds hw hf => exact ⟨h.stored, h.notified, nofun, nofun⟩
  | fails hw hf =>
    refine ⟨h.stored, h.notified, nofun, fun _ hk => ?_⟩
    -- the flag would have been set
    have h1 := h.flag (by rw [hw]; rfl) (.inl hk)
    rw [hf] at h1
    cases h1
  | blocks hw => exact ⟨h.stored, h.notified, nofun, fun _ => h.asleep (by rw [hw]; rfl)⟩
  | relocks hw => exact ⟨h.stored, h.notified, nofun, nofun⟩
  | clears hw =>
    refine ⟨h.stored, h.notified, fun hu => ?_, fun hsl => ?_⟩
    · dsimp only at hu
      split_ifs at hu <;> cases hu
    · dsimp only at hsl
      split_ifs at hsl <;> cases hsl
  | unlocks hw => exact ⟨h.stored, h.notified, nofun, nofun⟩
  | returns hw =>
    refine ⟨fun n k hn => Nat.le_succ_of_le (h.stored n k hn), fun k hk => Nat.le_succ_of_le (h.notified k hk),
      fun _ hst => ?_, nofun⟩
    -- all that has been stored was stored before
    rcases hst with hk | ⟨n, hn⟩
    · exact absurd (h.notified _ hk) (Nat.not_succ_le_self _)
    · exact absurd (h.stored n _ hn) (Nat.not_succ_le_self _)
  | wakes hw => exact ⟨h.stored, h.notified, nofun, nofun⟩
  | timesOut hw => exact ⟨h.stored, h.notified, nofun, nofun⟩
  | @notifies n anywaynotify =>
    have hpc : ∀ k, (if anywaynotify then .store else .broadcast none) ≠ NotifyPc.broadcast (some k) := fun k => by
      cases anywaynotify <;> nofun
    exact ⟨fun m k hm => h.stored m k (broadcast_of_update (hpc k) hm), h.notified,
      fun hu hst => h.flag hu (hst.imp_right fun ⟨m, hm⟩ => ⟨m, broadcast_of_update (hpc _) hm⟩), h.asleep⟩
  | @stores n hn =>
    refine ⟨fun m k hm => ?_, h.notified, fun _ _ => rfl, h.asleep⟩
    by_cases hmn : m = n
    · dsimp only at hm
      rw [hmn, Function.update_self] at hm
      cases hm
      exact Nat.le_refl _
    · exact h.stored m k ((Function.update_of_ne hmn ..).symm.trans hm)
  | @broadcasts n stored hn =>
    have hpc : ∀ k, NotifyPc.idle ≠ .broadcast (some k) := nofun
    have hmem : ∀ k ∈ stored.toList ++ s.notified, s.notifiers n = .broadcast (some k) ∨ k ∈ s.notified :=
      fun k hk => (List.mem_append.mp hk).imp_left fun hk => by rw [hn, Option.mem_toList.mp hk]
    refine ⟨fun m k hm => h.stored m k (broadcast_of_update (hpc _) hm), fun k hk => ?_, fun hu hst => ?_,
      fun hsl hk => ?_⟩
    · exact (hmem k hk).elim (h.stored n k) (h.notified k)
    · refine h.flag ((WaitPc.untested_woken s.waiter).symm.trans hu) ?_
      rcases hst with hk | ⟨m, hm⟩
      · exact (hmem _ hk).symm.imp_right fun hn => ⟨n, hn⟩
      · exact .inr ⟨m, broadcast_of_update (hpc _) hm⟩
    · have hw := WaitPc.eq_block_of_woken hsl
      rcases hmem _ hk with hn | hk
      · exact hc hw hn
      · exact h.asleep (by rw [hw]; rfl) hk

theorem step_block (hw : s.waiter = .block) :
    Condition.step s .waiter = some { s with mutex := none, waiter := .blocked } := by
  simp only [Condition.step, State.wait, hw]

/-- A step that is not in time loses the notification, once the waiter blocks. -/
theorem lost_of_not_inTime (hc : ¬ InTime s l) (hs : Effect s l s') :
    ∃ s'', Condition.step s' .waiter = some s'' ∧ Lost s'' := by
  cases hs with
  | stores hn => exact absurd (fun _ hb => by rw [hn] at hb; cases hb) hc
  | @broadcasts n stored hn =>
    obtain ⟨hw, hb⟩ := Classical.not_imp.mp hc
    cases hn.symm.trans (not_not.mp hb)
    have hblock := step_block (s := { s with
      waiter := s.waiter.woken
      notifiers := Function.update s.notifiers n .idle
      notified := s.returned :: s.notified }) (by rw [hw]; rfl)
    exact ⟨_, hblock, rfl, List.mem_cons_self⟩
  | _ => exact absurd trivial hc

end Inv

/-- **A forced notification is not lost**, in a run in which each is in time; and the first one that is not is lost,
when the waiter takes its next step. -/
theorem forced_notification [DecidableEq ι] {s : State ι} (h : Reach step InTime .create s) :
    ¬ Lost s ∧ ∀ l s', step s l = some s' → ¬ InTime s l → ∃ s'', step s' .waiter = some s'' ∧ Lost s'' := by
  have hi : Inv s := h.inv inv_create fun s l s' hi hc hs => hi.step hc (effect_of_step hs)
  exact ⟨hi.not_lost, fun l s' hs hc => lost_of_not_inTime hc (effect_of_step hs)⟩

/-- Someone notifies before the first wait, which goes on past its test. -/
def notifyFirst : List (Label ℕ) :=
  [.notifyAll 0 true, .notifier 0, .notifier 0, .wait ⟨true, true⟩, .waiter, .waiter]

theorem forced_notification_first :
    ∃ s : State ℕ, run step .create notifyFirst = some s ∧ s.returned ∈ s.notified ∧ s.waiter = .clear .ok ∧
      ¬ Lost s := by
  have hm : Meets step InTime (.create : State ℕ) notifyFirst := by
    refine meets_of_step trivial rfl (meets_of_step nofun rfl (meets_of_step nofun rfl ?_))
    exact meets_of_step trivial rfl (meets_of_step trivial rfl (meets_of_step trivial rfl trivial))
  obtain ⟨s, hs, hk, hw⟩ : ∃ s, run step (.create : State ℕ) notifyFirst = some s ∧ s.returned ∈ s.notified ∧
      s.waiter = .clear .ok := ⟨_, rfl, by decide, rfl⟩
  exact ⟨s, hs, hk, hw, (forced_notification (reach_of_run hm hs)).1⟩

/-- A wait finds the flag clear; a notification is forced; and the waiter blocks. -/
def notifyBeforeBlock : List (Label ℕ) :=
  [.wait ⟨true, true⟩, .waiter, .waiter, .notifyAll 0 true, .notifier 0, .notifier 0, .waiter]

/-- **A lost notification.** The waiter sleeps to the end of its time-out, and clears the flag. -/
theorem notified_then_blocked :
    ∃ s : State ℕ, Reach step (fun _ _ => True) .create s ∧ Lost s ∧ s.anywayNotify = 1 ∧
      ∃ s', run step s [.timeOut, .waiter, .waiter, .waiter] = some s' ∧ s'.waiter = .done .etimedout ∧
        s'.anywayNotify = 0 := by
  obtain ⟨s, hs, hl⟩ : ∃ s : State ℕ, run step .create notifyBeforeBlock = some s ∧ Lost s ∧ s.anywayNotify = 1 ∧
      ∃ s', run step s [.timeOut, .waiter, .waiter, .waiter] = some s' ∧ s'.waiter = .done .etimedout ∧
        s'.anywayNotify = 0 :=
    ⟨_, rfl, ⟨rfl, by decide⟩, rfl, _, rfl, rfl, rfl⟩
  exact ⟨s, reach_of_run (meets_of_forall fun _ _ => trivial) hs, hl⟩

/-! ### Notifications with the mutex locked -/

/-- Inside its lock the waiter has the mutex. -/
def Holds (s : State ι) : Prop := s.waiter.holds = true → s.mutex = some .waiter

section Holds

variable {s s' : State ι} {l : Label ι}

theorem holds_create : Holds (.create : State ι) := nofun

theorem Holds.inTime (h : Holds s) (hc : Locked s l) : InTime s l := by
  cases l with
  | notifier n =>
    intro hw hb
    cases (hc _ hb).symm.trans (h (by rw [hw]; rfl))
  | _ => trivial

theorem Holds.step [DecidableEq ι] (h : Holds s) (hs : Effect s l s') : Holds s' := by
  cases hs with
  | locked hm =>
    intro hw
    cases hm.symm.trans (h hw)
  | unlocked ho hm =>
    intro hw
    -- it is outside of its call, if it is the waiter that unlocks
    cases hm.symm.trans (h hw)
    rw [show s.waiter = .idle from ho] at hw
    cases hw
  | @called call hw hm =>
    intro hh
    cases ho : call.ownLock with
    | true =>
      dsimp only at hh
      rw [ho] at hh
      cases hh
    | false => exact hm.resolve_left (by rw [ho]; exact Bool.false_ne_true)
  | locks hw => exact fun _ => rfl
  | finds hw hf => exact fun _ => h (by rw [hw]; rfl)
  | fails hw hf => exact fun _ => h (by rw [hw]; rfl)
  | blocks hw => exact nofun
  | relocks hw => exact fun _ => rfl
  | clears hw => exact fun _ => h (by rw [hw]; rfl)
  | unlocks hw => exact nofun
  | returns hw => exact nofun
  | wakes hw => exact nofun
  | timesOut hw => exact nofun
  | notifies => exact h
  | stores hn => exact h
  | broadcasts hn => exact fun hw => h ((WaitPc.holds_woken s.waiter).symm.trans hw)

end Holds

/-- **A notification with the mutex locked is not lost.** -/
theorem not_lost_of_locked [DecidableEq ι] {s : State ι} (h : Reach step Locked .create s) : ¬ Lost s := by
  have hi : Inv s ∧ Holds s := by
    refine h.inv (P := fun s => Inv s ∧ Holds s) ⟨inv_create, holds_create⟩ ?_
    rintro s l s' ⟨hi, hh⟩ hc hs
    exact ⟨hi.step (hh.inTime hc) (effect_of_step hs), hh.step (effect_of_step hs)⟩
  exact hi.1.not_lost

end MTAppenderFile.Comm.Condition
