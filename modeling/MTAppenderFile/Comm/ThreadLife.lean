import MTAppenderFile.Lib.Run
import MTAppenderFile.Comm.Thread

/-! # The life of the reference

A `RunnableReference` lives as long as the `Thread` or one of its routines needs it (`thread_life`). Since `start`
returns while a routine is active, there is at most one, the last that was made, and `isended` says that there is
none. So the count is one for the `Thread` and one for that routine, and whoever lets it drop to zero, `~Thread` or
`cleanup`, is the last one; it has unlocked before it deletes the reference, but nobody else has it then. -/

namespace MTAppenderFile.Comm.Thread

open MTAppenderFile.Lib.Run

/-- The call or the routine is about to delete the reference. -/
def Deleting (s : State) : Tid ⊕ ℕ → Prop
  | .inl c => s.calls c = .delete
  | .inr n => s.routines n = .delete

/-- Nobody needs the reference. -/
def Unneeded (s : State) : Prop := s.alive = false ∧ s.ref.isended = true

/-- The steps that access the reference: all but the return of `pthread_join`. -/
def Accesses : Label → Prop
  | .joinReturn _ => False
  | _ => True

/-- The steps that delete the target, to replace it or with the reference. -/
def DeletesTarget (s : State) : Label → Prop
  | .start _ op _ => op.isSome = true ∧ s.ref.isended = true
  | .deleteThis _ => True
  | _ => False

/-- **The invariant** of the reference. -/
structure Inv (s : State) : Prop where
  running : s.ref.isended = false → ∃ n, s.created = n + 1 ∧ (s.routines n).active = true
  last : ∀ n, (s.routines n).active = true → s.ref.isended = false ∧ s.created = n + 1
  count : s.ref.count = s.alive.toNat + (!s.ref.isended).toNat
  unlocked : ∀ c k, s.calls c = .unlocked k → s.alive = true
  deleting : ∀ d, Deleting s d → Unneeded s ∧ s.deletes = 0
  unique : ∀ d d', Deleting s d → Deleting s d' → d = d'
  deleted : s.deletes ≠ 0 → Unneeded s ∧ s.deletes = 1
  left : Unneeded s → s.deletes = 1 ∨ ∃ d, Deleting s d

section Deleting

variable {s s' : State} {d : Tid ⊕ ℕ}

theorem deleting_call {c : Tid} {p : CallPc} (hcalls : s'.calls = Function.update s.calls c p)
    (hroutines : s'.routines = s.routines) :
    Deleting s' d ↔ d = .inl c ∧ p = .delete ∨ d ≠ .inl c ∧ Deleting s d := by
  rcases d with c' | n
  · by_cases hc : c' = c
    · subst hc
      simp [Deleting, hcalls]
    · simp [Deleting, hcalls, hc]
  · simp [Deleting, hroutines]

theorem deleting_routine {n : ℕ} {p : RoutinePc} (hroutines : s'.routines = Function.update s.routines n p)
    (hcalls : s'.calls = s.calls) :
    Deleting s' d ↔ d = .inr n ∧ p = .delete ∨ d ≠ .inr n ∧ Deleting s d := by
  rcases d with c | m
  · simp [Deleting, hcalls]
  · by_cases hm : m = n
    · subst hm
      simp [Deleting, hroutines]
    · simp [Deleting, hroutines, hm]

theorem active_routine {n m : ℕ} {p : RoutinePc} (hroutines : s'.routines = Function.update s.routines n p) :
    (s'.routines m).active = if m = n then p.active else (s.routines m).active := by
  rw [hroutines, Function.update_apply]
  split_ifs <;> rfl

theorem active_of_update {n : ℕ} {p : RoutinePc} (hroutines : s'.routines = Function.update s.routines n p)
    (hp : p.active = (s.routines n).active) (m : ℕ) : (s'.routines m).active = (s.routines m).active := by
  rw [active_routine hroutines]
  split_ifs with hm
  · rw [hm, hp]
  · rfl

end Deleting

section Inv

variable {s s' : State} (h : Inv s)

include h

theorem Inv.eq_of_active {n m : ℕ} (hn : (s.routines n).active = true) (hm : (s.routines m).active = true) : n = m := by
  have h₁ := (h.last n hn).2
  have h₂ := (h.last m hm).2
  omega

theorem Inv.not_active (he : s.ref.isended = true) (n : ℕ) : (s.routines n).active = false := by
  by_contra hn
  exact Bool.false_ne_true ((h.last n (eq_true_of_ne_false hn)).1.symm.trans he)

theorem Inv.needed (hn : ¬ Unneeded s) : s.deletes = 0 ∧ ∀ d, ¬ Deleting s d := by
  refine ⟨?_, fun d hd => hn (h.deleting d hd).1⟩
  by_contra hd
  exact hn (h.deleted hd).1

theorem Inv.needed_of_alive (ha : s.alive = true) : s.deletes = 0 ∧ ∀ d, ¬ Deleting s d :=
  h.needed fun hu => Bool.false_ne_true (hu.1.symm.trans ha)

theorem Inv.needed_of_active {n : ℕ} (hn : (s.routines n).active = true) :
    s.deletes = 0 ∧ ∀ d, ¬ Deleting s d :=
  h.needed fun hu => Bool.false_ne_true ((h.not_active hu.2 n).symm.trans hn)

theorem Inv.congr (he : s'.ref.isended = s.ref.isended) (hcr : s'.created = s.created)
    (hn : s'.ref.count = s.ref.count) (ha : s'.alive = s.alive) (hd : s'.deletes = s.deletes)
    (hr : ∀ n, (s'.routines n).active = (s.routines n).active) (hdel : ∀ d, Deleting s' d ↔ Deleting s d)
    (hu : ∀ c k, s'.calls c = .unlocked k → s.alive = true) : Inv s' := by
  have hunneeded : Unneeded s' ↔ Unneeded s := by rw [Unneeded, Unneeded, ha, he]
  refine ⟨?_, ?_, ?_, ?_, ?_, ?_, ?_, ?_⟩
  · simpa only [he, hcr, hr] using h.running
  · simpa only [he, hcr, hr] using h.last
  · rw [hn, ha, he]
    exact h.count
  · rw [ha]
    exact hu
  · simpa only [hdel, hunneeded, hd] using h.deleting
  · simpa only [hdel] using h.unique
  · simpa only [hunneeded, hd] using h.deleted
  · simpa only [hdel, hunneeded, hd] using h.left

theorem Inv.call {c : Tid} {p : CallPc} (hc : s.calls c ≠ .delete) (hp : p ≠ .delete)
    (hcalls : s'.calls = Function.update s.calls c p) (hroutines : s'.routines = s.routines)
    (he : s'.ref.isended = s.ref.isended) (hcr : s'.created = s.created)
    (hn : s'.ref.count = s.ref.count) (ha : s'.alive = s.alive) (hd : s'.deletes = s.deletes)
    (hu : ∀ k, p = .unlocked k → s.alive = true) : Inv s' := by
  refine h.congr he hcr hn ha hd (fun n => by rw [hroutines]) (fun d => ?_) fun c' k hk => ?_
  · rw [deleting_call hcalls hroutines]
    constructor
    · rintro (⟨-, rfl⟩ | ⟨-, hd⟩)
      exacts [absurd rfl hp, hd]
    · exact fun hd => .inr ⟨by rintro rfl; exact hc hd, hd⟩
  · rw [hcalls, Function.update_apply] at hk
    split_ifs at hk
    exacts [hu k hk, h.unlocked c' k hk]

theorem Inv.routine {n : ℕ} {p : RoutinePc} (hn : (s.routines n).active = true) (hp : p.active = true)
    (hroutines : s'.routines = Function.update s.routines n p) (hcalls : s'.calls = s.calls)
    (he : s'.ref.isended = s.ref.isended) (hcr : s'.created = s.created)
    (hc : s'.ref.count = s.ref.count) (ha : s'.alive = s.alive) (hd : s'.deletes = s.deletes) : Inv s' := by
  refine h.congr he hcr hc ha hd (active_of_update hroutines (hp.trans hn.symm)) (fun d => ?_)
    (by rw [hcalls]; exact h.unlocked)
  rw [deleting_routine hroutines hcalls]
  constructor
  · rintro (⟨-, rfl⟩ | ⟨-, hd⟩)
    exacts [absurd hp (by decide), hd]
  · exact fun hd => absurd hd ((h.needed_of_active hn).2 d)

theorem Inv.started (ha : s.alive = true) (he : s.ref.isended = true)
    (hroutines : s'.routines = Function.update s.routines s.created .init) (hcalls : s'.calls = s.calls)
    (he' : s'.ref.isended = false) (hcr : s'.created = s.created + 1)
    (hc : s'.ref.count = s.ref.count + 1) (ha' : s'.alive = s.alive) (hd : s'.deletes = s.deletes) : Inv s' := by
  obtain ⟨hdl, hdel⟩ := h.needed_of_alive ha
  have hcount := h.count
  rw [ha, he] at hcount
  have hdel' : ∀ d, ¬ Deleting s' d := fun d hdd => by
    rcases (deleting_routine hroutines hcalls).mp hdd with ⟨-, hi⟩ | ⟨-, hdd⟩
    exacts [absurd hi (by decide), hdel d hdd]
  have hactive : ∀ n, (s'.routines n).active = true ↔ n = s.created := fun n => by
    rw [active_routine hroutines]
    split_ifs with hn
    · exact iff_of_true rfl hn
    · exact iff_of_false (by rw [h.not_active he n]; exact Bool.false_ne_true) hn
  refine ⟨fun _ => ⟨s.created, hcr, (hactive _).mpr rfl⟩, fun n hn => ⟨he', ?_⟩, ?_, ?_,
    fun d hdd => absurd hdd (hdel' d), fun d _ hdd => absurd hdd (hdel' d), fun hn => absurd (hd.trans hdl) hn,
    fun hu => ?_⟩
  · rw [hcr, (hactive n).mp hn]
  · rw [hc, hcount, ha', ha, he']
    rfl
  · rw [hcalls, ha']
    exact h.unlocked
  · exact absurd ((ha'.symm.trans hu.1).symm.trans ha) Bool.false_ne_true

/-- `cleanup` of the active routine: it deletes the reference if the `Thread` is gone. -/
theorem Inv.cleaned {n : ℕ} (hn : (s.routines n).active = true)
    (hroutines : s'.routines = Function.update s.routines n (if s.ref.count - 1 = 0 then .delete else .ended))
    (hcalls : s'.calls = s.calls) (he' : s'.ref.isended = true)
    (hc : s'.ref.count = s.ref.count - 1) (ha : s'.alive = s.alive) (hd : s'.deletes = s.deletes) : Inv s' := by
  obtain ⟨hdl, hdel⟩ := h.needed_of_active hn
  obtain ⟨he, -⟩ := h.last n hn
  have hcount := h.count
  rw [he, Bool.not_false, Bool.toNat_true] at hcount
  have hzero : s.ref.count - 1 = 0 ↔ s.alive = false := by
    rw [hcount, Nat.add_sub_cancel, Bool.toNat_eq_zero]
  have hdel' : ∀ d, Deleting s' d ↔ d = .inr n ∧ s.alive = false := fun d => by
    rw [deleting_routine hroutines hcalls, ← hzero]
    constructor
    · rintro (⟨rfl, hp⟩ | ⟨-, hdd⟩)
      · exact ⟨rfl, by by_contra hne; rw [if_neg hne] at hp; cases hp⟩
      · exact absurd hdd (hdel d)
    · rintro ⟨rfl, hz⟩
      exact .inl ⟨rfl, if_pos hz⟩
  have hactive : ∀ m, (s'.routines m).active = false := fun m => by
    rw [active_routine hroutines]
    split_ifs with hm hz
    · rfl
    · rfl
    · by_contra hne
      exact hm (h.eq_of_active (eq_true_of_ne_false hne) hn)
  have hunneeded : Unneeded s' ↔ s.alive = false := by rw [Unneeded, ha, he', and_iff_left rfl]
  refine ⟨fun hf => absurd (hf.symm.trans he') Bool.false_ne_true, fun m hm => ?_, ?_, ?_, fun d hdd => ?_,
    fun d d' hdd hdd' => ?_, fun hne => absurd (hd.trans hdl) hne, fun hu => ?_⟩
  · exact absurd ((hactive m).symm.trans hm) Bool.false_ne_true
  · rw [hc, hcount, Nat.add_sub_cancel, ha, he']
    rfl
  · rw [hcalls, ha]
    exact h.unlocked
  · exact ⟨hunneeded.mpr ((hdel' d).mp hdd).2, hd.trans hdl⟩
  · exact ((hdel' d).mp hdd).1.trans ((hdel' d').mp hdd').1.symm
  · exact .inr ⟨.inr n, (hdel' _).mpr ⟨rfl, hunneeded.mp hu⟩⟩

/-- `~Thread`: it deletes the reference if no routine is active. -/
theorem Inv.destroyed {c : Tid} (ha : s.alive = true) (hidle : ∀ t, s.calls t = .idle)
    (hcalls : s'.calls = if s.ref.count - 1 = 0 then Function.update s.calls c .delete else s.calls)
    (hroutines : s'.routines = s.routines) (he : s'.ref.isended = s.ref.isended) (hcr : s'.created = s.created)
    (hc : s'.ref.count = s.ref.count - 1) (ha' : s'.alive = false) (hd : s'.deletes = s.deletes) : Inv s' := by
  obtain ⟨hdl, hdel⟩ := h.needed_of_alive ha
  have hcount := h.count
  rw [ha, Bool.toNat_true] at hcount
  have hzero : s.ref.count - 1 = 0 ↔ s.ref.isended = true := by
    rw [hcount, Nat.add_sub_cancel_left, Bool.toNat_eq_zero, Bool.not_eq_false']
  have hdel' : ∀ d, Deleting s' d ↔ d = .inl c ∧ s.ref.isended = true := fun d => by
    rw [← hzero]
    by_cases hz : s.ref.count - 1 = 0
    · rw [if_pos hz] at hcalls
      rw [deleting_call hcalls hroutines]
      simp [hdel, hz]
    · rw [if_neg hz] at hcalls
      refine iff_of_false (fun hdd => hdel d ?_) fun hdd => hz hdd.2
      cases d with
      | inl c' => exact (congrFun hcalls c').symm.trans hdd
      | inr n => exact (congrFun hroutines n).symm.trans hdd
  have hunneeded : Unneeded s' ↔ s.ref.isended = true := by rw [Unneeded, ha', he, and_iff_right rfl]
  refine ⟨?_, ?_, ?_, fun c' k hk => ?_, fun d hdd => ?_, fun d d' hdd hdd' => ?_,
    fun hne => absurd (hd.trans hdl) hne, fun hu => ?_⟩
  · rw [he, hcr, hroutines]
    exact h.running
  · rw [he, hcr, hroutines]
    exact h.last
  · rw [hc, hcount, Nat.add_sub_cancel_left, ha', he, Bool.toNat_false, Nat.zero_add]
  · rw [hcalls] at hk
    split_ifs at hk
    · rw [Function.update_apply, hidle] at hk
      split_ifs at hk
    · rw [hidle] at hk
      cases hk
  · exact ⟨hunneeded.mpr ((hdel' d).mp hdd).2, hd.trans hdl⟩
  · exact ((hdel' d).mp hdd).1.trans ((hdel' d').mp hdd').1.symm
  · exact .inr ⟨.inl c, (hdel' _).mpr ⟨rfl, hunneeded.mp hu⟩⟩

theorem Inv.deletes {d : Tid ⊕ ℕ} (hdd : Deleting s d) (hdel : ∀ d', Deleting s' d' → d' ≠ d ∧ Deleting s d')
    (hr : ∀ n, (s'.routines n).active = (s.routines n).active)
    (hu : ∀ c k, s'.calls c = .unlocked k → s.calls c = .unlocked k)
    (he : s'.ref.isended = s.ref.isended) (hcr : s'.created = s.created)
    (hc : s'.ref.count = s.ref.count) (ha : s'.alive = s.alive) (hd : s'.deletes = s.deletes + 1) : Inv s' := by
  obtain ⟨⟨hga, hge⟩, hz⟩ := h.deleting d hdd
  have hdel' : ∀ d', ¬ Deleting s' d' := fun d' hd' => (hdel d' hd').1 (h.unique d' d (hdel d' hd').2 hdd)
  have hone : s'.deletes = 1 := by rw [hd, hz]
  refine ⟨?_, ?_, ?_, ?_, fun d' hd' => absurd hd' (hdel' d'), fun d' _ hd' => absurd hd' (hdel' d'),
    fun _ => ⟨⟨ha.trans hga, he.trans hge⟩, hone⟩, fun _ => .inl hone⟩
  · simpa only [he, hcr, hr] using h.running
  · simpa only [he, hcr, hr] using h.last
  · rw [hc, ha, he]
    exact h.count
  · rw [ha]
    exact fun c k hk => h.unlocked c k (hu c k hk)

end Inv

/-- **Every step keeps the invariant.** -/
theorem Inv.step {s s' : State} {l : Label} (h : Inv s) (hl : DestroyedLast s l) (hs : Effect s l s') : Inv s' := by
  cases hs with
  | started ha hc he => exact h.started ha he rfl rfl rfl rfl rfl rfl rfl
  | failed ha hc he =>
    have hcount := h.count
    rw [ha, he] at hcount
    have hne : s.ref.count ≠ 0 := by rw [hcount]; decide
    rw [if_neg hne]
    exact h.congr he.symm rfl rfl rfl rfl (fun _ => rfl) (fun _ => Iff.rfl) h.unlocked
  | running ha hc he => exact h
  | returned ha hc => exact h
  | @found c ha hc ht he =>
    refine h.call (c := c) (p := .unlocked (s.created - 1)) ?_ nofun rfl rfl rfl rfl rfl rfl rfl fun _ _ => ha
    rw [hc.1]
    nofun
  | @readTid c k hc =>
    refine h.call (c := c) (p := .joining k s.ref.tid) ?_ nofun rfl rfl rfl rfl rfl rfl rfl nofun
    rw [hc]
    nofun
  | @joined c k n hc hn =>
    refine h.call (c := c) (p := .idle) ?_ nofun rfl rfl rfl rfl rfl rfl rfl nofun
    rw [hc]
    nofun
  | @notFound c k tid hc ht =>
    refine h.call (c := c) (p := .idle) ?_ nofun rfl rfl rfl rfl rfl rfl rfl nofun
    rw [hc]
    nofun
  | destroy ha hc => exact h.destroyed ha hl rfl rfl rfl rfl rfl rfl rfl
  | @init n hn => exact h.routine (n := n) (p := .run) (by rw [hn]; rfl) rfl rfl rfl rfl rfl rfl rfl rfl
  | @run n hn hc => exact h.routine (n := n) (p := .cleanup) (by rw [hn]; rfl) rfl rfl rfl rfl rfl rfl rfl rfl
  | @cleanup n hn => exact h.cleaned (n := n) (by rw [hn]; rfl) rfl rfl rfl rfl rfl rfl
  | @deleteCall c hc =>
    refine h.deletes (d := .inl c) hc (fun d hd => ?_) (fun _ => rfl) (fun c' k hk => ?_) rfl rfl rfl rfl rfl
    · rcases (deleting_call (s := s) (c := c) (p := .idle) (by rfl) (by rfl)).mp hd with ⟨-, hi⟩ | hd
      exacts [absurd hi (by decide), hd]
    · have hk' : Function.update s.calls c .idle c' = .unlocked k := hk
      rw [Function.update_apply] at hk'
      split_ifs at hk'
      exact hk'
  | @deleteRoutine n hn =>
    refine h.deletes (d := .inr n) hn (fun d hd => ?_) (active_of_update rfl (by rw [hn]; rfl)) (fun c k hk => hk)
      rfl rfl rfl rfl rfl
    rcases (deleting_routine (s := s) (n := n) (p := .ended) (by rfl) (by rfl)).mp hd with ⟨-, hi⟩ | hd
    exacts [absurd hi (by decide), hd]

theorem inv_create (target : Option ℕ) : Inv (.create target) := by
  refine ⟨nofun, fun n => nofun, rfl, fun c k => nofun, fun d hd => ?_, fun d _ hd => ?_, fun hd => absurd rfl hd,
    fun hu => absurd hu.1.symm Bool.false_ne_true⟩
  · cases d <;> cases hd
  · cases d <;> cases hd

theorem Inv.countP {s : State} (h : Inv s) :
    (List.range s.created).countP (fun n => (s.routines n).active) = (!s.ref.isended).toNat := by
  cases he : s.ref.isended with
  | true =>
    rw [Bool.not_true, Bool.toNat_false, List.countP_eq_zero]
    exact fun n _ => by rw [h.not_active he n]; exact Bool.false_ne_true
  | false =>
    obtain ⟨n, hcr, hn⟩ := h.running he
    have hothers : (List.range n).countP (fun n => (s.routines n).active) = 0 := by
      rw [List.countP_eq_zero]
      intro m hm hactive
      have hlt := List.mem_range.mp hm
      have heq := h.eq_of_active hactive hn
      omega
    rw [hcr, List.range_succ, List.countP_append, hothers, List.countP_singleton, if_pos hn]
    rfl

theorem Inv.accesses {s s' : State} {l : Label} (h : Inv s) (hs : Effect s l s') (hl : Accesses l) : s.deletes = 0 := by
  cases hs with
  | started ha | failed ha | running ha | returned ha | found ha | destroy ha => exact (h.needed_of_alive ha).1
  | readTid hc => exact (h.needed_of_alive (h.unlocked _ _ hc)).1
  | joined | notFound => exact hl.elim
  | init hn | run hn | cleanup hn => exact (h.needed_of_active (by rw [hn]; rfl)).1
  | @deleteCall c hc => exact (h.deleting (.inl c) hc).2
  | @deleteRoutine n hn => exact (h.deleting (.inr n) hn).2

theorem Inv.target {s s' : State} {l : Label} (h : Inv s) (hs : Effect s l s')
    (hl : DeletesTarget s l ∨ s'.ref.target ≠ s.ref.target) (n : ℕ) : (s.routines n).active = false := by
  cases hs with
  | started _ _ he | failed _ _ he => exact h.not_active he n
  | running _ _ he => exact hl.elim (fun hd => absurd (he.symm.trans hd.2) Bool.false_ne_true) (absurd rfl)
  | @deleteCall c hc => exact h.not_active (h.deleting (.inl c) hc).1.2 n
  | @deleteRoutine m hm => exact h.not_active (h.deleting (.inr m) hm).1.2 n
  | _ => exact hl.elim False.elim (absurd rfl)

/-- **The life of a `Thread` and its reference.** There is at most one active routine, and the count is one for the
`Thread` and one for the active routine. The reference is deleted, or about to be, by one thread that can always go
on to it, exactly when the `Thread` is destroyed and no routine is left; it is deleted once, and not accessed
afterwards; and the target is replaced or deleted only while no routine is active. -/
theorem thread_life (target : Option ℕ) {s : State} (h : Reach step DestroyedLast (.create target) s) :
    (∀ n m, (s.routines n).active = true → (s.routines m).active = true → n = m) ∧
      s.ref.count = s.alive.toNat + (List.range s.created).countP (fun n => (s.routines n).active) ∧
      s.deletes ≤ 1 ∧
      (s.deletes = 1 ∨ (∃ d, Deleting s d) ↔ s.alive = false ∧ ∀ n, (s.routines n).active = false) ∧
      (∀ d, Deleting s d → s.deletes = 0 ∧ (∀ d', Deleting s d' → d' = d) ∧
        ∃ s', step s (.deleteThis d) = some s' ∧ s'.deletes = 1) ∧
      ∀ l s', step s l = some s' → (Accesses l → s.deletes = 0) ∧
        (DeletesTarget s l ∨ s'.ref.target ≠ s.ref.target → ∀ n, (s.routines n).active = false) := by
  have hinv : Inv s := h.inv (inv_create target) fun _ _ _ hi hl hs => hi.step hl (effect_of_step hs)
  refine ⟨fun n m => hinv.eq_of_active, by rw [hinv.countP]; exact hinv.count, ?_, ?_, fun d hd => ?_,
    fun l s' hs => ⟨hinv.accesses (effect_of_step hs), hinv.target (effect_of_step hs)⟩⟩
  · by_contra hlt
    have hone := (hinv.deleted (by omega)).2
    omega
  · constructor
    · rintro (hd | ⟨d, hd⟩)
      · have hu := (hinv.deleted (by omega)).1
        exact ⟨hu.1, hinv.not_active hu.2⟩
      · have hu := (hinv.deleting d hd).1
        exact ⟨hu.1, hinv.not_active hu.2⟩
    · rintro ⟨ha, hn⟩
      refine hinv.left ⟨ha, eq_true_of_ne_false fun he => ?_⟩
      obtain ⟨n, -, hactive⟩ := hinv.running he
      exact Bool.false_ne_true ((hn n).symm.trans hactive)
  · have hz := (hinv.deleting d hd).2
    refine ⟨hz, fun d' hd' => hinv.unique d' d hd' hd, ?_⟩
    cases d with
    | inl c => exact ⟨_, if_pos hd, congrArg (· + 1) hz⟩
    | inr n => exact ⟨_, if_pos hd, congrArg (· + 1) hz⟩

/-- A routine that ends after the `Thread` is destroyed. -/
theorem thread_life_destroy :
    ∃ s, run step (.create (some 0)) [.start (.caller 0) none .ok, .init 0, .destroy (.caller 0), .run 0, .cleanup 0] =
        some s ∧ Deleting s (.inr 0) ∧ s.deletes = 0 ∧
      ∃ s', step s (.deleteThis (.inr 0)) = some s' ∧ s'.deletes = 1 := by
  have hm : Meets step DestroyedLast (.create (some 0))
      [.start (.caller 0) none .ok, .init 0, .destroy (.caller 0), .run 0, .cleanup 0] :=
    meets_of_step trivial rfl (meets_of_step trivial rfl (meets_of_step (fun _ => rfl) rfl
      (meets_of_step trivial rfl (meets_of_step trivial rfl trivial))))
  obtain ⟨s, hs, hd⟩ : ∃ s, run step (.create (some 0))
      [.start (.caller 0) none .ok, .init 0, .destroy (.caller 0), .run 0, .cleanup 0] = some s ∧
        Deleting s (.inr 0) := ⟨_, rfl, rfl⟩
  obtain ⟨-, -, -, -, hdel, -⟩ := thread_life (some 0) (reach_of_run hm hs)
  exact ⟨s, hs, hd, (hdel _ hd).1, (hdel _ hd).2.2⟩

end MTAppenderFile.Comm.Thread
