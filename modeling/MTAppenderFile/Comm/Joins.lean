import MTAppenderFile.Comm.ThreadLife

/-! # Which threads are joined

`join` sets `isjoined` under the lock, so that `cleanup` leaves the thread to it, and reads the identifier for
`pthread_join` without the lock. If the routine ends in between and the `Thread` is started again, it reads that of
the next routine: the first thread is neither joined nor detached, and the second one is detached while it is being
joined, which the joiner may not survive (`joins_next_routine`).

As long as no `start` changes `tid` there, and there is one `join` at a time, every thread is joined once or detached
once, and a `join` joins the routine that it has found active (`joined_or_detached`). -/

namespace MTAppenderFile.Comm.Thread

open MTAppenderFile.Lib.Run

/-- A `join` is on its way that has found the routine `k` active. -/
def InProgress (s : State) (c : Tid) (k : ℕ) : Prop := s.calls c = .unlocked k ∨ ∃ t, s.calls c = .joining k t

/-- At most one `join` is in progress at a time. -/
def OneJoin (s : State) : Label → Prop
  | .join _ => ∀ c k, ¬ InProgress s c k
  | _ => True

/-- No `start` changes `tid` while a `join` is between its unlock and its read of `tid()`. -/
def KeepsTid (s : State) : Label → Prop
  | .start _ _ ret => s.ref.isended = true → (∃ c k, s.calls c = .unlocked k) → ret = .failed s.ref.tid
  | _ => True

/-- **Every thread is joined once or detached once**: it is neither while its routine is active; then it is one of
them, or a `join` on it is in progress; a `join` joins the routine that it has found active, and that thread is not
detached. -/
structure JoinedOrDetached (s : State) : Prop where
  active : ∀ n, (s.routines n).active = true → s.joins n = 0 ∧ s.detaches n = 0
  ended : ∀ n < s.created, (s.routines n).active = false → s.joins n + s.detaches n = 1 ∨
    s.joins n + s.detaches n = 0 ∧ ∃ c, InProgress s c n
  joining : ∀ c k tid, s.calls c = .joining k tid → tid = some (.routine k)
  attached : ∀ c k n, s.calls c = .joining k (some (.routine n)) → s.joins n = 0 ∧ s.detaches n = 0

/-- **The invariant** of `join`. -/
structure JoinInv (s : State) : Prop where
  tid : s.ref.isended = false → s.ref.tid = some (.routine (s.created - 1))
  joined : s.ref.isjoined = true → s.ref.isended = false ∧ ∃ c, InProgress s c (s.created - 1)
  one : ∀ c c' k k', InProgress s c k → InProgress s c' k' → c = c'
  unlocked : ∀ c k, s.calls c = .unlocked k → s.ref.tid = some (.routine k)
  joining : ∀ c k t, s.calls c = .joining k t → t = some (.routine k)
  found : ∀ c k, InProgress s c k → k < s.created
  attached : ∀ c k, InProgress s c k → s.joins k = 0 ∧ s.detaches k = 0
  kept : ∀ c k, InProgress s c k → (s.routines k).active = true → s.ref.isjoined = true
  before : ∀ n, (s.routines n).active = true ∨ s.created ≤ n → s.joins n = 0 ∧ s.detaches n = 0
  after : ∀ n < s.created, (s.routines n).active = false → s.joins n + s.detaches n = 1 ∨ ∃ c, InProgress s c n

section JoinInv

variable {s s' : State} (h : JoinInv s)

theorem inProgress_congr {c : Tid} {k : ℕ} (hc : s'.calls c = s.calls c) : InProgress s' c k ↔ InProgress s c k := by
  rw [InProgress, InProgress, hc]

theorem InProgress.unique {c : Tid} {k k' : ℕ} (h₁ : InProgress s c k) (h₂ : InProgress s c k') : k = k' := by
  rcases h₁ with h₁ | ⟨t₁, h₁⟩ <;> rcases h₂ with h₂ | ⟨t₂, h₂⟩ <;> cases h₁.symm.trans h₂ <;> rfl

theorem not_inProgress {c : Tid} {k : ℕ} (hc : s.calls c = .idle ∨ s.calls c = .delete) : ¬ InProgress s c k := by
  rintro (hu | ⟨t, hj⟩)
  · rw [hu] at hc
    rcases hc with hc | hc <;> cases hc
  · rw [hj] at hc
    rcases hc with hc | hc <;> cases hc

include h

theorem JoinInv.congr (he : s'.ref.isended = s.ref.isended) (hj : s'.ref.isjoined = s.ref.isjoined)
    (ht : s'.ref.tid = s.ref.tid) (hcr : s'.created = s.created) (hjoins : s'.joins = s.joins)
    (hdet : s'.detaches = s.detaches) (hr : ∀ n, (s'.routines n).active = (s.routines n).active)
    (hcalls : ∀ c, s'.calls c = s.calls c ∨
      (s'.calls c = .idle ∨ s'.calls c = .delete) ∧ (s.calls c = .idle ∨ s.calls c = .delete)) : JoinInv s' := by
  have hprog : ∀ c k, InProgress s' c k ↔ InProgress s c k := fun c k => by
    rcases hcalls c with hc | ⟨h₁, h₂⟩
    · exact inProgress_congr hc
    · exact iff_of_false (not_inProgress h₁) (not_inProgress h₂)
  refine ⟨?_, ?_, ?_, fun c k hu => ?_, fun c k t hu => ?_, ?_, ?_, ?_, ?_, ?_⟩
  · simpa only [he, ht, hcr] using h.tid
  · simpa only [he, hj, hcr, hprog] using h.joined
  · simpa only [hprog] using h.one
  · rcases hcalls c with hc | ⟨h₁, -⟩
    · rw [ht]
      exact h.unlocked c k (hc.symm.trans hu)
    · exact absurd (.inl hu) (not_inProgress h₁)
  · rcases hcalls c with hc | ⟨h₁, -⟩
    · exact h.joining c k t (hc.symm.trans hu)
    · exact absurd (.inr ⟨t, hu⟩) (not_inProgress h₁)
  · simpa only [hprog, hcr] using h.found
  · simpa only [hprog, hjoins, hdet] using h.attached
  · simpa only [hprog, hr, hj] using h.kept
  · simpa only [hr, hcr, hjoins, hdet] using h.before
  · simpa only [hr, hcr, hjoins, hdet, hprog] using h.after

theorem JoinInv.not_joined (he : s.ref.isended = true) : s.ref.isjoined = false :=
  eq_false_of_ne_true fun hj => Bool.false_ne_true ((h.joined hj).1.symm.trans he)

theorem JoinInv.started (hi : Inv s) (he : s.ref.isended = true) (hu : ∀ c k, s.calls c ≠ .unlocked k)
    (hj : s'.ref.isjoined = s.ref.isjoined) (ht : s'.ref.tid = some (.routine s.created))
    (hcr : s'.created = s.created + 1) (hjoins : s'.joins = s.joins)
    (hdet : s'.detaches = s.detaches) (hroutines : s'.routines = Function.update s.routines s.created .init)
    (hcalls : s'.calls = s.calls) : JoinInv s' := by
  have hprog : ∀ c k, InProgress s' c k ↔ InProgress s c k := fun c k => inProgress_congr (congrFun hcalls c)
  have hnot : s'.ref.isjoined = false := hj.trans (h.not_joined he)
  have hactive : ∀ n, (s'.routines n).active = true ↔ n = s.created := fun n => by
    rw [active_routine hroutines]
    split_ifs with hn
    · exact iff_of_true rfl hn
    · exact iff_of_false (by rw [hi.not_active he n]; exact Bool.false_ne_true) hn
  refine ⟨fun _ => ?_, fun hj' => absurd (hnot.symm.trans hj') Bool.false_ne_true, ?_, fun c k hc => ?_, ?_,
    fun c k hp => ?_, ?_, fun c k hp ha => ?_, fun n hn => ?_, fun n hn ha => ?_⟩
  · rw [ht, hcr, Nat.add_sub_cancel]
  · simpa only [hprog] using h.one
  · rw [hcalls] at hc
    exact absurd hc (hu c k)
  · rw [hcalls]
    exact h.joining
  · have hlt := h.found c k ((hprog c k).mp hp)
    omega
  · simpa only [hprog, hjoins, hdet] using h.attached
  · -- a `join` in progress has found an earlier routine
    have hlt := h.found c k ((hprog c k).mp hp)
    have hk := (hactive k).mp ha
    omega
  · rw [hjoins, hdet]
    refine h.before n (.inr ?_)
    rcases hn with ha | hn
    · exact Nat.le_of_eq ((hactive n).mp ha).symm
    · omega
  · rw [hjoins, hdet]
    have hne : n ≠ s.created := fun hne => Bool.false_ne_true (ha.symm.trans ((hactive n).mpr hne))
    simpa only [hprog] using h.after n (by omega) (hi.not_active he n)

theorem JoinInv.finds (hi : Inv s) {c : Tid} (hone : ∀ c k, ¬ InProgress s c k) (he : s.ref.isended = false)
    (he' : s'.ref.isended = s.ref.isended) (hj : s'.ref.isjoined = true)
    (ht : s'.ref.tid = s.ref.tid) (hcr : s'.created = s.created) (hjoins : s'.joins = s.joins)
    (hdet : s'.detaches = s.detaches) (hroutines : s'.routines = s.routines)
    (hcalls : s'.calls = Function.update s.calls c (.unlocked (s.created - 1))) : JoinInv s' := by
  obtain ⟨n, hn, hactive⟩ := hi.running he
  have hprog : ∀ c' k, InProgress s' c' k ↔ c' = c ∧ k = n := fun c' k => by
    by_cases hc : c' = c
    · subst hc
      rw [InProgress, hcalls, Function.update_self, hn, Nat.add_sub_cancel]
      simp [eq_comm]
    · rw [inProgress_congr (s := s) (by rw [hcalls, Function.update_of_ne hc])]
      exact iff_of_false (hone c' k) fun hcc => hc hcc.1
  have hbefore := h.before n (.inl hactive)
  refine ⟨fun _ => ?_, fun _ => ⟨he'.trans he, c, ?_⟩, fun c₁ c₂ k₁ k₂ h₁ h₂ => ?_, fun c' k hc => ?_,
    fun c' k t hc => ?_, fun c' k hp => ?_, fun c' k hp => ?_, fun _ _ _ _ => hj, ?_, fun m hm ha => ?_⟩
  · rw [ht, hcr]
    exact h.tid he
  · rw [hprog, hcr, hn]
    exact ⟨rfl, Nat.add_sub_cancel ..⟩
  · exact ((hprog c₁ k₁).mp h₁).1.trans ((hprog c₂ k₂).mp h₂).1.symm
  · obtain ⟨-, rfl⟩ := (hprog c' k).mp (.inl hc)
    have htid := h.tid he
    rw [hn, Nat.add_sub_cancel] at htid
    rw [ht, htid]
  · obtain ⟨rfl, -⟩ := (hprog c' k).mp (.inr ⟨t, hc⟩)
    rw [hcalls, Function.update_self] at hc
    cases hc
  · obtain ⟨-, rfl⟩ := (hprog c' k).mp hp
    omega
  · obtain ⟨-, rfl⟩ := (hprog c' k).mp hp
    rw [hjoins, hdet]
    exact hbefore
  · simpa only [hroutines, hcr, hjoins, hdet] using h.before
  · rw [hroutines] at ha
    rw [hjoins, hdet]
    refine .inl ((h.after m (by omega) ha).resolve_right ?_)
    rintro ⟨c', hp⟩
    exact hone c' m hp

theorem JoinInv.reads {c : Tid} {k : ℕ} (hc : s.calls c = .unlocked k) :
    JoinInv { s with calls := Function.update s.calls c (.joining k s.ref.tid) } := by
  have hprog : ∀ c' k', InProgress { s with calls := Function.update s.calls c (.joining k s.ref.tid) } c' k' ↔
      InProgress s c' k' := fun c' k' => by
    by_cases hcc : c' = c
    · subst hcc
      simp [InProgress, hc, eq_comm]
    · exact inProgress_congr (Function.update_of_ne hcc ..)
  refine ⟨h.tid, ?_, ?_, fun c' k' hu => ?_, fun c' k' t hu => ?_, ?_, ?_, ?_, h.before, ?_⟩
  · simpa only [hprog] using h.joined
  · simpa only [hprog] using h.one
  · by_cases hcc : c' = c
    · subst hcc
      have hu' : Function.update s.calls c' (.joining k s.ref.tid) c' = .unlocked k' := hu
      rw [Function.update_self] at hu'
      cases hu'
    · have hu' : Function.update s.calls c (.joining k s.ref.tid) c' = .unlocked k' := hu
      rw [Function.update_of_ne hcc] at hu'
      exact h.unlocked c' k' hu'
  · by_cases hcc : c' = c
    · subst hcc
      have hu' : Function.update s.calls c' (.joining k s.ref.tid) c' = .joining k' t := hu
      rw [Function.update_self] at hu'
      cases hu'
      exact h.unlocked c' k hc
    · have hu' : Function.update s.calls c (.joining k s.ref.tid) c' = .joining k' t := hu
      rw [Function.update_of_ne hcc] at hu'
      exact h.joining c' k' t hu'
  · simpa only [hprog] using h.found
  · simpa only [hprog] using h.attached
  · simpa only [hprog] using h.kept
  · simpa only [hprog] using h.after

theorem JoinInv.returns (hi : Inv s) {c : Tid} {k n : ℕ} (hc : s.calls c = .joining k (some (.routine n)))
    (hn : s.routines n = .ended) :
    JoinInv { s with
      calls := Function.update s.calls c .idle, joins := Function.update s.joins n (s.joins n + 1) } := by
  cases h.joining c k _ hc
  have hk : InProgress s c k := .inr ⟨_, hc⟩
  obtain ⟨hj₀, hd₀⟩ := h.attached c k hk
  have hprog : ∀ c' k', InProgress { s with
      calls := Function.update s.calls c .idle, joins := Function.update s.joins k (s.joins k + 1) } c' k' ↔
        c' ≠ c ∧ InProgress s c' k' := fun c' k' => by
    by_cases hcc : c' = c
    · subst hcc
      simp [InProgress]
    · rw [and_iff_right hcc]
      exact inProgress_congr (Function.update_of_ne hcc ..)
  -- nobody else joins
  have hnone : ∀ c' k', ¬ InProgress { s with
      calls := Function.update s.calls c .idle, joins := Function.update s.joins k (s.joins k + 1) } c' k' :=
    fun c' k' hp => ((hprog c' k').mp hp).1 (h.one c' c k' k ((hprog c' k').mp hp).2 hk)
  refine ⟨h.tid, fun hj => ?_, fun c₁ c₂ k₁ k₂ h₁ => absurd h₁ (hnone c₁ k₁), fun c' k' hu => ?_, fun c' k' t hu => ?_,
    fun c' k' hp => absurd hp (hnone c' k'), fun c' k' hp => absurd hp (hnone c' k'),
    fun c' k' hp => absurd hp (hnone c' k'), fun m hm => ?_, fun m hm ha => .inl ?_⟩
  · -- `isjoined` would be for an active routine, but this one has ended
    obtain ⟨he, c', hp⟩ := h.joined hj
    obtain ⟨m, hcr, hactive⟩ := hi.running he
    cases h.one c' c _ k hp hk
    have hkm := hk.unique hp
    rw [hcr, Nat.add_sub_cancel] at hkm
    rw [← hkm, hn] at hactive
    cases hactive
  · exact absurd (.inl hu) (hnone c' k')
  · exact absurd (.inr ⟨t, hu⟩) (hnone c' k')
  · have hmk : m ≠ k := by
      rintro rfl
      rcases hm with ha | hle
      · rw [hn] at ha
        cases ha
      · exact absurd (h.found c m hk) (Nat.not_lt.mpr hle)
    show Function.update s.joins k (s.joins k + 1) m = 0 ∧ s.detaches m = 0
    rw [Function.update_of_ne hmk]
    exact h.before m hm
  · show Function.update s.joins k (s.joins k + 1) m + s.detaches m = 1
    by_cases hmk : m = k
    · rw [hmk, Function.update_self, hj₀, hd₀]
    · rw [Function.update_of_ne hmk]
      refine (h.after m hm ha).resolve_right ?_
      rintro ⟨c', hp⟩
      cases h.one c' c m k hp hk
      exact hmk (hp.unique hk)

/-- `cleanup` detaches the thread, or leaves it to the `join` that is in progress. -/
theorem JoinInv.cleaned (hi : Inv s) {n : ℕ} (hn : (s.routines n).active = true)
    (he' : s'.ref.isended = true) (hj : s'.ref.isjoined = false) (ht : s'.ref.tid = s.ref.tid)
    (hcr : s'.created = s.created) (hjoins : s'.joins = s.joins)
    (hdet : s'.detaches = if s.ref.isjoined then s.detaches else Function.update s.detaches n (s.detaches n + 1))
    {pc : RoutinePc} (hpc : pc.active = false) (hroutines : s'.routines = Function.update s.routines n pc)
    (hcalls : s'.calls = s.calls) : JoinInv s' := by
  obtain ⟨he, hlast⟩ := hi.last n hn
  obtain ⟨hj₀, hd₀⟩ := h.before n (.inl hn)
  have hprog : ∀ c k, InProgress s' c k ↔ InProgress s c k := fun c k => inProgress_congr (congrFun hcalls c)
  have hactive : ∀ m, (s'.routines m).active = false := fun m => by
    rw [active_routine hroutines]
    split_ifs with hm
    · exact hpc
    · exact eq_false_of_ne_true fun ha => hm (hi.eq_of_active ha hn)
  -- the routine that a `join` has found is detached by nobody
  have hothers : ∀ m, m ≠ n ∨ s.ref.isjoined = true → s'.detaches m = s.detaches m := fun m hm => by
    rw [hdet]
    split_ifs with hji
    · rfl
    · exact Function.update_of_ne (hm.resolve_right hji) ..
  refine ⟨fun hf => absurd (hf.symm.trans he') Bool.false_ne_true,
    fun hf => absurd (hj.symm.trans hf) Bool.false_ne_true, ?_, ?_, ?_, ?_, fun c k hp => ?_,
    fun c k _ ha => absurd ((hactive k).symm.trans ha) Bool.false_ne_true, fun m hm => ?_, fun m hm _ => ?_⟩
  · simpa only [hprog] using h.one
  · rw [hcalls, ht]
    exact h.unlocked
  · rw [hcalls]
    exact h.joining
  · simpa only [hprog, hcr] using h.found
  · have hp' := (hprog c k).mp hp
    rw [hjoins, hothers k (or_iff_not_imp_left.mpr fun hk => h.kept c k hp' (by rw [not_not.mp hk]; exact hn))]
    exact h.attached c k hp'
  · have hle : s.created ≤ m := hcr ▸ hm.resolve_left (by rw [hactive m]; exact Bool.false_ne_true)
    rw [hjoins, hothers m (.inl (by omega))]
    exact h.before m (.inr hle)
  · rw [hjoins]
    by_cases hmn : m = n
    · subst hmn
      cases hji : s.ref.isjoined with
      | true =>
        obtain ⟨-, c, hp⟩ := h.joined hji
        rw [hlast, Nat.add_sub_cancel] at hp
        exact .inr ⟨c, (hprog c m).mpr hp⟩
      | false =>
        left
        rw [hdet, hji, if_neg Bool.false_ne_true, Function.update_self, hj₀, hd₀]
    · rw [hothers m (.inl hmn)]
      have hm' := h.after m (by omega) (eq_false_of_ne_true fun ha => hmn (hi.eq_of_active ha hn))
      simpa only [hprog] using hm'

/-- A `start` that fails leaves `tid` undefined, while no `join` is about to read it. -/
theorem JoinInv.failed (he : s.ref.isended = true) (hu : ∀ c k, s.calls c ≠ .unlocked k)
    (he' : s'.ref.isended = s.ref.isended) (hj : s'.ref.isjoined = s.ref.isjoined)
    (hcr : s'.created = s.created) (hjoins : s'.joins = s.joins) (hdet : s'.detaches = s.detaches)
    (hroutines : s'.routines = s.routines) (hcalls : s'.calls = s.calls) : JoinInv s' := by
  have hprog : ∀ c k, InProgress s' c k ↔ InProgress s c k := fun c k => inProgress_congr (congrFun hcalls c)
  refine ⟨fun hf => ?_, ?_, ?_, fun c k hc => ?_, ?_, ?_, ?_, ?_, ?_, ?_⟩
  · exact absurd ((hf.symm.trans he').trans he) Bool.false_ne_true
  · simpa only [he', hj, hcr, hprog] using h.joined
  · simpa only [hprog] using h.one
  · rw [hcalls] at hc
    exact absurd hc (hu c k)
  · rw [hcalls]
    exact h.joining
  · simpa only [hprog, hcr] using h.found
  · simpa only [hprog, hjoins, hdet] using h.attached
  · simpa only [hprog, hroutines, hj] using h.kept
  · simpa only [hroutines, hcr, hjoins, hdet] using h.before
  · simpa only [hroutines, hcr, hjoins, hdet, hprog] using h.after

end JoinInv

/-- **Every step keeps the invariant.** -/
theorem JoinInv.step {s s' : State} {l : Label} (h : JoinInv s) (hi : Inv s) (hone : OneJoin s l) (hkeep : KeepsTid s l)
    (hs : Effect s l s') : JoinInv s' := by
  cases hs with
  | @started c op ha hc he =>
    have hu : ∀ c k, s.calls c ≠ .unlocked k := fun c k hc => by cases hkeep he ⟨c, k, hc⟩
    exact h.started hi he hu rfl rfl rfl rfl rfl rfl rfl
  | @failed c op tid ha hc he =>
    have hcount := hi.count
    rw [ha, he] at hcount
    have hne : s.ref.count ≠ 0 := by rw [hcount]; decide
    rw [if_neg hne]
    by_cases hu : ∃ c k, s.calls c = .unlocked k
    · have htid := hkeep he hu
      rw [PthreadCreate.failed.injEq] at htid
      exact h.congr he.symm rfl htid rfl rfl rfl (fun _ => rfl) fun _ => .inl rfl
    · exact h.failed he (fun c k hc => hu ⟨c, k, hc⟩) he.symm rfl rfl rfl rfl rfl rfl
  | running ha hc he => exact h
  | returned ha hc => exact h
  | @found c ha hc ht he => exact h.finds hi hone he rfl rfl rfl rfl rfl rfl rfl rfl
  | readTid hc => exact h.reads hc
  | joined hc hn => exact h.returns hi hc hn
  | notFound hc ht => exact absurd (h.joining _ _ _ hc) (ht _)
  | @destroy c ha hc =>
    refine h.congr rfl rfl rfl rfl rfl rfl (fun _ => rfl) fun c' => ?_
    by_cases hcc : c' = c ∧ s.ref.count - 1 = 0
    · obtain ⟨rfl, hz⟩ := hcc
      dsimp only
      rw [if_pos hz, Function.update_self]
      exact .inr ⟨.inr rfl, .inl hc.1⟩
    · left
      dsimp only
      split_ifs with hz
      · exact Function.update_of_ne (fun he => hcc ⟨he, hz⟩) ..
      · rfl
  | @init n hn =>
    exact h.congr rfl rfl rfl rfl rfl rfl (active_of_update (p := .run) rfl (by rw [hn]; rfl)) fun _ => .inl rfl
  | @run n hn hc =>
    exact h.congr rfl rfl rfl rfl rfl rfl (active_of_update (p := .cleanup) rfl (by rw [hn]; rfl)) fun _ => .inl rfl
  | @cleanup n hn =>
    refine h.cleaned hi (n := n) (by rw [hn]; rfl) rfl rfl rfl rfl rfl rfl ?_ rfl rfl
    split_ifs <;> rfl
  | @deleteCall c hc =>
    refine h.congr rfl rfl rfl rfl rfl rfl (fun _ => rfl) fun c' => ?_
    by_cases hcc : c' = c
    · subst hcc
      exact .inr ⟨.inl (Function.update_self ..), .inr hc⟩
    · exact .inl (Function.update_of_ne hcc ..)
  | @deleteRoutine n hn =>
    exact h.congr rfl rfl rfl rfl rfl rfl (active_of_update (p := .ended) rfl (by rw [hn]; rfl)) fun _ => .inl rfl

theorem joinInv_create (target : Option ℕ) : JoinInv (.create target) := by
  have hnone : ∀ c k, ¬ InProgress (.create target) c k := fun c k => not_inProgress (.inl rfl)
  exact ⟨nofun, nofun, fun c _ k _ hp => absurd hp (hnone c k), fun c k => nofun, fun c k t => nofun,
    fun c k hp => absurd hp (hnone c k), fun c k hp => absurd hp (hnone c k), fun c k hp => absurd hp (hnone c k),
    fun n _ => ⟨rfl, rfl⟩, fun n => nofun⟩

theorem JoinInv.joinedOrDetached {s : State} (h : JoinInv s) : JoinedOrDetached s := by
  refine ⟨fun n hn => h.before n (.inl hn), fun n hn ha => ?_, h.joining, fun c k n hc => ?_⟩
  · refine (h.after n hn ha).imp_right fun ⟨c, hp⟩ => ⟨?_, c, hp⟩
    rw [(h.attached c n hp).1, (h.attached c n hp).2]
  · cases h.joining c k _ hc
    exact h.attached c k (.inr ⟨_, hc⟩)

/-- **Every started thread is joined or detached once**, as long as one `join` at a time is in progress, and no `start`
changes `tid` between its unlock and its read of `tid()`. A `join` that goes on to `pthread_join` has found the routine
active; and when that has ended, `pthread_join` returns. -/
theorem joined_or_detached (target : Option ℕ) {s : State}
    (h : Reach step (fun s l => DestroyedLast s l ∧ OneJoin s l ∧ KeepsTid s l) (.create target) s) :
    JoinedOrDetached s ∧
      (∀ c k s', step s (.join c) = some s' → s'.calls c = .unlocked k → (s.routines k).active = true) ∧
      ∀ c k tid, s.calls c = .joining k tid → s.routines k = .ended →
        ∃ s', step s (.joinReturn c) = some s' ∧ s'.joins k = 1 ∧ s'.detaches k = 0 := by
  have hinv : Inv s ∧ JoinInv s := by
    refine h.inv (P := fun s => Inv s ∧ JoinInv s) ⟨inv_create target, joinInv_create target⟩ ?_
    rintro s l s' ⟨hi, hj⟩ ⟨hl, hone, hkeep⟩ hs
    exact ⟨hi.step hl (effect_of_step hs), hj.step hi hone hkeep (effect_of_step hs)⟩
  obtain ⟨hi, hj⟩ := hinv
  refine ⟨hj.joinedOrDetached, fun c k s' hs hk => ?_, fun c k tid hc hn => ?_⟩
  · cases effect_of_step hs with
    | returned ha hc =>
      rw [hc.1] at hk
      cases hk
    | found ha hc ht he =>
      obtain ⟨n, hn, hactive⟩ := hi.running he
      have hk' : Function.update s.calls c (.unlocked (s.created - 1)) c = .unlocked k := hk
      rw [Function.update_self, hn, Nat.add_sub_cancel, CallPc.unlocked.injEq] at hk'
      rwa [← hk']
  · cases hj.joining c k tid hc
    obtain ⟨h₀, hd⟩ := hj.attached c k (.inr ⟨_, hc⟩)
    have hs : step s (.joinReturn c) = some { s with
        calls := Function.update s.calls c .idle, joins := Function.update s.joins k (s.joins k + 1) } := by
      simp only [step, hc, hn, if_true]
    exact ⟨_, hs, (Function.update_self ..).trans (by rw [h₀]), hd⟩

/-- A thread is started and joined. -/
def startAndJoin : List Label :=
  [.start (.caller 0) none .ok, .init 0, .join (.caller 1), .readTid (.caller 1), .run 0, .cleanup 0]

theorem joined_or_detached_join :
    ∃ s, run step (.create (some 0)) startAndJoin = some s ∧ JoinedOrDetached s ∧
      ∃ s', step s (.joinReturn (.caller 1)) = some s' ∧ s'.joins 0 = 1 ∧ s'.detaches 0 = 0 := by
  have hm : Meets step (fun s l => DestroyedLast s l ∧ OneJoin s l ∧ KeepsTid s l) (.create (some 0)) startAndJoin := by
    have hstart : KeepsTid (.create (some 0)) (.start (.caller 0) none .ok) := by rintro - ⟨c, k, ⟨⟩⟩
    refine meets_of_step ⟨trivial, trivial, hstart⟩ rfl (meets_of_step ⟨trivial, trivial, trivial⟩ rfl
      (meets_of_step ⟨trivial, fun c k => not_inProgress (.inl rfl), trivial⟩ rfl ?_))
    exact meets_of_step ⟨trivial, trivial, trivial⟩ rfl (meets_of_step ⟨trivial, trivial, trivial⟩ rfl
      (meets_of_step ⟨trivial, trivial, trivial⟩ rfl trivial))
  obtain ⟨s, hs, hc, hn⟩ : ∃ s, run step (.create (some 0)) startAndJoin = some s ∧
      s.calls (.caller 1) = .joining 0 (some (.routine 0)) ∧ s.routines 0 = .ended := ⟨_, rfl, rfl, rfl⟩
  obtain ⟨hjd, -, hret⟩ := joined_or_detached (some 0) (reach_of_run hm hs)
  exact ⟨s, hs, hjd, hret _ _ _ hc hn⟩

/-- A caller starts the thread, and another one joins it; the routine ends, and the thread is started again, before
the joiner reads `tid()`; and the second routine ends. -/
def restartDuringJoin : List Label :=
  [.start (.caller 0) none .ok, .init 0, .join (.caller 1), .run 0, .cleanup 0, .start (.caller 0) none .ok, .init 1,
    .readTid (.caller 1), .run 1, .cleanup 1]

/-- **A `join` joins the next routine.** It has found the routine `0`, which nobody joins or detaches; it is in the
`pthread_join` of the routine `1`, which is detached. -/
theorem joins_next_routine :
    ∃ s, Reach step (fun s l => DestroyedLast s l ∧ OneJoin s l) (.create (some 0)) s ∧
      s.calls (.caller 1) = .joining 0 (some (.routine 1)) ∧ s.detaches 1 = 1 ∧
      s.routines 0 = .ended ∧ s.joins 0 + s.detaches 0 = 0 ∧ ¬ JoinedOrDetached s ∧
      ∃ s', step s (.joinReturn (.caller 1)) = some s' ∧ s'.calls (.caller 1) = .idle ∧
        s'.joins 0 + s'.detaches 0 = 0 ∧ s'.joins 1 + s'.detaches 1 = 2 := by
  have hm : Meets step (fun s l => DestroyedLast s l ∧ OneJoin s l) (.create (some 0)) restartDuringJoin := by
    refine meets_of_step ⟨trivial, trivial⟩ rfl (meets_of_step ⟨trivial, trivial⟩ rfl
      (meets_of_step ⟨trivial, fun c k => not_inProgress (.inl rfl)⟩ rfl (meets_of_step ⟨trivial, trivial⟩ rfl
      (meets_of_step ⟨trivial, trivial⟩ rfl (meets_of_step ⟨trivial, trivial⟩ rfl ?_)))))
    exact meets_of_step ⟨trivial, trivial⟩ rfl (meets_of_step ⟨trivial, trivial⟩ rfl
      (meets_of_step ⟨trivial, trivial⟩ rfl (meets_of_step ⟨trivial, trivial⟩ rfl trivial)))
  obtain ⟨s, hs, hcalls, hdet, hn, hsum, hret⟩ : ∃ s, run step (.create (some 0)) restartDuringJoin = some s ∧
      s.calls (.caller 1) = .joining 0 (some (.routine 1)) ∧ s.detaches 1 = 1 ∧
      s.routines 0 = .ended ∧ s.joins 0 + s.detaches 0 = 0 ∧
      ∃ s', step s (.joinReturn (.caller 1)) = some s' ∧ s'.calls (.caller 1) = .idle ∧
        s'.joins 0 + s'.detaches 0 = 0 ∧ s'.joins 1 + s'.detaches 1 = 2 :=
    ⟨_, rfl, rfl, rfl, rfl, rfl, _, rfl, rfl, rfl, rfl⟩
  refine ⟨s, reach_of_run hm hs, hcalls, hdet, hn, hsum, fun hjd => ?_, hret⟩
  exact absurd (hjd.joining _ _ _ hcalls) (by decide)

end MTAppenderFile.Comm.Thread
