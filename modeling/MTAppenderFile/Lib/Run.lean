import Mathlib.Data.List.Basic
import Mathlib.Tactic.Common

/-! # Runs of a labelled system

A system is a partial step function `step : σ → ι → Option σ`: the label says which step is taken,
`none` that it cannot be taken (or that taking it is undefined). `run step s as` takes the steps `as`
one after the other; `Meets step C s as` says that every step of that run is taken from a state and
with a label that meet the condition `C`. `Reach step C s₀` are the states reached from `s₀` by steps
that meet `C`.

`LeadsTo step L P Q s` says that steps with labels in
`L` can be taken, in states in `P`, until `Q` holds.

A step lemma gives the run lemma by one of eight rules: `Reach.inv` (an invariant), `run_inv` (one of
the labels so far and the state), `run_total` (the same, when the step lemma also says that the step can be
taken), `run_refines` (the same as a relation to a system that can always step), `meets_or_of_run` (a
condition on the steps that is met throughout, or leaves a trace), `Reach.map` (a view of the system in
which a step is a step of another system, or none), `run_rel` (a relation between the runs of two
systems with the same labels; `run_lockstep` for one system) and `run_simulates` (a relation to a system
that answers a step with any number of steps, which show the same).

`traced step f` is the system that writes down, beside its state, what each step has shown. -/

namespace MTAppenderFile.Lib.Run

variable {σ ι : Type*} {step : σ → ι → Option σ}

/-- The run that takes the steps of the list in order. -/
def run (step : σ → ι → Option σ) : σ → List ι → Option σ
  | s, [] => some s
  | s, a :: as => (step s a).bind fun s' => run step s' as

/-- Every step of the run meets the condition. -/
def Meets (step : σ → ι → Option σ) (C : σ → ι → Prop) : σ → List ι → Prop
  | _, [] => True
  | s, a :: as => C s a ∧ ∀ s', step s a = some s' → Meets step C s' as

/-- The states reached from `s₀` by steps that meet the condition. -/
inductive Reach (step : σ → ι → Option σ) (C : σ → ι → Prop) (s₀ : σ) : σ → Prop
  | refl : Reach step C s₀ s₀
  | tail {s s' : σ} {a : ι} (h : Reach step C s₀ s) (hc : C s a) (hs : step s a = some s') :
      Reach step C s₀ s'

theorem run_cons (s : σ) (a : ι) (as : List ι) :
    run step s (a :: as) = (step s a).bind fun s' => run step s' as := rfl

theorem run_of_step {s s₁ s₂ : σ} {a : ι} {as : List ι} (h₁ : step s a = some s₁)
    (h₂ : run step s₁ as = some s₂) : run step s (a :: as) = some s₂ := by
  rw [run_cons, h₁]; exact h₂

theorem run_append : ∀ (as bs : List ι) (s : σ),
    run step s (as ++ bs) = (run step s as).bind fun s' => run step s' bs
  | [], _, _ => rfl
  | a :: as, bs, s => by
    rw [List.cons_append, run_cons, run_cons]
    cases step s a with
    | none => rfl
    | some s₁ => exact run_append as bs s₁

theorem run_trans {s s₁ s₂ : σ} {as bs : List ι} (h₁ : run step s as = some s₁)
    (h₂ : run step s₁ bs = some s₂) : run step s (as ++ bs) = some s₂ := by
  rw [run_append, h₁]; exact h₂

/-! ### Conditions on the steps -/

variable {C : σ → ι → Prop}

theorem meets_of_forall {D : ι → Prop} : ∀ {as : List ι} {s : σ}, (∀ a ∈ as, D a) →
    Meets step (fun _ => D) s as
  | [], _, _ => trivial
  | _ :: _, _, h => ⟨h _ List.mem_cons_self, fun _ _ =>
      meets_of_forall fun a ha => h a (List.mem_cons_of_mem _ ha)⟩

theorem meets_of_step {s s' : σ} {a : ι} {as : List ι} (hc : C s a) (hs : step s a = some s')
    (h : Meets step C s' as) : Meets step C s (a :: as) :=
  ⟨hc, fun s₁ hs₁ => by cases hs.symm.trans hs₁; exact h⟩

theorem Meets.and {D : σ → ι → Prop} : ∀ {as : List ι} {s : σ}, Meets step C s as →
    Meets step D s as → Meets step (fun s a => C s a ∧ D s a) s as
  | [], _, _, _ => trivial
  | _ :: _, _, hc, hd => ⟨⟨hc.1, hd.1⟩, fun s hs => (hc.2 s hs).and (hd.2 s hs)⟩

theorem meets_append : ∀ {as bs : List ι} {s s' : σ}, Meets step C s as → run step s as = some s' →
    Meets step C s' bs → Meets step C s (as ++ bs)
  | [], _, _, _, _, hr, h => by cases hr; exact h
  | a :: as, bs, s, s', hm, hr, h => by
    obtain ⟨s₁, hs, hr⟩ := Option.bind_eq_some_iff.mp hr
    exact meets_of_step hm.1 hs (meets_append (hm.2 s₁ hs) hr h)

/-- Whether a run meets a condition is decided by running it. -/
instance decidableMeets [∀ s a, Decidable (C s a)] : ∀ (as : List ι) (s : σ), Decidable (Meets step C s as)
  | [], _ => .isTrue trivial
  | a :: as, s =>
    have : Decidable (∀ s', step s a = some s' → Meets step C s' as) :=
      match step s a with
      | none => .isTrue fun _ he => nomatch he
      | some s' =>
        have := decidableMeets as s'
        decidable_of_iff (Meets step C s' as) ⟨fun hm _ he => Option.some.inj he ▸ hm, fun hm => hm s' rfl⟩
    inferInstanceAs (Decidable (_ ∧ _))

theorem Reach.mono {D : σ → ι → Prop} (hCD : ∀ s a, C s a → D s a) {s₀ s : σ}
    (h : Reach step C s₀ s) : Reach step D s₀ s := by
  induction h with
  | refl => exact .refl
  | tail _ hc hs ih => exact ih.tail (hCD _ _ hc) hs

theorem Reach.trans {s₀ s s' : σ} (h : Reach step C s₀ s) (h' : Reach step C s s') :
    Reach step C s₀ s' := by
  induction h' with
  | refl => exact h
  | tail _ hc hs ih => exact ih.tail hc hs

theorem reach_of_run : ∀ {as : List ι} {s s' : σ}, Meets step C s as → run step s as = some s' →
    Reach step C s s'
  | [], s, s', _, hr => by cases hr; exact .refl
  | a :: as, s, s', hm, hr => by
    obtain ⟨s₁, hs, hr⟩ := Option.bind_eq_some_iff.mp hr
    exact (Reach.tail .refl hm.1 hs).trans (reach_of_run (hm.2 s₁ hs) hr)

/-! ### From one step to a run -/

/-- **Invariants.** What holds at the start and is preserved by every step that meets the condition
holds in every state reached. -/
theorem Reach.inv {P : σ → Prop} {s₀ s : σ} (h : Reach step C s₀ s) (h₀ : P s₀)
    (hstep : ∀ s a s', P s → C s a → step s a = some s' → P s') : P s := by
  induction h with
  | refl => exact h₀
  | tail _ hc hs ih => exact hstep _ _ _ ih hc hs

/-- What holds at the start and is kept gives a condition throughout. -/
theorem meets_of_inv {D : σ → ι → Prop} {P : σ → Prop}
    (hP : ∀ s a s', P s → C s a → step s a = some s' → P s') (hD : ∀ s a, P s → C s a → D s a) :
    ∀ {as : List ι} {s : σ}, P s → Meets step C s as → Meets step D s as
  | [], _, _, _ => trivial
  | _ :: _, _, hp, hm => ⟨hD _ _ hp hm.1, fun s hs =>
      meets_of_inv hP hD (hP _ _ _ hp hm.1 hs) (hm.2 s hs)⟩

/-- **Two conditions that say the same of a step** from a state with an invariant, which steps that meet the
second one keep, say the same of a run. -/
theorem meets_iff_of_keeps {D E : σ → ι → Prop} {P : σ → Prop} (hDE : ∀ s a, P s → C s a → (D s a ↔ E s a))
    (hP : ∀ s a s', P s → C s a → E s a → step s a = some s' → P s') :
    ∀ {as : List ι} {s : σ}, P s → Meets step C s as → (Meets step D s as ↔ Meets step E s as)
  | [], _, _, _ => Iff.rfl
  | a :: as, s, hp, hm => by
    have hiff := hDE s a hp hm.1
    have hrest : E s a → ∀ s', step s a = some s' → (Meets step D s' as ↔ Meets step E s' as) := fun he s' hs =>
      meets_iff_of_keeps hDE hP (hP s a s' hp hm.1 he hs) (hm.2 s' hs)
    constructor
    · rintro ⟨hd, h⟩
      exact ⟨hiff.mp hd, fun s' hs => (hrest (hiff.mp hd) s' hs).mp (h s' hs)⟩
    · rintro ⟨he, h⟩
      exact ⟨hiff.mpr he, fun s' hs => (hrest he s' hs).mpr (h s' hs)⟩

/-- What holds at the start and is kept makes two conditions the same throughout. -/
theorem meets_iff_of_inv {D E : σ → ι → Prop} {P : σ → Prop}
    (hP : ∀ s a s', P s → C s a → step s a = some s' → P s') (hDE : ∀ s a, P s → C s a → (D s a ↔ E s a))
    {as : List ι} {s : σ} (hp : P s) (hm : Meets step C s as) : Meets step D s as ↔ Meets step E s as :=
  meets_iff_of_keeps hDE (fun s a s' hp hc _ => hP s a s' hp hc) hp hm

/-- **Where an invariant breaks.** If a step from a state with the invariant keeps it exactly when the step
meets `D`, then it holds after every step of a run exactly when every step meets `D`. -/
theorem meets_keeps_iff {D : σ → ι → Prop} {P : σ → Prop}
    (hstep : ∀ s a, P s → C s a → ((∀ s', step s a = some s' → P s') ↔ D s a)) {as : List ι} {s : σ} (hp : P s)
    (hm : Meets step C s as) :
    Meets step (fun s a => ∀ s', step s a = some s' → P s') s as ↔ Meets step D s as :=
  meets_iff_of_keeps hstep (fun s a s' hp hc hd => (hstep s a hp hc).mpr hd s') hp hm

/-- **Views.** If a step that meets the condition is, in the view `f`, a step of another system that meets
the condition there, or none, then the states reached are reached there. -/
theorem Reach.map {τ κ : Type*} {step' : τ → κ → Option τ} {D : τ → κ → Prop} (f : σ → τ) {P : σ → Prop}
    {s₀ s : σ} (h : Reach step C s₀ s) (h₀ : P s₀)
    (hP : ∀ s a s', P s → C s a → step s a = some s' → P s')
    (hstep : ∀ s a s', P s → C s a → step s a = some s' →
      f s' = f s ∨ ∃ b, D (f s) b ∧ step' (f s) b = some (f s')) : Reach step' D (f s₀) (f s) := by
  suffices hs : P s ∧ Reach step' D (f s₀) (f s) from hs.2
  refine h.inv (P := fun s => P s ∧ Reach step' D (f s₀) (f s)) ⟨h₀, .refl⟩ fun s a s' ih hc hs =>
    ⟨hP s a s' ih.1 hc hs, ?_⟩
  rcases hstep s a s' ih.1 hc hs with he | ⟨b, hd, hb⟩
  · rw [he]; exact ih.2
  · exact ih.2.tail hd hb

/-- **Runs that can be taken.** The step lemma also says that the step can be taken; then so can the
run. -/
theorem run_total {P : List ι → σ → Prop} {s : σ} {as : List ι} (h₀ : P [] s)
    (hstep : ∀ as s a, P as s → C s a → ∃ s', step s a = some s' ∧ P (as ++ [a]) s')
    (hm : Meets step C s as) : ∃ s', run step s as = some s' ∧ P as s' := by
  have aux : ∀ (bs pre : List ι) (s : σ), P pre s → Meets step C s bs →
      ∃ s', run step s bs = some s' ∧ P (pre ++ bs) s' := by
    intro bs
    induction bs with
    | nil => intro pre s hP _; exact ⟨s, rfl, by simpa using hP⟩
    | cons b bs ih =>
      intro pre s hP hm
      obtain ⟨s₁, hs₁, hP₁⟩ := hstep pre s b hP hm.1
      obtain ⟨s₂, hr, hP₂⟩ := ih (pre ++ [b]) s₁ hP₁ (hm.2 s₁ hs₁)
      exact ⟨s₂, run_of_step hs₁ hr, by simpa using hP₂⟩
  simpa using aux as [] s h₀ hm

/-- **Refinement.** If a step that meets the condition can be taken and goes along with a step of the system
`next`, which can always step, then so does a run. -/
theorem run_refines {τ : Type*} {next : τ → ι → τ} {R : σ → τ → Prop}
    (hstep : ∀ s t a, R s t → C s a → ∃ s', step s a = some s' ∧ R s' (next t a)) {s : σ} {t : τ} {as : List ι}
    (h₀ : R s t) (hm : Meets step C s as) : ∃ s', run step s as = some s' ∧ R s' (as.foldl next t) := by
  refine run_total (P := fun as s => R s (as.foldl next t)) h₀ (fun as s a h hc => ?_) hm
  obtain ⟨s', hs, h'⟩ := hstep _ _ _ h hc
  refine ⟨s', hs, ?_⟩
  rw [List.foldl_append]
  exact h'

/-- **Conditions that leave a trace.** If a step that breaks `D` leads to `Q`, and every step keeps `Q`,
then a run meets `D` throughout or ends in `Q`. -/
theorem meets_or_of_run {D : σ → ι → Prop} {P Q : σ → Prop}
    (hP : ∀ s a s', P s → C s a → step s a = some s' → P s')
    (hbreak : ∀ s a s', P s → C s a → ¬ D s a → step s a = some s' → Q s')
    (hQ : ∀ s a s', P s → Q s → C s a → step s a = some s' → Q s') :
    ∀ {as : List ι} {s s' : σ}, P s → Meets step C s as → run step s as = some s' →
      Meets step D s as ∨ Q s'
  | [], _, _, _, _, _ => .inl trivial
  | a :: as, s, s', hp, hm, hr => by
    obtain ⟨s₁, hs, hr⟩ := Option.bind_eq_some_iff.mp hr
    have hp₁ := hP _ _ _ hp hm.1 hs
    have hm₁ := hm.2 s₁ hs
    by_cases hd : D s a
    · refine (meets_or_of_run hP hbreak hQ hp₁ hm₁ hr).imp_left fun h => ⟨hd, fun s₂ hs₂ => ?_⟩
      cases hs.symm.trans hs₂
      exact h
    · -- the trace stays to the end of the run
      have hpq := (reach_of_run hm₁ hr).inv (P := fun s => P s ∧ Q s)
        ⟨hp₁, hbreak _ _ _ hp hm.1 hd hs⟩ fun _ _ _ h hc hs =>
          ⟨hP _ _ _ h.1 hc hs, hQ _ _ _ h.1 h.2 hc hs⟩
      exact .inr hpq.2

/-- What a step ends exactly if its label says so is there at the end of a run exactly if no label of
the run has ended it. -/
theorem run_iff_forall {Q : σ → Prop} {b : ι → Bool}
    (hstep : ∀ s a s', step s a = some s' → (Q s' ↔ Q s ∧ b a = false)) :
    ∀ {as : List ι} {s s' : σ}, run step s as = some s' → (Q s' ↔ Q s ∧ ∀ a ∈ as, b a = false)
  | [], s, s', hr => by cases hr; simp
  | a :: as, s, s', hr => by
    obtain ⟨s₁, hs, hr⟩ := Option.bind_eq_some_iff.mp hr
    rw [run_iff_forall hstep hr, hstep _ _ _ hs, List.forall_mem_cons, and_assoc]

/-- **Two systems in step.** If related states can take the same steps, as far as these meet the condition, to
related states, then they have the same runs, to related states. -/
theorem run_rel {τ : Type*} {next : τ → ι → Option τ} {R : σ → τ → Prop}
    (hstep : ∀ s t a, R s t → C s a → Option.Rel R (step s a) (next t a)) :
    ∀ (as : List ι) {s : σ} {t : τ}, R s t → Meets step C s as → Option.Rel R (run step s as) (run next t as)
  | [], _, _, h, _ => .some h
  | a :: as, s, t, h, hm => by
    have h₁ := hstep s t a h hm.1
    rw [run_cons, run_cons]
    cases hs : step s a <;> cases ht : next t a <;> rw [hs, ht] at h₁ <;> cases h₁
    · exact .none
    · exact run_rel hstep as ‹R _ _› (hm.2 _ hs)

/-- **Two runs in lockstep.** If related states can take the same steps, to related states, then they
have the same runs, to related states. -/
theorem run_lockstep {R : σ → σ → Prop}
    (hstep : ∀ s t a, R s t → Option.Rel R (step s a) (step t a)) (as : List ι) {s t : σ} (h : R s t) :
    Option.Rel R (run step s as) (run step t as) :=
  run_rel (C := fun _ _ => True) (fun s t a h _ => hstep s t a h) as h (meets_of_forall fun _ _ => trivial)

/-- **An invariant of the labels so far and the state.** -/
theorem run_inv {P : List ι → σ → Prop}
    (hstep : ∀ as s a s', P as s → C s a → step s a = some s' → P (as ++ [a]) s') {as : List ι} {s s' : σ}
    (h₀ : P [] s) (hm : Meets step C s as) (hr : run step s as = some s') : P as s' := by
  have aux : ∀ (bs pre : List ι) (s : σ), P pre s → Meets step C s bs → run step s bs = some s' →
      P (pre ++ bs) s' := by
    intro bs
    induction bs with
    | nil =>
      rintro pre s h - hr
      cases hr
      rwa [List.append_nil]
    | cons a bs ih =>
      intro pre s h hm hr
      obtain ⟨s₁, hs, hr⟩ := Option.bind_eq_some_iff.mp hr
      have hrest := ih (pre ++ [a]) s₁ (hstep pre s a s₁ h hm.1 hs) (hm.2 s₁ hs) hr
      rwa [List.append_assoc, List.singleton_append] at hrest
  exact aux as [] s h₀ hm hr

/-- **Simulation.** If a step that meets the condition is answered by steps of another system that meet theirs and
show the same, to related states, then so is a run. -/
theorem run_simulates {τ κ ο : Type*} {next : τ → κ → Option τ} {D : τ → κ → Prop} {R : σ → τ → Prop}
    {shown : ι → Option ο} {shown' : κ → Option ο}
    (hstep : ∀ s t a s', R s t → C s a → step s a = some s' → ∃ bs t', run next t bs = some t' ∧
      Meets next D t bs ∧ R s' t' ∧ bs.filterMap shown' = (shown a).toList) :
    ∀ {as : List ι} {s s' : σ} {t : τ}, R s t → Meets step C s as → run step s as = some s' →
      ∃ bs t', run next t bs = some t' ∧ Meets next D t bs ∧ R s' t' ∧
        bs.filterMap shown' = as.filterMap shown
  | [], _, _, t, h, _, hr => by cases hr; exact ⟨[], t, rfl, trivial, h, rfl⟩
  | a :: as, s, s', t, h, hm, hr => by
    obtain ⟨s₁, hs, hr⟩ := Option.bind_eq_some_iff.mp hr
    obtain ⟨bs₁, t₁, hr₁, hm₁, h₁, hshown₁⟩ := hstep s t a s₁ h hm.1 hs
    obtain ⟨bs, t', hr', hm', h', hshown⟩ := run_simulates hstep h₁ (hm.2 s₁ hs) hr
    refine ⟨bs₁ ++ bs, t', run_trans hr₁ hr', meets_append hm₁ hr₁ hm', h', ?_⟩
    rw [List.filterMap_append, hshown₁, hshown, List.filterMap_cons]
    cases shown a <;> rfl

/-! ### Traces -/

/-- A step, beside a list of what it and the steps before it have shown. -/
def traced {κ : Type*} (step : σ → ι → Option σ) (f : σ → ι → Option κ) (x : σ × List κ) (a : ι) :
    Option (σ × List κ) :=
  (step x.1 a).map fun s => (s, x.2 ++ (f x.1 a).toList)

theorem traced_eq_some {κ : Type*} {f : σ → ι → Option κ} {x x' : σ × List κ} {a : ι} :
    traced step f x a = some x' ↔ step x.1 a = some x'.1 ∧ x'.2 = x.2 ++ (f x.1 a).toList := by
  rw [traced, Option.map_eq_some_iff]
  constructor
  · rintro ⟨s, hs, rfl⟩
    exact ⟨hs, rfl⟩
  · rintro ⟨hs, h⟩
    exact ⟨x'.1, hs, by rw [← h]⟩

theorem run_traced {κ : Type*} (f : σ → ι → Option κ) : ∀ {as : List ι} {s s' : σ} (h : List κ),
    run step s as = some s' → ∃ h', run (traced step f) (s, h) as = some (s', h')
  | [], _, _, h, hr => by cases hr; exact ⟨h, rfl⟩
  | a :: as, s, s', h, hr => by
    obtain ⟨s₁, hs, hr⟩ := Option.bind_eq_some_iff.mp hr
    obtain ⟨h', hr'⟩ := run_traced f (h ++ (f s a).toList) hr
    exact ⟨h', run_of_step (traced_eq_some.mpr ⟨hs, rfl⟩) hr'⟩

theorem meets_traced {κ : Type*} (f : σ → ι → Option κ) : ∀ {as : List ι} {x : σ × List κ},
    Meets step C x.1 as → Meets (traced step f) (fun x => C x.1) x as
  | [], _, _ => trivial
  | _ :: _, _, hm => ⟨hm.1, fun x' hs => meets_traced f (hm.2 x'.1 (traced_eq_some.mp hs).1)⟩

/-! ### What steps lead to -/

/-- **Steps with labels in `L` lead through `P` to `Q`**: in a state where `Q` does not hold yet, `P` does, and
whichever of the steps is next, it can be taken. -/
inductive LeadsTo (step : σ → ι → Option σ) (L : ι → Prop) (P Q : σ → Prop) : σ → Prop
  | now {s : σ} (h : Q s) : LeadsTo step L P Q s
  | next {s : σ} (hp : P s) (hs : ∀ a, L a → (step s a).isSome = true)
      (h : ∀ a s', L a → step s a = some s' → LeadsTo step L P Q s') : LeadsTo step L P Q s

section LeadsTo

variable {L : ι → Prop} {P Q : σ → Prop} {s : σ}

/-- Any sequence of labels in `L` has a start that is a run to `Q`, through states in `P`. -/
theorem LeadsTo.exists_run (h : LeadsTo step L P Q s) : ∀ f : ℕ → ι, (∀ n, L (f n)) →
    ∃ n s', run step s ((List.range n).map f) = some s' ∧ Q s' ∧
      ∀ k < n, ∃ v, run step s ((List.range k).map f) = some v ∧ P v := by
  induction h with
  | now h => exact fun f _ => ⟨0, _, rfl, h, fun k hk => absurd hk (Nat.not_lt_zero k)⟩
  | @next s hp hs h ih =>
    intro f hf
    have hcons : ∀ k, (List.range (k + 1)).map f = f 0 :: (List.range k).map fun i => f (i + 1) := by
      intro k
      rw [List.range_succ_eq_map, List.map_cons, List.map_map]
      rfl
    obtain ⟨s₁, hs₁⟩ := Option.isSome_iff_exists.mp (hs (f 0) (hf 0))
    obtain ⟨n, s', hr, hq, hbefore⟩ := ih (f 0) s₁ (hf 0) hs₁ (fun i => f (i + 1)) fun i => hf (i + 1)
    refine ⟨n + 1, s', ?_, hq, fun k hk => ?_⟩
    · rw [hcons]
      exact run_of_step hs₁ hr
    · cases k with
      | zero => exact ⟨s, rfl, hp⟩
      | succ k =>
        obtain ⟨v, hv, hpv⟩ := hbefore k (Nat.lt_of_succ_lt_succ hk)
        refine ⟨v, ?_, hpv⟩
        rw [hcons]
        exact run_of_step hs₁ hv

end LeadsTo

end MTAppenderFile.Lib.Run
