import MTAppenderFile.Lib.Run

/-! # Systems of components

A system takes steps `(i, a)`, each of one of its components `i`. The run of the component `i` in a run of the system
takes the steps that are its own (`own i`), in the system `solo`. If a step of a component goes along with its step
in `solo`, and leaves the others alone, then a run of the system and the runs of all components come to the same
(`run_projects`): it can be taken exactly if each of them can, and its last state is related to theirs. -/

namespace MTAppenderFile.Lib.Projection

open MTAppenderFile.Lib.Run

variable {ι σ τ α : Type*} [DecidableEq ι] {step : σ → ι × α → Option σ} {solo : τ → α → Option τ}

/-- The steps of the component `i`. -/
def own (i : ι) (as : List (ι × α)) : List α := as.filterMap fun a => if a.1 = i then some a.2 else none

theorem own_cons_self (i : ι) (a : α) (as : List (ι × α)) : own i ((i, a) :: as) = a :: own i as := by
  simp [own]

theorem own_cons_of_ne {i j : ι} (h : j ≠ i) (a : α) (as : List (ι × α)) : own i ((j, a) :: as) = own i as := by
  simp [own, h]

/-- **A run of the system is a run of each component.** -/
theorem run_projects {R : ι → σ → τ → Prop} {C : σ → ι × α → Prop} {P : σ → Prop}
    (hP : ∀ s l s', P s → C s l → step s l = some s' → P s')
    (hown : ∀ i s t a, P s → C s (i, a) → R i s t → Option.Rel (R i) (step s (i, a)) (solo t a))
    (hother : ∀ i j s s' t a, j ≠ i → P s → C s (i, a) → step s (i, a) = some s' → R j s t → R j s' t) :
    ∀ (as : List (ι × α)) (s : σ) (ts : ι → τ), P s → (∀ i, R i s (ts i)) → Meets step C s as →
      (∀ s', run step s as = some s' → ∀ i, ∃ t', run solo (ts i) (own i as) = some t' ∧ R i s' t') ∧
        (run step s as = none → ∃ i, run solo (ts i) (own i as) = none)
  | [], s, ts, _, hR, _ => ⟨fun s' hr i => by cases hr; exact ⟨ts i, rfl, hR i⟩, nofun⟩
  | (i, a) :: as, s, ts, hp, hR, hm => by
    have hi := hown i s (ts i) a hp hm.1 (hR i)
    rw [run_cons]
    cases hs : step s (i, a) with
    | none =>
      rw [hs] at hi
      cases hti : solo (ts i) a with
      | none => exact ⟨nofun, fun _ => ⟨i, by rw [own_cons_self, run_cons, hti]; rfl⟩⟩
      | some t => rw [hti] at hi; cases hi
    | some s₁ =>
      rw [hs] at hi
      obtain ⟨t₁, hti, hR₁⟩ : ∃ t₁, solo (ts i) a = some t₁ ∧ R i s₁ t₁ := by
        cases hti : solo (ts i) a with
        | none => rw [hti] at hi; cases hi
        | some t => rw [hti] at hi; cases hi with | some h => exact ⟨t, rfl, h⟩
      have hRs : ∀ j, R j s₁ (Function.update ts i t₁ j) := fun j => by
        by_cases hj : j = i
        · rw [hj, Function.update_self]
          exact hR₁
        · rw [Function.update_of_ne hj]
          exact hother i j s s₁ (ts j) a hj hp hm.1 hs (hR j)
      -- the run of a component in the first step, and in the rest
      have hrun : ∀ j, run solo (ts j) (own j ((i, a) :: as)) = run solo (Function.update ts i t₁ j) (own j as) :=
        fun j => by
          by_cases hj : j = i
          · rw [hj, own_cons_self, run_cons, hti, Function.update_self]
            rfl
          · rw [own_cons_of_ne (Ne.symm hj), Function.update_of_ne hj]
      obtain ⟨hsome, hnone⟩ := run_projects hP hown hother as s₁ _ (hP s _ s₁ hp hm.1 hs) hRs (hm.2 s₁ hs)
      refine ⟨fun s' hr j => ?_, fun hr => ?_⟩
      · rw [hrun j]
        exact hsome s' hr j
      · obtain ⟨j, hj⟩ := hnone hr
        exact ⟨j, (hrun j).trans hj⟩

end MTAppenderFile.Lib.Projection
