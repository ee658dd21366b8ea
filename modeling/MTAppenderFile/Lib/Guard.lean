import Mathlib.Logic.Function.Basic
import MTAppenderFile.Lib.Run

/-! # A guard that is tested and set in two steps

Any number of parties `ι` want to do something that is to be done once. Each of them tests a flag (`pass`: it
finds the flag down), sets it (`raise`) and later does what it is here for (`act`); a party that finds the
flag up does not come in. The test and the set are two steps, so two parties can both pass.

As long as no party passes while another one is between its test and its set (`Alone`), it is done at most
once, and it is still to be done as long as somebody is inside (`Once`). -/

namespace MTAppenderFile.Lib.Guard

open MTAppenderFile.Lib.Run

variable {ι : Type*}

/-- Where a party is: outside, between the test and the set, or behind the set and not done. -/
inductive Place
  | out
  | checked
  | inside
  deriving DecidableEq

/-- The places of the parties, the flag, and how often it was done. -/
@[ext] structure State (ι : Type*) where
  place : ι → Place
  flag : Bool
  count : ℕ

/-- A step of a party. -/
inductive Move
  | pass
  | raise
  | act

/-- **The condition**: nobody passes the test while somebody is on the way to the set. -/
def Alone (s : State ι) : ι × Move → Prop
  | (_, .pass) => ∀ j, s.place j ≠ .checked
  | _ => True

/-- **It is done once**, by the one party that is not outside. -/
structure Once (s : State ι) : Prop where
  single : ∀ i j, s.place i ≠ .out → s.place j ≠ .out → i = j
  down : s.flag = false → s.count = 0 ∧ ∀ i, s.place i ≠ .inside
  up : s.flag = true → ∀ i, s.place i ≠ .checked
  todo : ∀ i, s.place i = .inside → s.count = 0
  le_one : s.count ≤ 1
  done : s.flag = true → s.count = 0 → ∃ i, s.place i = .inside

theorem once_init {place : ι → Place} (h : ∀ i, place i = .out) : Once ⟨place, false, 0⟩ := by
  refine ⟨fun i _ hi => absurd (h i) hi, fun _ => ⟨rfl, fun i hi => ?_⟩, fun hf => ?_, fun _ _ => rfl,
    Nat.zero_le 1, fun hf => ?_⟩
  · cases (h i).symm.trans hi
  · cases hf
  · cases hf

variable [DecidableEq ι]

/-- One step. -/
def step (s : State ι) : ι × Move → Option (State ι)
  | (i, .pass) =>
    if s.place i = .out ∧ s.flag = false then some { s with place := Function.update s.place i .checked }
    else none
  | (i, .raise) =>
    if s.place i = .checked then some { s with place := Function.update s.place i .inside, flag := true }
    else none
  | (i, .act) =>
    if s.place i = .inside then
      some { s with place := Function.update s.place i .out, count := s.count + 1 }
    else none

theorem place_cases {s : State ι} {i j : ι} {p : Place} :
    Function.update s.place i p j = if j = i then p else s.place j := Function.update_apply ..

theorem Once.step {s s' : State ι} (h : Once s) {a : ι × Move} (hc : Alone s a)
    (hs : step s a = some s') : Once s' := by
  obtain ⟨i, m⟩ := a
  cases m with
  | pass =>
    rw [Guard.step] at hs
    split_ifs at hs with hg
    cases hs
    obtain ⟨hout, hflag⟩ := hg
    obtain ⟨hcount, hin⟩ := h.down hflag
    -- all the others are outside
    have hothers : ∀ j, j ≠ i → s.place j = .out := fun j _ => by
      cases hj : s.place j with
      | out => rfl
      | checked => exact absurd hj (hc j)
      | inside => exact absurd hj (hin j)
    refine ⟨fun j k hj hk => ?_, fun _ => ⟨hcount, fun j hj => ?_⟩, fun hf => ?_, fun _ _ => hcount,
      h.le_one, fun hf => ?_⟩
    · have hi : ∀ j, Function.update s.place i .checked j ≠ .out → j = i := fun j hj => by
        by_contra hne
        rw [place_cases, if_neg hne] at hj
        exact hj (hothers j hne)
      rw [hi j hj, hi k hk]
    · dsimp only at hj
      rw [place_cases] at hj
      split_ifs at hj
      exact hin j hj
    · cases hflag.symm.trans hf
    · cases hflag.symm.trans hf
  | raise =>
    rw [Guard.step] at hs
    split_ifs at hs with hg
    cases hs
    have hflag : s.flag = false := by
      by_contra hf
      exact h.up (by simpa using hf) i hg
    have hi : ∀ j, s.place j ≠ .out → j = i := fun j hj => h.single j i hj (by rw [hg]; decide)
    have hcount := (h.down hflag).1
    refine ⟨fun j k hj hk => ?_, fun hf => (by cases hf), fun _ j hj => ?_, fun _ _ => hcount,
      h.le_one, fun _ _ => ⟨i, Function.update_self ..⟩⟩
    · have hi' : ∀ j, Function.update s.place i .inside j ≠ .out → j = i := fun j hj => by
        by_contra hne
        rw [place_cases, if_neg hne] at hj
        exact hne (hi j hj)
      rw [hi' j hj, hi' k hk]
    · dsimp only at hj
      rw [place_cases] at hj
      split_ifs at hj with hji
      exact hji (hi j (by rw [hj]; decide))
  | act =>
    rw [Guard.step] at hs
    split_ifs at hs with hg
    cases hs
    have hcount := h.todo i hg
    have hi : ∀ j, s.place j ≠ .out → j = i := fun j hj => h.single j i hj (by rw [hg]; decide)
    -- nobody is left
    have hall : ∀ j, Function.update s.place i .out j = .out := fun j => by
      rw [place_cases]
      split_ifs with hji
      · rfl
      · by_contra hj
        exact hji (hi j hj)
    have hflag : s.flag = true := by
      by_contra hf
      exact (h.down (by simpa using hf)).2 i hg
    refine ⟨fun j _ hj => absurd (hall j) hj, fun hf => ?_, fun _ j hj => ?_, fun j hj => ?_, ?_,
      fun _ hz => absurd hz (Nat.succ_ne_zero _)⟩
    · cases hflag.symm.trans hf
    · cases (hall j).symm.trans hj
    · cases (hall j).symm.trans hj
    · show s.count + 1 ≤ 1
      omega

/-- **In every run that meets the condition** it is done at most once. -/
theorem once_of_reach {s₀ s : State ι} (h₀ : Once s₀) (h : Reach step Alone s₀ s) : Once s :=
  h.inv h₀ fun _ _ _ ho hc hs => ho.step hc hs

end MTAppenderFile.Lib.Guard
