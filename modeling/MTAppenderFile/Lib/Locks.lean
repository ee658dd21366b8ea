import Mathlib.Data.List.Basic
import Mathlib.Logic.Relation

/-! # Locks that are taken in order

Threads `θ` take and release locks `κ`. `Holds owner held` relates the two sides of it: `owner l` is the thread
that has the lock `l`, `held t` are the locks of the thread `t`, the last one first. It is kept when a thread
takes a free lock (`Holds.lock`) and when it releases its last one (`Holds.unlock`).

A thread waits for another one that has the lock it wants, or to join it (`Waits`). If every lock that a
thread wants ranks above all those it has, and a thread that joins another one has no lock, and the other one
joins nobody (`Ordered`), then no thread waits for itself, in however many steps (`Ordered.no_cycle`). -/

namespace MTAppenderFile.Lib.Locks

variable {θ κ : Type*}

section Holds

/-- The owner of a lock is the thread that has it. -/
def Holds (owner : κ → Option θ) (held : θ → List κ) : Prop := ∀ l t, owner l = some t ↔ l ∈ held t

variable {owner : κ → Option θ} {held held' : θ → List κ} {t u : θ} {l : κ}

theorem Holds.congr (h : Holds owner held) (hh : ∀ t, held' t = held t) : Holds owner held' := fun l t => by
  rw [hh, h l t]

theorem Holds.unique (h : Holds owner held) (ht : l ∈ held t) (hu : l ∈ held u) : t = u :=
  Option.some_inj.mp (((h l t).mpr ht).symm.trans ((h l u).mpr hu))

theorem Holds.not_mem (h : Holds owner held) (hl : owner l = none) : l ∉ held t := fun hm => by
  cases hl.symm.trans ((h l t).mpr hm)

variable [DecidableEq κ]

theorem Holds.lock (h : Holds owner held) (hl : owner l = none) (ht : held' t = l :: held t)
    (hothers : ∀ u, u ≠ t → held' u = held u) : Holds (Function.update owner l (some t)) held' := by
  intro l' u
  by_cases hll : l' = l
  · subst hll
    rw [Function.update_self, Option.some_inj]
    constructor
    · rintro rfl
      rw [ht]; exact List.mem_cons_self
    · intro hm
      by_contra hu
      rw [hothers u fun e => hu e.symm] at hm
      exact h.not_mem hl hm
  · rw [Function.update_of_ne hll, h l' u]
    by_cases hu : u = t
    · subst hu
      rw [ht, List.mem_cons]
      exact (or_iff_right hll).symm
    · rw [hothers u hu]

theorem Holds.unlock (h : Holds owner held) (ht : held t = l :: held' t) (hl : l ∉ held' t)
    (hothers : ∀ u, u ≠ t → held' u = held u) : Holds (Function.update owner l none) held' := by
  intro l' u
  by_cases hll : l' = l
  · subst hll
    rw [Function.update_self]
    refine iff_of_false (by rintro ⟨⟩) fun hm => ?_
    by_cases hu : u = t
    · subst hu; exact hl hm
    · rw [hothers u hu] at hm
      exact hu (h.unique hm (by rw [ht]; exact List.mem_cons_self))
  · rw [Function.update_of_ne hll, h l' u]
    by_cases hu : u = t
    · subst hu
      rw [ht, List.mem_cons]
      exact or_iff_right hll
    · rw [hothers u hu]

end Holds

section Waiting

variable {owner : κ → Option θ} {held : θ → List κ} {wants : θ → Option κ} {joins : θ → Option θ}
  {rank : κ → ℕ} {t u : θ}

/-- A thread waits for another one: for a lock that it has, or for its end. -/
inductive Waits (owner : κ → Option θ) (wants : θ → Option κ) (joins : θ → Option θ) : θ → θ → Prop
  | lock {t u : θ} {l : κ} (h : wants t = some l) (hu : owner l = some u) : Waits owner wants joins t u
  | join {t u : θ} (h : joins t = some u) : Waits owner wants joins t u

/-- **Locks are taken in the order of their ranks**, and threads are joined by threads without locks. -/
structure Ordered (owner : κ → Option θ) (held : θ → List κ) (wants : θ → Option κ)
    (joins : θ → Option θ) (rank : κ → ℕ) : Prop where
  holds : Holds owner held
  above : ∀ {t l}, wants t = some l → ∀ l' ∈ held t, rank l' < rank l
  bare : ∀ {t u}, joins t = some u → held t = [] ∧ wants t = none
  ends : ∀ {t u}, joins t = some u → joins u = none

theorem Ordered.not_owner (h : Ordered owner held wants joins rank) {l : κ} (hl : wants t = some l) :
    owner l ≠ some t := fun ho =>
  Nat.lt_irrefl _ (h.above hl l ((h.holds l t).mp ho))

/-- On the way from a thread that wants a lock, every thread has a lock of at least its rank. -/
theorem Ordered.exists_held (h : Ordered owner held wants joins rank) {l : κ} (hl : wants t = some l)
    (hw : Relation.TransGen (Waits owner wants joins) t u) : ∃ l' ∈ held u, rank l ≤ rank l' := by
  induction hw with
  | single hw =>
    cases hw with
    | lock hl' hu =>
      cases hl.symm.trans hl'
      exact ⟨l, (h.holds l _).mp hu, Nat.le_refl _⟩
    | join hj => cases hl.symm.trans (h.bare hj).2
  | tail _ hw ih =>
    obtain ⟨l', hm, hle⟩ := ih
    cases hw with
    | lock hl' hu =>
      exact ⟨_, (h.holds _ _).mp hu, Nat.le_of_lt (Nat.lt_of_le_of_lt hle (h.above hl' l' hm))⟩
    | join hj =>
      rw [(h.bare hj).1] at hm
      cases hm

/-- **No deadlock**: no thread waits, in any number of steps, for itself. -/
theorem Ordered.no_cycle (h : Ordered owner held wants joins rank) (t : θ) :
    ¬ Relation.TransGen (Waits owner wants joins) t t := by
  intro hw
  cases hl : wants t with
  | some l =>
    obtain ⟨l', hm, hle⟩ := h.exists_held hl hw
    exact absurd (h.above hl l' hm) (Nat.not_lt.mpr hle)
  | none =>
    -- it joins another thread, so it has no lock, and nobody joins it
    obtain ⟨u, hu, -⟩ := Relation.TransGen.head'_iff.mp hw
    obtain ⟨v, -, hv⟩ := Relation.TransGen.tail'_iff.mp hw
    cases hu with
    | lock hl' _ => cases hl.symm.trans hl'
    | join hj =>
      cases hv with
      | lock _ ho =>
        have hm := (h.holds _ t).mp ho
        rw [(h.bare hj).1] at hm
        cases hm
      | join hj' => cases hj.symm.trans (h.ends hj')

end Waiting

end MTAppenderFile.Lib.Locks
