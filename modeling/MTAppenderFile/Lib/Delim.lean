import Mathlib.Data.List.Basic
import Mathlib.Tactic.Common

/-! # Reading up to a delimiter

`before pat l` is what a reader gets that takes everything of `l` before the first occurrence of the
pattern `pat`, and all of `l` if there is none. `FirstAt pat l n` says that the first occurrence is
at offset `n`; the reader then gets the first `n` elements (`FirstAt.before_eq`).

A part in front in which no occurrence starts is read as it stands (`before_append`). For a pattern
of equal elements, `a` repeated, whether an occurrence starts in the front part does not depend on
what follows once it does not start there when the pattern itself follows (`not_start_of_marker`).

`WholeLines lines l` says that `l` is made of some of the lines `lines`, each of them whole and in their
order. When all lines end with the same element, so does such a text (`WholeLines.getLast?`); a text whose last line is
cut in front of that element does not (`getLast?_cut`). -/

namespace MTAppenderFile.Lib.Delim

variable {α : Type*} [DecidableEq α]

/-- **The reader**: everything before the first occurrence of `pat`. -/
def before (pat : List α) : List α → List α
  | [] => []
  | a :: l => if pat <+: a :: l then [] else a :: before pat l

omit [DecidableEq α] in
/-- The first occurrence of `pat` in `l` is at offset `n`. -/
def FirstAt (pat l : List α) (n : ℕ) : Prop := pat <+: l.drop n ∧ ∀ i < n, ¬ pat <+: l.drop i

@[simp] theorem before_nil (pat : List α) : before pat [] = [] := rfl

theorem before_of_start {pat l : List α} (h : pat <+: l) : before pat l = [] := by
  cases l with
  | nil => rfl
  | cons a l => rw [before, if_pos h]

theorem before_of_not_start {pat l : List α} {a : α} (h : ¬ pat <+: a :: l) :
    before pat (a :: l) = a :: before pat l := by rw [before, if_neg h]

theorem before_eq_nil_iff {pat l : List α} : before pat l = [] ↔ l = [] ∨ pat <+: l := by
  cases l with
  | nil => simp
  | cons a l =>
    by_cases h : pat <+: a :: l
    · simp [before_of_start h, h]
    · simp [before_of_not_start h, h]

/-- **A front part in which no occurrence starts is read as it stands.** -/
theorem before_append {pat : List α} : ∀ {c : List α} {l : List α},
    (∀ i < c.length, ¬ pat <+: (c ++ l).drop i) → before pat (c ++ l) = c ++ before pat l
  | [], _, _ => rfl
  | a :: c, l, h => by
    have h0 : ¬ pat <+: a :: (c ++ l) := h 0 (by simp)
    have ih : before pat (c ++ l) = c ++ before pat l := before_append fun i hi => by
      simpa using h (i + 1) (by simpa using hi)
    rw [List.cons_append, before_of_not_start h0, ih, List.cons_append]

theorem not_prefix_of_lt_before {pat : List α} : ∀ {l : List α} {i : ℕ},
    i < (before pat l).length → ¬ pat <+: l.drop i
  | [], i, h => by simp at h
  | a :: l, i, h => by
    by_cases hp : pat <+: a :: l
    · rw [before_of_start hp] at h; simp at h
    · rw [before_of_not_start hp, List.length_cons] at h
      cases i with
      | zero => exact hp
      | succ i =>
        have hi : i < (before pat l).length := by omega
        rw [List.drop_succ_cons]
        exact not_prefix_of_lt_before hi

/-- With the first occurrence at `n`, the reader gets the first `n` elements. -/
theorem FirstAt.before_eq {pat l : List α} {n : ℕ} (h : FirstAt pat l n) (hn : n ≤ l.length) :
    before pat l = l.take n := by
  have hl : (l.take n).length = n := List.length_take_of_le hn
  have hb : before pat (l.take n ++ l.drop n) = l.take n ++ before pat (l.drop n) :=
    before_append fun i hi => by
      rw [List.take_append_drop]; exact h.2 i (by omega)
  rw [List.take_append_drop, before_of_start h.1, List.append_nil] at hb
  exact hb

/-! ### Front parts in which no occurrence starts -/

omit [DecidableEq α]

theorem replicate_prefix_iff {a : α} : ∀ {n : ℕ} {l : List α},
    List.replicate n a <+: l ↔ ∀ i < n, l[i]? = some a
  | 0, l => by simp
  | n + 1, [] => by
    simp only [List.replicate_succ, List.prefix_nil, List.cons_ne_nil, List.getElem?_nil, false_iff]
    exact fun h => absurd (h 0 (Nat.succ_pos n)) (by simp)
  | n + 1, b :: l => by
    rw [List.replicate_succ, List.cons_prefix_cons, replicate_prefix_iff]
    constructor
    · rintro ⟨rfl, h⟩ i hi
      cases i with
      | zero => rfl
      | succ i => simpa using h i (by omega)
    · intro h
      refine ⟨?_, fun i hi => by simpa using h (i + 1) (by omega)⟩
      simpa [eq_comm] using h 0 (Nat.succ_pos n)

theorem not_start_of_notMem {a : α} {pat c l : List α} (ha : a ∉ c) {i : ℕ} (hi : i < c.length) :
    ¬ (a :: pat) <+: (c ++ l).drop i := by
  intro h
  rw [List.drop_append_of_le_length (Nat.le_of_lt hi), List.drop_eq_getElem_cons hi, List.cons_append,
    List.cons_prefix_cons] at h
  exact ha (h.1 ▸ List.getElem_mem hi)

/-- For the pattern `a, …, a`: if no occurrence starts in `c` when the pattern follows it, none does
whatever follows it. -/
theorem not_start_of_marker {a : α} {n i : ℕ} {c x y : List α} (hi : i < c.length)
    (h : ¬ List.replicate n a <+: (c ++ (List.replicate n a ++ y)).drop i) :
    ¬ List.replicate n a <+: (c ++ x).drop i := by
  intro hp
  refine h ?_
  rw [List.drop_append_of_le_length (Nat.le_of_lt hi)] at hp ⊢
  rcases Nat.le_total n (c.drop i).length with hn | hn
  · -- the occurrence lies in `c`
    have hc : List.replicate n a <+: c.drop i :=
      List.prefix_of_prefix_length_le hp (List.prefix_append _ _) (by simpa using hn)
    exact hc.trans (List.prefix_append _ _)
  · -- the rest of `c` is a run of `a`, and the pattern behind it completes the occurrence
    have hc : c.drop i <+: List.replicate n a :=
      List.prefix_of_prefix_length_le (List.prefix_append _ _) hp (by simpa using hn)
    have he : c.drop i = List.replicate (c.drop i).length a :=
      List.eq_replicate_iff.mpr ⟨rfl, fun b hb => List.eq_of_mem_replicate (hc.subset hb)⟩
    rw [he, ← List.append_assoc, ← List.replicate_add, Nat.add_comm, List.replicate_add,
      List.append_assoc]
    exact List.prefix_append _ _

/-! ### Whole lines -/

/-- A text made of some of the lines, whole and in their order. -/
def WholeLines (lines : List (List α)) (l : List α) : Prop :=
  ∃ sub : List (List α), sub.Sublist lines ∧ l = sub.flatten

section Lines

variable {lines : List (List α)} {l : List α}

theorem wholeLines_nil (lines : List (List α)) : WholeLines lines ([] : List α) :=
  ⟨[], List.nil_sublist lines, rfl⟩

theorem WholeLines.append (h : WholeLines lines l) (line : List α) : WholeLines (lines ++ [line]) (l ++ line) := by
  obtain ⟨sub, hs, rfl⟩ := h
  exact ⟨sub ++ [line], hs.append (List.Sublist.refl _), by simp⟩

theorem WholeLines.skip (h : WholeLines lines l) (line : List α) : WholeLines (lines ++ [line]) l := by
  obtain ⟨sub, hs, rfl⟩ := h
  exact ⟨sub, hs.trans (List.sublist_append_left lines [line]), rfl⟩

theorem WholeLines.getLast? {a : α} (h : WholeLines lines l) (hP : ∀ line ∈ lines, line.getLast? = some a)
    (hne : l ≠ []) : l.getLast? = some a := by
  obtain ⟨sub, hs, rfl⟩ := h
  rcases List.eq_nil_or_concat sub with rfl | ⟨sub, line, rfl⟩
  · exact absurd rfl hne
  · have hline := hP line (hs.subset (by simp))
    have hn : line ≠ [] := by rintro rfl; simp at hline
    rw [List.concat_eq_append, List.flatten_append, List.flatten_singleton,
      List.getLast?_append_of_ne_nil _ hn, hline]

/-- **A text whose last line is cut.** -/
theorem getLast?_cut {a : α} {text : List α} (ha : a ∉ text) {k : ℕ} (hk : 0 < k) (hk' : k ≤ text.length) :
    (l ++ (text ++ [a]).take k).getLast? ≠ some a := by
  have hn : text.take k ≠ [] := by
    rw [ne_eq, List.take_eq_nil_iff, not_or]
    exact ⟨by omega, by rintro rfl; simp at hk'; omega⟩
  rw [List.take_append_of_le_length hk', List.getLast?_append_of_ne_nil _ hn]
  exact fun hlast => ha (List.mem_of_mem_take (List.mem_of_getLast? hlast))

end Lines

end MTAppenderFile.Lib.Delim
