import Mathlib.Data.List.Basic
import Mathlib.Data.Int.Basic
import Mathlib.Tactic.Common

/-! # A list with a cursor

A list and a position in it or at its end (`Cursored`): what a growable buffer with a cursor is to its user.
Writes replace what is at a position and go on behind the end; the cursor moves by its own operations, and
stays in the list. -/

namespace MTAppenderFile.Lib.Cursor

/-- A list with a cursor. -/
@[ext]
structure Cursored (α : Type*) where
  content : List α
  cursor : ℕ
  le : cursor ≤ content.length

namespace Cursored

variable {α : Type*}

/-- Nothing. -/
def empty : Cursored α := ⟨[], 0, Nat.le_refl 0⟩

/-- The cursor at `p`, or as near as possible. -/
def seekTo (s : Cursored α) (p : ℤ) : Cursored α :=
  ⟨s.content, min p.toNat s.content.length, Nat.min_le_right _ _⟩

/-- `l` in place of the elements from `p` on, as many as there are. -/
def writeAt (s : Cursored α) (p : ℕ) (l : List α) : Cursored α :=
  ⟨s.content.take p ++ l ++ s.content.drop (p + l.length), s.cursor, by
    have := s.le
    simp only [List.length_append, List.length_take, List.length_drop]
    omega⟩

/-- `l` in place of the elements at the cursor, which moves behind it. -/
def write (s : Cursored α) (l : List α) : Cursored α := (s.writeAt s.cursor l).seekTo (s.cursor + l.length)

/-- The elements at the cursor, `n` of them if there are so many. -/
def ahead (s : Cursored α) (n : ℕ) : List α := (s.content.drop s.cursor).take n

/-- The cursor behind the elements that `ahead` gives. -/
def skip (s : Cursored α) (n : ℕ) : Cursored α := s.seekTo (s.cursor + (s.ahead n).length)

/-- The first `n` elements, with the cursor at `p`. -/
def setLength (s : Cursored α) (p : ℤ) (n : ℕ) : Cursored α :=
  seekTo ⟨s.content.take n, 0, Nat.zero_le _⟩ p

/-- `n` more elements in front, with the cursor where it was in the list. -/
def prepend (s : Cursored α) (n : ℕ) (a : α) : Cursored α :=
  ⟨List.replicate n a ++ s.content, s.cursor + n, by
    have := s.le
    rw [List.length_append, List.length_replicate]
    omega⟩

/-- The list without its first `n` elements, with the cursor where it was in the list, if that is there. -/
def dropFront (s : Cursored α) (n : ℕ) : Cursored α :=
  ⟨s.content.drop n, s.cursor - n, by
    have := s.le
    rw [List.length_drop]
    omega⟩

theorem length_ahead (s : Cursored α) (n : ℕ) : (s.ahead n).length = min n (s.content.length - s.cursor) := by
  rw [ahead, List.length_take, List.length_drop]

end Cursored

end MTAppenderFile.Lib.Cursor
