import Mathlib.Data.List.Basic
import Mathlib.Logic.Function.Basic

/-! # A vector and its iterators

A `std::vector` with what its iterators depend on. Every position has a stamp, and an iterator is a position
with the stamp it had; it is valid as long as that is the stamp of the position. An operation that invalidates
iterators gives new stamps to their positions: `push_back` to the end, or to all when it has to move the
elements, `erase` to the erased element and all behind it. What is done with an iterator that is not valid is
undefined, `none`. -/

namespace MTAppenderFile.Lib.Vector

variable {α : Type*}

/-- The elements, the number there is room for, and the stamps of the positions. -/
structure Vec (α : Type*) where
  items : List α
  capacity : ℕ
  stamp : ℕ → ℕ

/-- An iterator. -/
structure Iter where
  index : ℕ
  stamp : ℕ

namespace Vec

/-- `vector()`. -/
def empty : Vec α := ⟨[], 0, fun _ => 0⟩

/-- The iterator has not been invalidated. -/
def Valid (v : Vec α) (it : Iter) : Prop := v.stamp it.index = it.stamp

instance (v : Vec α) (it : Iter) : Decidable (v.Valid it) := inferInstanceAs (Decidable (_ = _))

/-- The iterator at the position `i`. -/
def iter (v : Vec α) (i : ℕ) : Iter := ⟨i, v.stamp i⟩

/-- `it != v.end()`. -/
def more (v : Vec α) (it : Iter) : Option Bool :=
  if v.Valid it then some (it.index ≠ v.items.length) else none

/-- `*it`. -/
def deref (v : Vec α) (it : Iter) : Option α := if v.Valid it then v.items[it.index]? else none

/-- `it++`. -/
def next (v : Vec α) (it : Iter) : Option Iter := if v.Valid it then some (v.iter (it.index + 1)) else none

/-- `push_back(a)`; `room` is the room that the library makes if there is none. -/
def pushBack (v : Vec α) (a : α) (room : ℕ) : Vec α :=
  if v.items.length < v.capacity then
    { v with
      items := v.items ++ [a]
      stamp := Function.update v.stamp v.items.length (v.stamp v.items.length + 1) }
  else
    { items := v.items ++ [a]
      capacity := max room (v.items.length + 1)
      stamp := fun i => v.stamp i + 1 }

/-- `erase(it)` for the first `it` with `*it == a`, if there is one. -/
def erase [DecidableEq α] (v : Vec α) (a : α) : Vec α :=
  if a ∈ v.items then
    { v with
      items := v.items.erase a
      stamp := fun i => if i < v.items.idxOf a then v.stamp i else v.stamp i + 1 }
  else v

/-- `push_back` does not invalidate the iterator: there is room, and it is not at the end. -/
def PushKeeps (v : Vec α) (it : Iter) : Prop :=
  v.items.length < v.capacity ∧ it.index ≠ v.items.length

instance (v : Vec α) (it : Iter) : Decidable (v.PushKeeps it) :=
  inferInstanceAs (Decidable (_ ∧ it.index ≠ v.items.length))

/-- `erase(a)` does not invalidate the iterator: it is in front of the element, or there is none. -/
def EraseKeeps [DecidableEq α] (v : Vec α) (a : α) (it : Iter) : Prop :=
  a ∈ v.items → it.index < v.items.idxOf a

instance [DecidableEq α] (v : Vec α) (a : α) (it : Iter) : Decidable (v.EraseKeeps a it) :=
  inferInstanceAs (Decidable (a ∈ v.items → it.index < v.items.idxOf a))

/-- A valid iterator at an element or at the end. -/
structure Sound (v : Vec α) (it : Iter) : Prop where
  valid : v.Valid it
  le : it.index ≤ v.items.length

/-- A valid iterator at an element. -/
structure Inside (v : Vec α) (it : Iter) : Prop extends v.Sound it where
  lt : it.index < v.items.length

variable {v : Vec α} {it : Iter} {a : α}

theorem items_pushBack (v : Vec α) (a : α) (room : ℕ) : (v.pushBack a room).items = v.items ++ [a] := by
  unfold pushBack; split_ifs <;> rfl

theorem items_erase [DecidableEq α] (v : Vec α) (a : α) : (v.erase a).items = v.items.erase a := by
  unfold erase
  split_ifs with h
  · rfl
  · exact (List.erase_of_not_mem h).symm

/-! ### Iterators made from positions -/

theorem sound_begin (v : Vec α) : v.Sound (v.iter 0) := ⟨rfl, Nat.zero_le _⟩

theorem Sound.inside (h : v.Sound it) (hne : it.index ≠ v.items.length) : v.Inside it :=
  ⟨h, Nat.lt_of_le_of_ne h.le hne⟩

theorem Sound.more (h : v.Sound it) : v.more it = some (decide (it.index ≠ v.items.length)) := if_pos h.valid

theorem Inside.next (h : v.Inside it) :
    v.next it = some (v.iter (it.index + 1)) ∧ v.Sound (v.iter (it.index + 1)) :=
  ⟨if_pos h.valid, rfl, h.lt⟩

theorem Inside.deref (h : v.Inside it) : ∃ a ∈ v.items, v.deref it = some a := by
  have hlt := h.lt
  refine ⟨v.items[it.index], List.getElem_mem hlt, ?_⟩
  rw [Vec.deref, if_pos h.valid, List.getElem?_eq_getElem hlt]

theorem Sound.pushBack (h : v.Sound it) (hk : v.PushKeeps it) (a : α) (room : ℕ) :
    (v.pushBack a room).Sound it := by
  obtain ⟨hroom, hne⟩ := hk
  refine ⟨?_, ?_⟩
  · rw [Valid, Vec.pushBack, if_pos hroom]
    exact (Function.update_of_ne hne ..).trans h.valid
  · rw [items_pushBack, List.length_append]
    exact Nat.le_trans h.le (Nat.le_add_right _ _)

theorem Inside.pushBack (h : v.Inside it) (hk : v.PushKeeps it) (a : α) (room : ℕ) :
    (v.pushBack a room).Inside it := by
  refine ⟨h.toSound.pushBack hk a room, ?_⟩
  rw [items_pushBack, List.length_append]
  exact Nat.lt_of_lt_of_le h.lt (Nat.le_add_right _ _)

theorem Sound.erase [DecidableEq α] (h : v.Sound it) (hk : v.EraseKeeps a it) : (v.erase a).Sound it := by
  by_cases ha : a ∈ v.items
  · have hlt := hk ha
    have hidx := List.idxOf_lt_length_of_mem ha
    refine ⟨?_, ?_⟩
    · rw [Valid, Vec.erase, if_pos ha]
      exact (if_pos hlt).trans h.valid
    · rw [items_erase, List.length_erase_of_mem ha]
      omega
  · rw [Vec.erase, if_neg ha]
    exact h

theorem Inside.erase [DecidableEq α] (h : v.Inside it) (hk : v.EraseKeeps a it) : (v.erase a).Inside it := by
  refine ⟨h.toSound.erase hk, ?_⟩
  rw [items_erase]
  by_cases ha : a ∈ v.items
  · have hlt := hk ha
    have hidx := List.idxOf_lt_length_of_mem ha
    rw [List.length_erase_of_mem ha]
    omega
  · rw [List.erase_of_not_mem ha]
    exact h.lt

end Vec

end MTAppenderFile.Lib.Vector
