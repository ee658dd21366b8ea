import Mathlib.Data.List.Basic
import Mathlib.Data.Int.Basic
import Mathlib.Tactic.Common

/-! # Blocks of memory and consecutive stores

A block of memory is a list; a store is an address and a value. A program's effect on the block is
the list of its stores in program order, so that the block after any prefix of the stores is the
block after a prefix of the list (`storeAll`, `take_storesAt`). Consecutive stores from `p` on
(`storesAt p`) that fit in the block replace one segment of it (`storeAll_storesAt`, `overwrite`).

Addresses are integers: a store below `0` or past the end changes nothing. -/

namespace MTAppenderFile.Lib.Block

variable {α : Type*}

/-- One store. -/
def store (m : List α) (s : ℤ × α) : List α := if 0 ≤ s.1 then m.set s.1.toNat s.2 else m

/-- The stores of `ss`, in order. -/
def storeAll (m : List α) (ss : List (ℤ × α)) : List α := ss.foldl store m

/-- The stores that write `l` from address `p` on. -/
def storesAt : ℤ → List α → List (ℤ × α)
  | _, [] => []
  | p, a :: l => (p, a) :: storesAt (p + 1) l

/-- The block `m` with `l` in place of its elements from `p` on. -/
def overwrite (m : List α) (p : ℕ) (l : List α) : List α := m.take p ++ l ++ m.drop (p + l.length)

/-! ### Lists of stores -/

@[simp] theorem storesAt_nil (p : ℤ) : storesAt p ([] : List α) = [] := rfl

theorem storesAt_append : ∀ (p : ℤ) (l l' : List α),
    storesAt p (l ++ l') = storesAt p l ++ storesAt (p + l.length) l'
  | p, [], l' => by simp
  | p, a :: l, l' => by
    have he : p + ((a :: l).length : ℤ) = p + 1 + (l.length : ℤ) := by
      simp only [List.length_cons]; omega
    rw [he]
    simp [storesAt, storesAt_append (p + 1) l l']

theorem take_storesAt : ∀ (p : ℤ) (l : List α) (j : ℕ),
    (storesAt p l).take j = storesAt p (l.take j)
  | _, [], _ => by simp
  | _, _ :: _, 0 => by simp
  | p, a :: l, j + 1 => by simp [storesAt, take_storesAt (p + 1) l j]

theorem mem_storesAt : ∀ {p : ℤ} {l : List α} {s : ℤ × α}, s ∈ storesAt p l → p ≤ s.1 ∧ s.1 < p + l.length
  | _, [], _, h => absurd h List.not_mem_nil
  | p, a :: l, s, h => by
    rcases List.mem_cons.mp h with rfl | h
    · simp only [List.length_cons]; omega
    · have := mem_storesAt h
      simp only [List.length_cons]; omega

theorem getElem_mem_storesAt : ∀ {p : ℤ} {l : List α} {i : ℕ} (h : i < l.length),
    (p + i, l[i]) ∈ storesAt p l
  | p, a :: l, 0, _ => by simp [storesAt]
  | p, a :: l, i + 1, h => by
    have hi : i < l.length := by simpa using h
    have := getElem_mem_storesAt (p := p + 1) hi
    rw [show p + 1 + (i : ℤ) = p + ((i + 1 : ℕ) : ℤ) by omega] at this
    exact List.mem_cons_of_mem _ this

/-! ### The block after the stores -/

@[simp] theorem storeAll_nil (m : List α) : storeAll m [] = m := rfl

theorem storeAll_cons (m : List α) (s : ℤ × α) (ss : List (ℤ × α)) :
    storeAll m (s :: ss) = storeAll (store m s) ss := rfl

theorem storeAll_append (m : List α) (ss ss' : List (ℤ × α)) :
    storeAll m (ss ++ ss') = storeAll (storeAll m ss) ss' := List.foldl_append

@[simp] theorem length_store (m : List α) (s : ℤ × α) : (store m s).length = m.length := by
  unfold store
  split_ifs <;> simp

@[simp] theorem length_storeAll : ∀ (ss : List (ℤ × α)) (m : List α), (storeAll m ss).length = m.length
  | [], _ => rfl
  | s :: ss, m => by rw [storeAll_cons, length_storeAll ss, length_store]

@[simp] theorem length_overwrite {m : List α} {p : ℕ} {l : List α} (h : p + l.length ≤ m.length) :
    (overwrite m p l).length = m.length := by
  simp only [overwrite, List.length_append, List.length_take, List.length_drop]; omega

theorem overwrite_nil (m : List α) (p : ℕ) : overwrite m p [] = m := by simp [overwrite]

theorem overwrite_zero (m l : List α) : overwrite m 0 l = l ++ m.drop l.length := by simp [overwrite]

theorem overwrite_cons {m : List α} {p : ℕ} {a : α} {l : List α} (h : p < m.length) :
    overwrite (m.set p a) (p + 1) l = overwrite m p (a :: l) := by
  have hd : (m.set p a).drop (p + 1 + l.length) = m.drop (p + 1 + l.length) :=
    List.drop_set_of_lt (by omega)
  have ht : (m.set p a).take (p + 1) = m.take p ++ [a] := by
    rw [List.take_succ_eq_append_getElem (by simpa using h)]
    simp [List.take_set_of_le (le_refl p)]
  simp only [overwrite, hd, ht, List.length_cons, List.append_assoc, List.singleton_append]
  rw [show p + 1 + l.length = p + (l.length + 1) by omega]

/-- **Consecutive stores inside the block replace a segment of it.** -/
theorem storeAll_storesAt : ∀ (l : List α) (m : List α) (p : ℕ), p + l.length ≤ m.length →
    storeAll m (storesAt (p : ℤ) l) = overwrite m p l
  | [], m, p, _ => by simp [overwrite_nil]
  | a :: l, m, p, h => by
    simp only [List.length_cons] at h
    have hs : store m ((p : ℤ), a) = m.set p a := by simp [store]
    have hc : ((p : ℤ) + 1) = ((p + 1 : ℕ) : ℤ) := by omega
    rw [storesAt, storeAll_cons, hs, hc,
      storeAll_storesAt l (m.set p a) (p + 1) (by rw [List.length_set]; omega),
      overwrite_cons (by omega)]

/-! ### Reading an overwritten block -/

theorem take_overwrite_le {m : List α} {p n : ℕ} {l : List α} (hn : n ≤ p) (hp : p ≤ m.length) :
    (overwrite m p l).take n = m.take n := by
  have hl : n ≤ (m.take p).length := by simp; omega
  rw [overwrite, List.append_assoc, List.take_append_of_le_length hl, List.take_take,
    Nat.min_eq_left hn]

theorem take_overwrite_append {m : List α} {p : ℕ} {l r : List α} (hp : p ≤ m.length) :
    (overwrite m p (l ++ r)).take (p + l.length) = m.take p ++ l := by
  have hl : (m.take p ++ l).length = p + l.length := by simp [hp]
  rw [overwrite, ← hl, ← List.append_assoc, List.append_assoc, List.take_left]

theorem take_overwrite {m : List α} {p : ℕ} {l : List α} (hp : p ≤ m.length) :
    (overwrite m p l).take (p + l.length) = m.take p ++ l := by
  simpa using take_overwrite_append (l := l) (r := []) hp

theorem take_storeAll_storesAt {n : ℕ} : ∀ {p : ℤ} (l m : List α), n ≤ p →
    (storeAll m (storesAt p l)).take n = m.take n
  | _, [], _, _ => rfl
  | p, a :: l, m, h => by
    have hs : (store m (p, a)).take n = m.take n := by
      rw [store, if_pos (by dsimp only; omega)]
      exact List.take_set_of_le (by dsimp only; omega)
    rw [storesAt, storeAll_cons, take_storeAll_storesAt l _ (by omega), hs]

theorem overwrite_take {m : List α} {p n : ℕ} (l : List α) (hp : p ≤ n) :
    overwrite (m.take n) p l =
      m.take p ++ l ++ (m.drop (p + l.length)).take (n - (p + l.length)) := by
  rw [overwrite, List.take_take, Nat.min_eq_left hp, List.drop_take]

/-- The elements up to `n`, or to the end of `l` behind it, of a block with `l` and then `r` written to it. -/
theorem take_max_overwrite_append {m : List α} {p n : ℕ} (l r : List α) (hp : p ≤ m.length) :
    (overwrite m p (l ++ r)).take (max n (p + l.length)) =
      m.take p ++ l ++ (r ++ m.drop (p + l.length + r.length)).take (n - (p + l.length)) := by
  have hl : (m.take p ++ l).length = p + l.length := by simp [hp]
  have hn : max n (p + l.length) = (m.take p ++ l).length + (n - (p + l.length)) := by omega
  have ha : overwrite m p (l ++ r) = (m.take p ++ l) ++ (r ++ m.drop (p + l.length + r.length)) := by
    simp only [overwrite, List.length_append, List.append_assoc, Nat.add_assoc]
  rw [hn, ha, List.take_length_add_append]

theorem take_max_overwrite {m : List α} {p n : ℕ} (l : List α) (hp : p ≤ n) (hm : p ≤ m.length) :
    (overwrite m p l).take (max n (p + l.length)) = overwrite (m.take n) p l := by
  have h := take_max_overwrite_append (n := n) l [] hm
  rw [List.append_nil, List.nil_append, List.length_nil, Nat.add_zero] at h
  rw [h, overwrite_take l hp]

theorem drop_overwrite {m : List α} {p : ℕ} (l : List α) (hp : p ≤ m.length) :
    (overwrite m p l).drop p = l ++ m.drop (p + l.length) := by
  rw [overwrite, List.append_assoc, List.drop_left' (List.length_take_of_le hp)]

/-- **What is written behind `l` does not show** in the first `n` elements exactly if it puts there the
elements that there are. -/
theorem take_overwrite_append_eq_iff {m : List α} {p n : ℕ} {l r : List α} (hp : p ≤ n)
    (hm : p + l.length + r.length ≤ m.length) :
    (overwrite m p (l ++ r)).take (max n (p + l.length)) = overwrite (m.take n) p l ↔
      ((m.take n).drop (p + l.length)).take r.length <+: r := by
  have hr : r.length ≤ (m.drop (p + l.length)).length := by rw [List.length_drop]; omega
  rw [take_max_overwrite_append l r (by omega), overwrite_take l hp, List.append_cancel_left_eq,
    List.drop_take, List.take_take, ← List.drop_drop]
  generalize n - (p + l.length) = k
  generalize m.drop (p + l.length) = x at hr ⊢
  have hx : x.take k = (x.take r.length).take k ++ (x.drop r.length).take (k - r.length) := by
    conv_lhs => rw [← List.take_append_drop r.length x]
    rw [List.take_append, List.length_take_of_le hr]
  have hlen : (x.take (min r.length k)).length = min r.length k :=
    List.length_take_of_le (by omega)
  rw [hx, List.take_append, List.append_cancel_right_eq, List.take_take, Nat.min_comm k,
    List.prefix_iff_eq_take, hlen, Nat.min_comm r.length k, ← List.take_eq_take_min, eq_comm]

/-- **What was written is there**, with further stores behind it. -/
theorem take_drop_written {m l r : List α} {p n : ℕ} (hp : p + l.length ≤ m.length)
    (hn : p + l.length ≤ n) :
    (((storeAll m (storesAt p l ++ storesAt (p + l.length) r)).take n).drop p).take l.length = l := by
  have hpm : p ≤ m.length := by omega
  have ht : (storeAll m (storesAt p l ++ storesAt (p + l.length) r)).take (p + l.length) =
      m.take p ++ l := by
    rw [storeAll_append, take_storeAll_storesAt r _ (by omega), storeAll_storesAt l m p hp,
      take_overwrite hpm]
  have hd := congrArg (List.drop p) ht
  rw [List.drop_left' (List.length_take_of_le hpm), List.drop_take, Nat.add_sub_cancel_left] at hd
  rw [List.drop_take, List.take_take, Nat.min_eq_left (by omega), hd]

end MTAppenderFile.Lib.Block
