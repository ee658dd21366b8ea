import Mathlib.Data.List.Basic
import Mathlib.Data.List.Nodup
import Mathlib.Logic.Function.Basic
import Mathlib.Tactic.Common

/-! # Items on their way through a shared buffer

A `Pipe` says where the items are that were put into a buffer which several parties empty: still in the
buffer, in the hands of a party that has taken the content of the buffer but not delivered it yet, or
out. `log` are all items in the order of their arrival. Items are moved by `Pipe.move`: a party `t`
takes everything that is in the buffer (`drain t`) and later delivers all that it holds (`deliver t`).

Three things are said about a pipe. No item is in two places (`Apart`, preserved by every move that
brings in fresh items only). An item that has not been lost is `Held` in some place; with `Apart` it is
out exactly when it is in no other place (`Apart.mem_out_iff`), and if no place has an item twice
(`Distinct`), every item is there once (`Apart.exists_perm`). And what is out is `InOrder`, as long as
nobody drains the buffer while somebody else holds items (`InOrder.move`); a drain at such a moment lets
the later items out first (`InOrder.overtaken`). -/

namespace MTAppenderFile.Lib.Handover

/-- The items that have arrived, and where they are. -/
structure Pipe (ρ τ : Type*) where
  log : List ρ
  buf : List ρ
  hand : τ → List ρ
  out : List ρ

/-- The places an item can be in. -/
inductive Place (τ : Type*)
  | buf
  | hand (t : τ)
  | out

/-- What can happen: an item arrives in the buffer, arrives and is let out at once, or arrives and is
lost; a party drains the buffer, delivers, or loses what it holds; the buffer is wiped. -/
inductive Move (ρ τ : Type*)
  | stay
  | insert (x : ρ)
  | direct (x : ρ)
  | refuse (x : ρ)
  | drain (t : τ)
  | deliver (t : τ)
  | lose (t : τ)
  | wipe

variable {ρ τ : Type*}

namespace Pipe

/-- The empty pipe. -/
def empty : Pipe ρ τ := ⟨[], [], fun _ => [], []⟩

/-- The items in a place. -/
def items (P : Pipe ρ τ) : Place τ → List ρ
  | .buf => P.buf
  | .hand t => P.hand t
  | .out => P.out

/-- One move. -/
def move [DecidableEq τ] (P : Pipe ρ τ) : Move ρ τ → Pipe ρ τ
  | .stay => P
  | .insert x => { P with log := P.log ++ [x], buf := P.buf ++ [x] }
  | .direct x => { P with log := P.log ++ [x], out := P.out ++ [x] }
  | .refuse x => { P with log := P.log ++ [x] }
  | .drain t => { P with buf := [], hand := Function.update P.hand t (P.hand t ++ P.buf) }
  | .deliver t => { P with hand := Function.update P.hand t [], out := P.out ++ P.hand t }
  | .lose t => { P with hand := Function.update P.hand t [] }
  | .wipe => { P with buf := [] }

end Pipe

open Pipe

/-- The item that arrives with a move. -/
def Move.arrival : Move ρ τ → Option ρ
  | .insert x => some x
  | .direct x => some x
  | .refuse x => some x
  | _ => none

/-- An item that is somewhere. -/
def Held (P : Pipe ρ τ) (x : ρ) : Prop := ∃ p, x ∈ P.items p

/-- **No item is in two places**, and every item has arrived once. -/
structure Apart (P : Pipe ρ τ) : Prop where
  nodup : P.log.Nodup
  logged : ∀ x p, x ∈ P.items p → x ∈ P.log
  once : ∀ x p q, x ∈ P.items p → x ∈ P.items q → p = q

theorem apart_empty : Apart (empty : Pipe ρ τ) := by
  have h : ∀ (x : ρ) (p : Place τ), x ∉ (empty : Pipe ρ τ).items p := by
    intro x p hx; cases p <;> exact absurd hx List.not_mem_nil
  exact ⟨List.nodup_nil, fun x p hx => absurd hx (h x p), fun x p _ hx => absurd hx (h x p)⟩

variable [DecidableEq τ] {P P' : Pipe ρ τ} {m : Move ρ τ} {x : ρ}

theorem hand_drain (P : Pipe ρ τ) (t u : τ) :
    (P.move (.drain t)).hand u = if u = t then P.hand t ++ P.buf else P.hand u := by
  split_ifs with h
  · rw [h]; exact Function.update_self ..
  · exact Function.update_of_ne h ..

theorem hand_deliver (P : Pipe ρ τ) (t u : τ) :
    (P.move (.deliver t)).hand u = if u = t then [] else P.hand u := by
  split_ifs with h
  · rw [h]; exact Function.update_self ..
  · exact Function.update_of_ne h ..

theorem hand_lose (P : Pipe ρ τ) (t u : τ) :
    (P.move (.lose t)).hand u = if u = t then [] else P.hand u := hand_deliver P t u

theorem log_move (P : Pipe ρ τ) (m : Move ρ τ) :
    (P.move m).log = P.log ++ m.arrival.toList := by
  cases m <;> simp [move, Move.arrival]

theorem mem_log_move (hx : x ∈ P.log) : x ∈ (P.move m).log := by
  rw [log_move]; exact List.mem_append_left _ hx

/-! ### No item is in two places -/

omit [DecidableEq τ] in
theorem Apart.carry (h : Apart P) (hlog : P'.log = P.log) (f : Place τ → Place τ)
    (hf : ∀ x q, x ∈ P'.items q → ∃ p, x ∈ P.items p ∧ f p = q) : Apart P' := by
  refine ⟨hlog ▸ h.nodup, fun x q hx => ?_, fun x q q' hq hq' => ?_⟩
  · obtain ⟨p, hp, -⟩ := hf x q hx
    exact hlog ▸ h.logged x p hp
  · obtain ⟨p, hp, rfl⟩ := hf x q hq
    obtain ⟨p', hp', rfl⟩ := hf x q' hq'
    rw [h.once x p p' hp hp']

omit [DecidableEq τ] in
theorem Apart.add (h : Apart P) (hx : x ∉ P.log) (hlog : P'.log = P.log ++ [x]) (p₀ : Place τ)
    (hp : ∀ y q, y ∈ P'.items q → y ∈ P.items q ∨ y = x ∧ q = p₀) : Apart P' := by
  refine ⟨?_, fun y q hy => ?_, fun y q q' hq hq' => ?_⟩
  · rw [hlog]
    exact h.nodup.append (List.nodup_singleton x) (by simpa using hx)
  · rw [hlog]
    rcases hp y q hy with hy | ⟨rfl, -⟩
    · exact List.mem_append_left _ (h.logged y q hy)
    · exact List.mem_append_right _ (List.mem_singleton_self y)
  · rcases hp y q hq with hy | ⟨rfl, rfl⟩ <;> rcases hp y q' hq' with hy' | ⟨he, rfl⟩
    · exact h.once y q q' hy hy'
    · exact absurd (h.logged y q hy) (he ▸ hx)
    · exact absurd (h.logged y q' hy') hx
    · rfl

/-- **Every move keeps the items apart**, if what arrives is fresh. -/
theorem Apart.move (h : Apart P) (hm : ∀ x, m.arrival = some x → x ∉ P.log) :
    Apart (P.move m) := by
  cases m with
  | stay => exact h
  | insert x =>
    refine h.add (hm x rfl) rfl .buf fun y q hy => ?_
    cases q with
    | buf =>
      rcases List.mem_append.mp hy with hy | hy
      · exact .inl hy
      · exact .inr ⟨List.mem_singleton.mp hy, rfl⟩
    | hand t => exact .inl hy
    | out => exact .inl hy
  | direct x =>
    refine h.add (hm x rfl) rfl .out fun y q hy => ?_
    cases q with
    | buf => exact .inl hy
    | hand t => exact .inl hy
    | out =>
      rcases List.mem_append.mp hy with hy | hy
      · exact .inl hy
      · exact .inr ⟨List.mem_singleton.mp hy, rfl⟩
  | refuse x =>
    refine h.add (hm x rfl) rfl .out fun y q hy => .inl ?_
    cases q <;> exact hy
  | drain t =>
    -- the items of the buffer go to the hands of `t`
    refine h.carry rfl (fun p => match p with | .buf => .hand t | p => p) fun y q hy => ?_
    cases q with
    | buf => exact absurd hy List.not_mem_nil
    | hand u =>
      by_cases hu : u = t
      · subst hu
        simp only [items, Pipe.move, Function.update_self, List.mem_append] at hy
        rcases hy with hy | hy
        · exact ⟨.hand u, hy, rfl⟩
        · exact ⟨.buf, hy, rfl⟩
      · simp only [items, Pipe.move, Function.update_of_ne hu] at hy
        exact ⟨.hand u, hy, rfl⟩
    | out => exact ⟨.out, hy, rfl⟩
  | deliver t =>
    -- the items in the hands of `t` go out
    refine h.carry rfl (fun p => match p with
      | .hand u => if u = t then .out else .hand u
      | p => p) fun y q hy => ?_
    cases q with
    | buf => exact ⟨.buf, hy, rfl⟩
    | hand u =>
      by_cases hu : u = t
      · subst hu
        simp [items, Pipe.move] at hy
      · simp only [items, Pipe.move, Function.update_of_ne hu] at hy
        exact ⟨.hand u, hy, if_neg hu⟩
    | out =>
      rcases List.mem_append.mp hy with hy | hy
      · exact ⟨.out, hy, rfl⟩
      · exact ⟨.hand t, hy, if_pos rfl⟩
  | lose t =>
    refine h.carry rfl id fun y q hy => ⟨q, ?_, rfl⟩
    cases q with
    | buf => exact hy
    | hand u =>
      by_cases hu : u = t
      · subst hu
        simp [items, Pipe.move] at hy
      · simpa only [items, Pipe.move, Function.update_of_ne hu] using hy
    | out => exact hy
  | wipe =>
    refine h.carry rfl id fun y q hy => ⟨q, ?_, rfl⟩
    cases q with
    | buf => exact absurd hy List.not_mem_nil
    | hand u => exact hy
    | out => exact hy

/-! ### Nothing is lost -/

/-- An item stays somewhere, unless it is wiped with the buffer or lost by the party that holds it. -/
theorem Held.move (h : Held P x) (hw : m = .wipe → x ∉ P.buf)
    (hl : ∀ t, m = .lose t → x ∉ P.hand t) : Held (P.move m) x := by
  obtain ⟨p, hp⟩ := h
  cases m with
  | stay => exact ⟨p, hp⟩
  | insert y =>
    refine ⟨p, ?_⟩
    cases p with
    | buf => exact List.mem_append_left _ hp
    | hand t => exact hp
    | out => exact hp
  | direct y =>
    refine ⟨p, ?_⟩
    cases p with
    | buf => exact hp
    | hand t => exact hp
    | out => exact List.mem_append_left _ hp
  | refuse y => exact ⟨p, by cases p <;> exact hp⟩
  | drain t =>
    cases p with
    | buf => exact ⟨.hand t, by simpa [items, Pipe.move] using .inr hp⟩
    | hand u =>
      refine ⟨.hand u, ?_⟩
      by_cases hu : u = t
      · subst hu; simpa [items, Pipe.move] using .inl hp
      · simpa only [items, Pipe.move, Function.update_of_ne hu] using hp
    | out => exact ⟨.out, hp⟩
  | deliver t =>
    cases p with
    | buf => exact ⟨.buf, hp⟩
    | hand u =>
      by_cases hu : u = t
      · subst hu; exact ⟨.out, List.mem_append_right _ hp⟩
      · exact ⟨.hand u, by simpa only [items, Pipe.move, Function.update_of_ne hu] using hp⟩
    | out => exact ⟨.out, List.mem_append_left _ hp⟩
  | lose t =>
    cases p with
    | buf => exact ⟨.buf, hp⟩
    | hand u =>
      have hu : u ≠ t := by rintro rfl; exact hl u rfl hp
      exact ⟨.hand u, by simpa only [items, Pipe.move, Function.update_of_ne hu] using hp⟩
    | out => exact ⟨.out, hp⟩
  | wipe =>
    cases p with
    | buf => exact absurd hp (hw rfl)
    | hand u => exact ⟨.hand u, hp⟩
    | out => exact ⟨.out, hp⟩

/-- **Nothing is lost**: every item that has arrived is somewhere, as long as nothing is refused, lost or
wiped. -/
theorem held_move_of_mem_log (h : ∀ x ∈ P.log, Held P x) (hw : m ≠ .wipe) (hl : ∀ t, m ≠ .lose t)
    (hr : ∀ x, m ≠ .refuse x) (hx : x ∈ (P.move m).log) : Held (P.move m) x := by
  rw [log_move, List.mem_append, Option.mem_toList] at hx
  rcases hx with hx | hx
  · exact (h x hx).move (fun hm => absurd hm hw) fun t hm => absurd hm (hl t)
  · -- the item that arrives
    cases m with
    | insert y => cases hx; exact ⟨.buf, List.mem_append_right _ (List.mem_singleton_self x)⟩
    | direct y => cases hx; exact ⟨.out, List.mem_append_right _ (List.mem_singleton_self x)⟩
    | refuse y => exact absurd rfl (hr y)
    | _ => cases hx

/-- What is in the buffer after a move was there, or has just arrived. -/
theorem mem_buf_move (hx : x ∈ (P.move m).buf) : x ∈ P.buf ∨ m.arrival = some x := by
  cases m with
  | insert y =>
    rcases List.mem_append.mp hx with hx | hx
    · exact .inl hx
    · exact .inr (by rw [List.mem_singleton.mp hx]; rfl)
  | drain t => exact absurd hx List.not_mem_nil
  | wipe => exact absurd hx List.not_mem_nil
  | _ => exact .inl hx

theorem not_mem_move (ho : x ∉ P.out) (hh : ∀ u, x ∉ P.hand u) (hd : ∀ t, m ≠ .drain t)
    (ha : m.arrival ≠ some x) : x ∉ (P.move m).out ∧ ∀ u, x ∉ (P.move m).hand u := by
  cases m with
  | direct y =>
    refine ⟨fun hx => ?_, hh⟩
    rcases List.mem_append.mp hx with hx | hx
    · exact ho hx
    · exact ha (by rw [List.mem_singleton.mp hx]; rfl)
  | drain t => exact absurd rfl (hd t)
  | deliver t =>
    refine ⟨fun hx => ?_, fun u hu => ?_⟩
    · rcases List.mem_append.mp hx with hx | hx
      · exact ho hx
      · exact hh t hx
    · rw [hand_deliver] at hu
      split_ifs at hu
      · exact absurd hu List.not_mem_nil
      · exact hh u hu
  | lose t =>
    refine ⟨ho, fun u hu => ?_⟩
    rw [hand_lose] at hu
    split_ifs at hu
    · exact absurd hu List.not_mem_nil
    · exact hh u hu
  | _ => exact ⟨ho, hh⟩

omit [DecidableEq τ] in
/-- **What is out**: the held items that are neither in the buffer nor in anyone's hands. -/
theorem Apart.mem_out_iff (h : Apart P) (hx : Held P x) :
    x ∈ P.out ↔ x ∉ P.buf ∧ ∀ t, x ∉ P.hand t := by
  constructor
  · intro ho
    constructor
    · intro hb; exact absurd (h.once x .out .buf ho hb) (by simp)
    · intro t ht; exact absurd (h.once x .out (.hand t) ho ht) (by simp)
  · rintro ⟨hb, hh⟩
    obtain ⟨p, hp⟩ := hx
    cases p with
    | buf => exact absurd hp hb
    | hand t => exact absurd hp (hh t)
    | out => exact hp

/-! ### Every item once -/

/-- No place has an item twice. -/
def Distinct (P : Pipe ρ τ) : Prop := ∀ p, (P.items p).Nodup

omit [DecidableEq τ] in
theorem distinct_empty : Distinct (empty : Pipe ρ τ) := by
  intro p
  cases p <;> exact List.nodup_nil

omit [DecidableEq τ] in
theorem Apart.disjoint (h : Apart P) (p q : Place τ) (hpq : p ≠ q) : (P.items p).Disjoint (P.items q) :=
  fun x hp hq => hpq (h.once x p q hp hq)

/-- **Every move keeps the places free of repetitions**, if what arrives is fresh. -/
theorem Distinct.move (h : Distinct P) (ha : Apart P) (hm : ∀ x, m.arrival = some x → x ∉ P.log) :
    Distinct (P.move m) := by
  have hfresh : ∀ {x : ρ} (p : Place τ), m.arrival = some x → (P.items p ++ [x]).Nodup := by
    intro x p hx
    refine (h p).append (List.nodup_singleton x) fun y hy hyx => ?_
    cases List.mem_singleton.mp hyx
    exact hm _ hx (ha.logged _ p hy)
  have hand : ∀ {t u : τ} {l : List ρ}, l.Nodup → (Function.update P.hand t l u).Nodup := by
    intro t u l hl
    by_cases hu : u = t
    · rw [hu, Function.update_self]
      exact hl
    · rw [Function.update_of_ne hu]
      exact h (.hand u)
  intro p
  cases p with
  | buf =>
    cases m with
    | insert x => exact hfresh .buf rfl
    | drain t => exact List.nodup_nil
    | wipe => exact List.nodup_nil
    | _ => exact h .buf
  | hand u =>
    cases m with
    | drain t => exact hand ((h (.hand t)).append (h .buf) (ha.disjoint (.hand t) .buf (by rintro ⟨⟩)))
    | deliver t => exact hand List.nodup_nil
    | lose t => exact hand List.nodup_nil
    | _ => exact h (.hand u)
  | out =>
    cases m with
    | direct x => exact hfresh .out rfl
    | deliver t => exact (h .out).append (h (.hand t)) (ha.disjoint .out (.hand t) (by rintro ⟨⟩))
    | _ => exact h .out

omit [DecidableEq τ] in
/-- **Every item once**: if no item has been lost, the items are those that are out, those in the buffer, and some
that are in the hands of the parties. -/
theorem Apart.exists_perm [DecidableEq ρ] (h : Apart P) (hd : Distinct P) (hh : ∀ x ∈ P.log, Held P x) :
    ∃ rest, (P.out ++ P.buf ++ rest).Perm P.log ∧ ∀ x ∈ rest, ∃ t, x ∈ P.hand t := by
  have hnodup : (P.out ++ P.buf).Nodup := (hd .out).append (hd .buf) (h.disjoint .out .buf (by rintro ⟨⟩))
  refine ⟨P.log.filter (· ∉ P.out ++ P.buf), (List.perm_ext_iff_of_nodup ?_ h.nodup).mpr fun x => ?_, fun x hx => ?_⟩
  · refine hnodup.append (h.nodup.filter _) fun x hx hx' => ?_
    exact of_decide_eq_true (List.mem_filter.mp hx').2 hx
  · rw [List.mem_append, List.mem_filter, decide_eq_true_iff]
    constructor
    · rintro (hx | hx)
      · rcases List.mem_append.mp hx with hx | hx
        · exact h.logged x .out hx
        · exact h.logged x .buf hx
      · exact hx.1
    · exact fun hx => (em (x ∈ P.out ++ P.buf)).imp_right fun hn => ⟨hx, hn⟩
  · obtain ⟨hx, hn⟩ := List.mem_filter.mp hx
    obtain ⟨p, hp⟩ := hh x hx
    have hn := of_decide_eq_true hn
    cases p with
    | buf => exact absurd (List.mem_append_right _ hp) hn
    | hand t => exact ⟨t, hp⟩
    | out => exact absurd (List.mem_append_left _ hp) hn

/-! ### The order -/

/-- **Out in order**: at most one party holds items, and what is out, what it holds and what is in the
buffer follow each other as they arrived. -/
structure InOrder (P : Pipe ρ τ) : Prop where
  single : ∀ t u, P.hand t ≠ [] → P.hand u ≠ [] → t = u
  order : ∀ t, (P.out ++ P.hand t ++ P.buf).Sublist P.log

omit [DecidableEq τ] in
theorem inOrder_empty : InOrder (empty : Pipe ρ τ) :=
  ⟨fun _ _ h => absurd rfl h, fun _ => List.Sublist.refl _⟩

omit [DecidableEq τ] in
theorem InOrder.out_sublist [Inhabited τ] (h : InOrder P) : P.out.Sublist P.log :=
  ((List.sublist_append_left _ _).trans (List.sublist_append_left _ _)).trans (h.order default)

theorem move_drain_nil (t : τ) (h : P.buf = []) : P.move (.drain t) = P := by
  have hh : Function.update P.hand t (P.hand t ++ P.buf) = P.hand := by
    rw [h, List.append_nil, Function.update_eq_self]
  rw [Pipe.move, hh, ← h]

/-- **A move keeps the order**, unless an item is let out past the buffer, or the buffer is drained while
another party holds items. -/
theorem InOrder.move (h : InOrder P) (hd : ∀ x, m ≠ .direct x)
    (hdrain : ∀ t, m = .drain t → P.buf ≠ [] → ∀ u, u ≠ t → P.hand u = []) :
    InOrder (P.move m) := by
  cases m with
  | stay => exact h
  | insert x =>
    refine ⟨h.single, fun t => ?_⟩
    show (P.out ++ P.hand t ++ (P.buf ++ [x])).Sublist (P.log ++ [x])
    rw [← List.append_assoc]
    exact (h.order t).append (List.Sublist.refl _)
  | direct x => exact absurd rfl (hd x)
  | refuse x => exact ⟨h.single, fun t => (h.order t).trans (List.sublist_append_left _ _)⟩
  | drain t =>
    by_cases hb : P.buf = []
    · rw [move_drain_nil t hb]; exact h
    have hne := hdrain t rfl hb
    have hne' : ∀ u, u ≠ t → (P.move (.drain t)).hand u = [] := fun u hu => by
      simp only [Pipe.move, Function.update_of_ne hu, hne u hu]
    refine ⟨fun u v hu hv => ?_, fun u => ?_⟩
    · rw [not_imp_comm.mp (hne' u) hu, not_imp_comm.mp (hne' v) hv]
    · show (P.out ++ (P.move (.drain t)).hand u ++ []).Sublist P.log
      rw [List.append_nil]
      by_cases hu : u = t
      · subst hu
        have he : (P.move (.drain u)).hand u = P.hand u ++ P.buf := Function.update_self ..
        rw [he, ← List.append_assoc]
        exact h.order u
      · rw [hne' u hu, List.append_nil]
        exact ((List.sublist_append_left _ _).trans (List.sublist_append_left _ _)).trans (h.order t)
  | deliver t =>
    have hhand : ∀ u, P.hand t ++ (P.move (.deliver t)).hand u = P.hand t ∨
        P.hand t = [] ∧ (P.move (.deliver t)).hand u = P.hand u := by
      intro u
      by_cases hu : u = t
      · subst hu; left; simp [Pipe.move]
      · simp only [Pipe.move, Function.update_of_ne hu]
        by_cases ht : P.hand t = []
        · exact .inr ⟨ht, trivial⟩
        · have : P.hand u = [] := by
            by_contra hc
            exact hu (h.single u t hc ht)
          exact .inl (by rw [this, List.append_nil])
    refine ⟨fun u v hu hv => ?_, fun u => ?_⟩
    · have hsub : ∀ w, (P.move (.deliver t)).hand w ≠ [] → P.hand w ≠ [] := by
        intro w hw h0
        by_cases hwt : w = t
        · subst hwt; exact hw (by simp [Pipe.move])
        · exact hw (by simpa only [Pipe.move, Function.update_of_ne hwt] using h0)
      exact h.single u v (hsub u hu) (hsub v hv)
    · show (P.out ++ P.hand t ++ (P.move (.deliver t)).hand u ++ P.buf).Sublist P.log
      rw [List.append_assoc P.out]
      rcases hhand u with he | ⟨ht, he⟩
      · rw [he]; exact h.order t
      · rw [ht, he, List.nil_append]; exact h.order u
  | lose t =>
    have hsub : ∀ u, ((P.move (.lose t)).hand u).Sublist (P.hand u) := by
      intro u
      by_cases hu : u = t
      · subst hu; simp [Pipe.move]
      · simp [Pipe.move, Function.update_of_ne hu]
    refine ⟨fun u v hu hv => h.single u v (fun h0 => hu ?_) (fun h0 => hv ?_), fun u => ?_⟩
    · exact List.sublist_nil.mp (h0 ▸ hsub u)
    · exact List.sublist_nil.mp (h0 ▸ hsub v)
    · exact (((List.Sublist.refl _).append (hsub u)).append (List.Sublist.refl _)).trans (h.order u)
  | wipe =>
    refine ⟨h.single, fun t => ?_⟩
    exact ((List.Sublist.refl _).append (List.nil_sublist _)).trans (h.order t)

omit [DecidableEq τ] in
/-- Two items do not stand in both orders in a list without repetition. -/
theorem not_swapped {l : List ρ} (hl : l.Nodup) {y : ρ} (h : [x, y].Sublist l) :
    ¬ [y, x].Sublist l := by
  induction l with
  | nil => simp at h
  | cons z l ih =>
    obtain ⟨hz, hl⟩ := List.nodup_cons.mp hl
    intro h'
    rcases List.sublist_cons_iff.mp h with h | ⟨r, hr, hr'⟩
    · rcases List.sublist_cons_iff.mp h' with h' | ⟨r, hr, -⟩
      · exact ih hl h h'
      · exact hz ((List.cons.inj hr).1 ▸ h.subset (by simp))
    · obtain ⟨rfl, rfl⟩ := List.cons.inj hr
      rcases List.sublist_cons_iff.mp h' with h' | ⟨r, hr, hr''⟩
      · exact hz (h'.subset (by simp))
      · obtain ⟨rfl, rfl⟩ := List.cons.inj hr
        exact hz (hr'.subset (by simp))

/-- **Overtaking.** If the buffer is drained while another party holds items, the later items can be let
out first. -/
theorem InOrder.overtaken (h : InOrder P) (hn : P.log.Nodup) {t u : τ} (htu : t ≠ u)
    (ht : P.hand t ≠ []) (hb : P.buf ≠ []) :
    ¬ (((P.move (.drain u)).move (.deliver u)).move (.deliver t)).out.Sublist P.log := by
  obtain ⟨x, hx⟩ := List.exists_mem_of_ne_nil _ ht
  obtain ⟨y, hy⟩ := List.exists_mem_of_ne_nil _ hb
  have hu : P.hand u = [] := by
    by_contra hc
    exact htu (h.single t u ht hc)
  have hout : (((P.move (.drain u)).move (.deliver u)).move (.deliver t)).out =
      P.out ++ (P.buf ++ P.hand t) := by
    simp [Pipe.move, Function.update_of_ne htu, hu]
  have hxy : [x, y].Sublist (P.hand t ++ P.buf) :=
    (List.singleton_sublist.mpr hx).append (List.singleton_sublist.mpr hy)
  have hyx : [y, x].Sublist (P.buf ++ P.hand t) :=
    (List.singleton_sublist.mpr hy).append (List.singleton_sublist.mpr hx)
  have hord : [x, y].Sublist P.log := by
    refine hxy.trans (List.Sublist.trans ?_ (h.order t))
    rw [List.append_assoc]
    exact List.sublist_append_right _ _
  rw [hout]
  intro hs
  exact not_swapped hn hord ((hyx.trans (List.sublist_append_right _ _)).trans hs)

end MTAppenderFile.Lib.Handover
