import MTAppenderFile.Loglib.Changes

/-! # The life of an appender

An appender is made by one call of `mtaf_log_appender_create`, then the program has it, and one call of
`mtaf_log_appender_destroy` deletes it. `listed` says of the two functions at which points the appender is in
`shared_appenders()`.

In every reachable state (`lives_of_reach`) an appender that has not been deleted belongs to the program or to one
such call; the list has every appender with the shared thread that the program has, once, and no deleted one; and
an appender that is still being made is closed and has no buffer. -/

namespace MTAppenderFile.Loglib.World

open MTAppenderFile.Lib.Run
open MTAppenderFile.Lib.Vector
open MTAppenderFile.Lib.Vector.Vec
open MTAppenderFile.Comm.CTypes
open MTAppenderFile.Loglib.Base
open MTAppenderFile.Loglib.Files
open MTAppenderFile.Loglib.Formatter
open MTAppenderFile.Loglib.Appender

/-- In `create`, with the shared thread. -/
def CreatePc.listed : CreatePc → Bool
  | .spinLock => false
  | .push => false
  | _ => true

/-- In `destroy`, with the shared thread. -/
def DestroyPc.listed : DestroyPc → Bool
  | .spinUnlock => false
  | .delete => false
  | _ => true

/-- A thread that makes or deletes `m`, and whether `m` is in `shared_appenders()`, if it is to be there at
all. -/
def listed (m : Mlog) : Pc → Option Bool
  | .create n pc => if n = m then some pc.listed else none
  | .destroy n pc => if n = m then some pc.listed else none
  | _ => none

/-- The appender that a function of the program was called on. -/
def Fn.mlog : Fn → Option Mlog
  | .create m => some m
  | .open m _ _ _ => some m
  | .append m _ _ => some m
  | .setmode m _ => some m
  | .flush m => some m
  | .flushSync m => some m
  | .close m => some m
  | .destroy m => some m
  | _ => none

theorem mlog_of_opens {m : Mlog} {f : Fn} (h : f.Opens m) : f.mlog = some m := by
  obtain ⟨_, _, _, rfl⟩ := h
  rfl

theorem mlog_of_closes {m : Mlog} {f : Fn} (h : f.Closes m) : f.mlog = some m := by
  rcases h with rfl | rfl
  · rfl
  · rfl

/-- The list has `m` if the thread at `b` says so. -/
def InList (w : State) (m : Mlog) (b : Bool) : Prop :=
  m.useShareThread = true → (m ∈ w.sharedAppenders.items ↔ b = true)

/-- **The appenders and those who have them.** -/
structure Lives (w : State) : Prop where
  bound : ∀ m, w.alive m = true → m.id < w.created
  user : ∀ t m, (w.pc t).fn.mlog = some m → m.id < w.created
  given : ∀ m, w.given m = true → w.alive m = true ∧ InList w m true
  custody : ∀ t m b, listed m (w.pc t) = some b →
    w.alive m = true ∧ w.given m = false ∧ InList w m b
  unique : ∀ t u m b b', listed m (w.pc t) = some b → listed m (w.pc u) = some b' → t = u
  kept : ∀ m, w.alive m = true → w.given m = true ∨ ∃ t b, listed m (w.pc t) = some b
  items : ∀ m ∈ w.sharedAppenders.items, w.alive m = true ∧ m.useShareThread = true
  nodup : w.sharedAppenders.items.Nodup
  shares : ∀ t m, w.pc t = .create m .spinLock ∨ w.pc t = .create m .push → m.useShareThread = true
  fresh : ∀ t m, (w.pc t).fn = .create m → (w.apps m).sgLogClose = true ∧ (w.apps m).sgLogBuff = none ∧
    ∀ u, (w.pc u).fn.mlog = some m → u = t

/-- **A step in the life of an appender**: its thread goes from `pc` to `pc'`. -/
inductive LifeMove (w w₁ : State) : Pc → Pc → Prop
  | stay {pc pc' : Pc} (ha : w₁.alive = w.alive) (hg : w₁.given = w.given)
      (hi : w₁.sharedAppenders.items = w.sharedAppenders.items) (hl : ∀ m, listed m pc' = listed m pc) :
      LifeMove w w₁ pc pc'
  | push {m : Mlog} (ha : w₁.alive = w.alive) (hg : w₁.given = w.given)
      (hi : w₁.sharedAppenders.items = w.sharedAppenders.items ++ [m]) :
      LifeMove w w₁ (.create m .push) (.create m .spinUnlock)
  | give {m : Mlog} (ha : w₁.alive = w.alive) (hg : w₁.given = Function.update w.given m true)
      (hi : w₁.sharedAppenders.items = w.sharedAppenders.items) : LifeMove w w₁ (.create m .give) .idle
  | erase {m : Mlog} (ha : w₁.alive = w.alive) (hg : w₁.given = w.given)
      (hi : w₁.sharedAppenders.items = w.sharedAppenders.items.erase m) :
      LifeMove w w₁ (.destroy m .erase) (.destroy m .spinUnlock)
  | delete {m : Mlog} (ha : w₁.alive = Function.update w.alive m false) (hg : w₁.given = w.given)
      (hi : w₁.sharedAppenders.items = w.sharedAppenders.items) : LifeMove w w₁ (.destroy m .delete) .idle

section Life

variable {lc : Libc} {env : Env} {t u : Tid} {w w₁ w' : State} {m : Mlog} {st : Stmt} {pc pc' : Pc} {f : Fn}

theorem Effect.life_eq (he : Effect lc env t w st w₁ pc) (hby : st.By f) (hc : ∀ m, f ≠ .create m)
    (hd : ∀ m, f ≠ .destroy m) : w₁.alive = w.alive ∧ w₁.given = w.given ∧
      w₁.sharedAppenders.items = w.sharedAppenders.items := by
  refine ⟨?_, ?_, ?_⟩
  · rcases he.alive with h | ⟨m, rfl, -⟩
    · exact h
    · exact absurd hby (hd m)
  · rcases he.given with h | ⟨m, rfl, -⟩
    · exact h
    · exact absurd hby (hc m)
  · rcases he.sharedAppenders with h | ⟨m, k, rfl, -⟩ | ⟨m, k, rfl, -⟩
    · rw [h]
    · exact absurd hby (hc m)
    · exact absurd hby (hd m)

theorem listed_eq_none (hc : ∀ m, pc.fn ≠ .create m) (hd : ∀ m, pc.fn ≠ .destroy m) (m : Mlog) :
    listed m pc = none := by
  cases pc with
  | create n c => exact absurd rfl (hc n)
  | destroy n d => exact absurd rfl (hd n)
  | _ => rfl

/-- **The steps in the life of an appender.** -/
theorem Effect.life (he : Effect lc env t w (code (w.pc t)) w₁ pc) : LifeMove w w₁ (w.pc t) pc := by
  generalize w.pc t = pc₀ at he
  have hother : (∀ m, pc₀.fn ≠ .create m) → (∀ m, pc₀.fn ≠ .destroy m) → LifeMove w w₁ pc₀ pc := by
    intro hc hd
    obtain ⟨ha, hg, hi⟩ := he.life_eq (code_by pc₀) hc hd
    refine .stay ha hg hi fun m => ?_
    rw [listed_eq_none hc hd]
    rcases he.leads (code_leads_fn pc₀) with rfl | hfn
    · rfl
    · exact listed_eq_none (by rwa [hfn]) (by rwa [hfn]) m
  cases pc₀ with
  | create n c =>
    cases c with
    | push =>
      cases he with
      | vec h =>
        cases h
        exact .push rfl rfl (items_pushBack ..)
    | give =>
      cases he
      exact .give rfl rfl rfl
    | _ =>
      cases he
      exact .stay rfl rfl rfl fun m => rfl
  | destroy n d =>
    cases d with
    | close c =>
      have hby : (code (.destroy n (.close c))).By (.close n) := by
        rw [code, destroyCode]
        exact closeCode_by (.inl rfl) c
      obtain ⟨ha, hg, hi⟩ := he.life_eq hby (by rintro m ⟨⟩) (by rintro m ⟨⟩)
      have hl : (code (.destroy n (.close c))).Leads fun pc =>
          ∀ m, listed m pc = listed m (.destroy n .spinLock) := by
        rw [code, destroyCode]
        refine closeCode_leads (fun c m => rfl) ?_ c
        split_ifs <;> exact fun m => rfl
      exact .stay ha hg hi (he.leads hl)
    | erase =>
      cases he with
      | vec h =>
        cases h
        exact .erase rfl rfl (items_erase ..)
    | delete =>
      cases he
      exact .delete rfl rfl rfl
    | _ =>
      cases he
      exact .stay rfl rfl rfl fun m => rfl
  | _ => exact hother (by rintro m ⟨⟩) (by rintro m ⟨⟩)

theorem Synced.listed_of_ne (hs : Synced w) (he : Effect lc env t w (code (w.pc t)) w₁ pc) (hu : u ≠ t) :
    listed m ((w₁.goto t pc).pc u) = listed m (w.pc u) := by
  refine hs.eq_of_ne he hu ?_
  rintro pc ⟨a, hfn⟩
  cases pc <;> first | rfl | cases hfn

theorem Synced.mlog_of_ne (hs : Synced w) (he : Effect lc env t w (code (w.pc t)) w₁ pc) (hu : u ≠ t) :
    ((w₁.goto t pc).pc u).fn.mlog = (w.pc u).fn.mlog := by
  refine hs.eq_of_ne he hu (g := fun pc => pc.fn.mlog) ?_
  rintro pc ⟨a, hfn⟩
  rw [hfn]
  rfl

theorem Synced.mlog_prev (hs : Synced w) (he : Effect lc env t w (code (w.pc t)) w₁ pc)
    (hu : ((w₁.goto t pc).pc u).fn.mlog = some m) : (w.pc u).fn.mlog = some m := by
  by_cases hut : u = t
  · rw [hut, goto_pc_self] at hu
    rcases he.leads (code_leads_fn _) with rfl | hfn
    · cases hu
    · rw [hut, ← hfn, hu]
  · exact (hs.mlog_of_ne he hut).symm.trans hu

theorem LifeMove.alive_of (h : LifeMove w w₁ pc pc') (ha : w₁.alive m = true) : w.alive m = true := by
  cases h with
  | @delete n ha' =>
    rw [ha', Function.update_apply] at ha
    split_ifs at ha
    exact ha
  | stay ha' | push ha' | give ha' | erase ha' => rwa [ha'] at ha

theorem LifeMove.listed_of (h : LifeMove w w₁ pc pc') {b : Bool} (hl : listed m pc' = some b) :
    ∃ b₀, listed m pc = some b₀ := by
  cases h with
  | stay _ _ _ hl' => exact ⟨b, (hl' m).symm.trans hl⟩
  | push | erase =>
    rw [listed, Option.ite_none_right_eq_some] at hl
    exact ⟨_, if_pos hl.1⟩
  | give | delete => cases hl

theorem LifeMove.frame (h : LifeMove w w₁ pc pc') (hn : listed m pc = none) :
    w₁.alive m = w.alive m ∧ w₁.given m = w.given m ∧
      (m ∈ w₁.sharedAppenders.items ↔ m ∈ w.sharedAppenders.items) := by
  have hne : ∀ {n c d}, pc = .create n c ∨ pc = .destroy n d → m ≠ n := by
    rintro n c d (rfl | rfl) rfl
    · rw [listed, if_pos rfl] at hn
      cases hn
    · rw [listed, if_pos rfl] at hn
      cases hn
  cases h with
  | stay ha hg hi => exact ⟨by rw [ha], by rw [hg], by rw [hi]⟩
  | @push n ha hg hi =>
    have hmn : m ≠ n := hne (d := .delete) (.inl rfl)
    exact ⟨by rw [ha], by rw [hg], by rw [hi]; simp [hmn]⟩
  | @give n ha hg hi =>
    have hmn : m ≠ n := hne (d := .delete) (.inl rfl)
    exact ⟨by rw [ha], by rw [hg, Function.update_of_ne hmn], by rw [hi]⟩
  | @erase n ha hg hi =>
    have hmn : m ≠ n := hne (c := .give) (.inr rfl)
    exact ⟨by rw [ha], by rw [hg], by rw [hi, List.mem_erase_of_ne hmn]⟩
  | @delete n ha hg hi =>
    have hmn : m ≠ n := hne (c := .give) (.inr rfl)
    exact ⟨by rw [ha, Function.update_of_ne hmn], by rw [hg], by rw [hi]⟩

theorem AppOp.Spec.fresh {α : Type} {op : AppOp α} {a : α} {x y : LogAppender} (h : op.Spec x y a)
    (hby : op.By m f) (ho : ¬ f.Opens m) (hc : x.sgLogClose = true ∧ x.sgLogBuff = none) :
    y.sgLogClose = true ∧ y.sgLogBuff = none := by
  obtain ⟨hflag, hbuff⟩ := hc
  constructor
  · rw [h.sgLogClose, hflag]
    cases op with
    | storeClose b =>
      cases b with
      | false => exact absurd hby ho
      | true => rfl
    | _ => rfl
  · cases op with
    | insert =>
      obtain ⟨_, _, hb, -⟩ := h
      cases hbuff.symm.trans hb
    | drain =>
      obtain ⟨_, hb, -⟩ := h
      cases hbuff.symm.trans hb
    | buff => exact absurd hby ho
    | free => rw [h]
    | _ => rw [h.sgLogBuff rfl, hbuff]

theorem Lives.own (h : Lives w) (hm : LifeMove w w₁ (w.pc t) pc) {b : Bool} (hl : listed m (w.pc t) = some b) :
    (∃ b', listed m pc = some b' ∧ w₁.alive m = true ∧ w₁.given m = false ∧ InList w₁ m b') ∨
      (listed m pc = none ∧ w₁.alive m = true ∧ w₁.given m = true ∧ InList w₁ m true) ∨
      listed m pc = none ∧ w₁.alive m = false ∧ w₁.given m = false ∧ m ∉ w₁.sharedAppenders.items := by
  obtain ⟨ha₀, hg₀, hi₀⟩ := h.custody t m b hl
  generalize hpc : w.pc t = pc₀ at hm hl
  cases hm with
  | stay ha hg hi hl' =>
    refine .inl ⟨b, (hl' m).trans hl, by rw [ha, ha₀], by rw [hg, hg₀], fun hs => ?_⟩
    rw [hi]
    exact hi₀ hs
  | @push n ha hg hi =>
    rw [listed, Option.ite_none_right_eq_some] at hl
    obtain ⟨rfl, -⟩ := hl
    exact .inl ⟨true, if_pos rfl, by rw [ha, ha₀], by rw [hg, hg₀], fun _ => by rw [hi]; simp⟩
  | @give n ha hg hi =>
    rw [listed, Option.ite_none_right_eq_some] at hl
    obtain ⟨rfl, hb⟩ := hl
    cases hb
    exact .inr (.inl ⟨rfl, by rw [ha, ha₀], by rw [hg, Function.update_self], fun hs => by rw [hi]; exact hi₀ hs⟩)
  | @erase n ha hg hi =>
    rw [listed, Option.ite_none_right_eq_some] at hl
    obtain ⟨rfl, -⟩ := hl
    refine .inl ⟨false, if_pos rfl, by rw [ha, ha₀], by rw [hg, hg₀], fun _ => ?_⟩
    rw [hi]
    exact iff_of_false h.nodup.not_mem_erase Bool.false_ne_true
  | @delete n ha hg hi =>
    rw [listed, Option.ite_none_right_eq_some] at hl
    obtain ⟨rfl, hb⟩ := hl
    cases hb
    refine .inr (.inr ⟨rfl, by rw [ha, Function.update_self], by rw [hg, hg₀], fun hmem => ?_⟩)
    rw [hi] at hmem
    exact Bool.false_ne_true ((hi₀ (h.items n hmem).2).mp hmem)

theorem Lives.places (h : Lives w) (hs : Synced w) (he : Effect lc env t w (code (w.pc t)) w₁ pc) (m : Mlog) :
    (w₁.given m = true → w₁.alive m = true ∧ InList w₁ m true) ∧
      (∀ u b, listed m ((w₁.goto t pc).pc u) = some b →
        w₁.alive m = true ∧ w₁.given m = false ∧ InList w₁ m b) ∧
      (w₁.alive m = true → w₁.given m = true ∨ ∃ u b, listed m ((w₁.goto t pc).pc u) = some b) ∧
      (m ∈ w₁.sharedAppenders.items → w₁.alive m = true) := by
  have hm := he.life
  have hself : listed m ((w₁.goto t pc).pc t) = listed m pc := by rw [goto_pc_self]
  cases hl : listed m (w.pc t) with
  | none =>
    obtain ⟨ha, hg, hi⟩ := hm.frame hl
    have hin : ∀ b, InList w m b → InList w₁ m b := fun b hb hsh => hi.trans (hb hsh)
    have hpc : ∀ b, listed m pc ≠ some b := fun b hb => by
      obtain ⟨b₀, hb₀⟩ := hm.listed_of hb
      cases hl.symm.trans hb₀
    have hother : ∀ u b, listed m ((w₁.goto t pc).pc u) = some b ↔ listed m (w.pc u) = some b := by
      intro u b
      by_cases hu : u = t
      · rw [hu, hself, hl]
        exact iff_of_false (hpc b) (by rintro ⟨⟩)
      · rw [hs.listed_of_ne he hu]
    rw [ha, hg]
    refine ⟨fun hgv => ⟨(h.given m hgv).1, hin _ (h.given m hgv).2⟩, fun u b hu => ?_, fun hal => ?_,
      fun hmem => (h.items m (hi.mp hmem)).1⟩
    · obtain ⟨ha', hg', hi'⟩ := h.custody u m b ((hother u b).mp hu)
      exact ⟨ha', hg', hin b hi'⟩
    · exact (h.kept m hal).imp_right fun ⟨u, b, hu⟩ => ⟨u, b, (hother u b).mpr hu⟩
  | some b =>
    -- nobody else has the appender
    have honly : ∀ u b', listed m ((w₁.goto t pc).pc u) = some b' → u = t := by
      intro u b' hu
      by_contra hne
      rw [hs.listed_of_ne he hne] at hu
      exact hne (h.unique u t m b' b hu hl)
    rcases h.own hm hl with ⟨b', hb', ha, hg, hi⟩ | ⟨hn, ha, hg, hi⟩ | ⟨hn, ha, hg, hi⟩
    · refine ⟨fun hgv => absurd (hg.symm.trans hgv) Bool.false_ne_true, fun u b'' hu => ?_,
        fun _ => .inr ⟨t, b', hself.trans hb'⟩, fun _ => ha⟩
      rw [honly u b'' hu, hself, hb', Option.some_inj] at hu
      exact ⟨ha, hg, hu ▸ hi⟩
    · refine ⟨fun _ => ⟨ha, hi⟩, fun u b'' hu => ?_, fun _ => .inl hg, fun _ => ha⟩
      rw [honly u b'' hu, hself, hn] at hu
      cases hu
    · refine ⟨fun hgv => absurd (hg.symm.trans hgv) Bool.false_ne_true, fun u b'' hu => ?_,
        fun hal => absurd (ha.symm.trans hal) Bool.false_ne_true, fun hmem => absurd hmem hi⟩
      rw [honly u b'' hu, hself, hn] at hu
      cases hu

theorem Lives.list (h : Lives w) (hm : LifeMove w w₁ (w.pc t) pc) :
    (∀ m ∈ w₁.sharedAppenders.items, m.useShareThread = true) ∧ w₁.sharedAppenders.items.Nodup := by
  have hshared : ∀ m ∈ w.sharedAppenders.items, m.useShareThread = true := fun m hmem => (h.items m hmem).2
  generalize hpc : w.pc t = pc₀ at hm
  cases hm with
  | stay _ _ hi | give _ _ hi | delete _ _ hi =>
    rw [hi]
    exact ⟨hshared, h.nodup⟩
  | @push n _ _ hi =>
    have hsh : n.useShareThread = true := h.shares t n (.inr hpc)
    have hlist : listed n (w.pc t) = some false := by
      rw [hpc]
      exact if_pos rfl
    have hn : n ∉ w.sharedAppenders.items := fun hmem =>
      Bool.false_ne_true (((h.custody t n false hlist).2.2 hsh).mp hmem)
    rw [hi]
    refine ⟨fun m hmem => ?_, List.nodup_append.mpr ⟨h.nodup, by simp, ?_⟩⟩
    · rcases List.mem_append.mp hmem with hmem | hmem
      · exact hshared m hmem
      · rw [List.mem_singleton.mp hmem]
        exact hsh
    · rintro a ha b hb rfl
      rw [List.mem_singleton.mp hb] at ha
      exact hn ha
  | @erase n _ _ hi =>
    rw [hi]
    exact ⟨fun m hmem => hshared m (List.mem_of_mem_erase hmem), h.nodup.erase n⟩

theorem Effect.create_prev (he : Effect lc env t w (code (w.pc t)) w₁ pc)
    (h : pc = .create m .spinLock ∨ pc = .create m .push) : w.pc t = .create m .spinLock := by
  generalize w.pc t = pc₀ at he ⊢
  have hfn : pc₀.fn = .create m := by
    rcases he.leads (code_leads_fn pc₀) with rfl | hfn
    · rcases h with h | h <;> cases h
    · rw [← hfn]
      rcases h with rfl | rfl <;> rfl
  cases pc₀ with
  | create n c =>
    cases hfn
    cases c with
    | spinLock => rfl
    | _ =>
      cases he
      rcases h with h | h <;> cases h
  | _ => cases hfn

theorem Lives.fresh_run (h : Lives w) (hs : Synced w) (he : Effect lc env t w (code (w.pc t)) w₁ pc)
    (hu : ((w₁.goto t pc).pc u).fn = .create m) :
    (w₁.apps m).sgLogClose = true ∧ (w₁.apps m).sgLogBuff = none ∧
      ∀ v, ((w₁.goto t pc).pc v).fn.mlog = some m → v = u := by
  have hcreate : (w.pc u).fn = .create m := by
    by_cases hut : u = t
    · rw [hut, goto_pc_self] at hu
      rcases he.leads (code_leads_fn _) with rfl | hfn
      · cases hu
      · rw [hut, ← hfn, hu]
    · rwa [hs.eq_of_ne he hut (g := fun pc => pc.fn = .create m)] at hu
      rintro pc ⟨a, hfn⟩
      refine propext (iff_of_false ?_ (by rintro ⟨⟩))
      rw [hfn]
      rintro ⟨⟩
  obtain ⟨hflag, hbuff, honly⟩ := h.fresh u m hcreate
  have hopens : ¬ (w.pc t).fn.Opens m := by
    rintro ⟨mode, filedir, filename, hfn⟩
    have htu : t = u := honly t (by rw [hfn]; rfl)
    rw [htu, hcreate] at hfn
    cases hfn
  suffices hf : (w₁.apps m).sgLogClose = true ∧ (w₁.apps m).sgLogBuff = none from
    ⟨hf.1, hf.2, fun v hv => honly v (hs.mlog_prev he hv)⟩
  rcases he.spec m with happ | ⟨α, op, k, a, hst, -, hspec⟩
  · rw [happ]
    exact ⟨hflag, hbuff⟩
  · have hby := code_by (w.pc t)
    rw [hst] at hby
    exact hspec.fresh hby hopens ⟨hflag, hbuff⟩

theorem Lives.run (h : Lives w) (hs : Synced w) (he : Effect lc env t w (code (w.pc t)) w₁ pc) :
    Lives (w₁.goto t pc) where
  bound := fun m ha => by
    show m.id < w₁.created
    rw [he.created]
    exact h.bound m (he.life.alive_of ha)
  user := by
    intro u m hu
    show m.id < w₁.created
    rw [he.created]
    exact h.user u m (hs.mlog_prev he hu)
  given := fun m => (h.places hs he m).1
  custody := fun u m b => (h.places hs he m).2.1 u b
  unique := by
    intro u v m b b' hu hv
    have hback : ∀ {u b}, listed m ((w₁.goto t pc).pc u) = some b → ∃ b₀, listed m (w.pc u) = some b₀ := by
      intro u b hu
      by_cases hut : u = t
      · rw [hut, goto_pc_self] at hu
        rw [hut]
        exact he.life.listed_of hu
      · exact ⟨b, (hs.listed_of_ne he hut).symm.trans hu⟩
    obtain ⟨b₀, hu₀⟩ := hback hu
    obtain ⟨b₁, hv₁⟩ := hback hv
    exact h.unique u v m b₀ b₁ hu₀ hv₁
  kept := fun m => (h.places hs he m).2.2.1
  items := fun m hm => ⟨(h.places hs he m).2.2.2 hm, (h.list he.life).1 m hm⟩
  nodup := (h.list he.life).2
  shares := by
    intro u m hu
    by_cases hut : u = t
    · rw [hut, goto_pc_self] at hu
      exact h.shares t m (.inl (he.create_prev hu))
    · refine h.shares u m ?_
      rwa [hs.eq_of_ne he hut (g := fun pc => pc = .create m .spinLock ∨ pc = .create m .push)] at hu
      rintro pc ⟨a, hfn⟩
      refine propext (iff_of_false ?_ (by simp))
      rintro (rfl | rfl) <;> cases hfn
  fresh := fun u m hu => h.fresh_run hs he hu

theorem lives_init (files : Disk) (statics : FormatStatics) : Lives (.init files statics) where
  bound := by rintro m ⟨⟩
  user := by rintro t m ⟨⟩
  given := by rintro m ⟨⟩
  custody := by rintro t m b ⟨⟩
  unique := by rintro t u m b b' ⟨⟩
  kept := by rintro m ⟨⟩
  items := by rintro m ⟨⟩
  nodup := List.nodup_nil
  shares := by rintro t m (h | h) <;> cases h
  fresh := by rintro t m ⟨⟩

theorem exists_listed (hfn : pc.fn = .create m ∨ pc.fn = .destroy m) : ∃ b, listed m pc = some b := by
  cases pc with
  | create n c =>
    rcases hfn with h | h <;> cases h
    exact ⟨_, if_pos rfl⟩
  | destroy n d =>
    rcases hfn with h | h <;> cases h
    exact ⟨_, if_pos rfl⟩
  | _ => rcases hfn with h | h <;> cases h

/-- An appender that a thread makes or takes over, and that no other thread has, has one thread then. -/
theorem unique_of_entry {pcs pcs' : Tid → Pc} {t : Tid}
    (hu : ∀ u v m b b', listed m (pcs u) = some b → listed m (pcs v) = some b' → u = v)
    (ho : ∀ u, u ≠ t → pcs' u = pcs u)
    (ht : ∀ m b, listed m (pcs' t) = some b → ∀ v b', v ≠ t → listed m (pcs v) ≠ some b') :
    ∀ u v m b b', listed m (pcs' u) = some b → listed m (pcs' v) = some b' → u = v := by
  intro u v m b b' hl hl'
  by_cases hut : u = t
  · by_cases hvt : v = t
    · rw [hut, hvt]
    · rw [ho v hvt] at hl'
      rw [hut] at hl
      exact absurd hl' (ht m b hl v b' hvt)
  · rw [ho u hut] at hl
    by_cases hvt : v = t
    · rw [hvt] at hl'
      exact absurd hl (ht m b' hl' u b hut)
    · rw [ho v hvt] at hl'
      exact hu u v m b b' hl hl'

theorem fn_createEntry (m : Mlog) : (createEntry m).fn = .create m := rfl

theorem Lives.create (h : Lives w) {n : ℕ} {share : Bool} (hi : w.pc (.caller n) = .idle) :
    Lives ((w.new ⟨share, w.created⟩).goto (.caller n) (createEntry ⟨share, w.created⟩)) := by
  generalize hm₀ : (⟨share, w.created⟩ : Mlog) = m₀
  have hid : m₀.id = w.created := by rw [← hm₀]
  have hdead : w.alive m₀ ≠ true := fun ha => absurd (h.bound m₀ ha) (by omega)
  have hself : ((w.new m₀).goto (.caller n) (createEntry m₀)).pc (.caller n) = createEntry m₀ := goto_pc_self ..
  have hother : ∀ {u}, u ≠ .caller n → ((w.new m₀).goto (.caller n) (createEntry m₀)).pc u = w.pc u :=
    fun hu => goto_pc_of_ne _ hu _
  have halive : ∀ {m}, w.alive m = true → (w.new m₀).alive m = true := by
    intro m ha
    by_cases hm : m = m₀
    · exact absurd (hm ▸ ha) hdead
    · exact (Function.update_of_ne hm ..).trans ha
  have hlisted : ∀ {m b}, listed m (createEntry m₀) = some b → m = m₀ ∧ (m.useShareThread = true → b = false) := by
    intro m b hl
    rw [createEntry, listed, Option.ite_none_right_eq_some] at hl
    obtain ⟨rfl, hb⟩ := hl
    refine ⟨rfl, fun hsh => ?_⟩
    rw [hsh] at hb
    exact (Option.some_inj.mp hb).symm
  have hgone : ∀ {v b}, v ≠ .caller n → listed m₀ (w.pc v) ≠ some b := fun _ hv =>
    hdead (h.custody _ m₀ _ hv).1
  constructor
  case bound =>
    intro m ha
    show m.id < w.created + 1
    by_cases hm : m = m₀
    · rw [hm, hid]
      exact Nat.lt_succ_self _
    · have hb := h.bound m ((Function.update_of_ne hm ..).symm.trans ha)
      exact Nat.lt_succ_of_lt hb
  case user =>
    intro u m hu
    show m.id < w.created + 1
    by_cases hun : u = .caller n
    · rw [hun, hself] at hu
      cases hu
      rw [hid]
      exact Nat.lt_succ_self _
    · rw [hother hun] at hu
      exact Nat.lt_succ_of_lt (h.user u m hu)
  case given => exact fun m hg => ⟨halive (h.given m hg).1, (h.given m hg).2⟩
  case custody =>
    intro u m b hu
    by_cases hun : u = .caller n
    · rw [hun, hself] at hu
      obtain ⟨rfl, hb⟩ := hlisted hu
      refine ⟨Function.update_self .., ?_, fun hsh => iff_of_false ?_ (by rw [hb hsh]; exact Bool.false_ne_true)⟩
      · exact Bool.eq_false_iff.mpr fun hg => hdead (h.given m hg).1
      · exact fun hmem => hdead (h.items m hmem).1
    · rw [hother hun] at hu
      obtain ⟨ha, hg, hin⟩ := h.custody u m b hu
      exact ⟨halive ha, hg, hin⟩
  case unique =>
    refine unique_of_entry h.unique (fun u hu => hother hu) fun m b hl v b' hv => ?_
    rw [hself] at hl
    rw [(hlisted hl).1]
    exact hgone hv
  case kept =>
    intro m ha
    by_cases hm : m = m₀
    · obtain ⟨b, hb⟩ := exists_listed (.inl (fn_createEntry m₀))
      exact .inr ⟨.caller n, b, by rw [hself, hm, hb]⟩
    · refine (h.kept m ((Function.update_of_ne hm ..).symm.trans ha)).imp_right ?_
      rintro ⟨u, b, hu⟩
      refine ⟨u, b, ?_⟩
      rwa [hother]
      rintro rfl
      rw [hi] at hu
      cases hu
  case items => exact fun m hm => ⟨halive (h.items m hm).1, (h.items m hm).2⟩
  case nodup => exact h.nodup
  case shares =>
    intro u m hu
    by_cases hun : u = .caller n
    · rw [hun, hself] at hu
      unfold createEntry at hu
      split_ifs at hu with hsh
      · rcases hu with hu | hu <;> cases hu
        exact hsh
      · rcases hu with hu | hu <;> cases hu
    · rw [hother hun] at hu
      exact h.shares u m hu
  case fresh =>
    intro u m hu
    have hnone : ∀ {v}, v ≠ .caller n → (w.pc v).fn.mlog ≠ some m₀ := fun _ hv =>
      absurd (h.user _ m₀ hv) (by omega)
    by_cases hun : u = .caller n
    · rw [hun, hself] at hu
      cases hu
      have happ : (w.new m₀).apps m₀ = logAppenderCreate m₀.useShareThread := Function.update_self ..
      show ((w.new m₀).apps m₀).sgLogClose = true ∧ ((w.new m₀).apps m₀).sgLogBuff = none ∧ _
      rw [happ]
      refine ⟨rfl, rfl, fun v hv => ?_⟩
      by_contra hvn
      rw [hun] at hvn
      rw [hother hvn] at hv
      exact hnone hvn hv
    · rw [hother hun] at hu
      obtain ⟨hflag, hbuff, honly⟩ := h.fresh u m hu
      have hm : m ≠ m₀ := fun hm => hnone hun (by rw [hu, hm]; rfl)
      have happ : (w.new m₀).apps m = w.apps m := Function.update_of_ne hm ..
      show ((w.new m₀).apps m).sgLogClose = true ∧ ((w.new m₀).apps m).sgLogBuff = none ∧ _
      rw [happ]
      refine ⟨hflag, hbuff, fun v hv => ?_⟩
      by_cases hvn : v = .caller n
      · rw [hvn, hself] at hv
        exact absurd (Option.some_inj.mp hv).symm hm
      · rw [hother hvn] at hv
        exact honly v hv

theorem passed_given {m' : Mlog} {u : Use} (hg : (w.passed m u).given m' = true) : w.given m' = true := by
  cases u with
  | destroy =>
    have hg' : Function.update w.given m false m' = true := hg
    rw [Function.update_apply] at hg'
    split_ifs at hg'
    exact hg'
  | _ => exact hg

theorem listed_entry {m' : Mlog} {u : Use} {b : Bool} (hl : listed m' (u.entry m) = some b) :
    m' = m ∧ b = true ∧ (w.passed m u).given m' = false := by
  cases u with
  | destroy =>
    rw [Use.entry, listed, Option.ite_none_right_eq_some] at hl
    obtain ⟨rfl, hb⟩ := hl
    exact ⟨rfl, (Option.some_inj.mp hb).symm, Function.update_self ..⟩
  | _ => cases hl

@[simp] theorem mlog_entry (m : Mlog) (u : Use) : (u.entry m).fn.mlog = some m := by cases u <;> rfl

theorem Lives.call (h : Lives w) {n : ℕ} {m : Mlog} {u : Use} (hi : w.pc (.caller n) = .idle)
    (hg : w.given m = true) : Lives ((w.passed m u).goto (.caller n) (u.entry m)) := by
  have hself : ((w.passed m u).goto (.caller n) (u.entry m)).pc (.caller n) = u.entry m := goto_pc_self ..
  have hother : ∀ {v}, v ≠ .caller n → ((w.passed m u).goto (.caller n) (u.entry m)).pc v = w.pc v := by
    intro v hv
    rw [goto_pc_of_ne _ hv, passed_pc]
  have hin : ∀ {m' b}, InList w m' b → InList ((w.passed m u).goto (.caller n) (u.entry m)) m' b := by
    intro m' b hb hsh
    show m' ∈ (w.passed m u).sharedAppenders.items ↔ _
    rw [passed_sharedAppenders]
    exact hb hsh
  have hfn : ∀ m', (u.entry m).fn ≠ .create m' := by cases u <;> rintro m' ⟨⟩
  -- nobody else makes or deletes an appender that the program has
  have hnone : ∀ {v b}, listed m (w.pc v) ≠ some b := fun hv =>
    Bool.false_ne_true ((h.custody _ m _ hv).2.1.symm.trans hg)
  constructor
  case bound =>
    intro m' ha
    show m'.id < (w.passed m u).created
    rw [passed_created]
    exact h.bound m' (by rw [← passed_alive w m u]; exact ha)
  case user =>
    intro v m' hv
    show m'.id < (w.passed m u).created
    rw [passed_created]
    by_cases hvn : v = .caller n
    · rw [hvn, hself, mlog_entry] at hv
      cases hv
      exact h.bound m (h.given m hg).1
    · rw [hother hvn] at hv
      exact h.user v m' hv
  case given =>
    intro m' hg'
    obtain ⟨ha, hb⟩ := h.given m' (passed_given hg')
    exact ⟨by show (w.passed m u).alive m' = true; rw [passed_alive, ha], hin hb⟩
  case custody =>
    intro v m' b hv
    by_cases hvn : v = .caller n
    · rw [hvn, hself] at hv
      obtain ⟨rfl, rfl, hg'⟩ := listed_entry (w := w) hv
      obtain ⟨ha, hb⟩ := h.given m' hg
      exact ⟨by show (w.passed m' u).alive m' = true; rw [passed_alive, ha], hg', hin hb⟩
    · rw [hother hvn] at hv
      obtain ⟨ha, hg', hb⟩ := h.custody v m' b hv
      refine ⟨by show (w.passed m u).alive m' = true; rw [passed_alive, ha], Bool.eq_false_iff.mpr fun hp => ?_, hin hb⟩
      exact Bool.false_ne_true (hg'.symm.trans (passed_given hp))
  case unique =>
    refine unique_of_entry h.unique (fun v hv => hother hv) fun m' b hl v b' hv => ?_
    rw [hself] at hl
    rw [(listed_entry (w := w) hl).1]
    exact hnone
  case kept =>
    intro m' ha
    rcases h.kept m' (by rw [← passed_alive w m u]; exact ha) with hg' | ⟨v, b, hv⟩
    · by_cases hp : (w.passed m u).given m' = true
      · exact .inl hp
      · cases u with
        | destroy =>
          have hm : m' = m := by
            by_contra hne
            exact hp ((Function.update_of_ne hne ..).trans hg')
          exact .inr ⟨.caller n, true, by rw [hself, hm]; exact if_pos rfl⟩
        | _ => exact absurd hg' hp
    · refine .inr ⟨v, b, ?_⟩
      rwa [hother]
      rintro rfl
      rw [hi] at hv
      cases hv
  case items =>
    intro m' hm
    have hm' : m' ∈ w.sharedAppenders.items := by rw [← passed_sharedAppenders w m u]; exact hm
    exact ⟨by show (w.passed m u).alive m' = true; rw [passed_alive, (h.items m' hm').1], (h.items m' hm').2⟩
  case nodup =>
    show (w.passed m u).sharedAppenders.items.Nodup
    rw [passed_sharedAppenders]
    exact h.nodup
  case shares =>
    intro v m' hv
    by_cases hvn : v = .caller n
    · rw [hvn, hself] at hv
      exact absurd (by rcases hv with hv | hv <;> rw [hv] <;> rfl) (hfn m')
    · rw [hother hvn] at hv
      exact h.shares v m' hv
  case fresh =>
    intro v m' hv
    by_cases hvn : v = .caller n
    · rw [hvn, hself] at hv
      exact absurd hv (hfn m')
    · rw [hother hvn] at hv
      obtain ⟨hflag, hbuff, honly⟩ := h.fresh v m' hv
      show ((w.passed m u).apps m').sgLogClose = true ∧ ((w.passed m u).apps m').sgLogBuff = none ∧ _
      rw [passed_apps]
      refine ⟨hflag, hbuff, fun v' hv' => ?_⟩
      by_cases hvn' : v' = .caller n
      · rw [hvn', hself, mlog_entry] at hv'
        cases hv'
        obtain ⟨b, hb⟩ := exists_listed (m := m) (.inl hv)
        exact absurd hb hnone
      · rw [hother hvn'] at hv'
        exact honly v' hv'

theorem Lives.step {l : Label} (h : Lives w) (hs : Synced w) (hstep : World.step lc w l = some w') : Lives w' := by
  rcases step_cases hstep with ⟨n, share, -, hi, rfl⟩ | ⟨n, m, u, -, hi, hg, rfl⟩ | ⟨t, env, w₁, pc, -, he, rfl⟩
  · exact h.create hi
  · exact h.call hi hg
  · exact h.run hs he

end Life

/-- **In every reachable state** every appender is where it belongs. -/
theorem lives_of_reach {lc : Libc} {C : State → Label → Prop} {files : Disk} {statics : FormatStatics} {w : State}
    (h : Reach (step lc) C (.init files statics) w) : Synced w ∧ Lives w :=
  h.inv (P := fun w => Synced w ∧ Lives w) ⟨synced_init files statics, lives_init files statics⟩
    fun _ _ _ hw _ hstep => ⟨hw.1.step hstep, hw.2.step hw.1 hstep⟩

end MTAppenderFile.Loglib.World
