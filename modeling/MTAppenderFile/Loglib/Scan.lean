import MTAppenderFile.Loglib.Lives
import MTAppenderFile.Loglib.Handle
import MTAppenderFile.Loglib.Exactness

/-! # The scan over the shared appenders

`append` ends with a loop over `shared_appenders()` that reads `sg_log_close` and the buffer of every appender
there. It holds the buffer mutex of its own appender and no other lock, so `push_back` and `erase` can invalidate its
iterator, and its neighbour can be closed or deleted between two of its steps (`scan_invalidated`).

As long as no such step comes at such a moment, and calls on the same appender do not overlap, every statement
of the scan is defined (`scan_safe`). -/

namespace MTAppenderFile.Loglib.World

open MTAppenderFile.Lib.Run
open MTAppenderFile.Lib.Vector
open MTAppenderFile.Lib.Vector.Vec
open MTAppenderFile.Comm.CTypes
open MTAppenderFile.Loglib.Base
open MTAppenderFile.Loglib.Files
open MTAppenderFile.Loglib.Formatter
open MTAppenderFile.Loglib.Appender
open MTAppenderFile.Loglib.Exactness (textA)

/-- Where a thread is in the scan, and whether its record is fatal. -/
def Pc.scan : Pc → Option (Bool × ScanPc)
  | .append _ info _ (.scan pc) => some (isFatal info, pc)
  | _ => none

/-- The iterator that the scan may use again. A fatal record ends the scan at the first open appender. -/
def ScanPc.iter (fatal : Bool) : ScanPc → Option Iter
  | .cond it => some it
  | .deref it => some it
  | .load it _ => some it
  | .length it _ => if fatal then none else some it
  | .next it => some it
  | _ => none

/-- The appender that the scan reads next. -/
def ScanPc.neighbour : ScanPc → Option Mlog
  | .load _ n => some n
  | .length _ n => some n
  | _ => none

/-- **The next statement of the scan is defined**: its iterator is valid, its neighbour has not been deleted, and
the buffer of the neighbour is there. -/
def ScanPc.Safe (w : State) : ScanPc → Prop
  | .cond it => w.sharedAppenders.Valid it
  | .deref it => w.sharedAppenders.Valid it ∧ it.index < w.sharedAppenders.items.length
  | .load _ n => w.alive n = true
  | .length _ n => w.alive n = true ∧ (w.apps n).sgLogBuff.isSome = true
  | .next it => w.sharedAppenders.Valid it
  | _ => True

instance (w : State) : DecidablePred (ScanPc.Safe w) := fun s =>
  match s with
  | .begin => .isTrue trivial
  | .cond it => inferInstanceAs (Decidable (w.sharedAppenders.Valid it))
  | .deref it => inferInstanceAs (Decidable (_ ∧ it.index < w.sharedAppenders.items.length))
  | .load _ n => inferInstanceAs (Decidable (w.alive n = true))
  | .length _ n => inferInstanceAs (Decidable (w.alive n = true ∧ (w.apps n).sgLogBuff.isSome = true))
  | .next it => inferInstanceAs (Decidable (w.sharedAppenders.Valid it))
  | .notify => .isTrue trivial

/-- Every scan goes on by a defined statement. -/
def ScansSafely (w : State) : Prop := ∀ t fatal s, (w.pc t).scan = some (fatal, s) → s.Safe w

/-- Calls on the same appender do not overlap. -/
def Apart (w : State) : Label → Prop
  | .call n m _ => ∀ k, k ≠ n → (w.pc (.caller k)).fn.mlog ≠ some m
  | _ => True

/-- The operation frees the buffer. -/
def AppOp.frees : {α : Type} → AppOp α → Bool
  | _, .free => true
  | _, _ => false

/-- The statement frees the buffer of `m`. -/
def Stmt.frees (m : Mlog) : Stmt → Bool
  | .app n op _ => n = m && op.frees
  | _ => false

/-- The statement does not invalidate the iterator by `push_back` or `erase`. -/
def State.Keeps (w : State) (st : Stmt) (it : Iter) : Prop :=
  (∀ m k, st = .vec (.push m) k → w.sharedAppenders.PushKeeps it) ∧
    ∀ m k, st = .vec (.erase m) k → w.sharedAppenders.EraseKeeps m it

/-- No `push_back` and no `erase` invalidates the iterator of a scan, and no neighbour that a scan is about to read
is deleted, or loses its buffer. -/
def KeepsScans (w : State) : Label → Prop
  | .run t _ => ∀ u fatal s, (w.pc u).scan = some (fatal, s) →
      (∀ it, s.iter fatal = some it → w.Keeps (code (w.pc t)) it) ∧
      (∀ n k, s.neighbour = some n → code (w.pc t) ≠ .delete n k) ∧
      ∀ it n, s = .length it n → (code (w.pc t)).frees n = false
  | _ => True

/-- **Which statements are defined.** -/
theorem scan_defined_iff (lc : Libc) (env : Env) (t : Tid) (w : State) (info : Option LogInfo)
    (here : ScanPc → Pc) (ret : Pc) (s : ScanPc) :
    (exec lc env t w (scanCode info here ret s)).isSome = true ↔ s.Safe w := by
  cases s with
  | begin => exact iff_of_true rfl trivial
  | cond it => simp [scanCode, exec, VecOp.run, Vec.more, ScanPc.Safe]
  | deref it =>
    by_cases hv : w.sharedAppenders.Valid it
    · simp [scanCode, exec, VecOp.run, Vec.deref, ScanPc.Safe, hv]
    · simp [scanCode, exec, VecOp.run, Vec.deref, ScanPc.Safe, hv]
  | load it n => simp [scanCode, exec, AppOp.run, ScanPc.Safe]
  | length it n =>
    by_cases ha : w.alive n = true
    · simp [scanCode, exec, AppOp.run, ScanPc.Safe, State.app, ha]
    · simp [scanCode, exec, ScanPc.Safe, ha]
  | next it => simp [scanCode, exec, VecOp.run, Vec.next, ScanPc.Safe]
  | notify => exact iff_of_true rfl trivial

/-! ### One call at a time -/

/-- In `open`, between the new buffer and the store of `sg_log_close`. -/
def OpenPc.opening : OpenPc → Bool
  | .flush => true
  | .lock _ => true
  | .names _ => true
  | .store _ => true
  | _ => false

/-- The thread opens `m`, and has made its buffer. -/
def Opening (m : Mlog) : Pc → Prop
  | .open n _ _ _ pc => n = m ∧ pc.opening = true
  | _ => False

/-- **One call at a time** works on an appender, and an open appender has its buffer. -/
structure OneByOne (w : State) : Prop where
  alone : ∀ t u m, (w.pc t).fn.mlog = some m → (w.pc u).fn.mlog = some m → t = u
  closed : ∀ t m, BeforeCloseFile m (w.pc t) → (w.apps m).sgLogClose = true
  opening : ∀ t m, Opening m (w.pc t) → (w.apps m).sgLogBuff.isSome = true
  opened : ∀ m, (w.apps m).sgLogClose = false → (w.apps m).sgLogBuff.isSome = true

section OneByOne

variable {lc : Libc} {env : Env} {t u : Tid} {w w₁ w' : State} {m : Mlog} {pc : Pc}

theorem opens_of_opening (h : Opening m pc) : pc.fn.Opens m := by
  cases pc with
  | «open» n mode filedir filename c => exact ⟨mode, filedir, filename, by rw [← h.1]; rfl⟩
  | _ => exact absurd h id

theorem closes_of_beforeCloseFile (h : BeforeCloseFile m pc) : pc.fn.Closes m := by
  rcases h with h | h | h
  · exact exists_closing_iff.mp ⟨_, h⟩
  · exact exists_closing_iff.mp ⟨_, h⟩
  · exact exists_closing_iff.mp ⟨_, h⟩

theorem not_closes_of_opens {f : Fn} (h : f.Opens m) : ¬ f.Closes m := by
  obtain ⟨_, _, _, rfl⟩ := h
  rintro (h | h) <;> cases h

theorem Effect.opening_prev (he : Effect lc env t w (code (w.pc t)) w₁ pc) (h : Opening m pc) :
    Opening m (w.pc t) ∨ (w₁.apps m).sgLogBuff.isSome = true := by
  generalize w.pc t = pc₀ at he ⊢
  have hfn : pc₀.fn.Opens m := by
    rcases he.leads (code_leads_fn pc₀) with rfl | hfn
    · exact absurd h id
    · rw [← hfn]
      exact opens_of_opening h
  cases pc₀ with
  | «open» n mode filedir filename c =>
    obtain ⟨_, _, _, hn⟩ := hfn
    cases hn
    have hno : ∀ {c : OpenPc}, c.opening = false → ¬ Opening m (.open m mode filedir filename c) :=
      fun hc ho => Bool.false_ne_true (hc.symm.trans ho.2)
    cases c with
    | flush => exact .inl ⟨rfl, rfl⟩
    | lock tmp => exact .inl ⟨rfl, rfl⟩
    | names tmp => exact .inl ⟨rfl, rfl⟩
    | store tmp => exact .inl ⟨rfl, rfl⟩
    | buff block =>
      cases he with
      | app hm hr =>
        cases hr
        right
        simp [State.setApp]
    | load =>
      have hl : (code (.open m mode filedir filename .load)).Leads fun pc => ¬ Opening m pc := by
        intro closed
        dsimp only
        split_ifs
        exacts [id, hno rfl]
      exact absurd h (he.leads hl)
    | map =>
      have hl : (code (.open m mode filedir filename .map)).Leads fun pc => ¬ Opening m pc := fun _ => hno rfl
      exact absurd h (he.leads hl)
    | setmode tmp c =>
      have hl : (code (.open m mode filedir filename (.setmode tmp c))).Leads fun pc => ¬ Opening m pc := by
        rw [code, openCode]
        exact setmodeCode_leads (fun _ => hno rfl) (hno rfl) c
      exact absurd h (he.leads hl)
    | unlock tmp =>
      have hl : (code (.open m mode filedir filename (.unlock tmp))).Leads fun pc => ¬ Opening m pc := by
        rw [code, openCode]
        exact fileTmp_leads (P := fun pc => ¬ Opening m pc) (fun _ _ => hno rfl) id tmp
      exact absurd h (he.leads hl)
    | file data c =>
      have hl : (code (.open m mode filedir filename (.file data c))).Leads fun pc => ¬ Opening m pc := by
        rw [code, openCode]
        exact log2fileCode_leads (fun _ => hno rfl) id c
      exact absurd h (he.leads hl)
  | _ =>
    obtain ⟨_, _, _, hn⟩ := hfn
    cases hn

theorem opening_of_stores (h : (code pc).stores m = some false) : Opening m pc := by
  have hop : pc.fn.Opens m := by_of_stores h (code_by pc)
  obtain ⟨mode, filedir, filename, hop⟩ := hop
  cases pc with
  | «open» n mode' filedir' filename' c =>
    cases hop
    cases c with
    | store tmp => exact ⟨rfl, rfl⟩
    | setmode tmp c =>
      cases c with
      | start c => cases c <;> simp [code, openCode, setmodeCode, startCode, Stmt.stores] at h
      | _ => simp [code, openCode, setmodeCode, Stmt.stores, AppOp.stores] at h
    | file data c => cases c <;> simp [code, openCode, log2fileCode, Stmt.stores, AppOp.stores] at h
    | _ => simp [code, openCode, Stmt.stores, AppOp.stores] at h
  | _ => cases hop

theorem Effect.isSome_buff (he : Effect lc env t w (code (w.pc t)) w₁ pc)
    (hb : (w.apps m).sgLogBuff.isSome = true) :
    (w₁.apps m).sgLogBuff.isSome = true ∨ (code (w.pc t)).frees m = true := by
  rcases he.spec m with happ | ⟨α, op, k, a, hst, -, hspec⟩
  · exact .inl (by rw [happ, hb])
  cases op with
  | free => exact .inr (by rw [hst]; simp [Stmt.frees, AppOp.frees])
  | insert =>
    obtain ⟨_, _, -, hy, -⟩ := hspec
    exact .inl (by rw [hy]; rfl)
  | drain =>
    obtain ⟨_, -, hy⟩ := hspec
    exact .inl (by rw [hy]; rfl)
  | buff =>
    obtain ⟨_, hy⟩ := hspec
    exact .inl (by rw [hy]; rfl)
  | _ => exact .inl (by rw [hspec.sgLogBuff rfl, hb])

theorem taskCode_frees {n : Mlog} {here : TaskPc → Pc} {ret : Pc} (c : TaskPc) :
    (taskCode n here ret c).frees m = false := by
  cases c with
  | file data c => cases c <;> simp [taskCode, log2fileCode, Stmt.frees, AppOp.frees]
  | _ => simp [taskCode, Stmt.frees, AppOp.frees]

theorem closeCode_frees {here : ClosePc → Pc} {ret : Pc} {c : ClosePc}
    (h : (closeCode m here ret c).frees m = true) : c = .free := by
  cases c with
  | free => rfl
  | task c =>
    rw [closeCode, taskCode_frees] at h
    cases h
  | _ => simp [closeCode, Stmt.frees, AppOp.frees] at h

theorem beforeCloseFile_of_frees (h : (code pc).frees m = true) : BeforeCloseFile m pc := by
  have hcl : pc.fn.Closes m := by
    have hby := code_by pc
    generalize code pc = st at h hby
    cases st with
    | app n op k =>
      rw [Stmt.frees, Bool.and_eq_true, decide_eq_true_iff] at h
      obtain ⟨rfl, h⟩ := h
      cases op with
      | free => exact hby
      | _ => cases h
    | _ => cases h
  cases pc with
  | close n c =>
    rcases hcl with hcl | hcl <;> cases hcl
    rw [closeCode_frees h]
    exact .inr (.inr (if_pos rfl))
  | destroy n d =>
    rcases hcl with hcl | hcl <;> cases hcl
    cases d with
    | close c =>
      rw [code, destroyCode] at h
      rw [closeCode_frees h]
      exact .inr (.inr (if_pos rfl))
    | _ => cases h
  | _ => rcases hcl with hcl | hcl <;> cases hcl

theorem OneByOne.run (h : OneByOne w) (hs : Synced w) (he : Effect lc env t w (code (w.pc t)) w₁ pc) :
    OneByOne (w₁.goto t pc) := by
  have hself : (w₁.goto t pc).pc t = pc := goto_pc_self ..
  -- nobody opens an appender that a call is closing, and nobody frees the buffer of one that is opened
  have hflag : ∀ u m, BeforeCloseFile m (w.pc u) → (w₁.apps m).sgLogClose = true := by
    intro u m hu
    refine he.stays_closed (fun hst => ?_) (h.closed u m hu)
    have hop := opens_of_opening (opening_of_stores hst)
    have hcl := closes_of_beforeCloseFile hu
    have htu : t = u := h.alone t u m (mlog_of_opens hop) (mlog_of_closes hcl)
    rw [← htu] at hcl
    exact not_closes_of_opens hop hcl
  have hbuff : ∀ u m, Opening m (w.pc u) → (w₁.apps m).sgLogBuff.isSome = true := by
    intro u m hu
    rcases he.isSome_buff (h.opening u m hu) with hb | hfree
    · exact hb
    · have hop := opens_of_opening hu
      have hcl := closes_of_beforeCloseFile (beforeCloseFile_of_frees hfree)
      have htu : t = u := h.alone t u m (mlog_of_closes hcl) (mlog_of_opens hop)
      rw [← htu] at hop
      exact absurd hcl (not_closes_of_opens hop)
  constructor
  case alone => exact fun u v m hu hv => h.alone u v m (hs.mlog_prev he hu) (hs.mlog_prev he hv)
  case closed =>
    intro u m hu
    show (w₁.apps m).sgLogClose = true
    by_cases hut : u = t
    · subst hut
      rw [hself] at hu
      rcases hu with hu | hu | hu
      · obtain ⟨s, hs', hm⟩ := he.closing_prev hu
        cases hm with
        | stay => exact hflag u m (.inl hs')
        | store hf => exact hf
      · obtain ⟨s, hs', hm⟩ := he.closing_prev hu
        cases hm with
        | stay => exact hflag u m (.inr (.inl hs'))
        | notify => exact hflag u m (.inl hs')
      · obtain ⟨s, hs', hm⟩ := he.closing_prev hu
        cases hm with
        | stay => exact hflag u m (.inr (.inr hs'))
        | join => exact hflag u m (.inr (.inl hs'))
    · rw [BeforeCloseFile, hs.closing_of_ne he hut] at hu
      exact hflag u m hu
  case opening =>
    intro u m hu
    show (w₁.apps m).sgLogBuff.isSome = true
    by_cases hut : u = t
    · subst hut
      rw [hself] at hu
      rcases he.opening_prev hu with ho | hb
      · exact hbuff u m ho
      · exact hb
    · rw [hs.eq_of_ne he hut (g := Opening m)] at hu
      · exact hbuff u m hu
      · rintro pc ⟨a, hfn⟩
        cases pc <;> first | rfl | cases hfn
  case opened =>
    intro m hm
    show (w₁.apps m).sgLogBuff.isSome = true
    have hf := he.sgLogClose m
    rw [show (w₁.apps m).sgLogClose = false from hm] at hf
    cases hst : (code (w.pc t)).stores m with
    | none =>
      rw [hst] at hf
      rcases he.isSome_buff (h.opened m hf.symm) with hb | hfree
      · exact hb
      · have hcl := h.closed t m (beforeCloseFile_of_frees hfree)
        cases hf.trans hcl
    | some b =>
      rw [hst] at hf
      cases hf
      exact hbuff t m (opening_of_stores hst)

theorem OneByOne.create (h : OneByOne w) (hl : Lives w) {n : ℕ} {share : Bool} :
    OneByOne ((w.new ⟨share, w.created⟩).goto (.caller n) (createEntry ⟨share, w.created⟩)) := by
  generalize hm₀ : (⟨share, w.created⟩ : Mlog) = m₀
  have hid : m₀.id = w.created := by rw [← hm₀]
  have hself : ((w.new m₀).goto (.caller n) (createEntry m₀)).pc (.caller n) = createEntry m₀ := goto_pc_self ..
  have hother : ∀ {u}, u ≠ .caller n → ((w.new m₀).goto (.caller n) (createEntry m₀)).pc u = w.pc u :=
    fun hu => goto_pc_of_ne _ hu _
  have hnone : ∀ {v}, (w.pc v).fn.mlog ≠ some m₀ := fun hv => absurd (hl.user _ m₀ hv) (by omega)
  have happ : ∀ {m}, m ≠ m₀ → (w.new m₀).apps m = w.apps m := fun hm => Function.update_of_ne hm ..
  constructor
  case alone =>
    intro u v m hu hv
    by_cases hun : u = .caller n
    · by_cases hvn : v = .caller n
      · rw [hun, hvn]
      · rw [hun, hself] at hu
        cases hu
        rw [hother hvn] at hv
        exact absurd hv hnone
    · rw [hother hun] at hu
      by_cases hvn : v = .caller n
      · rw [hvn, hself] at hv
        cases hv
        exact absurd hu hnone
      · rw [hother hvn] at hv
        exact h.alone u v m hu hv
  case closed =>
    intro u m hu
    by_cases hun : u = .caller n
    · rw [hun, hself] at hu
      rcases hu with hu | hu | hu <;> cases hu
    · rw [hother hun] at hu
      have hm : m ≠ m₀ := by
        rintro rfl
        exact hnone (mlog_of_closes (closes_of_beforeCloseFile hu))
      show ((w.new m₀).apps m).sgLogClose = true
      rw [happ hm]
      exact h.closed u m hu
  case opening =>
    intro u m hu
    by_cases hun : u = .caller n
    · rw [hun, hself] at hu
      exact absurd hu id
    · rw [hother hun] at hu
      have hm : m ≠ m₀ := by
        rintro rfl
        exact hnone (mlog_of_opens (opens_of_opening hu))
      show ((w.new m₀).apps m).sgLogBuff.isSome = true
      rw [happ hm]
      exact h.opening u m hu
  case opened =>
    intro m hm
    have hm' : ((w.new m₀).apps m).sgLogClose = false := hm
    show ((w.new m₀).apps m).sgLogBuff.isSome = true
    by_cases hmm : m = m₀
    · rw [hmm, show (w.new m₀).apps m₀ = logAppenderCreate m₀.useShareThread from Function.update_self ..] at hm'
      cases hm'
    · rw [happ hmm] at hm' ⊢
      exact h.opened m hm'

theorem OneByOne.call (h : OneByOne w) (hs : Synced w) {n : ℕ} {use : Use} (hc : Apart w (.call n m use)) :
    OneByOne ((w.passed m use).goto (.caller n) (use.entry m)) := by
  have hself : ((w.passed m use).goto (.caller n) (use.entry m)).pc (.caller n) = use.entry m := goto_pc_self ..
  have hother : ∀ {v}, v ≠ .caller n → ((w.passed m use).goto (.caller n) (use.entry m)).pc v = w.pc v := by
    intro v hv
    rw [goto_pc_of_ne _ hv, passed_pc]
  -- nobody else is in a call on the appender
  have hnone : ∀ {v}, v ≠ .caller n → (w.pc v).fn.mlog ≠ some m := by
    intro v hv
    cases v with
    | caller k => exact hc k (by rintro rfl; exact hv rfl)
    | worker a =>
      rcases hs.worker a with hi | hfn
      · rw [hi]
        rintro ⟨⟩
      · rw [hfn]
        rintro ⟨⟩
  constructor
  case alone =>
    intro u v m' hu hv
    by_cases hun : u = .caller n
    · by_cases hvn : v = .caller n
      · rw [hun, hvn]
      · rw [hun, hself, mlog_entry] at hu
        cases hu
        rw [hother hvn] at hv
        exact absurd hv (hnone hvn)
    · rw [hother hun] at hu
      by_cases hvn : v = .caller n
      · rw [hvn, hself, mlog_entry] at hv
        cases hv
        exact absurd hu (hnone hun)
      · rw [hother hvn] at hv
        exact h.alone u v m' hu hv
  case closed =>
    intro u m' hu
    show ((w.passed m use).apps m').sgLogClose = true
    rw [passed_apps]
    by_cases hun : u = .caller n
    · rw [hun, hself] at hu
      cases use with
      | close | destroy =>
        rcases hu with hu | hu | hu <;> rw [Use.entry, closing, Option.ite_none_right_eq_some] at hu <;> cases hu.2
      | _ => rcases hu with hu | hu | hu <;> cases hu
    · rw [hother hun] at hu
      exact h.closed u m' hu
  case opening =>
    intro u m' hu
    show ((w.passed m use).apps m').sgLogBuff.isSome = true
    rw [passed_apps]
    by_cases hun : u = .caller n
    · rw [hun, hself] at hu
      cases use with
      | «open» mode filedir filename => cases hu.2
      | _ => exact absurd hu id
    · rw [hother hun] at hu
      exact h.opening u m' hu
  case opened =>
    intro m' hm
    have hm' : ((w.passed m use).apps m').sgLogClose = false := hm
    show ((w.passed m use).apps m').sgLogBuff.isSome = true
    rw [passed_apps] at hm' ⊢
    exact h.opened m' hm'

theorem OneByOne.step {l : Label} (h : OneByOne w) (hs : Synced w) (hl : Lives w) (hc : Apart w l)
    (hstep : World.step lc w l = some w') : OneByOne w' := by
  rcases step_cases hstep with ⟨n, share, -, -, rfl⟩ | ⟨n, m, u, rfl, -, -, rfl⟩ | ⟨t, env, w₁, pc, -, he, rfl⟩
  · exact h.create hl
  · exact h.call hs hc
  · exact h.run hs he

theorem oneByOne_init (files : Disk) (statics : FormatStatics) : OneByOne (.init files statics) where
  alone := by rintro t u m ⟨⟩
  closed := by rintro t m (h | h | h) <;> cases h
  opening := by rintro t m ⟨⟩
  opened := by rintro m ⟨⟩

end OneByOne

/-! ### The scan -/

/-- **What a scan relies on** where it is. -/
def ScanInv (w : State) (fatal : Bool) : ScanPc → Prop
  | .cond it => w.sharedAppenders.Sound it
  | .deref it => w.sharedAppenders.Inside it
  | .load it n => w.sharedAppenders.Inside it ∧ w.alive n = true
  | .length it n =>
    (fatal = false → w.sharedAppenders.Inside it) ∧ w.alive n = true ∧ (w.apps n).sgLogBuff.isSome = true
  | .next it => w.sharedAppenders.Inside it
  | _ => True

section Scan

variable {lc : Libc} {env : Env} {t u : Tid} {w w₁ w' : State} {st : Stmt} {fatal : Bool} {s : ScanPc} {pc : Pc}

theorem ScanInv.safe (h : ScanInv w fatal s) : s.Safe w := by
  cases s with
  | cond it => exact h.valid
  | deref it => exact ⟨h.valid, h.lt⟩
  | load it n => exact h.2
  | length it n => exact h.2
  | next it => exact h.valid
  | _ => trivial

theorem Effect.sound {it : Iter} (he : Effect lc env t w st w₁ pc) (hk : w.Keeps st it)
    (h : w.sharedAppenders.Sound it) : w₁.sharedAppenders.Sound it := by
  rcases he.sharedAppenders with hv | ⟨m, k, hst, hv⟩ | ⟨m, k, hst, hv⟩
  · rw [hv]
    exact h
  · rw [hv]
    exact h.pushBack (hk.1 m k hst) m env.room
  · rw [hv]
    exact h.erase (hk.2 m k hst)

theorem Effect.inside {it : Iter} (he : Effect lc env t w st w₁ pc) (hk : w.Keeps st it)
    (h : w.sharedAppenders.Inside it) : w₁.sharedAppenders.Inside it := by
  rcases he.sharedAppenders with hv | ⟨m, k, hst, hv⟩ | ⟨m, k, hst, hv⟩
  · rw [hv]
    exact h
  · rw [hv]
    exact h.pushBack (hk.1 m k hst) m env.room
  · rw [hv]
    exact h.erase (hk.2 m k hst)

theorem ScanInv.frame (h : ScanInv w fatal s) (he : Effect lc env t w (code (w.pc t)) w₁ pc)
    (hiter : ∀ it, s.iter fatal = some it → w.Keeps (code (w.pc t)) it)
    (hdelete : ∀ n k, s.neighbour = some n → code (w.pc t) ≠ .delete n k)
    (hfree : ∀ it n, s = .length it n → (code (w.pc t)).frees n = false) : ScanInv w₁ fatal s := by
  have halive : ∀ n, s.neighbour = some n → w.alive n = true → w₁.alive n = true := by
    intro n hn ha
    rcases he.alive with heq | ⟨m, hst, heq⟩
    · rw [heq, ha]
    · have hne : n ≠ m := by
        rintro rfl
        exact hdelete n _ hn hst
      rw [heq, Function.update_of_ne hne, ha]
  cases s with
  | cond it => exact he.sound (hiter it rfl) h
  | deref it => exact he.inside (hiter it rfl) h
  | load it n => exact ⟨he.inside (hiter it rfl) h.1, halive n rfl h.2⟩
  | length it n =>
    obtain ⟨hin, ha, hb⟩ := h
    refine ⟨fun hf => he.inside (hiter it (by rw [hf]; rfl)) (hin hf), halive n rfl ha, ?_⟩
    refine (he.isSome_buff hb).resolve_right fun hf => ?_
    cases (hfree it n rfl).symm.trans hf
  | next it => exact he.inside (hiter it rfl) h
  | _ => trivial

/-- **A step of the scan** gives it what it relies on next. -/
theorem ScanInv.next {info : Option LogInfo} {here : ScanPc → Pc} {ret : Pc} (h : ScanInv w (isFatal info) s)
    (hl : Lives w) (ho : OneByOne w) (he : Effect lc env t w (scanCode info here ret s) w₁ pc) :
    pc = ret ∨ ∃ s', pc = here s' ∧ ScanInv w₁ (isFatal info) s' := by
  cases s with
  | begin =>
    cases he with
    | vec hr =>
      cases hr
      exact .inr ⟨_, rfl, sound_begin _⟩
  | cond it =>
    cases he with
    | @vec _ _ _ v b hr =>
      obtain ⟨b', hb, hr⟩ := Option.map_eq_some_iff.mp hr
      cases hr
      rw [Sound.more h, Option.some_inj] at hb
      cases b with
      | false => exact .inl rfl
      | true => exact .inr ⟨.deref it, rfl, Sound.inside h (of_decide_eq_true hb)⟩
  | deref it =>
    cases he with
    | @vec _ _ _ v n hr =>
      obtain ⟨n', hn, hr⟩ := Option.map_eq_some_iff.mp hr
      cases hr
      obtain ⟨n₀, hmem, hn₀⟩ := Inside.deref h
      cases hn.symm.trans hn₀
      exact .inr ⟨_, rfl, h, (hl.items n hmem).1⟩
  | load it n =>
    obtain ⟨hin, ha⟩ := h
    cases he with
    | @app _ _ _ _ p closed _ hr =>
      cases hr
      have happs : (w.setApp n (w.app n)).apps n = w.apps n := Function.update_self ..
      cases hc : (w.apps n).sgLogClose with
      | true => exact .inr ⟨.next it, if_pos hc, hin⟩
      | false =>
        refine .inr ⟨.length it n, if_neg (ne_true_of_eq_false hc), fun _ => hin, ha, ?_⟩
        rw [happs]
        exact ho.opened n hc
  | length it n =>
    obtain ⟨hin, ha, -⟩ := h
    cases he with
    | @app _ _ _ _ p full _ hr =>
      dsimp only
      split_ifs with hf
      · exact .inr ⟨.notify, rfl, trivial⟩
      · rw [Bool.or_eq_true, not_or] at hf
        exact .inr ⟨.next it, rfl, hin (Bool.eq_false_iff.mpr hf.2)⟩
  | next it =>
    cases he with
    | vec hr =>
      obtain ⟨it', hit, hr⟩ := Option.map_eq_some_iff.mp hr
      cases hr
      obtain ⟨heq, hs⟩ := Inside.next h
      cases hit.symm.trans heq
      exact .inr ⟨_, rfl, hs⟩
  | notify =>
    cases he with
    | notifyAll => exact .inl rfl

theorem scan_eq_none (h : ∀ m info log, pc.fn ≠ .append m info log) : pc.scan = none := by
  cases pc with
  | append m info log c => exact absurd rfl (h m info log)
  | _ => rfl

theorem Effect.scan_begin (he : Effect lc env t w (code (w.pc t)) w₁ pc) (hn : (w.pc t).scan = none)
    (hs : pc.scan = some (fatal, s)) : s = .begin := by
  generalize w.pc t = pc₀ at he hn
  cases pc₀ with
  | append m info log c =>
    have hno : ∀ {pc : Pc}, pc.scan = none → ∀ fatal s, pc.scan = some (fatal, s) → s = .begin :=
      fun hpc fatal s hs => by cases hpc.symm.trans hs
    have hbegin : ∀ fatal s, (Pc.append m info log (.scan .begin)).scan = some (fatal, s) → s = .begin := by
      rintro fatal s ⟨⟩
      rfl
    suffices hl : (code (.append m info log c)).Leads fun pc => ∀ fatal s, pc.scan = some (fatal, s) → s = .begin from
      he.leads hl fatal s hs
    cases c with
    | scan s => cases hn
    | isruning =>
      intro run
      dsimp only
      split_ifs
      exacts [hbegin, hno rfl]
    | start c =>
      cases c with
      | unlock => exact hbegin
      | _ => exact hno rfl
    | format =>
      intro tmp
      cases tmp with
      | none => exact hno rfl
      | some data => exact hno rfl
    | file data c =>
      rw [code, appendCode]
      exact log2fileCode_leads (fun _ => hno rfl) (hno rfl) c
    | load | mode | test | insert | length =>
      intro b
      dsimp only
      split_ifs
      exacts [hno rfl, hno rfl]
    | lock | notify | unlock => exact hno rfl
  | _ =>
    rcases he.leads (code_leads_fn _) with rfl | hfn
    · cases hs
    · rw [scan_eq_none (by rw [hfn]; rintro m info log ⟨⟩)] at hs
      cases hs

/-- Every scan has what it relies on. -/
def Scanned (w : State) : Prop := ∀ t fatal s, (w.pc t).scan = some (fatal, s) → ScanInv w fatal s

theorem Scanned.run (h : Scanned w) (hs : Synced w) (hl : Lives w) (ho : OneByOne w)
    (hc : KeepsScans w (.run t env)) (he : Effect lc env t w (code (w.pc t)) w₁ pc) : Scanned (w₁.goto t pc) := by
  intro u fatal s hu
  show ScanInv w₁ fatal s
  by_cases hut : u = t
  · rw [hut, goto_pc_self] at hu
    cases hsc : (w.pc t).scan with
    | none =>
      rw [he.scan_begin hsc hu]
      trivial
    | some fs =>
      obtain ⟨fatal₀, s₀⟩ := fs
      have hinv := h t fatal₀ s₀ hsc
      generalize w.pc t = pc₀ at he hsc
      cases pc₀ with
      | append m info log c =>
        cases c with
        | scan s₀ =>
          cases hsc
          rw [code, appendCode] at he
          rcases hinv.next hl ho he with rfl | ⟨s', rfl, hinv'⟩
          · cases hu
          · cases hu
            exact hinv'
        | _ => cases hsc
      | _ => cases hsc
  · rw [hs.eq_of_ne he hut (g := Pc.scan)] at hu
    · obtain ⟨hiter, hdelete, hfree⟩ := hc u fatal s hu
      exact (h u fatal s hu).frame he hiter hdelete hfree
    · rintro pc ⟨a, hfn⟩
      cases pc <;> first | rfl | cases hfn

theorem Scanned.enter (h : Scanned w) {n : ℕ} (hn : pc.scan = none) (hpc : w₁.pc = w.pc)
    (hlist : w₁.sharedAppenders = w.sharedAppenders)
    (happ : ∀ m, w.alive m = true → w₁.alive m = true ∧ w₁.apps m = w.apps m) :
    Scanned (w₁.goto (.caller n) pc) := by
  intro u fatal s hu
  show ScanInv w₁ fatal s
  have hinv : ScanInv w fatal s := by
    by_cases hun : u = .caller n
    · rw [hun, goto_pc_self, hn] at hu
      cases hu
    · rw [goto_pc_of_ne _ hun, hpc] at hu
      exact h u fatal s hu
  cases s with
  | cond it | deref it | next it =>
    rw [ScanInv, hlist]
    exact hinv
  | load it n =>
    rw [ScanInv, hlist]
    exact ⟨hinv.1, (happ n hinv.2).1⟩
  | length it n =>
    rw [ScanInv, hlist, (happ n hinv.2.1).2]
    exact ⟨hinv.1, (happ n hinv.2.1).1, hinv.2.2⟩
  | _ => trivial

theorem Scanned.step {l : Label} (h : Scanned w) (hs : Synced w) (hl : Lives w) (ho : OneByOne w)
    (hc : KeepsScans w l) (hstep : World.step lc w l = some w') : Scanned w' := by
  rcases step_cases hstep with ⟨n, share, -, -, rfl⟩ | ⟨n, m, u, -, -, -, rfl⟩ |
    ⟨t, env, w₁, pc, rfl, he, rfl⟩
  · refine h.enter rfl rfl rfl fun m ha => ?_
    have hm : m ≠ ⟨share, w.created⟩ := by
      rintro rfl
      exact Nat.lt_irrefl _ (hl.bound _ ha)
    exact ⟨(Function.update_of_ne hm ..).trans ha, Function.update_of_ne hm ..⟩
  · refine h.enter (by cases u <;> rfl) (passed_pc ..) (passed_sharedAppenders ..) fun m' ha => ?_
    rw [passed_alive, passed_apps]
    exact ⟨ha, rfl⟩
  · exact h.run hs hl ho hc he

end Scan

/-- **Every statement of the scan is defined**, as long as no step of another call invalidates the iterator of a scan,
or deletes or closes the neighbour that the scan is about to read. -/
theorem scan_safe (lc : Libc) (files : Disk) (statics : FormatStatics) (w : State)
    (h : Reach (step lc) (fun w l => Apart w l ∧ KeepsScans w l) (.init files statics) w) : ScansSafely w := by
  have hinit : Scanned (.init files statics) := by rintro t fatal s ⟨⟩
  have hinv : (Synced w ∧ Lives w) ∧ OneByOne w ∧ Scanned w := by
    refine h.inv (P := fun w => (Synced w ∧ Lives w) ∧ OneByOne w ∧ Scanned w)
      ⟨⟨synced_init files statics, lives_init files statics⟩, oneByOne_init files statics, hinit⟩
      fun s l s' hw hc hstep => ?_
    obtain ⟨⟨hs, hl⟩, ho, hscan⟩ := hw
    exact ⟨⟨hs.step hstep, hl.step hs hstep⟩, ho.step hs hl hc.1 hstep, hscan.step hs hl ho hc.2 hstep⟩
  exact fun t fatal s hts => (hinv.2.2 t fatal s hts).safe

/-- A record is appended to a new appender, up to the test of the iterator in the scan. -/
def upToScan : List Label := openNew 0 ++ .call 0 ⟨true, 0⟩ (.append none (some textA)) :: runs (.caller 0) 11

/-- Another caller creates an appender, up to the end of `push_back`. -/
def upToPush : List Label := .create 1 true :: runs (.caller 1) 2

theorem apart_of_by {n : ℕ} {w : State} {l : Label} (h : IdleBut [n] w) (hl : l.By [n]) : Apart w l := by
  cases l with
  | call k m u =>
    intro k' hk'
    rw [h k' (by rintro (_ | ⟨_, ⟨⟩⟩); exact hk' (List.mem_singleton.mp hl).symm)]
    rintro ⟨⟩
  | _ => trivial

theorem scan_invalidated :
    ∃ w, Reach (step utc) Apart (.init (fun _ => []) ⟨0, 0⟩) w ∧ ¬ ScansSafely w := by
  have hrun : (run (step utc) (.init (fun _ => []) ⟨0, 0⟩) (upToScan ++ upToPush)).any (fun w =>
      (w.pc (.caller 0)).scan.any fun s => ¬ s.2.Safe w) = true := by
    decide +kernel
  obtain ⟨w, hw, hb⟩ := (Option.any_eq_true _ _).mp hrun
  obtain ⟨⟨fatal, s⟩, hs, hunsafe⟩ := (Option.any_eq_true _ _).mp hb
  rw [run_append] at hw
  obtain ⟨w₀, hw₀, hw⟩ := Option.bind_eq_some_iff.mp hw
  have hby : ∀ l ∈ upToScan, l.By [0] := by decide
  have hmeets : Meets (step utc) Apart (.init (fun _ => []) ⟨0, 0⟩) upToScan :=
    meets_of_inv (P := IdleBut [0]) (fun _ _ _ h hl hs => h.step hl hs) (fun _ _ => apart_of_by)
      (idleBut_init [0] _ _) (meets_of_forall hby)
  have hpush : Meets (step utc) Apart w₀ upToPush := ⟨trivial, fun _ _ => ⟨trivial, fun _ _ => ⟨trivial,
    fun _ _ => trivial⟩⟩⟩
  refine ⟨w, (reach_of_run hmeets hw₀).trans (reach_of_run hpush hw), fun hsafe => ?_⟩
  exact of_decide_eq_true hunsafe (hsafe (.caller 0) fatal s hs)

/-- A test of `Apart`. -/
def apartTest (ns : List ℕ) (w : State) : Label → Bool
  | .call n m _ => ns.all fun k => k = n || (w.pc (.caller k)).fn.mlog ≠ some m
  | _ => true

theorem apart_of_test {ns : List ℕ} {w : State} {l : Label} (hi : IdleBut ns w) (h : apartTest ns w l = true) :
    Apart w l := by
  cases l with
  | call n m u =>
    intro k hk
    by_cases hns : k ∈ ns
    · simpa [hk] using List.all_eq_true.mp h k hns
    · rw [hi k hns]
      rintro ⟨⟩
  | _ => trivial

/-- A test of what a statement must not do to a scan. -/
def scanTest (w : State) (fatal : Bool) (s : ScanPc) : Stmt → Bool
  | .vec (.push _) _ => (s.iter fatal).all fun it => w.sharedAppenders.PushKeeps it
  | .vec (.erase m) _ => (s.iter fatal).all fun it => w.sharedAppenders.EraseKeeps m it
  | .delete m _ => s.neighbour ≠ some m
  | .app m .free _ => s.neighbour ≠ some m
  | _ => true

/-- A test of `KeepsScans`. -/
def scansTest (ns : List ℕ) (w : State) : Label → Bool
  | .run t _ => ns.all fun k => (w.pc (.caller k)).scan.all fun s => scanTest w s.1 s.2 (code (w.pc t))
  | _ => true

theorem exists_of_frees {m : Mlog} {st : Stmt} (h : st.frees m = true) : ∃ k, st = .app m .free k := by
  cases st with
  | app n op k =>
    simp only [Stmt.frees, Bool.and_eq_true, decide_eq_true_iff] at h
    obtain ⟨rfl, hop⟩ := h
    cases op with
    | free => exact ⟨k, rfl⟩
    | _ => cases hop
  | _ => cases h

theorem keepsScans_of_test {ns : List ℕ} {w : State} {l : Label} (hs : Synced w) (hi : IdleBut ns w)
    (h : scansTest ns w l = true) : KeepsScans w l := by
  cases l with
  | run t env =>
    intro u fatal s hu
    have htest : scanTest w fatal s (code (w.pc t)) = true := by
      cases u with
      | caller k =>
        by_cases hns : k ∈ ns
        · have hall := List.all_eq_true.mp h k hns
          rwa [hu] at hall
        · rw [hi k hns] at hu
          cases hu
      | worker a =>
        -- a worker does not scan
        have hnone : (w.pc (.worker a)).scan = none := by
          rcases hs.worker a with hw | hw
          · rw [hw]
            rfl
          · exact scan_eq_none (by rw [hw]; rintro m info log ⟨⟩)
        rw [hnone] at hu
        cases hu
    refine ⟨fun it hit => ⟨fun m k hst => ?_, fun m k hst => ?_⟩, fun n k hn hst => ?_, fun it n hlen => ?_⟩
    · rw [hst, scanTest, hit] at htest
      exact of_decide_eq_true htest
    · rw [hst, scanTest, hit] at htest
      exact of_decide_eq_true htest
    · rw [hst] at htest
      exact absurd hn (of_decide_eq_true htest)
    · subst hlen
      refine Bool.eq_false_iff.mpr fun hf => ?_
      obtain ⟨k, hst⟩ := exists_of_frees hf
      rw [hst] at htest
      exact of_decide_eq_true htest rfl
  | _ => trivial

/-- A first appender is made, in a vector with room for four, and a second one, and both are opened. A record is
appended to the first one, and the worker writes it to the file. A record is appended to the second one. While its scan
is about to read the flag of the first one, another caller makes a third appender, and before it reads the buffer there,
destroys it. The other caller appends to the first appender, up to its scan, and the first scan goes on to the second
appender. -/
def scansAmidChanges : List Label :=
  .create 0 true :: runs (.caller 0) 1 ++ .run (.caller 0) { Env.ok with room := 4 } :: runs (.caller 0) 2 ++
  .call 0 ⟨true, 0⟩ (.open .async dirD nameN) :: runs (.caller 0) 13 ++
  openNew 1 ++
  .call 0 ⟨true, 0⟩ (.append none (some textA)) :: runs (.caller 0) 23 ++
  runs (.worker .shared) 30 ++
  .call 0 ⟨true, 1⟩ (.append none (some textA)) :: runs (.caller 0) 10 ++
  .create 1 true :: runs (.caller 1) 4 ++
  runs (.caller 0) 1 ++
  .call 1 ⟨true, 2⟩ .destroy :: runs (.caller 1) 5 ++
  .call 1 ⟨true, 0⟩ (.append none (some textA)) :: runs (.caller 1) 10 ++
  runs (.caller 0) 4

theorem scan_safe_amidChanges :
    ∃ w, run (step utc) (.init (fun _ => []) ⟨0, 0⟩) scansAmidChanges = some w ∧
      ((w.pc (.caller 0)).scan.bind fun s => s.2.neighbour) = some ⟨true, 1⟩ ∧
      ((w.pc (.caller 1)).scan.bind fun s => s.2.neighbour) = some ⟨true, 0⟩ ∧ ScansSafely w := by
  have hrun : (run (step utc) (.init (fun _ => []) ⟨0, 0⟩) scansAmidChanges).any (fun w =>
      decide (((w.pc (.caller 0)).scan.bind fun s => s.2.neighbour) = some ⟨true, 1⟩) &&
        decide (((w.pc (.caller 1)).scan.bind fun s => s.2.neighbour) = some ⟨true, 0⟩)) = true := by
    decide +kernel
  obtain ⟨w, hw, hb⟩ := (Option.any_eq_true _ _).mp hrun
  simp only [Bool.and_eq_true, decide_eq_true_iff] at hb
  have hmeets : Meets (step utc) (fun w l => Apart w l ∧ KeepsScans w l) (.init (fun _ => []) ⟨0, 0⟩)
      scansAmidChanges :=
    meets_of_test [0, 1] (fun w l => apartTest [0, 1] w l && scansTest [0, 1] w l)
      (fun w l hs hi h => by
        rw [Bool.and_eq_true] at h
        exact ⟨apart_of_test hi h.1, keepsScans_of_test hs hi h.2⟩)
      (by decide +kernel) (by decide +kernel)
  exact ⟨w, hw, hb.1, hb.2, scan_safe utc (fun _ => []) ⟨0, 0⟩ w (reach_of_run hmeets hw)⟩

end MTAppenderFile.Loglib.World
