import MTAppenderFile.Loglib.Flow
import MTAppenderFile.Loglib.Interleaving

/-! # The threads during `close` and `destroy`

The threads append, and one of them closes the appender and destroys it (`OneClose`). `Shutting` says what
holds in every interleaving of these, up to the end of the appender: the phase of the thread that closes
decides whether the flag is set, whether there is a buffer, and where the worker can be. -/

namespace MTAppenderFile.Loglib.Shutdown

open MTAppenderFile.Lib.Handover
open MTAppenderFile.Lib.Run
open MTAppenderFile.Comm.CTypes
open MTAppenderFile.Loglib.Base
open MTAppenderFile.Loglib.Buffer
open MTAppenderFile.Loglib.Files
open MTAppenderFile.Loglib.Formatter
open MTAppenderFile.Loglib.Appender
open MTAppenderFile.Loglib.Session
open MTAppenderFile.Loglib.Lifecycle
open MTAppenderFile.Loglib.Threads
open MTAppenderFile.Loglib.Steps
open MTAppenderFile.Loglib.Pipeline
open MTAppenderFile.Loglib.Interleaving
open MTAppenderFile.Loglib.Flow

/-- Appends and one call of `close` and `destroy`; what their steps need. -/
def OneClose (x : Sys × Hist) : Label → Prop
  | .call _ (.append _ _) => True
  | .call _ .closeDestroy => ∀ u, kind (x.1.pc u) ≠ .close
  | .call _ _ => False
  | .run t env => StepOk x.1 t env

/-- The worker: the own one only ends when the flag is set, the shared one makes its passes under the
spinlock. -/
def AtWork (s : Sys) : Prop :=
  match s.p.mlog.sgThreadAsync with
  | .own => (∃ pc, s.pc 0 = .loop pc) ∨ s.pc 0 = .idle ∧ s.p.mlog.sgLogClose = true
  | .shared => (s.pc 0 = .idle ∨ ∃ pc, s.pc 0 = .pass pc) ∧ (InPass (s.pc 0) → s.spin.isSome)

theorem atWork_own {s : Sys} (hth : s.p.mlog.sgThreadAsync = .own) :
    AtWork s ↔ (∃ pc, s.pc 0 = .loop pc) ∨ s.pc 0 = .idle ∧ s.p.mlog.sgLogClose = true := by
  unfold AtWork; rw [hth]

theorem atWork_shared {s : Sys} (hth : s.p.mlog.sgThreadAsync = .shared) :
    AtWork s ↔ (s.pc 0 = .idle ∨ ∃ pc, s.pc 0 = .pass pc) ∧ (InPass (s.pc 0) → s.spin.isSome) := by
  unfold AtWork; rw [hth]

/-- **The threads, up to the end of the appender.** -/
structure Shutting (p₀ : Proc) (x : Sys × Hist) : Prop extends Tracked p₀ x where
  deleted : x.1.deleted = false
  role : ∀ t, t ≠ 0 → Role x.1.p.mlog.sgThreadAsync (x.1.pc t)
  worker : AtWork x.1
  single : ∀ t u, kind (x.1.pc t) = .close → kind (x.1.pc u) = .close → t = u
  flag : x.1.p.mlog.sgLogClose = true ↔ ∃ t, 1 ≤ phase (x.1.pc t)
  buff : x.1.p.mlog.sgLogBuff.isSome ↔ ∀ t, phase (x.1.pc t) ≤ 2
  joined : x.1.p.mlog.sgThreadAsync = .own → ∀ t, 2 ≤ phase (x.1.pc t) → x.1.pc 0 = .idle
  unlisted : ∀ t, phase (x.1.pc t) = 4 → x.1.listed = false ∧ ¬ InPass (x.1.pc 0)
  kept : p₀.mlog.sgLogdir ≠ [] → (∀ t, phase (x.1.pc t) ≤ 2) → ∀ r ∈ x.2.pipe.log, Held x.2.pipe r

theorem Started.shutting {lc : Libc} {s : Sys} (h : Started lc .async s) :
    Shutting s.p (s, .empty) := by
  obtain ⟨lb, ho, -, -⟩ := h.open_spec
  have hphase : ∀ t, phase (s.pc t) = 0 := fun t => phase_of_kind (Started.kind_ne_close h t)
  have hkind := Started.kind_ne_close h
  refine ⟨h.tracked, h.deleted, fun t ht => ?_, ?_, fun t _ ht => absurd ht (hkind t), ?_, ?_, ?_, ?_, ?_⟩
  · show Role _ (s.pc t)
    rw [h.others t ht]; trivial
  · have hw := h.worker
    show AtWork s
    cases hth : s.p.mlog.sgThreadAsync <;> rw [hth] at hw
    · rw [atWork_shared hth]
      rcases hw with hw | hw <;> rw [hw]
      · exact ⟨.inl rfl, False.elim⟩
      · exact ⟨.inr ⟨_, rfl⟩, False.elim⟩
    · exact (atWork_own hth).mpr (.inl ⟨_, hw⟩)
  · simp [ho.flag, hphase]
  · simp [ho.buff, hphase]
  · intro _ t ht
    rw [hphase t] at ht; cases ht
  · intro t ht
    rw [hphase t] at ht; cases ht
  · exact fun _ _ _ hr => absurd hr List.not_mem_nil

section Steps

variable {lc : Libc} {env : FileEnv} {p₀ : Proc} {x x' : Sys × Hist} {l : Label} {t : ℕ}

theorem allowed_of_oneClose (h : OneClose x l) : Allowed (fun _ => True) x l := by
  cases l with
  | call t c => trivial
  | run t env => exact h

theorem Shutting.worker_kind (h : Shutting p₀ x) : kind (x.1.pc 0) ≠ .close := by
  have hw := h.worker
  unfold AtWork at hw
  split at hw
  · rcases hw with ⟨pc, hw⟩ | ⟨hw, -⟩ <;> rw [hw] <;> rintro ⟨⟩
  · rcases hw.1 with hw | ⟨pc, hw⟩ <;> rw [hw] <;> rintro ⟨⟩

theorem Shutting.kept_run (h : Shutting p₀ x)
    (hx : x'.2 = { x.2 with pipe := x.2.pipe.move (moveOf lc x.2.pipe.log.length t x.1) })
    (hdir : p₀.mlog.sgLogdir ≠ []) (hfree : act (x.1.pc t) ≠ .free) (hp : ∀ u, phase (x.1.pc u) ≤ 2) :
    ∀ r ∈ x'.2.pipe.log, Held x'.2.pipe r := by
  have hdir' : x.1.p.mlog.sgLogdir ≠ [] := by rw [h.coupled.holds.same.dir]; exact hdir
  intro r hr
  rw [hx] at hr ⊢
  exact held_move_of_mem_log (h.kept hdir hp) (fun hm => hfree (act_of_wipe hm))
    (fun u hm => hdir' (dir_of_lose hm)) (fun y hm => hdir' (dir_of_refuse hm)) hr

theorem phase_of_stepped {s s' : Sys} (hst : Stepped lc env t s (s.pc t) s') (hk : kind (s.pc t) ≠ .close)
    (u : ℕ) : phase (s'.pc u) = phase (s.pc u) := by
  by_cases hu : u = t
  · subst hu
    rw [phase_of_kind hk, phase_of_kind (hst.kind_ne_close hk)]
  · rcases hst.others u hu with he | ⟨rfl, hi, he⟩
    · rw [he]
    · rw [hi, he, phase_workerStart]; rfl

theorem worker_of_append (ht : t ≠ 0) {info : Option LogInfo} {log : Option CStr}
    {pc : AppendPc} (hpc : x.1.pc t = .append info log pc)
    (he : exec lc env t x.1 (x.1.pc t) = some x'.1) :
    x'.1.pc 0 = x.1.pc 0 ∨
      x.1.p.mlog.sgThreadAsync = .shared ∧ x.1.pc 0 = .idle ∧ x'.1.pc 0 = .pass .lock := by
  cases hth : x.1.p.mlog.sgThreadAsync with
  | own =>
    rw [hpc] at he
    exact .inl (worker_of_appendStep ht hth he)
  | shared =>
    rcases (exec_stepped he).others 0 (Ne.symm ht) with hw | ⟨-, hi, hw⟩
    · exact .inl hw
    · rw [hth] at hw
      exact .inr ⟨rfl, hi, hw⟩

theorem Shutting.call (h : Shutting p₀ x) {c : Call} (hl : OneClose x (.call t c))
    (hs : tstep lc x (.call t c) = some x') : Shutting p₀ x' := by
  have htr := h.toTracked.step (allowed_of_oneClose hl) hs
  obtain ⟨-, ht, hi, rfl⟩ := tstep_call hs
  have hentry : phase c.entry = 0 ∧ Role x.1.p.mlog.sgThreadAsync c.entry := by
    cases c <;> first | exact hl.elim | exact ⟨rfl, trivial⟩
  have hpc : ∀ u, u ≠ t → (x.1.goto t c.entry).pc u = x.1.pc u := fun u hu => goto_pc_of_ne _ hu _
  have hphase : ∀ u, phase ((x.1.goto t c.entry).pc u) = phase (x.1.pc u) := by
    intro u
    by_cases hu : u = t
    · subst hu; rw [goto_pc_self, hentry.1, hi]; rfl
    · rw [hpc u hu]
  have h0 : (x.1.goto t c.entry).pc 0 = x.1.pc 0 := hpc 0 ht.symm
  refine ⟨htr, h.deleted, fun u hu => ?_, ?_, fun u v hu hv => ?_, ?_, ?_, ?_, ?_, ?_⟩
  · by_cases hut : u = t
    · subst hut; rw [goto_pc_self]; exact hentry.2
    · rw [hpc u hut]; exact h.role u hu
  · have hw := h.worker
    unfold AtWork at hw ⊢
    rw [h0]
    exact hw
  · -- the thread that calls `close` is the only one
    have hnew : ∀ v, kind ((x.1.goto t c.entry).pc t) = .close → kind (x.1.pc v) ≠ .close := by
      intro v hk
      rw [goto_pc_self] at hk
      rw [eq_closeDestroy hk] at hl
      exact hl v
    by_cases hut : u = t <;> by_cases hvt : v = t
    · rw [hut, hvt]
    · subst hut; rw [hpc v hvt] at hv; exact absurd hv (hnew v hu)
    · subst hvt; rw [hpc u hut] at hu; exact absurd hu (hnew u hv)
    · rw [hpc u hut] at hu; rw [hpc v hvt] at hv; exact h.single u v hu hv
  · simp only [hphase]; exact h.flag
  · simp only [hphase]; exact h.buff
  · simp only [hphase, h0]; exact h.joined
  · simp only [hphase, h0]; exact h.unlisted
  · simp only [hphase]; exact h.kept

/-- A step of a thread that does not close. -/
theorem Shutting.run_of_ne (h : Shutting p₀ x) (hl : OneClose x (.run t env))
    (hs : tstep lc x (.run t env) = some x') (hk : kind (x.1.pc t) ≠ .close)
    (hrole : t ≠ 0 → Role x.1.p.mlog.sgThreadAsync (x'.1.pc t)) (hworker : AtWork x'.1)
    (hidle : x.1.p.mlog.sgThreadAsync = .own → x.1.pc 0 = .idle → x'.1.pc 0 = .idle)
    (hpass : x.1.listed = false → ¬ InPass (x.1.pc 0) → ¬ InPass (x'.1.pc 0)) : Shutting p₀ x' := by
  have htr := h.toTracked.step (allowed_of_oneClose hl) hs
  obtain ⟨-, he, hx⟩ := tstep_run hs
  have hst := exec_stepped he
  have hf := hst.does.frame h.coupled.holds.handle
  have hphase := phase_of_stepped hst hk
  have hclose : ∀ u, kind (x'.1.pc u) = .close → kind (x.1.pc u) = .close := by
    intro u hu
    by_cases hut : u = t
    · subst hut; exact absurd hu (hst.kind_ne_close hk)
    · rcases hst.others u hut with h' | ⟨rfl, -, h'⟩
      · rw [← h']; exact hu
      · rw [h', kind_workerStart] at hu; cases hu
  refine ⟨htr, ?_, fun u hu => ?_, hworker, fun u v hu hv => h.single u v (hclose u hu) (hclose v hv),
    ?_, ?_, ?_, ?_, ?_⟩
  · rw [hst.rest.deleted hk, h.deleted]
  · rw [hf.same.thread]
    by_cases hut : u = t
    · subst hut; exact hrole hu
    · rcases hst.others u hut with h' | ⟨h', -, -⟩
      · rw [h']; exact h.role u hu
      · exact absurd h' hu
  · rw [hf.flag, or_iff_left fun h0 => hk (kind_of_act h0 rfl), h.flag]
    simp only [hphase]
  · rw [hf.buff, and_iff_left fun h0 => hk (kind_of_act h0 rfl), h.buff]
    simp only [hphase]
  · rw [hf.same.thread]
    intro hth u hu
    rw [hphase u] at hu
    exact hidle hth (h.joined hth u hu)
  · intro u hu
    rw [hphase u] at hu
    obtain ⟨hl, hp⟩ := h.unlisted u hu
    exact ⟨(hst.rest.listed hk).trans hl, hpass hl hp⟩
  · intro hdir hp
    simp only [hphase] at hp
    exact h.kept_run hx hdir (fun h0 => hk (kind_of_act h0 rfl)) hp

theorem Shutting.buff_of_loop (h : Shutting p₀ x) (hth : x.1.p.mlog.sgThreadAsync = .own) {pc : LoopPc}
    (hpc : x.1.pc 0 = .loop pc) : x.1.p.mlog.sgLogBuff.isSome := by
  rw [h.buff]
  intro t
  by_contra hp
  have hi := h.joined hth t (by omega)
  rw [hpc] at hi
  cases hi

theorem Shutting.loopFlow (h : Shutting p₀ x) (hth : x.1.p.mlog.sgThreadAsync = .own)
    (hs : tstep lc x (.run 0 env) = some x') :
    ∃ pc, x.1.pc 0 = .loop pc ∧ LoopFlow x.1.p.mlog.sgLogClose pc (x'.1.pc 0) := by
  obtain ⟨-, he, -⟩ := tstep_run hs
  rcases (atWork_own hth).mp h.worker with ⟨pc, hpc⟩ | ⟨hpc, -⟩
  · rw [hpc] at he
    exact ⟨pc, hpc, loopFlow_of_loopStep (h.buff_of_loop hth hpc) he⟩
  · rw [hpc] at he
    cases he

theorem Shutting.run_worker (h : Shutting p₀ x) (hl : OneClose x (.run 0 env))
    (hs : tstep lc x (.run 0 env) = some x') : Shutting p₀ x' := by
  have hk := h.worker_kind
  obtain ⟨-, he, -⟩ := tstep_run hs
  have hf := (exec_stepped he).does.frame h.coupled.holds.handle
  cases hth : x.1.p.mlog.sgThreadAsync with
  | own =>
    have hth' := hf.same.thread.trans hth
    obtain ⟨pc, hpc, hflow⟩ := h.loopFlow hth hs
    refine h.run_of_ne hl hs hk (fun h0 => absurd rfl h0) ?_ (fun _ hi => ?_) fun _ _ => ?_
    · rw [atWork_own hth', hf.flag, or_iff_left fun h0 => hk (kind_of_act h0 rfl)]
      generalize x'.1.pc 0 = pc' at hflow
      cases hflow with
      | stop hflag => exact .inr ⟨rfl, hflag⟩
      | _ => exact .inl ⟨_, rfl⟩
    · rw [hpc] at hi; cases hi
    · generalize x'.1.pc 0 = pc' at hflow
      cases hflow <;> exact id
  | shared =>
    have hth' := hf.same.thread.trans hth
    obtain ⟨hw, hspin⟩ := (atWork_shared hth).mp h.worker
    rcases hw with hpc | ⟨pc, hpc⟩
    · rw [hpc] at he; cases he
    · rw [hpc] at he hspin
      obtain ⟨hpc', hspin', hin⟩ := pass_of_passStep hspin he
      refine h.run_of_ne hl hs hk (fun h0 => absurd rfl h0) ?_ (fun h0 => ?_) fun hlist hp hp' => ?_
      · exact (atWork_shared hth').mpr ⟨hpc', hspin'⟩
      · rw [hth] at h0; cases h0
      · rw [hpc] at hp
        rcases hin hp' with h0 | h0
        · exact hp h0
        · rw [hlist] at h0; cases h0

theorem Shutting.run_append (h : Shutting p₀ x) (ht : t ≠ 0) {info : Option LogInfo}
    {log : Option CStr} {pc : AppendPc} (hpc : x.1.pc t = .append info log pc)
    (hl : OneClose x (.run t env)) (hs : tstep lc x (.run t env) = some x') : Shutting p₀ x' := by
  have hk : kind (x.1.pc t) ≠ .close := by rw [hpc]; rintro ⟨⟩
  obtain ⟨-, he, -⟩ := tstep_run hs
  have hst := exec_stepped he
  have hf := hst.does.frame h.coupled.holds.handle
  have hflag : x'.1.p.mlog.sgLogClose = true ↔ x.1.p.mlog.sgLogClose = true := by
    rw [hf.flag, or_iff_left fun h0 => hk (kind_of_act h0 rfl)]
  have hspin := hst.rest.spin (by rw [hpc]; rintro ⟨⟩)
  have hw := worker_of_append ht hpc he
  refine h.run_of_ne hl hs hk (fun _ => ?_) ?_ (fun hth hi => ?_) fun _ hp => ?_
  · have hkind := hst.leads.kind
    rw [hpc] at hkind
    generalize x'.1.pc t = pc' at hkind
    cases pc' <;> first
      | trivial
      | (rcases hkind with h0 | h0 | ⟨h0, -⟩ <;> first | cases h0; done | exact absurd h0 ht)
  · cases hth : x.1.p.mlog.sgThreadAsync with
    | own =>
      rw [atWork_own (hf.same.thread.trans hth), hflag]
      rcases hw with hw | ⟨h0, -, -⟩
      · rw [hw]; exact (atWork_own hth).mp h.worker
      · rw [hth] at h0; cases h0
    | shared =>
      rw [atWork_shared (hf.same.thread.trans hth), hspin]
      rcases hw with hw | ⟨-, -, hw⟩ <;> rw [hw]
      · exact (atWork_shared hth).mp h.worker
      · exact ⟨.inr ⟨_, rfl⟩, False.elim⟩
  · rcases hw with hw | ⟨h0, -, -⟩
    · rw [hw]; exact hi
    · rw [hth] at h0; cases h0
  · rcases hw with hw | ⟨-, -, hw⟩ <;> rw [hw]
    · exact hp
    · exact id

theorem Shutting.not_inPass (h : Shutting p₀ x) (hs : x.1.spin = none) : ¬ InPass (x.1.pc 0) := by
  cases hth : x.1.p.mlog.sgThreadAsync with
  | own => rcases (atWork_own hth).mp h.worker with ⟨pc, hw⟩ | ⟨hw, -⟩ <;> rw [hw] <;> exact id
  | shared =>
    intro hp
    have := ((atWork_shared hth).mp h.worker).2 hp
    rw [hs] at this
    cases this

theorem Shutting.phase_others (h : Shutting p₀ x) (hk : kind (x.1.pc t) = .close) {u : ℕ} (hu : u ≠ t) :
    phase (x.1.pc u) = 0 := phase_of_kind fun hk' => hu (h.single u t hk' hk)

/-- The phase of the thread that closes bounds the phases. -/
theorem forall_phase_le {pcs : ℕ → Pc} {c : ℕ} (h : ∀ u, u ≠ c → phase (pcs u) = 0) {n : ℕ} :
    (∀ u, phase (pcs u) ≤ n) ↔ phase (pcs c) ≤ n := by
  refine ⟨fun hp => hp c, fun hp u => ?_⟩
  by_cases hu : u = c
  · rw [hu]; exact hp
  · rw [h u hu]; exact Nat.zero_le n

theorem Shutting.closes (h : Shutting p₀ x) (hk : kind (x.1.pc t) = .close)
    (he : exec lc env t x.1 (x.1.pc t) = some x'.1) : Closes t x.1 (x.1.pc t) x'.1 := by
  have ht : t ≠ 0 := by rintro rfl; exact h.worker_kind hk
  have hle : (∀ u, phase (x.1.pc u) ≤ 2) ↔ phase (x.1.pc t) ≤ 2 :=
    forall_phase_le fun u hu => h.phase_others hk hu
  refine closes_of_exec (h.role t ht) hk ?_ (fun hp => h.buff.mpr (hle.mpr hp)) he
  rw [h.flag]
  constructor
  · rintro ⟨u, hu⟩
    rwa [h.single t u hk (kind_of_phase hu)]
  · exact fun hp => ⟨t, hp⟩

theorem Shutting.run_close (h : Shutting p₀ x) (hk : kind (x.1.pc t) = .close)
    (hd : x.1.pc t ≠ .delete) (hl : OneClose x (.run t env)) (hs : tstep lc x (.run t env) = some x') :
    Shutting p₀ x' := by
  have htr := h.toTracked.step (allowed_of_oneClose hl) hs
  obtain ⟨-, he, hx⟩ := tstep_run hs
  have ht : t ≠ 0 := by rintro rfl; exact h.worker_kind hk
  have hst := exec_stepped he
  have hf := hst.does.frame h.coupled.holds.handle
  obtain ⟨hflow, hothers, hlisted, hdeleted⟩ := h.closes hk he
  have hphase : ∀ u, u ≠ t → phase (x'.1.pc u) = 0 := fun u hu => by
    rw [hothers u hu, h.phase_others hk hu]
  have heq : ∀ {n u}, n + 1 ≤ phase (x'.1.pc u) → u = t := by
    intro n u hu
    by_contra hut
    rw [hphase u hut] at hu
    omega
  have h0 : x'.1.pc 0 = x.1.pc 0 := hothers 0 ht.symm
  have hle : (∀ u, phase (x.1.pc u) ≤ 2) ↔ phase (x.1.pc t) ≤ 2 :=
    forall_phase_le fun u hu => h.phase_others hk hu
  have hle' : (∀ u, phase (x'.1.pc u) ≤ 2) ↔ phase (x'.1.pc t) ≤ 2 := forall_phase_le hphase
  refine ⟨htr, (hdeleted hd).trans h.deleted, fun u hu => ?_, ?_, fun u v hu hv => ?_, ?_, ?_, ?_, ?_, ?_⟩
  · rw [hf.same.thread]
    by_cases hut : u = t
    · subst hut; exact hflow.role (h.role u hu)
    · rw [hothers u hut]; exact h.role u hu
  · cases hth : x.1.p.mlog.sgThreadAsync with
    | own =>
      rw [atWork_own (hf.same.thread.trans hth), h0, hf.flag]
      rcases (atWork_own hth).mp h.worker with hw | ⟨hw, hflag⟩
      · exact .inl hw
      · exact .inr ⟨hw, .inl hflag⟩
    | shared =>
      rw [atWork_shared (hf.same.thread.trans hth), h0, hst.rest.spin (by rw [hk]; rintro ⟨⟩)]
      exact (atWork_shared hth).mp h.worker
  · have honly : ∀ w, kind (x'.1.pc w) = .close → w = t := by
      intro w hw
      by_contra hwt
      rw [hothers w hwt] at hw
      exact hwt (h.single w t hw hk)
    rw [honly u hu, honly v hv]
  · rw [hf.flag, h.flag]
    constructor
    · rintro (⟨u, hu⟩ | hact)
      · rw [h.single u t (kind_of_phase hu) hk] at hu
        exact ⟨t, (hflow.one_le_phase hd).mpr (.inl hu)⟩
      · exact ⟨t, (hflow.one_le_phase hd).mpr (.inr hact)⟩
    · rintro ⟨u, hu⟩
      rw [heq hu] at hu
      exact ((hflow.one_le_phase hd).mp hu).imp_left fun hp => ⟨t, hp⟩
  · rw [hf.buff, h.buff, hle, hle', hflow.phase_le_two hd]
  · rw [hf.same.thread, h0]
    intro hth u hu
    rw [heq hu] at hu
    have hr := h.role t ht
    rw [hth] at hr
    rcases hflow.joined hr hu with hi | hp
    · exact hi
    · exact h.joined hth t hp
  · intro u hu
    have hut : u = t := heq (n := 3) (by omega)
    rw [hut, eq_delete_of_phase] at hu
    refine ⟨hlisted hu, ?_⟩
    rw [h0]
    rw [hu] at hflow
    generalize x.1.pc t = pc at hflow
    cases hflow with
    | erase hspin => exact h.not_inPass hspin
  · intro hdir hp
    obtain ⟨hp', hfree⟩ := (hflow.phase_le_two hd).mp (hle'.mp hp)
    exact h.kept_run hx hdir hfree (hle.mpr hp')

/-- The appender is gone. -/
def Gone (x : Sys × Hist) : Prop := x.1.deleted = true ∧ ∀ u, kind (x.1.pc u) ≠ .close

theorem not_gone_of_tstep (hs : tstep lc x l = some x') : ¬ Gone x := by
  rintro ⟨hd, -⟩
  cases l with
  | call t c => rw [(tstep_call hs).1] at hd; cases hd
  | run t env => rw [(tstep_run hs).1] at hd; cases hd

theorem Shutting.gone (h : Shutting p₀ x) (hpc : x.1.pc t = .delete)
    (he : exec lc env t x.1 (x.1.pc t) = some x'.1) : Gone x' := by
  rw [hpc, exec, Option.some_inj] at he
  refine ⟨by rw [← he]; rfl, fun u hu => ?_⟩
  rw [← he] at hu
  by_cases hut : u = t
  · subst hut; rw [goto_pc_self] at hu; cases hu
  · rw [goto_pc_of_ne _ hut] at hu
    exact hut (h.single u t hu (by rw [hpc]; rfl))

/-- **Every step**, up to the end of the appender. -/
theorem Shutting.step (h : Shutting p₀ x) (hl : OneClose x l) (hs : tstep lc x l = some x') :
    Gone x' ∨ Shutting p₀ x' := by
  cases l with
  | call t c => exact .inr (h.call hl hs)
  | run t env =>
    obtain ⟨-, he, -⟩ := tstep_run hs
    by_cases ht : t = 0
    · subst ht; exact .inr (h.run_worker hl hs)
    have hrole := h.role t ht
    cases hpc : x.1.pc t with
    | idle => rw [hpc] at he; cases he
    | append info log pc => exact .inr (h.run_append ht hpc hl hs)
    | close stage pc =>
      exact .inr (h.run_close (by rw [hpc]; rfl) (by rw [hpc]; rintro ⟨⟩) hl hs)
    | erase => exact .inr (h.run_close (by rw [hpc]; rfl) (by rw [hpc]; rintro ⟨⟩) hl hs)
    | delete => exact .inl (h.gone hpc he)
    | _ => rw [hpc] at hrole; exact hrole.elim

/-- **Every interleaving**, up to the end of the appender. -/
theorem Started.reach_shutting {s : Sys} (h : Started lc .async s)
    (hr : Reach (tstep lc) OneClose (s, .empty) x) : Gone x ∨ Shutting s.p x := by
  refine hr.inv (P := fun x => Gone x ∨ Shutting s.p x) (.inr (Started.shutting h)) ?_
  rintro y l y' (hy | hy) hl hs
  · exact absurd hy (not_gone_of_tstep hs)
  · exact hy.step hl hs

theorem Started.reach_inAsync {s : Sys} (h : Started lc .async s)
    (hr : Reach (tstep lc) OneClose (s, .empty) x) : Gone x ∨ InAsync x.1 := by
  have hinv : Gone x ∨ Shutting s.p x ∧ InAsync x.1 := by
    refine hr.inv (P := fun x => Gone x ∨ Shutting s.p x ∧ InAsync x.1)
      (.inr ⟨Started.shutting h, h.inAsync⟩) ?_
    rintro y l y' (hy | ⟨hy, ha⟩) hl hs
    · exact absurd hy (not_gone_of_tstep hs)
    · exact (hy.step hl hs).imp_right fun hy' =>
        ⟨hy', hy.toTracked.inAsync_step ha (fun t mode hc => by subst hc; exact hl) hs⟩
  exact hinv.imp_right And.right

theorem Started.shutting_of_reach {s : Sys} (h : Started lc .async s)
    (hr : Reach (tstep lc) OneClose (s, .empty) x) (hd : x.1.deleted = false) : Shutting s.p x := by
  refine (Started.reach_shutting h hr).resolve_left ?_
  rintro ⟨hd', -⟩
  rw [hd] at hd'
  cases hd'

theorem Shutting.worker_same (h : Shutting p₀ x) (hth : x.1.p.mlog.sgThreadAsync = .own) (ht : t ≠ 0)
    (hs : tstep lc x (.run t env) = some x') : x'.1.pc 0 = x.1.pc 0 := by
  obtain ⟨-, he, -⟩ := tstep_run hs
  by_cases hk : kind (x.1.pc t) = .close
  · exact (h.closes hk he).others 0 ht.symm
  have hrole := h.role t ht
  cases hpc : x.1.pc t with
  | idle => rw [hpc] at he; cases he
  | append info log pc =>
    rw [hpc] at he
    exact worker_of_appendStep ht hth he
  | close stage pc => rw [hpc] at hk; exact absurd rfl hk
  | erase => rw [hpc] at hk; exact absurd rfl hk
  | delete => rw [hpc] at hk; exact absurd rfl hk
  | _ => rw [hpc] at hrole; exact hrole.elim

theorem Shutting.closer_same (h : Shutting p₀ x) {c : ℕ} (hk : kind (x.1.pc c) = .close) (hc : t ≠ c)
    (hs : tstep lc x (.run t env) = some x') : x'.1.pc c = x.1.pc c := by
  obtain ⟨-, he, -⟩ := tstep_run hs
  rcases (exec_stepped he).others c hc.symm with hpc | ⟨rfl, -, -⟩
  · exact hpc
  · exact absurd hk h.worker_kind

theorem Shutting.hand_eq_nil (h : Shutting p₀ x) (hpc : x.1.pc t = .delete) (u : ℕ) :
    x.2.pipe.hand u = [] := by
  have hk : kind (x.1.pc t) = .close := by rw [hpc]; rfl
  have hp : phase (x.1.pc t) = 4 := by rw [hpc]; rfl
  refine h.coupled.hand_eq_nil.mpr ?_
  by_cases hu : u = 0
  · subst hu
    cases hth : x.1.p.mlog.sgThreadAsync with
    | own => rw [h.joined hth t (by omega)]; rfl
    | shared =>
      have hin := (h.unlisted t hp).2
      rcases ((atWork_shared hth).mp h.worker).1 with hw | ⟨pc, hw⟩ <;> rw [hw] at hin ⊢
      · rfl
      · exact chunk_of_not_inPass hin
  by_cases hut : u = t
  · rw [hut, hpc]; rfl
  · exact chunk_of_role (h.role u hu) fun hk' => hut (h.single u t hk' hk)

/-! ### Progress -/

/-- The thread that closes waits for the end of the own worker and for the spinlock, and for nothing
else. -/
theorem Shutting.exec_enabled (h : Shutting p₀ x) (lc : Libc) (env : FileEnv) {c : ℕ}
    (hk : kind (x.1.pc c) = .close)
    (hjoin : x.1.p.mlog.sgThreadAsync = .own → x.1.pc c = .close .close .join → x.1.pc 0 = .idle)
    (hspin : x.1.pc c = .erase → x.1.spin = none) :
    ∃ s', exec lc env c x.1 (x.1.pc c) = some s' := by
  have hc : c ≠ 0 := by rintro rfl; exact h.worker_kind hk
  have hrole := h.role c hc
  have hlive : phase (x.1.pc c) ≤ 2 → ∃ lb, Live x.1.p lb := by
    intro hp
    have hb : x.1.p.mlog.sgLogBuff.isSome :=
      h.buff.mpr ((forall_phase_le fun u hu => h.phase_others hk hu).mpr hp)
    obtain ⟨lb, hlb⟩ := Option.isSome_iff_exists.mp hb
    exact ⟨lb, (h.coupled.holds.live lb hlb).1⟩
  cases hpc : x.1.pc c with
  | close stage pc =>
    rw [hpc] at hlive hrole
    cases stage with
    | destroy => cases hrole; exact ⟨_, rfl⟩
    | close =>
      cases pc with
      | join =>
        cases hth : x.1.p.mlog.sgThreadAsync with
        | own =>
          have hi := Pc.isIdle_iff.mpr (hjoin hth hpc)
          exact ⟨_, by rw [exec, closeStep, hth]; exact if_pos hi⟩
        | shared => exact ⟨_, by rw [exec, closeStep, hth]⟩
      | task pc =>
        cases pc with
        | load => exact ⟨_, rfl⟩
        | drain =>
          obtain ⟨lb, hl⟩ := hlive (Nat.le_succ 1)
          exact exec_drain_enabled lc env c rfl (by rw [hl.buff]; rfl) (drainBuffer_eq hl)
        | write data => exact exec_write_enabled lc env c rfl
      | free =>
        obtain ⟨lb, hl⟩ := hlive (Nat.le_refl 2)
        obtain ⟨files, hf, -⟩ := freeLogBuff_spec hl
        exact ⟨_, by rw [exec, closeStep, hf]; rfl⟩
      | load => exact ⟨_, rfl⟩
      | store => exact ⟨_, rfl⟩
      | file => exact ⟨_, rfl⟩
  | erase => exact ⟨_, by rw [exec, hspin hpc]; rfl⟩
  | delete => exact ⟨_, rfl⟩
  | _ => rw [hpc] at hk; cases hk

theorem Shutting.close_step (h : Shutting p₀ x) (lc : Libc) {c : ℕ} (hk : kind (x.1.pc c) = .close)
    (hd : x.1.pc c ≠ .delete)
    (hjoin : x.1.p.mlog.sgThreadAsync = .own → x.1.pc c = .close .close .join → x.1.pc 0 = .idle)
    (hspin : x.1.pc c = .erase → x.1.spin = none) :
    ∃ x', OneClose x (.run c .ok) ∧ tstep lc x (.run c .ok) = some x' ∧ Shutting p₀ x' ∧
      Closes c x.1 (x.1.pc c) x'.1 ∧ x'.1.spin = x.1.spin ∧
      x'.2 = { x.2 with pipe := x.2.pipe.move (moveOf lc x.2.pipe.log.length c x.1) } := by
  have hi : ∀ info log, act (x.1.pc c) ≠ .insert info log := by
    intro info log ha
    rw [kind_of_act ha rfl] at hk
    cases hk
  obtain ⟨s', he⟩ := h.exec_enabled lc .ok hk hjoin hspin
  have hs := tstep_of_exec (h := x.2) h.deleted he
  have hl : OneClose x (.run c .ok) := stepOk_ok hi
  refine ⟨_, hl, hs, h.run_close hk hd hl hs, h.closes hk he, ?_, rfl⟩
  exact (exec_stepped he).rest.spin (by rw [hk]; rintro ⟨⟩)

/-- **`close` and `destroy` come to their end**, once the own worker has ended and nobody holds the
spinlock. -/
theorem Shutting.finish (h : Shutting p₀ x) (lc : Libc) {c : ℕ} (hp : 1 ≤ phase (x.1.pc c))
    (hidle : x.1.p.mlog.sgThreadAsync = .own → x.1.pc 0 = .idle) (hspin : x.1.spin = none) :
    ∃ y, Reach (tstep lc) OneClose x y ∧ y.1.pc c = .delete ∧ y.2.pipe.log = x.2.pipe.log := by
  induction hn : stepsLeft (x.1.pc c) using Nat.strong_induction_on generalizing x with
  | _ n ih =>
    have hk := kind_of_phase hp
    have hc : c ≠ 0 := by rintro rfl; exact h.worker_kind hk
    by_cases hd : x.1.pc c = .delete
    · exact ⟨x, .refl, hd, rfl⟩
    obtain ⟨x', hl, hs, h', hcl, hspin', hx⟩ :=
      h.close_step lc hk hd (fun hth _ => hidle hth) fun _ => hspin
    have hth : x'.1.p.mlog.sgThreadAsync = x.1.p.mlog.sgThreadAsync :=
      h'.coupled.holds.same.thread.trans h.coupled.holds.same.thread.symm
    have hlog : x'.2.pipe.log = x.2.pipe.log := by
      have harr : (moveOf lc x.2.pipe.log.length c x.1).arrival = none := by
        rw [Option.eq_none_iff_forall_ne_some]
        intro r hr
        rw [kind_of_arrival hr] at hk
        cases hk
      rw [hx, log_move, harr]
      exact List.append_nil _
    have hlt := hcl.flow.stepsLeft_lt hp
    obtain ⟨y, hy, hyc, hlog'⟩ := ih _ (hn ▸ hlt) h' ((hcl.flow.one_le_phase hd).mpr (.inl hp))
      (fun hown => (hcl.others 0 hc.symm).trans (hidle (hth.symm.trans hown)))
      (hspin'.trans hspin) rfl
    exact ⟨y, (Reach.refl.tail hl hs).trans hy, hyc, hlog'.trans hlog⟩

end Steps

end MTAppenderFile.Loglib.Shutdown
