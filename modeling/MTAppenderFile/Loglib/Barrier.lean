import MTAppenderFile.Loglib.Interleaving

/-! # What a return of `flush_sync` promises

A record that was appended before a call of `mtaf_log_appender_flush_sync` began is *due*. When the call
returns, the due records are in the log file, with three exceptions: another thread may have drained a due
record and not written it yet; a call that finds `sg_mode` at sync returns at once, with whatever is
in the buffer still there; and the `FILE` that the sync mode keeps open may still hold bytes of a due record, which
nobody flushes (`flush_barrier_iff`). The drain of the call itself leaves no due record in the
buffer, and none can come back (`Due.drained`). -/

namespace MTAppenderFile.Loglib.Barrier

open MTAppenderFile.Lib.Buffered
open MTAppenderFile.Lib.Handover
open MTAppenderFile.Lib.Run
open MTAppenderFile.Comm.CTypes
open MTAppenderFile.Loglib.Base
open MTAppenderFile.Loglib.Buffer
open MTAppenderFile.Loglib.Files
open MTAppenderFile.Loglib.Formatter
open MTAppenderFile.Loglib.Appender
open MTAppenderFile.Loglib.Session
open MTAppenderFile.Loglib.Lifecycle
open MTAppenderFile.Loglib.Exactness
open MTAppenderFile.Loglib.Threads
open MTAppenderFile.Loglib.Steps
open MTAppenderFile.Loglib.Pipeline
open MTAppenderFile.Loglib.Interleaving

/-- Appends, `setmode`, flushes and flush tasks. -/
def BarrierCall : Call → Prop
  | .closeDestroy => False
  | _ => True

/-- In `flush_sync`, behind the drain. -/
def Drained : Pc → Prop
  | .flush (.write _) => True
  | .flush (.ret early) => early = false
  | _ => False

/-- Drained bytes are not empty. -/
def Solid (pc : Pc) : Prop := ∀ data, act pc = .write data → data ≠ []

/-- **The due records.** Every record is somewhere, but for the empty directory, and behind its drain a
`flush_sync` has none of its due records in the buffer. -/
structure Due (p₀ : Proc) (x : Sys × Hist) : Prop extends Running p₀ x where
  kept : p₀.mlog.sgLogdir ≠ [] → ∀ r ∈ x.2.pipe.log, Held x.2.pipe r
  drained : ∀ t, Drained (x.1.pc t) → ∀ r ∈ x.2.due t, r ∉ x.2.pipe.buf
  solid : ∀ t, Solid (x.1.pc t)

theorem solid_workerStart (th : ThreadAsync) : Solid (workerStart th) := by
  cases th <;> rintro data ⟨⟩

theorem solid_entry (c : Call) : Solid c.entry := by
  cases c <;> rintro data ⟨⟩

theorem Started.due {lc : Libc} {mode : AppendMode} {s : Sys} (h : Started lc mode s) :
    Due s.p (s, .empty) :=
  ⟨Started.running h, fun _ _ hr => absurd hr List.not_mem_nil, fun _ _ _ hr => absurd hr List.not_mem_nil,
    h.forall_pc (by rintro data ⟨⟩) solid_workerStart⟩

section Steps

variable {lc : Libc} {env : FileEnv} {t : ℕ} {s s' : Sys} {p₀ : Proc} {x x' : Sys × Hist} {l : Label}

theorem drained_of_exec (he : exec lc env t s (s.pc t) = some s') (hd : Drained (s'.pc t)) :
    act (s.pc t) = .drain ∨ Drained (s.pc t) := by
  have hk : kind (s'.pc t) = .flush := by
    unfold Drained at hd
    split at hd <;> first | exact hd.elim | (rename_i h; rw [h]; rfl)
  have hk' : kind (s.pc t) = .flush := by
    rcases (exec_stepped he).leads.kind with h | h | ⟨-, h⟩ <;> rw [hk] at h
    · exact h.symm
    · cases h
    · cases h
  generalize s.pc t = pc at he hk'
  cases pc <;> cases hk'
  rename_i pc
  cases pc with
  | mode =>
    cases he
    rw [goto_pc_self] at hd
    split_ifs at hd
    · cases hd
    · exact hd.elim
  | drain => exact .inl rfl
  | write data => exact .inr trivial
  | ret early =>
    cases he
    rw [goto_pc_self] at hd
    exact hd.elim

/-- The last step of a call: its test of the mode, its drain, or its write. -/
theorem last_step {early : Bool} (he : exec lc env t s (s.pc t) = some s') (hret : s'.pc t = .flush (.ret early)) :
    s.pc t = .flush .mode ∨ early = false ∧ (s.pc t = .flush .drain ∨ ∃ data, s.pc t = .flush (.write data)) := by
  have hk : kind (s.pc t) = .flush := by
    rcases (exec_stepped he).leads.kind with h | h | ⟨-, h⟩ <;> rw [hret] at h
    · exact h.symm
    · cases h
    · cases h
  generalize s.pc t = pc at he hk
  cases pc <;> cases hk
  rename_i pc
  cases pc with
  | mode => exact .inl rfl
  | drain =>
    obtain ⟨⟨p, tmp⟩, -, he⟩ := Option.bind_eq_some_iff.mp he
    cases he
    rw [goto_pc_self] at hret
    cases tmp <;> cases hret
    exact .inr ⟨rfl, .inl rfl⟩
  | write data =>
    cases he
    rw [goto_pc_self] at hret
    cases hret
    exact .inr ⟨rfl, .inr ⟨data, rfl⟩⟩
  | ret early =>
    cases he
    rw [goto_pc_self] at hret
    cases hret

theorem Due.solid_step (h : Due p₀ x) (he : exec lc env t x.1 (x.1.pc t) = some s') : Solid (s'.pc t) := by
  intro data ha
  have hd := (exec_stepped he).does
  rw [chunk, ha] at hd
  dsimp only at hd
  generalize hc : some data = c at hd
  generalize act (x.1.pc t) = a at hd
  generalize s'.p = p' at hd
  cases hd with
  | drain hd =>
    subst hc
    obtain ⟨-, hchunk⟩ := h.coupled.holds.drain h.coupled.texts hd
    unfold chunkOf at hchunk
    split_ifs at hchunk with hbuf
    rw [Option.some_inj.mp hchunk, Ne, bytes_eq_nil_iff h.coupled.texts]
    exact hbuf
  | _ => cases hc

theorem not_drained_workerStart (th : ThreadAsync) : ¬ Drained (workerStart th) := by
  cases th <;> exact id

/-- **Every step keeps it.** -/
theorem Due.step (h : Due p₀ x) (hl : Allowed BarrierCall x l) (hs : tstep lc x l = some x') :
    Due p₀ x' := by
  have hrun := h.toRunning.step id hl hs
  cases l with
  | call t c =>
    obtain ⟨-, -, -, rfl⟩ := tstep_call hs
    refine ⟨hrun, h.kept, fun u hu r hr => ?_, fun u => ?_⟩
    · by_cases hut : u = t
      · subst hut
        rw [goto_pc_self] at hu
        cases c <;> exact hu.elim
      · rw [goto_pc_of_ne _ hut] at hu
        simp only [Function.update_of_ne hut] at hr
        exact h.drained u hu r hr
    · by_cases hut : u = t
      · subst hut
        rw [goto_pc_self]
        exact solid_entry c
      · rw [goto_pc_of_ne _ hut]
        exact h.solid u
  | run t env =>
    obtain ⟨-, he, hx⟩ := tstep_run hs
    refine ⟨hrun, fun hdir r hr => ?_, fun u hu r hr hb => ?_,
      (exec_stepped he).forall_pc h.solid solid_workerStart (h.solid_step he)⟩
    · rw [hx] at hr ⊢
      have hdir' : x.1.p.mlog.sgLogdir ≠ [] := by rw [h.coupled.holds.same.dir]; exact hdir
      exact held_move_of_mem_log (h.kept hdir) (fun hm => h.close t (kind_of_act (act_of_wipe hm) rfl))
        (fun u hm => hdir' (dir_of_lose hm)) (fun y hm => hdir' (dir_of_refuse hm)) hr
    · -- a due record that is in the buffer now was there before, and the step was no drain
      rw [hx] at hr hb
      have hlog : r ∈ x.2.pipe.log := h.due u r hr
      have hb' : r ∈ x.2.pipe.buf := by
        rcases mem_buf_move hb with hb | ha
        · exact hb
        · have := h.number r hlog
          rw [arrival_moveOf ha] at this
          omega
      have hnd : act (x.1.pc t) ≠ .drain := by
        intro ha
        rw [moveOf, ha] at hb
        exact absurd hb List.not_mem_nil
      have hu' : Drained (x.1.pc u) := by
        by_cases hut : u = t
        · subst hut
          exact (drained_of_exec he hu).resolve_left hnd
        · rcases (exec_stepped he).others u hut with hpc | ⟨rfl, -, hpc⟩
          · rwa [hpc] at hu
          · rw [hpc] at hu
            exact absurd hu (not_drained_workerStart _)
      exact h.drained u hu' r hr hb'

/-- **What is out**: the due records of a thread are in the log file exactly when they are in no other place,
but for the empty directory. -/
theorem Due.out_iff (h : Due p₀ x) (t : ℕ) :
    (∀ r ∈ x.2.due t, r ∈ x.2.pipe.out) ↔
      (p₀.mlog.sgLogdir ≠ [] ∨ x.2.due t = []) ∧
      ∀ r ∈ x.2.due t, r ∉ x.2.pipe.buf ∧ ∀ u, r ∉ x.2.pipe.hand u := by
  constructor
  · intro hout
    refine ⟨?_, fun r hr => (h.apart.mem_out_iff ⟨.out, hout r hr⟩).mp (hout r hr)⟩
    by_cases hdir : p₀.mlog.sgLogdir = []
    · right
      rw [h.empty hdir] at hout
      exact List.eq_nil_iff_forall_not_mem.mpr fun r hr => List.not_mem_nil (hout r hr)
    · exact .inl hdir
  · rintro ⟨hdir, hplace⟩ r hr
    have hdir' : p₀.mlog.sgLogdir ≠ [] := by
      rcases hdir with hd | hd
      · exact hd
      · rw [hd] at hr; exact absurd hr List.not_mem_nil
    exact (h.apart.mem_out_iff (h.kept hdir' r (h.due t r hr))).mpr (hplace r hr)

/-! ### In the file -/

/-- The records up to the first `r`. -/
def upTo (l : List Record) (r : Record) : List Record := l.take (l.idxOf r + 1)

/-- The records behind the first `r`. -/
def behind (l : List Record) (r : Record) : List Record := l.drop (l.idxOf r + 1)

theorem bytes_upTo_behind (l : List Record) (r : Record) : bytes (upTo l r) ++ bytes (behind l r) = bytes l := by
  rw [← bytes_append, upTo, behind, List.take_append_drop]

/-- **The record `r` is in the log file**: it has gone out, and the file has all bytes up to its end. -/
def InFile (p₀ p : Proc) (out : List Record) (r : Record) : Prop :=
  r ∈ out ∧ (sink p₀).all ++ bytes (upTo out r) <+: logFile p

/-- A record that is out is in the log file if the open `FILE` holds no more than the bytes behind it. -/
theorem inFile_iff {p : Proc} {buf out : List Record} (h : Holds p₀ p buf out) {r : Record} :
    InFile p₀ p out r ↔ r ∈ out ∧ (held p.mlog).length ≤ (bytes (behind out r)).length := by
  have hall : (sink p).all = ((sink p₀).all ++ bytes (upTo out r)) ++ bytes (behind out r) := by
    rw [h.file, List.append_assoc, bytes_upTo_behind]
  exact and_congr_right fun _ => Sink.prefix_out_iff hall

/-- How many bytes the open `FILE` holds after the step of a thread at `pc`. In async mode `__log2file` closes the
file. In sync mode it stays open and holds what it held before, unless it was the file of another day, and the data,
without the bytes that `fwrite` hands over. -/
def stays (lc : Libc) (env : FileEnv) (p : Proc) (pc : Pc) : ℕ :=
  match act pc with
  | .write data => if p.mlog.sgMode = .async then 0 else
    (if Kept lc env p.mlog then (held p.mlog).length else 0) + data.length - env.handed
  | _ => (held p.mlog).length

/-- **The last step of a call**: what is out after it, and what the `FILE` holds. -/
theorem Due.last_out (h : Due p₀ x) (henv : env.Succeeds) (hdir : x.1.p.mlog.sgLogdir ≠ []) {early : Bool}
    (hs : tstep lc x (.run t env) = some x') (hret : x'.1.pc t = .flush (.ret early)) :
    x'.2.pipe.out = x.2.pipe.out ++ x.2.pipe.hand t ∧ (held x'.1.p.mlog).length = stays lc env x.1.p (x.1.pc t) := by
  obtain ⟨-, he, hx⟩ := tstep_run hs
  have hnone : ∀ {pc}, x.1.pc t = pc → chunk pc = none → x.2.pipe.hand t = [] := fun hpc hc =>
    h.coupled.hand_eq_nil.mpr (hpc ▸ hc)
  rcases last_step he hret with hpc | ⟨-, hpc | ⟨data, hpc⟩⟩
  · rw [hpc] at he
    rw [hx, moveOf, hnone hpc rfl, hpc, ← Option.some_inj.mp he]
    exact ⟨(List.append_nil _).symm, rfl⟩
  · rw [hpc] at he
    obtain ⟨⟨p, tmp⟩, hd, he⟩ := Option.bind_eq_some_iff.mp he
    obtain ⟨lb, rfl, -⟩ := drainBuffer_frame hd
    rw [hx, moveOf, hnone hpc rfl, hpc]
    refine ⟨(List.append_nil _).symm, ?_⟩
    rw [← Option.some_inj.mp he]
    rfl
  · have hne : data ≠ [] := h.solid t data (by rw [hpc]; rfl)
    rw [hpc] at he
    rw [hx, moveOf, hpc, ← Option.some_inj.mp he]
    refine ⟨?_, ?_⟩
    · simp only [act, if_neg hdir]
      rfl
    · rw [goto_p, (log2file_refiled lc env data h.coupled.holds.handle).held,
        length_held_writeBack henv lc hne hdir]
      rfl

end Steps

/-- **What a return of `flush_sync` promises**, in every interleaving of appends, `setmode`, flushes and
flush tasks on an open appender. The last step of the call is its test of the mode, its drain, or its
write. After it, all due records are in the log file exactly when the directory is not empty (or nothing is
due), no due record is in the buffer if that step is the test of the mode, none is in the hands of
another thread, and the bytes that the open `FILE` holds after the step are none of theirs. -/
theorem flush_barrier_iff {lc : Libc} {mode : AppendMode} {s : Sys} (hs : Started lc mode s)
    {x x' : Sys × Hist} (hr : Reach (tstep lc) (Allowed BarrierCall) (s, .empty) x) {t : ℕ}
    {env : FileEnv} (hok : StepOk x.1 t env) (hstep : tstep lc x (.run t env) = some x') {early : Bool}
    (hret : x'.1.pc t = .flush (.ret early)) :
    (sink x'.1.p).all = (sink s.p).all ++ bytes x'.2.pipe.out ∧ x'.2.due t = x.2.due t ∧
    ((∀ r ∈ x.2.due t, InFile s.p x'.1.p x'.2.pipe.out r) ↔
      (s.p.mlog.sgLogdir ≠ [] ∨ x.2.due t = []) ∧
      (x.1.pc t = .flush .mode → ∀ r ∈ x.2.due t, r ∉ x.2.pipe.buf) ∧
      (∀ u, u ≠ t → ∀ r ∈ x.2.due t, r ∉ x.2.pipe.hand u) ∧
      ∀ r ∈ x.2.due t, stays lc env x.1.p (x.1.pc t) ≤
        (bytes (behind (x.2.pipe.out ++ x.2.pipe.hand t) r)).length) := by
  have h : Due s.p x := hr.inv (Started.due hs) fun _ _ _ hd hl hs => hd.step hl hs
  have h' : Due s.p x' := h.step (l := .run t env) hok hstep
  obtain ⟨-, he, hx⟩ := tstep_run hstep
  have hdue : x'.2.due = x.2.due := by rw [hx]
  have hpipe : x'.2.pipe = x.2.pipe.move (moveOf lc x.2.pipe.log.length t x.1) := by rw [hx]
  -- the call holds nothing any more, and the hands of the others are as before
  have hhand : x'.2.pipe.hand t = [] := h'.coupled.hand_eq_nil.mpr (by rw [hret]; rfl)
  have hothers : ∀ u, u ≠ t → x'.2.pipe.hand u = x.2.pipe.hand u := by
    intro u hu
    rw [hpipe, hand_moveOf_of_ne hu]
  have hplace : (∀ r ∈ x.2.due t, r ∉ x'.2.pipe.buf ∧ ∀ u, r ∉ x'.2.pipe.hand u) ↔
      (x.1.pc t = .flush .mode → ∀ r ∈ x.2.due t, r ∉ x.2.pipe.buf) ∧
        ∀ u, u ≠ t → ∀ r ∈ x.2.due t, r ∉ x.2.pipe.hand u := by
    have hmode : x.1.pc t = .flush .mode → x'.2.pipe.buf = x.2.pipe.buf := by
      intro hpc
      rw [hpipe, moveOf, hpc]; rfl
    constructor
    · intro hp
      refine ⟨fun hpc r hr => ?_, fun u hu r hr => ?_⟩
      · rw [← hmode hpc]; exact (hp r hr).1
      · rw [← hothers u hu]; exact (hp r hr).2 u
    · rintro ⟨hb, hh⟩ r hr
      refine ⟨?_, fun u => ?_⟩
      · rcases last_step he hret with hpc | ⟨rfl, -⟩
        · rw [hmode hpc]; exact hb hpc r hr
        · exact h'.drained t (by rw [hret]; rfl) r (hdue ▸ hr)
      · by_cases hu : u = t
        · rw [hu, hhand]; exact List.not_mem_nil
        · rw [hothers u hu]; exact hh u hu r hr
  have hiff := h'.out_iff t
  rw [hdue, hplace] at hiff
  refine ⟨h'.coupled.holds.file, congrFun hdue t, ?_⟩
  have hlast : s.p.mlog.sgLogdir ≠ [] → x'.2.pipe.out = x.2.pipe.out ++ x.2.pipe.hand t ∧
      (held x'.1.p.mlog).length = stays lc env x.1.p (x.1.pc t) := fun hdir =>
    h.last_out hok.1 (by rw [h.coupled.holds.same.dir]; exact hdir) hstep hret
  constructor
  · intro hin
    obtain ⟨hdir, hb, hh⟩ := hiff.mp fun r hr => (hin r hr).1
    refine ⟨hdir, hb, hh, fun r hr => ?_⟩
    obtain ⟨hout, hheld⟩ := hlast (hdir.resolve_right fun h0 => absurd (h0 ▸ hr) List.not_mem_nil)
    rw [← hout, ← hheld]
    exact ((inFile_iff h'.coupled.holds).mp (hin r hr)).2
  · rintro ⟨hdir, hb, hh, hstays⟩ r hr
    obtain ⟨hout, hheld⟩ := hlast (hdir.resolve_right fun h0 => absurd (h0 ▸ hr) List.not_mem_nil)
    refine (inFile_iff h'.coupled.holds).mpr ⟨hiff.mpr ⟨hdir, hb, hh⟩ r hr, ?_⟩
    rw [hout, hheld]
    exact hstays r hr

theorem flush_barrier_iff_append :
    ∃ (s : Sys) (x' : Sys × Hist), Started utc .async s ∧ x'.1.pc 1 = .flush (.ret false) ∧
      x'.2.due 1 = [(0, ascii "a\n")] ∧ InFile s.p x'.1.p x'.2.pipe.out (0, ascii "a\n") ∧
      (sink x'.1.p).all = (sink s.p).all ++ bytes x'.2.pipe.out := by
  obtain ⟨s, p, lb, hs, -, -, -, ho, hc, hmode, hdir, hr⟩ :=
    exists_appended utc .shared (show BarrierCall _ from trivial)
  have hr₁ := hr.flushSync (t := 1) hs.deleted (by decide) (hs.others 1 (by decide)) hmode trivial
  have h₁ := hs.reach_tracked (hr₁.mono fun _ _ hl => hl.1)
  obtain ⟨x, hr₂, hd, hdir₂, hmode₂, hpc, hx⟩ := hr₁.drained (t := 1) hs.deleted (goto_pc_self ..) ho.toLive
    (by rw [hc]; decide) fun u => h₁.coupled.hand_eq_nil.mp rfl
  -- thread 1 is at its write, the last step of the call
  obtain ⟨x', hstep, hret, hx'⟩ := tstep_flush_write utc hd hpc (by rw [hdir₂]; exact hdir)
  obtain ⟨hfile, hdue, hiff⟩ := flush_barrier_iff hs (hr₂.mono fun _ _ hl => hl.1)
    (stepOk_ok (by rw [hpc]; rintro _ _ ⟨⟩)) hstep hret
  have hdue₁ : x.2.due 1 = [(0, ascii "a\n")] := by rw [hx]; rfl
  refine ⟨s, x', hs, hret, hdue.trans hdue₁,
    hiff.mpr ⟨.inl ?_, fun h0 => ?_, fun u hu r _ hmem => ?_, fun r hr => ?_⟩ _ ?_, hfile⟩
  · rw [← h₁.coupled.holds.same.dir]; exact hdir
  · rw [hpc] at h0; cases h0
  · rw [hx] at hmem
    simp only [hand_drain, if_neg hu] at hmem
    exact absurd hmem List.not_mem_nil
  · -- in async mode the write closes the file
    rw [stays, hpc]
    exact (if_pos (hmode₂.trans hmode)).trans_le (Nat.zero_le _)
  · rw [hdue₁]; exact List.mem_singleton_self _

theorem not_inFile {p₀ p : Proc} (h : logFile p = []) (out : List Record) (n : ℕ) :
    ¬ InFile p₀ p out (n, ascii "a\n") := by
  rintro ⟨hmem, hp⟩
  rw [h, List.prefix_nil, List.append_eq_nil_iff] at hp
  have hr : (n, ascii "a\n") ∈ upTo out (n, ascii "a\n") := by
    have hlt := List.idxOf_lt_length_of_mem hmem
    rw [upTo, List.mem_take_iff_getElem]
    exact ⟨out.idxOf (n, ascii "a\n"), by omega, List.getElem_idxOf hlt⟩
  have hnil : ascii "a\n" = [] := List.flatMap_eq_nil_iff.mp hp.2 _ hr
  exact absurd hnil (by decide)

/-- **Three returns of `flush_sync` without the record `"a\n"` in the file**: after a switch to sync mode,
which leaves the record in the buffer; in async mode while another thread has drained it; and in sync mode, where the
open `FILE` holds it. -/
theorem flush_returns_early :
    (∃ (s : Sys) (x : Sys × Hist), Started utc .async s ∧
      Reach (tstep utc) (Allowed BarrierCall) (s, .empty) x ∧ x.1.pc 1 = .flush (.ret true) ∧
      x.2.due 1 = [(0, ascii "a\n")] ∧ ¬ InFile s.p x.1.p x.2.pipe.out (0, ascii "a\n") ∧ logFile x.1.p = []) ∧
    (∃ (s : Sys) (x : Sys × Hist), Started utc .async s ∧
      Reach (tstep utc) (Allowed BarrierCall) (s, .empty) x ∧ x.1.pc 2 = .flush (.ret false) ∧
      x.2.due 2 = [(0, ascii "a\n")] ∧ ¬ InFile s.p x.1.p x.2.pipe.out (0, ascii "a\n") ∧ logFile x.1.p = []) ∧
    ∃ (s : Sys) (x : Sys × Hist), Started utc .sync s ∧
      Reach (tstep utc) (Allowed BarrierCall) (s, .empty) x ∧ x.1.pc 1 = .flush (.ret true) ∧
      x.2.due 1 = [(0, ascii "a\n")] ∧ ¬ InFile s.p x.1.p x.2.pipe.out (0, ascii "a\n") ∧ logFile x.1.p = [] := by
  have htest : ∀ {s : Sys}, s.p.mlog.sgMode = .sync → ∀ t,
      exec utc .ok t (s.goto t (.flush .mode)) ((s.goto t (.flush .mode)).pc t) =
        some (s.goto t (.flush (.ret true))) := fun hm t => by simp [exec, flushStep, hm]
  refine ⟨?_, ?_, ?_⟩
  · obtain ⟨s, p, -, hs, -, -, hf, -, -, -, -, hr⟩ :=
      exists_appended utc .shared (show BarrierCall _ from trivial)
    have hr₁ := hr.setmode (t := 1) hs.deleted (by decide) (hs.others 1 (by decide)) trivial
    have hr₂ := hr₁.call (t := 1) hs.deleted (by decide) (hs.others 1 (by decide)) (c := .flushSync)
      trivial
    have hr₃ := hr₂.quiet (t := 1) hs.deleted (by rw [goto_pc_self]; rfl) (htest rfl 1)
    have hempty := (hs.reach_tracked (hr₃.mono fun _ _ hl => hl.1)).logFile_of_out hf rfl
    exact ⟨s, _, hs, hr₃.mono fun _ _ hl => hl.1, goto_pc_self .., rfl, not_inFile hempty _ 0, hempty⟩
  · -- thread 1 is at its drain; it drains, and thread 2 finds nothing
    obtain ⟨s, p, -, hs, hw, -, hf, -, -, hmode, -, hr⟩ :=
      exists_appended utc .shared (show BarrierCall _ from trivial)
    have hw' : s.pc 0 ≠ .idle := by rw [hw]; rintro ⟨⟩
    have hr₁ := hr.flushSync (t := 1) hs.deleted (by decide) (hs.others 1 (by decide)) hmode trivial
    have hr₂ := hr₁.flushSync (t := 2) hs.deleted (by decide)
      ((goto_pc_of_ne _ (by decide) _).trans (hs.others 2 (by decide))) hmode trivial
    have h₂ : Running s.p _ := (hr₂.mono fun _ _ hl => hl.1).inv (Started.running hs)
      fun _ _ _ hrun hl hs => hrun.step id hl hs
    obtain ⟨x₃, hs₃, hok₃, h₃, hx₃, hpc₃⟩ := h₂.drain (t := 1) utc rfl
    have hr₃ : AloneReach utc BarrierCall (s, .empty) (x₃.1, x₃.2) :=
      hr₂.tail (a := .run 1 .ok) ⟨hok₃, fun _ _ u => h₂.coupled.hand_eq_nil.mp rfl⟩ hs₃
    obtain ⟨lb₃, ho₃, hc₃⟩ := h₃.opened
    have hpc : x₃.1.pc 2 = .flush .drain := (hpc₃ hw' 2 (by decide)).trans (goto_pc_self ..)
    obtain ⟨p₄, hr₄⟩ := hr₃.flushed_empty (t := 2) h₃.deleted hpc ho₃.toLive
      (by rw [hc₃, hx₃]; rfl)
    have hempty := (hs.reach_tracked (hr₄.mono fun _ _ hl => hl.1)).logFile_of_out hf (by rw [hx₃]; rfl)
    exact ⟨s, _, hs, hr₄.mono fun _ _ hl => hl.1, goto_pc_self .., by rw [hx₃]; rfl, not_inFile hempty _ 0, hempty⟩
  · obtain ⟨s, hs, -, -, hdir, hf⟩ := exists_started utc .shared .sync (by rintro ⟨⟩) ⟨ascii "d", by decide⟩
      ⟨ascii "n", by decide⟩
    obtain ⟨lb, ho, -, hmode, -⟩ := hs.open_spec
    have hr₀ : AloneReach utc BarrierCall (s, .empty) (s, .empty) := .refl
    have hdir' : s.p.mlog.sgLogdir ≠ [] := by rw [hdir]; decide
    obtain ⟨p, he, hr₁⟩ := hr₀.appendSync (t := 1) hs.deleted (by decide) (hs.others 1 (by decide)) ho hmode hdir'
      textA (by decide) trivial
    have hr₂ := hr₁.call (t := 1) hs.deleted (by decide) (hs.others 1 (by decide)) (c := .flushSync) trivial
    have hr₃ := hr₂.quiet (t := 1) hs.deleted (by rw [goto_pc_self]; rfl) (htest (he.mode.trans hmode) 1)
    have hempty : logFile p = [] := by
      have hback : ∀ s' : Sink Byte, s' = ⟨[], []⟩ →
          (writeBack utc .ok s.p.mlog (formatRecord textA.bytes) s').out = [] := by
        rintro _ rfl
        rw [writeBack, if_neg (not_or.mpr ⟨by decide, hdir'⟩), if_pos (.inr rfl), Sink.close_of_held _ rfl, ite_self,
          hmode]
        decide
      rw [he.logFile, hback _ hf]
    exact ⟨s, _, hs, hr₃.mono fun _ _ hl => hl.1, goto_pc_self .., rfl, not_inFile hempty _ 0, hempty⟩

end MTAppenderFile.Loglib.Barrier
