import MTAppenderFile.Loglib.Interleaving

/-! # The order of the file

Several threads append to an appender in async mode and flush it. The drained bytes of a flush are in the
hands of its thread between the two mutexes, and nothing keeps a second flush from draining the next
records and writing them first. As long as no thread drains records while another one has drained bytes
to write (`Alone`), the records are in the log file in the order of their insertion; and whenever a thread
could drain them at such a moment, the file can come out in another order (`file_in_order`). -/

namespace MTAppenderFile.Loglib.Order

open MTAppenderFile.Lib.Buffered
open MTAppenderFile.Lib.Handover
open MTAppenderFile.Lib.Run
open MTAppenderFile.Comm.CTypes
open MTAppenderFile.Loglib.Base
open MTAppenderFile.Loglib.Buffer
open MTAppenderFile.Loglib.Files
open MTAppenderFile.Loglib.Formatter
open MTAppenderFile.Loglib.Appender
open MTAppenderFile.Loglib.Session
open MTAppenderFile.Loglib.Lifecycle
open MTAppenderFile.Loglib.Exactness
open MTAppenderFile.Loglib.Threads
open MTAppenderFile.Loglib.Steps
open MTAppenderFile.Loglib.Pipeline
open MTAppenderFile.Loglib.Interleaving

/-- Appends, flushes and flush tasks. -/
def OrderCall : Call → Prop
  | .append _ _ => True
  | .flushSync => True
  | .task => True
  | _ => False

/-- **The threads in async mode**: no thread writes a record itself. -/
structure Ordered (p₀ : Proc) (x : Sys × Hist) : Prop extends Running p₀ x, InAsync x.1 where
  direct : ∀ t data, act (x.1.pc t) ≠ .direct data

theorem direct_workerStart (th : ThreadAsync) (data : Bytes) : act (workerStart th) ≠ .direct data := by
  cases th <;> rintro ⟨⟩

theorem direct_entry (c : Call) (data : Bytes) : act c.entry ≠ .direct data := by
  cases c <;> rintro ⟨⟩

theorem Started.ordered {lc : Libc} {s : Sys} (h : Started lc .async s) :
    Ordered s.p (s, .empty) :=
  ⟨Started.running h, h.inAsync, fun t data =>
    h.forall_pc (Q := fun pc => act pc ≠ .direct data) (by rintro ⟨⟩) (fun th => direct_workerStart th data) t⟩

section Steps

variable {lc : Libc} {p₀ : Proc} {x x' : Sys × Hist} {l : Label}

/-- **Every step keeps the mode.** -/
theorem Ordered.step (h : Ordered p₀ x) (hl : Allowed OrderCall x l) (hs : tstep lc x l = some x') :
    Ordered p₀ x' := by
  have hr := h.toRunning.step id hl hs
  have ha := h.toTracked.inAsync_step h.toInAsync (fun t mode hc => by subst hc; exact hl) hs
  cases l with
  | call t c =>
    obtain ⟨-, -, -, rfl⟩ := tstep_call hs
    refine ⟨hr, ha, fun u => ?_⟩
    by_cases hu : u = t
    · subst hu
      rw [goto_pc_self]
      exact direct_entry c
    · rw [goto_pc_of_ne _ hu]
      exact h.direct u
  | run t env =>
    obtain ⟨-, he, -⟩ := tstep_run hs
    have hst := exec_stepped he
    refine ⟨hr, ha, fun u data => ?_⟩
    refine hst.forall_pc (Q := fun pc => act pc ≠ .direct data) (fun u => h.direct u data)
      (fun th => direct_workerStart th data) (fun hd => ?_) u
    have hsync := hst.leads.direct data hd
    rw [h.mode] at hsync
    cases hsync

/-- **Every step keeps the order**, if nobody drains records while another thread has drained bytes. -/
theorem Ordered.inOrder_step (h : Ordered p₀ x) (ho : InOrder x.2.pipe) (ha : Alone x l)
    (hs : tstep lc x l = some x') : InOrder x'.2.pipe := by
  cases l with
  | call t c =>
    obtain ⟨-, -, -, rfl⟩ := tstep_call hs
    exact ho
  | run t env =>
    obtain ⟨-, -, hx⟩ := tstep_run hs
    rw [hx]
    refine ho.move (fun r hm => ?_) fun u hm hb v hv => ?_
    · obtain ⟨data, hd⟩ := act_of_direct hm
      exact h.direct t data hd
    · obtain ⟨hd, rfl⟩ := act_of_drain hm
      have hb' : buffered x.1.p ≠ [] := fun h0 => hb (h.coupled.buf_eq_nil.mpr h0)
      exact h.coupled.hand_eq_nil.mpr (ha hd hb' v)

/-- **Every run** without two drains at a time. -/
theorem ordered_reach {s : Sys} (h : Started lc .async s)
    (hr : AloneReach lc OrderCall (s, .empty) x) : Ordered s.p x ∧ InOrder x.2.pipe := by
  refine Reach.inv (P := fun x => Ordered s.p x ∧ InOrder x.2.pipe) hr
    ⟨Started.ordered h, inOrder_empty⟩ ?_
  rintro y l y' ⟨hy, ho⟩ ⟨hl, ha⟩ hs
  exact ⟨hy.step hl hs, hy.inOrder_step ho ha hs⟩

/-- **Overtaking.** A thread that can drain records while another one has drained bytes can write them
first. -/
theorem Ordered.overtaken (h : Ordered p₀ x) (lc : Libc) (ho : InOrder x.2.pipe) {t u : ℕ}
    (ht : act (x.1.pc t) = .drain) (hb : x.2.pipe.buf ≠ []) (hu : x.2.pipe.hand u ≠ [])
    (hut : u ≠ t) (hdir : x.1.p.mlog.sgLogdir ≠ []) :
    ∃ x', Reach (tstep lc) (Allowed OrderCall) x x' ∧ Ordered p₀ x' ∧
      x'.2.pipe = ((x.2.pipe.move (.drain t)).move (.deliver t)).move (.deliver u) := by
  have hstep : ∀ {y y' : Sys × Hist} {v : ℕ}, Ordered p₀ y → StepOk y.1 v .ok →
      tstep lc y (.run v .ok) = some y' → Ordered p₀ y' ∧ y'.1.p.mlog.sgLogdir ≠ [] := by
    intro y y' v hy hok hs
    have hy' := hy.step (l := .run v .ok) hok hs
    refine ⟨hy', ?_⟩
    rw [hy'.coupled.holds.same.dir, ← h.coupled.holds.same.dir]
    exact hdir
  have hhu : x.2.pipe.hand t = [] := by
    by_contra hc
    exact hut (ho.single u t hu hc)
  obtain ⟨x₁, hs₁, hok₁, -, hp₁, -⟩ := h.toRunning.drain lc ht
  obtain ⟨h₁, hd₁⟩ := hstep h hok₁ hs₁
  have ht₁ : x₁.2.pipe.hand t ≠ [] := by
    rw [hp₁, hand_drain, if_pos rfl, hhu]; exact hb
  obtain ⟨x₂, hs₂, hok₂, -, hp₂, -⟩ := h₁.toRunning.deliver lc hd₁ ht₁
  obtain ⟨h₂, hd₂⟩ := hstep h₁ hok₂ hs₂
  have hu₂ : x₂.2.pipe.hand u ≠ [] := by
    rw [hp₂, hand_deliver, if_neg hut, hp₁, hand_drain, if_neg hut]; exact hu
  obtain ⟨x₃, hs₃, hok₃, -, hp₃, -⟩ := h₂.toRunning.deliver lc hd₂ hu₂
  refine ⟨x₃, ?_, (hstep h₂ hok₃ hs₃).1, by rw [hp₃, hp₂, hp₁]⟩
  exact ((Reach.refl.tail (a := .run t .ok) hok₁ hs₁).tail (a := .run t .ok) hok₂ hs₂).tail
    (a := .run u .ok) hok₃ hs₃

end Steps

/-! ### Two flushes at a time -/

/-- The text `"b"`. -/
def textB : CStr := ⟨ascii "b", by decide⟩

/-- Thread `1` has drained the record `"a\n"`, the record `"b\n"` is in the buffer, and thread `2` is about
to drain it. -/
theorem exists_two_flushes (lc : Libc) :
    ∃ s x, Started lc .async s ∧ sink s.p = ⟨[], []⟩ ∧ s.p.mlog.sgLogdir ≠ [] ∧
      AloneReach lc OrderCall (s, .empty) x ∧ act (x.1.pc 2) = .drain ∧
      x.2.pipe = ⟨[(0, ascii "a\n"), (1, ascii "b\n")], [(1, ascii "b\n")],
        Function.update (fun _ => []) 1 [(0, ascii "a\n")], []⟩ := by
  obtain ⟨s, hs, hw, -, hdir, hfile⟩ :=
    exists_started lc .shared .async (fun _ => rfl) ⟨ascii "d", by decide⟩ ⟨ascii "n", by decide⟩
  have hw' : s.pc 0 ≠ .idle := by rw [hw]; exact nofun
  obtain ⟨lb, ho, hc, hmode, -⟩ := hs.open_spec
  have hlen : lb.buff.length < 153600 * 4 / 5 := by
    rw [ho.good.content_eq_nil_iff.mp hc]; decide
  -- thread 3 appends the first record; threads 1 and 2 go to their drains
  have hr₀ : AloneReach lc OrderCall (s, .empty) (s, .empty) := .refl
  obtain ⟨p₁, he₁, hr₁⟩ := hr₀.append (t := 3) hs.deleted (by decide) (hs.others 3 (by decide)) hw' ho
    hmode textA (by decide) hlen trivial
  have hmode₁ : p₁.mlog.sgMode = .async := he₁.mode.trans hmode
  have hr₂ := hr₁.flushSync (t := 1) hs.deleted (by decide) (hs.others 1 (by decide)) hmode₁ trivial
  have hr₃ := hr₂.flushSync (t := 2) hs.deleted (by decide)
    ((goto_pc_of_ne _ (by decide) _).trans (hs.others 2 (by decide))) hmode₁ trivial
  obtain ⟨h₃, -⟩ := ordered_reach hs hr₃
  -- thread 1 drains
  obtain ⟨x₄, hs₄, hok₄, -, hp₄, hpc₄⟩ :=
    h₃.toRunning.drain (t := 1) lc rfl
  have hr₄ : AloneReach lc OrderCall (s, .empty) x₄ := by
    refine hr₃.tail (a := .run 1 .ok) ⟨hok₄, fun _ _ u => ?_⟩ hs₄
    exact h₃.coupled.hand_eq_nil.mp rfl
  obtain ⟨h₄, -⟩ := ordered_reach hs hr₄
  have hpc : ∀ u, u ≠ 1 → x₄.1.pc u = (Sys.goto (Sys.goto { s with p := p₁ } 1 (.flush .drain)) 2
      (.flush .drain)).pc u := hpc₄ hw'
  -- thread 3 appends the second record
  obtain ⟨lb₄, ho₄, hc₄⟩ := h₄.opened
  have hlen₄ : lb₄.buff.length < 153600 * 4 / 5 := by
    rw [hp₄] at hc₄
    rw [ho₄.good.content_eq_nil_iff.mp hc₄]; decide
  obtain ⟨p₅, -, hr₅⟩ := hr₄.append (t := 3) h₄.deleted (by decide)
    ((hpc 3 (by decide)).trans (hs.others 3 (by decide))) (by rw [hpc 0 (by decide)]; exact hw') ho₄
    h₄.mode textB (by decide) hlen₄ trivial
  refine ⟨s, _, hs, hfile, by rw [hdir]; decide, hr₅, ?_, ?_⟩
  · show act (x₄.1.pc 2) = .drain
    rw [hpc 2 (by decide)]
    rfl
  · rw [hp₄]; rfl

/-- **The order of the file.** From an appender just opened in async mode, with any threads that append
and flush: as long as nobody drains records while another thread has drained bytes to write, the log file
grows by records in the order of their insertion. At a drain that breaks this rule, in a directory that is
not empty, the threads can go on so that it does not. -/
theorem file_in_order {lc : Libc} {s : Sys} (hs : Started lc .async s) {x : Sys × Hist}
    (hr : Reach (tstep lc) (fun x l => Allowed OrderCall x l ∧ Alone x l) (s, .empty) x) :
    (logFile x.1.p = logFile s.p ++ bytes x.2.pipe.out ∧ x.2.pipe.out.Sublist x.2.pipe.log ∧
      x.2.pipe.log.Nodup) ∧
    ∀ t u, act (x.1.pc t) = .drain → buffered x.1.p ≠ [] → u ≠ t → chunk (x.1.pc u) ≠ none →
      x.1.p.mlog.sgLogdir ≠ [] →
      ∃ x', Reach (tstep lc) (Allowed OrderCall) x x' ∧ ¬ x'.2.pipe.out.Sublist x'.2.pipe.log := by
  obtain ⟨h, ho⟩ := ordered_reach hs hr
  refine ⟨⟨h.logFile hs h.toInAsync, ho.out_sublist, h.apart.nodup⟩, fun t u ht hb hut hu hdir => ?_⟩
  have hb' : x.2.pipe.buf ≠ [] := fun h0 => hb (h.coupled.buf_eq_nil.mp h0)
  have hu' : x.2.pipe.hand u ≠ [] := fun h0 => hu (h.coupled.hand_eq_nil.mp h0)
  obtain ⟨x', hx, -, hp⟩ := h.overtaken lc ho ht hb' hu' hut hdir
  refine ⟨x', hx, ?_⟩
  rw [hp]
  exact ho.overtaken h.apart.nodup hut hu' hb'

theorem file_in_order_two_flushes :
    ∃ s x, Started utc .async s ∧ logFile x.1.p = logFile s.p ∧
      ∃ x', Reach (tstep utc) (Allowed OrderCall) x x' ∧ ¬ x'.2.pipe.out.Sublist x'.2.pipe.log := by
  obtain ⟨s, x, hs, -, hdir, hr, ht, hp⟩ := exists_two_flushes utc
  obtain ⟨h, -⟩ := ordered_reach hs hr
  obtain ⟨⟨hf, -⟩, hover⟩ := file_in_order hs hr
  refine ⟨s, x, hs, by rw [hf, hp]; exact List.append_nil _, hover 2 1 ht ?_ (by decide) ?_ ?_⟩
  · rw [h.coupled.buffered, hp]; decide
  · rw [h.coupled.hands, hp]; decide
  · rw [h.coupled.holds.same.dir]; exact hdir

/-- **The record `"b\n"` overtakes the record `"a\n"`.** -/
theorem file_out_of_order :
    ∃ s x, Started utc .async s ∧ Reach (tstep utc) (Allowed OrderCall) (s, .empty) x ∧
      x.2.pipe.log = [(0, ascii "a\n"), (1, ascii "b\n")] ∧ ¬ x.2.pipe.out.Sublist x.2.pipe.log ∧
      logFile s.p = [] ∧ logFile x.1.p = ascii "b\na\n" := by
  obtain ⟨s, x, hs, hfile, hdir, hr, ht, hp⟩ := exists_two_flushes utc
  obtain ⟨h, ho⟩ := ordered_reach hs hr
  obtain ⟨x', hx, h', hp'⟩ := h.overtaken utc ho (u := 1) ht (by rw [hp]; decide)
    (by rw [hp]; decide) (by decide) (by rw [h.coupled.holds.same.dir]; exact hdir)
  rw [hp] at hp'
  refine ⟨s, x', hs, (hr.mono fun _ _ hl => hl.1).trans hx, by rw [hp']; rfl, by rw [hp']; decide,
    congrArg Sink.out hfile, ?_⟩
  rw [h'.logFile hs h'.toInAsync, show logFile s.p = [] from congrArg Sink.out hfile, hp']
  decide

end MTAppenderFile.Loglib.Order
