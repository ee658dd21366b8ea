import MTAppenderFile.Lib.Handover
import MTAppenderFile.Loglib.Lifecycle
import MTAppenderFile.Loglib.Steps

/-! # The records on their way to the file

The threads of `Threads` move records through a pipe: an append puts its record in the buffer, a flush
drains the buffer into the hands of its thread, and `__log2file` delivers what the thread holds to the
log file. Next to the state of the threads runs a history (`Hist`), which says where each record is;
records are numbered in the order of their insertion. No step depends on it.

`Coupled` relates the threads to the pipe: the log file has grown by the records that are out, the
content of the buffer is the records in it, and the drained bytes of a thread are the records in its
hands. Every step keeps this, while the pipe makes the move of the step (`Coupled.exec`). -/

namespace MTAppenderFile.Loglib.Pipeline

open MTAppenderFile.Lib.Buffered
open MTAppenderFile.Lib.Handover
open MTAppenderFile.Lib.Run
open MTAppenderFile.Comm.CTypes
open MTAppenderFile.Comm.Auto
open MTAppenderFile.Comm.Ptr
open MTAppenderFile.Loglib.Base
open MTAppenderFile.Loglib.Buffer
open MTAppenderFile.Loglib.Files
open MTAppenderFile.Loglib.Formatter
open MTAppenderFile.Loglib.Appender
open MTAppenderFile.Loglib.Session
open MTAppenderFile.Loglib.Lifecycle
open MTAppenderFile.Loglib.Threads
open MTAppenderFile.Loglib.Steps

/-! ### The history -/

/-- A record, with its number. -/
abbrev Record := ℕ × Bytes

/-- The bytes of the records. -/
def bytes (l : List Record) : Bytes := l.flatMap Prod.snd

/-- The bytes of the records, if there are any. -/
def chunkOf (l : List Record) : Option Bytes := if l = [] then none else some (bytes l)

/-- The record that the formatter prints. -/
def printed (lc : Libc) (st : FormatStatics) (info : Option LogInfo) (log : Option CStr) : Bytes :=
  match logFormater lc st info log temp with
  | some (_, logBuff) => logBuff.content
  | none => []

/-- **The history**: where the records are, and for each thread the records that had been appended when
its call began. -/
structure Hist where
  pipe : Pipe Record ℕ
  due : ℕ → List Record

/-- The history at the start. -/
def Hist.empty : Hist := ⟨.empty, fun _ => []⟩

/-- The move of the pipe in the next step of thread `t`; `n` is the number of the next record. In the
empty directory `__log2file` writes nothing. -/
def moveOf (lc : Libc) (n : ℕ) (t : ℕ) (s : Sys) : Move Record ℕ :=
  match act (s.pc t) with
  | .insert info log =>
    if s.p.mlog.sgLogBuff.isNone then .stay else .insert (n, printed lc s.p.statics info log)
  | .direct data => if s.p.mlog.sgLogdir = [] then .refuse (n, data) else .direct (n, data)
  | .drain => .drain t
  | .write _ => if s.p.mlog.sgLogdir = [] then .lose t else .deliver t
  | .free => .wipe
  | _ => .stay

/-- The history after a step. -/
def note (lc : Libc) (s : Sys) (h : Hist) : Label → Hist
  | .call t _ => { h with due := Function.update h.due t h.pipe.log }
  | .run t _ => { h with pipe := h.pipe.move (moveOf lc h.pipe.log.length t s) }

/-- One step of the threads, with the history. -/
def tstep (lc : Libc) (x : Sys × Hist) (l : Label) : Option (Sys × Hist) :=
  (step lc x.1 l).map fun s => (s, note lc x.1 x.2 l)

/-! ### The appender and the pipe -/

/-- The appender against the pipe: the log file, with what its `FILE` holds, has grown by the records that are out,
and the content of the buffer is the records in it. -/
structure Holds (p₀ p : Proc) (buf out : List Record) : Prop where
  same : SameSession p₀ p
  handle : HandleOk p.mlog
  file : (sink p).all = (sink p₀).all ++ bytes out
  live : ∀ lb, p.mlog.sgLogBuff = some lb → Live p lb ∧ lb.content = bytes buf
  gone : p.mlog.sgLogBuff = none → p.mlog.sgMmapFile = none ∧ buf = []

theorem bytes_append (l l' : List Record) : bytes (l ++ l') = bytes l ++ bytes l' := List.flatMap_append

theorem bytes_eq_nil_iff {l : List Record} (h : ∀ x ∈ l, x.2 ≠ []) : bytes l = [] ↔ l = [] := by
  cases l with
  | nil => simp [bytes]
  | cons x l => simp [bytes, h x]

theorem printed_of {lc : Libc} {st : FormatStatics} {info : Option LogInfo} {log : Option CStr}
    {data : Bytes} (h : Printed lc st info log data) : printed lc st info log = data := by
  obtain ⟨logBuff, hf, -, hd⟩ := h
  rw [printed, hf]
  exact hd

theorem printed_of_appenderAsync {lc : Libc} {info : Option LogInfo} {log : Option CStr}
    {p p' : Proc} {lb : LogBuffer} (hb : p.mlog.sgLogBuff = some lb)
    (h : appenderAsync lc info log p = some p') :
    Printed lc p.statics info log (printed lc p.statics info log) := by
  rw [appenderAsync, hb] at h
  obtain ⟨r, hf, -⟩ := Option.bind_eq_some_iff.mp h
  obtain ⟨data, hp⟩ := exists_printed hf
  rwa [printed_of hp]

section Holds

variable {lc : Libc} {env : FileEnv} {p₀ p p' : Proc} {buf out : List Record}

theorem Holds.setmode (h : Holds p₀ p buf out) (mode : AppendMode) :
    Holds p₀ (logAppenderSetmode mode p) buf out := by
  refine ⟨⟨h.same.dir, h.same.name, h.same.thread⟩, h.handle, h.file, fun lb hb => ?_, h.gone⟩
  obtain ⟨hl, hc⟩ := h.live lb hb
  exact ⟨⟨hl.buff, hl.good, hl.cap, hl.block, hl.mmap, hl.handle⟩, hc⟩

theorem Holds.store (h : Holds p₀ p buf out) :
    Holds p₀ { p with mlog := { p.mlog with sgLogClose := true } } buf out := by
  refine ⟨⟨h.same.dir, h.same.name, h.same.thread⟩, h.handle, h.file, fun lb hb => ?_, h.gone⟩
  obtain ⟨hl, hc⟩ := h.live lb hb
  exact ⟨⟨hl.buff, hl.good, hl.cap, hl.block, hl.mmap, hl.handle⟩, hc⟩

/-- What the log file and its `FILE` are may change, if nothing of it is lost. -/
theorem Holds.refiled (h : Holds p₀ p buf out) {s : Sink Byte} (hr : Refiled p p' s) {out' : List Record}
    (hs : s.all = (sink p₀).all ++ bytes out') : Holds p₀ p' buf out' := by
  have hall : (sink p').all = s.all := congrArg Sink.all hr.sink
  have hh := hr.handle
  obtain ⟨f, t, d, he⟩ := hr.eq
  rw [he] at hall hh ⊢
  refine ⟨⟨h.same.dir, h.same.name, h.same.thread⟩, hh, hall.trans hs, fun lb hb => ?_, h.gone⟩
  obtain ⟨hl, hc⟩ := h.live lb hb
  exact ⟨⟨hl.buff, hl.good, hl.cap, hl.block, hl.mmap, hh⟩, hc⟩

theorem Holds.closelogfile (h : Holds p₀ p buf out) (henv : env.fcloseStored = none) :
    Holds p₀ (Appender.closelogfile env p) buf out := by
  have hr := closelogfile_refiled h.handle env
  rw [henv] at hr
  exact h.refiled hr ((Sink.all_close _).trans h.file)

/-- **An append** below 4/5 of the block puts its record in the buffer. -/
theorem Holds.insert (h : Holds p₀ p buf out) {info : Option LogInfo} {log : Option CStr}
    {lb : LogBuffer} (hb : p.mlog.sgLogBuff = some lb)
    (hlt : bufferLength p < 153600 * 4 / 5) (ha : appenderAsync lc info log p = some p') (n : ℕ) :
    Holds p₀ p' (buf ++ [(n, printed lc p.statics info log)]) out ∧
      printed lc p.statics info log ≠ [] := by
  obtain ⟨hl, hc⟩ := h.live lb hb
  have hp := printed_of_appenderAsync hb ha
  rw [hl.bufferLength] at hlt
  obtain ⟨p₁, entry, hs, he, -, hne, -, hlen, hent⟩ := appenderAsync_effect hl hp
  cases hs.symm.trans ha
  have hpe := hent (by omega)
  refine ⟨⟨h.same.next he, he.live.handle, ?_, fun lb' hb' => ?_, fun hn => ?_⟩, hpe ▸ hne⟩
  · rw [he.sink, h.file]
  · cases he.live.buff.symm.trans hb'
    refine ⟨he.live, ?_⟩
    rw [hl.good.content_write hne (by omega), hl.cap, List.take_of_length_le, hc, bytes_append, hpe]
    · simp [bytes]
    · rw [List.length_append, hl.good.length_content]
      omega
  · rw [he.live.buff] at hn
    cases hn

/-- **A drain** takes all records from the buffer. -/
theorem Holds.drain (h : Holds p₀ p buf out) (ht : ∀ x ∈ buf, x.2 ≠ []) {tmp : Option Bytes}
    (hd : drainBuffer p = some (p', tmp)) : Holds p₀ p' [] out ∧ tmp = chunkOf buf := by
  cases hb : p.mlog.sgLogBuff with
  | none =>
    obtain ⟨hm, rfl⟩ := h.gone hb
    have hd' : drainBuffer p = some (p, none) := by
      simp [drainBuffer, flushLogBuff, hb, AutoBuffer.empty, AutoBuffer.ptrBytes]
    cases hd'.symm.trans hd
    exact ⟨h, rfl⟩
  | some lb =>
    obtain ⟨hl, hc⟩ := h.live lb hb
    obtain ⟨buff, hf, hbuff⟩ := flushLogBuff_eq hl
    have hd' : drainBuffer p = some
        ({ p with mlog := { p.mlog with sgLogBuff := some lb.clear } }, buff.ptrBytes) := by
      rw [drainBuffer, hf]; rfl
    cases hd'.symm.trans hd
    have he := hl.effect_buff (LogBuffer.good_clear hl.good.toWF hl.good.four)
      (LogBuffer.maxLength_clear lb)
    refine ⟨⟨h.same.next he, h.handle, ?_, fun lb' hb' => ?_, fun hn => ?_⟩, ?_⟩
    · rw [he.sink, h.file]
    · cases he.live.buff.symm.trans hb'
      exact ⟨he.live, LogBuffer.content_clear lb⟩
    · cases he.live.buff.symm.trans hn
    · simp only [hbuff, chunkOf, hc, bytes_eq_nil_iff ht]

/-- **A write** that succeeds, of the records `l`: they are out, but for the empty directory. -/
theorem Holds.write (h : Holds p₀ p buf out) (lc : Libc) (henv : env.Succeeds) {l : List Record}
    {data : Bytes} (hl : bytes l = data) :
    Holds p₀ (log2file lc env data p) buf (if p.mlog.sgLogdir = [] then out else out ++ l) := by
  refine h.refiled (log2file_refiled lc env data h.handle) ?_
  rw [all_writeBack henv, h.file, landed]
  split_ifs
  · rw [List.append_nil]
  · rw [bytes_append, hl, List.append_assoc]

theorem Holds.free (h : Holds p₀ p buf out) (hf : freeLogBuff p = some p') : Holds p₀ p' [] out := by
  cases hb : p.mlog.sgLogBuff with
  | none =>
    rw [freeLogBuff, (h.gone hb).1] at hf
    cases hf
  | some lb =>
    obtain ⟨files, hf', hfile⟩ := freeLogBuff_spec (h.live lb hb).1
    cases hf'.symm.trans hf
    refine ⟨⟨h.same.dir, h.same.name, h.same.thread⟩, h.handle, ?_, fun lb hb => ?_, fun _ => ⟨rfl, rfl⟩⟩
    · have hsink : sink { p with mlog := { p.mlog with sgMmapFile := none, sgLogBuff := none }, files := files } =
          sink p := Sink.ext hfile rfl
      rw [hsink, h.file]
    · cases hb

end Holds

/-- **The threads against the pipe.** -/
structure Coupled (p₀ : Proc) (s : Sys) (P : Pipe Record ℕ) : Prop where
  holds : Holds p₀ s.p P.buf P.out
  hands : ∀ t, chunk (s.pc t) = chunkOf (P.hand t)
  texts : ∀ x ∈ P.buf, x.2 ≠ []

/-- What a step needs: its file operations succeed, and an append finds the buffer below 4/5. -/
def StepOk (s : Sys) (t : ℕ) (env : FileEnv) : Prop :=
  env.Succeeds ∧ ∀ info log, act (s.pc t) = .insert info log → bufferLength s.p < 153600 * 4 / 5

theorem chunkOf_eq_none {l : List Record} : chunkOf l = none ↔ l = [] := by
  unfold chunkOf; split_ifs with h <;> simp [h]

theorem Coupled.hand_eq_nil {p₀ : Proc} {s : Sys} {P : Pipe Record ℕ} (h : Coupled p₀ s P) {t : ℕ} :
    P.hand t = [] ↔ chunk (s.pc t) = none := by rw [h.hands, chunkOf_eq_none]

theorem Coupled.buffered {p₀ : Proc} {s : Sys} {P : Pipe Record ℕ} (h : Coupled p₀ s P) :
    Session.buffered s.p = bytes P.buf := by
  rw [Session.buffered]
  cases hb : s.p.mlog.sgLogBuff with
  | none => rw [(h.holds.gone hb).2]; rfl
  | some lb => exact (h.holds.live lb hb).2

theorem Coupled.buf_eq_nil {p₀ : Proc} {s : Sys} {P : Pipe Record ℕ} (h : Coupled p₀ s P) :
    P.buf = [] ↔ Session.buffered s.p = [] := by
  rw [h.buffered, bytes_eq_nil_iff h.texts]

section Coupled

variable {lc : Libc} {env : FileEnv} {p₀ : Proc} {s s' : Sys} {P : Pipe Record ℕ} {t : ℕ}

theorem Coupled.hands_step (h : Coupled p₀ s P) (ho : Others t s s') {hand : ℕ → List Record}
    (ht : chunk (s'.pc t) = chunkOf (hand t)) (hu : ∀ u, u ≠ t → hand u = P.hand u) :
    ∀ u, chunk (s'.pc u) = chunkOf (hand u) := by
  intro u
  by_cases hut : u = t
  · rw [hut, ht]
  rw [hu u hut]
  rcases ho u hut with he | ⟨rfl, hi, hw⟩
  · rw [he, h.hands]
  · -- a worker that was idle has nothing in its hands
    rw [← h.hands, hi, hw]
    cases s.p.mlog.sgThreadAsync <;> rfl

/-- **A step of a thread is a move of the pipe.** -/
theorem Coupled.exec (h : Coupled p₀ s P) (hs : exec lc env t s (s.pc t) = some s')
    (hok : StepOk s t env) (n : ℕ) : Coupled p₀ s' (P.move (moveOf lc n t s)) := by
  obtain ⟨hd, ho, -, -⟩ := exec_stepped hs
  obtain ⟨henv, hlt⟩ := hok
  have hold := h.hands t
  rw [chunk] at hold
  rw [moveOf]
  generalize hc : chunk (s'.pc t) = c at hd
  generalize hp : s'.p = p' at hd
  generalize act (s.pc t) = a at hd hlt hold
  cases hd with
  | quiet => exact ⟨hp ▸ h.holds, h.hands_step ho (hc.trans hold) fun _ _ => rfl, h.texts⟩
  | setmode mode =>
    exact ⟨hp ▸ h.holds.setmode mode, h.hands_step ho (hc.trans hold) fun _ _ => rfl, h.texts⟩
  | store => exact ⟨hp ▸ h.holds.store, h.hands_step ho (hc.trans hold) fun _ _ => rfl, h.texts⟩
  | file =>
    exact ⟨hp ▸ h.holds.closelogfile henv.2.2.2.2, h.hands_step ho (hc.trans hold) fun _ _ => rfl, h.texts⟩
  | @insert info log _ hi =>
    have hhands := h.hands_step ho (hc.trans hold) fun _ _ => rfl
    cases hb : s.p.mlog.sgLogBuff with
    | none =>
      rw [appenderAsync, hb] at hi
      cases hi
      exact ⟨hp ▸ h.holds, hhands, h.texts⟩
    | some lb =>
      obtain ⟨hh, hne⟩ := h.holds.insert hb (hlt info log rfl) hi n
      refine ⟨hp ▸ hh, hhands, fun x hx => ?_⟩
      rcases List.mem_append.mp hx with hx | hx
      · exact h.texts x hx
      · rw [List.mem_singleton.mp hx]; exact hne
  | direct data =>
    have hhands := h.hands_step ho (hc.trans hold) fun _ _ => rfl
    have hw := h.holds.write lc henv (l := [(n, data)]) (show bytes [(n, data)] = data by simp [bytes])
    by_cases hdir : s.p.mlog.sgLogdir = []
    · simp only [hdir, if_true] at hw ⊢
      exact ⟨hp ▸ hw, hhands, h.texts⟩
    · simp only [hdir, if_false] at hw ⊢
      exact ⟨hp ▸ hw, hhands, h.texts⟩
  | drain hd =>
    obtain ⟨hh, rfl⟩ := h.holds.drain h.texts hd
    have h0 : P.hand t = [] := chunkOf_eq_none.mp hold.symm
    refine ⟨hp ▸ hh, h.hands_step ho ?_ fun u hu => ?_, fun x hx => absurd hx List.not_mem_nil⟩
    · rw [hc, hand_drain, if_pos rfl, h0, List.nil_append]
    · rw [hand_drain, if_neg hu]
  | write data =>
    -- the data are the records in the hands of `t`
    have hb : bytes (P.hand t) = data := by
      unfold chunkOf at hold
      split_ifs at hold
      exact (Option.some_inj.mp hold).symm
    have hw := h.holds.write lc henv hb
    by_cases hdir : s.p.mlog.sgLogdir = []
    · simp only [hdir, if_true] at hw ⊢
      refine ⟨hp ▸ hw, h.hands_step ho ?_ fun u hu => ?_, h.texts⟩
      · rw [hc, hand_lose, if_pos rfl]; rfl
      · rw [hand_lose, if_neg hu]
    · simp only [hdir, if_false] at hw ⊢
      refine ⟨hp ▸ hw, h.hands_step ho ?_ fun u hu => ?_, h.texts⟩
      · rw [hc, hand_deliver, if_pos rfl]; rfl
      · rw [hand_deliver, if_neg hu]
  | free hf =>
    exact ⟨hp ▸ h.holds.free hf, h.hands_step ho (hc.trans hold) fun _ _ => rfl,
      fun x hx => absurd hx List.not_mem_nil⟩

end Coupled

/-! ### Runs -/

/-- The threads right after `open` in the mode `mode`: only the worker may be running. -/
structure Started (lc : Libc) (mode : AppendMode) (s : Sys) : Prop where
  opened : ∃ p₀ oenv env filedir filename, Reachable lc p₀ ∧ p₀.mlog.sgLogClose = true ∧
    Appender.step lc p₀ (.open oenv env mode filedir filename) = some s.p
  others : ∀ t, t ≠ 0 → s.pc t = .idle
  worker : match s.p.mlog.sgThreadAsync with
    | .own => s.pc 0 = if mode = .async then .loop .top else .idle
    | .shared => s.pc 0 = .idle ∨ s.pc 0 = .pass .lock
  spin : s.spin = none
  listed : s.listed = true ↔ s.p.mlog.sgThreadAsync = .shared
  deleted : s.deleted = false

/-- The steps of the interleavings: the calls that meet `calls`, and steps with what they need. -/
def Allowed (calls : Call → Prop) (x : Sys × Hist) : Label → Prop
  | .call _ c => calls c
  | .run t env => StepOk x.1 t env

/-- **What holds in every interleaving**, from the appender `p₀` on. -/
structure Tracked (p₀ : Proc) (x : Sys × Hist) : Prop where
  coupled : Coupled p₀ x.1 x.2.pipe
  apart : Apart x.2.pipe
  number : ∀ r ∈ x.2.pipe.log, r.1 < x.2.pipe.log.length
  due : ∀ t, ∀ r ∈ x.2.due t, r ∈ x.2.pipe.log
  empty : p₀.mlog.sgLogdir = [] → x.2.pipe.out = []

theorem Tracked.logFile_of_out {p₀ : Proc} {x : Sys × Hist} (h : Tracked p₀ x) (h₀ : sink p₀ = ⟨[], []⟩)
    (hout : x.2.pipe.out = []) : logFile x.1.p = [] := by
  have hfile := h.coupled.holds.file
  rw [h₀, hout] at hfile
  exact (List.append_eq_nil_iff.mp hfile).1

theorem Started.open_spec {lc : Libc} {mode : AppendMode} {s : Sys} (h : Started lc mode s) :
    ∃ lb, Opened s.p lb ∧ lb.content = [] ∧ s.p.mlog.sgMode = mode ∧ (mode = .async → held s.p.mlog = []) :=
  OpenedIn.spec h.opened

/-- What every thread has right after `open`. -/
theorem Started.forall_pc {lc : Libc} {mode : AppendMode} {s : Sys} (h : Started lc mode s)
    {Q : Pc → Prop} (hi : Q .idle) (hw : ∀ th, Q (workerStart th)) (t : ℕ) : Q (s.pc t) := by
  by_cases ht : t = 0
  · subst ht
    have hworker := h.worker
    cases hth : s.p.mlog.sgThreadAsync <;> rw [hth] at hworker
    · rcases hworker with h | h <;> rw [h]
      exacts [hi, hw .shared]
    · dsimp only at hworker
      rw [hworker]
      split_ifs
      exacts [hw .own, hi]
  · rw [h.others t ht]; exact hi

theorem Started.tracked {lc : Libc} {mode : AppendMode} {s : Sys} (h : Started lc mode s) :
    Tracked s.p (s, .empty) := by
  obtain ⟨lb, ho, hc, -⟩ := h.open_spec
  refine ⟨⟨⟨.refl s.p, ho.handle, ?_, fun lb' hb => ?_, fun hb => ?_⟩, fun t => ?_, ?_⟩, apart_empty,
    ?_, ?_, fun _ => rfl⟩
  · exact (List.append_nil _).symm
  · cases ho.buff.symm.trans hb
    exact ⟨ho.toLive, hc⟩
  · cases ho.buff.symm.trans hb
  · exact h.forall_pc (Q := fun pc => chunk pc = none) rfl (fun th => by cases th <;> rfl) t
  · exact fun _ hx => absurd hx List.not_mem_nil
  · exact fun _ hx => absurd hx List.not_mem_nil
  · exact fun _ _ hx => absurd hx List.not_mem_nil

section Runs

variable {lc : Libc} {calls : Call → Prop} {p₀ : Proc} {x x' : Sys × Hist} {l : Label}

theorem tstep_call {t : ℕ} {c : Call} (hs : tstep lc x (.call t c) = some x') :
    x.1.deleted = false ∧ t ≠ 0 ∧ x.1.pc t = .idle ∧
      x' = (x.1.goto t c.entry, { x.2 with due := Function.update x.2.due t x.2.pipe.log }) := by
  obtain ⟨s, hstep, rfl⟩ := Option.map_eq_some_iff.mp hs
  rw [Threads.step] at hstep
  split_ifs at hstep with hc
  cases hstep
  exact ⟨hc.1, hc.2.1, Pc.isIdle_iff.mp hc.2.2, rfl⟩

theorem tstep_run {t : ℕ} {env : FileEnv} (hs : tstep lc x (.run t env) = some x') :
    x.1.deleted = false ∧ exec lc env t x.1 (x.1.pc t) = some x'.1 ∧
      x'.2 = { x.2 with pipe := x.2.pipe.move (moveOf lc x.2.pipe.log.length t x.1) } := by
  obtain ⟨s, hstep, rfl⟩ := Option.map_eq_some_iff.mp hs
  rw [Threads.step] at hstep
  split_ifs at hstep with hd
  exact ⟨by simpa using hd, hstep, rfl⟩

theorem tstep_of_exec {s s' : Sys} {h : Hist} {t : ℕ} {env : FileEnv} (hd : s.deleted = false)
    (he : exec lc env t s (s.pc t) = some s') :
    tstep lc (s, h) (.run t env) =
      some (s', { h with pipe := h.pipe.move (moveOf lc h.pipe.log.length t s) }) := by
  rw [tstep, Threads.step, if_neg (by simp [hd]), he]
  rfl

theorem arrival_moveOf {n t : ℕ} {s : Sys} {r : Record} (h : (moveOf lc n t s).arrival = some r) :
    r.1 = n := by
  unfold moveOf at h
  split at h <;> (try split_ifs at h) <;> cases h <;> rfl

theorem act_of_direct {n t : ℕ} {s : Sys} {r : Record} (h : moveOf lc n t s = .direct r) :
    ∃ data, act (s.pc t) = .direct data := by
  unfold moveOf at h
  split at h <;> (try split_ifs at h) <;> first | cases h; done | exact ⟨_, by assumption⟩

theorem act_of_drain {n t u : ℕ} {s : Sys} (h : moveOf lc n t s = .drain u) :
    act (s.pc t) = .drain ∧ u = t := by
  unfold moveOf at h
  split at h <;> (try split_ifs at h) <;> cases h
  exact ⟨by assumption, rfl⟩

theorem act_of_wipe {n t : ℕ} {s : Sys} (h : moveOf lc n t s = .wipe) : act (s.pc t) = .free := by
  unfold moveOf at h
  split at h <;> (try split_ifs at h) <;> cases h
  assumption

theorem hand_moveOf_of_ne {P : Pipe Record ℕ} {n t u : ℕ} {s : Sys} (hu : u ≠ t) :
    (P.move (moveOf lc n t s)).hand u = P.hand u := by
  unfold moveOf
  split
  · split_ifs <;> rfl
  · split_ifs <;> rfl
  · rw [hand_drain, if_neg hu]
  · split_ifs
    · rw [hand_lose, if_neg hu]
    · rw [hand_deliver, if_neg hu]
  · rfl
  · rfl

theorem dir_of_lose {n t u : ℕ} {s : Sys} (h : moveOf lc n t s = .lose u) :
    s.p.mlog.sgLogdir = [] := by
  unfold moveOf at h
  split at h <;> (try split_ifs at h) <;> cases h
  assumption

theorem dir_of_refuse {n t : ℕ} {s : Sys} {r : Record} (h : moveOf lc n t s = .refuse r) :
    s.p.mlog.sgLogdir = [] := by
  unfold moveOf at h
  split at h <;> (try split_ifs at h) <;> cases h
  assumption

theorem kind_of_arrival {n t : ℕ} {s : Sys} {r : Record} (h : (moveOf lc n t s).arrival = some r) :
    kind (s.pc t) = .append := by
  unfold moveOf at h
  split at h <;> (try split_ifs at h) <;> first | cases h; done | skip
  · next ha _ => exact kind_of_act ha rfl
  · next ha _ => exact kind_of_act ha rfl
  · next ha _ => exact kind_of_act ha rfl

theorem chunk_entry (c : Call) : chunk c.entry = none := by cases c <;> rfl

/-- **Every step of the threads keeps it.** -/
theorem Tracked.step (h : Tracked p₀ x) (hl : Allowed calls x l) (hs : tstep lc x l = some x') :
    Tracked p₀ x' := by
  cases l with
  | call t c =>
    obtain ⟨-, -, hi, rfl⟩ := tstep_call hs
    refine ⟨⟨h.coupled.holds, fun u => ?_, h.coupled.texts⟩, h.apart, h.number, fun u r hr => ?_,
      h.empty⟩
    · by_cases hu : u = t
      · subst hu
        rw [goto_pc_self, chunk_entry, ← h.coupled.hands u, hi]
        rfl
      · rw [goto_pc_of_ne _ hu, h.coupled.hands u]
    · by_cases hu : u = t
      · subst hu; simpa using hr
      · exact h.due u r (by simpa [Function.update_of_ne hu] using hr)
  | run t env =>
    obtain ⟨-, he, hx⟩ := tstep_run hs
    have hfresh : ∀ r, (moveOf lc x.2.pipe.log.length t x.1).arrival = some r → r ∉ x.2.pipe.log := by
      intro r hr hmem
      have := h.number r hmem
      rw [arrival_moveOf hr] at this
      omega
    have hc := h.coupled.exec he hl x.2.pipe.log.length
    refine ⟨by rw [hx]; exact hc, by rw [hx]; exact h.apart.move hfresh, fun r hr => ?_,
      fun u r hr => ?_, fun hd => ?_⟩
    · rw [hx] at hr ⊢
      simp only [log_move, List.length_append, List.mem_append, Option.mem_toList] at hr ⊢
      rcases hr with hr | hr
      · have := h.number r hr; omega
      · rw [hr, arrival_moveOf hr]; simp
    · rw [hx] at hr ⊢
      exact mem_log_move (h.due u r hr)
    · -- nothing goes out in the empty directory
      have hd' : x.1.p.mlog.sgLogdir = [] := h.coupled.holds.same.dir.trans hd
      rw [hx, moveOf]
      simp only [hd', if_true]
      split
      · split_ifs <;> exact h.empty hd
      all_goals exact h.empty hd

/-- **Every interleaving.** -/
theorem Started.reach_tracked {mode : AppendMode} {s : Sys} (h : Started lc mode s)
    (hr : Reach (tstep lc) (Allowed calls) (s, .empty) x) : Tracked s.p x :=
  hr.inv h.tracked fun _ _ _ ht hl hs => ht.step hl hs

/-! ### Async mode -/

/-- **The threads in async mode**, in which the log file is closed behind every write. -/
structure InAsync (s : Sys) : Prop where
  mode : s.p.mlog.sgMode = .async
  shut : held s.p.mlog = []
  setmode : ∀ t, kind (s.pc t) ≠ .setmode

theorem Started.inAsync {s : Sys} (h : Started lc .async s) : InAsync s := by
  obtain ⟨-, -, -, hm, hshut⟩ := h.open_spec
  refine ⟨hm, hshut rfl, h.forall_pc (Q := fun pc => kind pc ≠ .setmode) (by rintro ⟨⟩) fun th => ?_⟩
  rw [kind_workerStart]
  rintro ⟨⟩

/-- **Every step keeps the mode**, if nobody calls `setmode`. -/
theorem Tracked.inAsync_step (h : Tracked p₀ x) (ha : InAsync x.1) (hc : ∀ t mode, l ≠ .call t (.setmode mode))
    (hs : tstep lc x l = some x') : InAsync x'.1 := by
  cases l with
  | call t c =>
    obtain ⟨-, -, -, rfl⟩ := tstep_call hs
    refine ⟨ha.mode, ha.shut, fun u => ?_⟩
    by_cases hu : u = t
    · subst hu
      rw [goto_pc_self]
      cases c with
      | setmode mode => exact absurd rfl (hc _ mode)
      | _ => rintro ⟨⟩
    · rw [goto_pc_of_ne _ hu]
      exact ha.setmode u
  | run t env =>
    obtain ⟨-, he, -⟩ := tstep_run hs
    have hst := exec_stepped he
    have hmode := (hst.does.frame h.coupled.holds.handle).mode fun m hm => ha.setmode t (kind_of_act hm rfl)
    refine ⟨hmode.trans ha.mode, hst.does.held h.coupled.holds.handle ha.mode ha.shut,
      hst.forall_pc (Q := fun pc => kind pc ≠ .setmode) ha.setmode (fun th => ?_) ?_⟩
    · rw [kind_workerStart]
      rintro ⟨⟩
    · rcases hst.leads.kind with hk | hk | ⟨-, hk⟩ <;> rw [hk]
      · exact ha.setmode t
      · rintro ⟨⟩
      · rintro ⟨⟩

theorem Tracked.logFile {s : Sys} (h : Tracked s.p x) (hs : Started lc .async s) (ha : InAsync x.1) :
    logFile x.1.p = Session.logFile s.p ++ bytes x.2.pipe.out := by
  have hfile := h.coupled.holds.file
  rwa [Sink.all_of_held ha.shut, Sink.all_of_held hs.inAsync.shut] at hfile

end Runs

end MTAppenderFile.Loglib.Pipeline
