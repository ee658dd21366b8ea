import MTAppenderFile.Loglib.Lifecycle

/-! # Exactness of the async mode

Between two operations of an appender in async mode, the log file followed by the content of the
buffer is what it was after `open`, followed by the records appended since: nothing is lost, doubled,
cut or reordered (`async_exact`). The operations are appends below 4/5 of the block and flushes whose
file operations succeed (`WholeOp`).

The directory must not be empty and `ftell` must succeed, too: in both cases the code drops what it
drained without having called `fwrite`, and without an error of `fopen` or `fwrite`
(`async_exact_needs_dir_and_ftell`). -/

namespace MTAppenderFile.Loglib.Exactness

open MTAppenderFile.Lib.Buffered
open MTAppenderFile.Lib.Run
open MTAppenderFile.Comm.CTypes
open MTAppenderFile.Loglib.Base
open MTAppenderFile.Loglib.Buffer
open MTAppenderFile.Loglib.Files
open MTAppenderFile.Loglib.Formatter
open MTAppenderFile.Loglib.Appender
open MTAppenderFile.Loglib.Session
open MTAppenderFile.Loglib.Lifecycle

/-- The bodies that the operations append, in order. -/
def bodies (ops : List Op) : List CStr :=
  ops.filterMap fun
    | .append _ log => log
    | _ => none

/-- The records of the operations, in order. -/
def records (ops : List Op) : Bytes := (bodies ops).flatMap fun body => formatRecord body.bytes

theorem records_append (ops ops' : List Op) : records (ops ++ ops') = records ops ++ records ops' := by
  simp [records, bodies]

/-- The operations of the async mode: appends that find the buffer below 4/5 of the block, and flushes
whose file operations meet `ok`. -/
def WholeOp (ok : FileEnv → Prop) (p : Proc) : Op → Prop
  | .append _ (some body) => body.bytes ≠ [] ∧ bufferLength p < 153600 * 4 / 5
  | .task env => ok env
  | .flushSync env => ok env
  | _ => False

/-- An appender that was just opened in async mode. -/
def JustOpened (lc : Libc) (p : Proc) : Prop :=
  ∃ p₀ oenv env filedir filename, Reachable lc p₀ ∧ p₀.mlog.sgLogClose = true ∧
    step lc p₀ (.open oenv env .async filedir filename) = some p

/-- A session in async mode with the buffer `lb`: the log file is closed behind each write-back. -/
structure AsyncSession (p : Proc) (lb : LogBuffer) : Prop extends Opened p lb where
  mode : p.mlog.sgMode = .async
  shut : held p.mlog = []

theorem AsyncSession.kept {p p' : Proc} {lb lb' : LogBuffer} (h : AsyncSession p lb)
    (he : Effect p p' lb' (sink p)) : AsyncSession p' lb' :=
  ⟨he.opened h.flag, he.mode.trans h.mode, he.held.trans h.shut⟩

theorem AsyncSession.writes {p p' : Proc} {lb lb' : LogBuffer} {lc : Libc} {env : FileEnv} {data : Bytes}
    (h : AsyncSession p lb) (he : Effect p p' lb' (writeBack lc env p.mlog data (sink p))) : AsyncSession p' lb' :=
  ⟨he.opened h.flag, he.mode.trans h.mode, he.held.trans (held_writeBack h.mode lc env data (.inl h.shut))⟩

theorem AsyncSession.logFile_of_writes {p p' : Proc} {lb lb' : LogBuffer} {lc : Libc} {env : FileEnv} {data : Bytes}
    (h : AsyncSession p lb) (henv : env.Succeeds)
    (he : Effect p p' lb' (writeBack lc env p.mlog data (sink p))) : logFile p' = logFile p ++ landed p.mlog data := by
  have hall := all_writeBack henv lc p.mlog data (sink p)
  rw [Sink.all_of_held (held_writeBack h.mode lc env data (.inl h.shut)), Sink.all_of_held h.shut] at hall
  exact he.logFile.trans hall

theorem JustOpened.session {lc : Libc} {p : Proc} (h : JustOpened lc p) :
    ∃ lb, AsyncSession p lb ∧ lb.content = [] := by
  obtain ⟨lb, ho, hc, hmode, hshut⟩ := OpenedIn.spec h
  exact ⟨lb, ⟨ho, hmode, hshut rfl⟩, hc⟩

theorem JustOpened.reachable {lc : Libc} {p : Proc} (h : JustOpened lc p) : Reachable lc p := by
  obtain ⟨p₀, oenv, env, dir, name, ⟨share, files, statics, hr⟩, -, hs⟩ := h
  exact ⟨share, files, statics, hr.tail trivial hs⟩

/-- A record that is appended below 4/5 of the block fits with its end marker. -/
theorem record_fits {lb : LogBuffer} (h : lb.buff.length < 153600 * 4 / 5) (body : Bytes) :
    lb.buff.length + (formatRecord body).length + 4 < 150 * 1024 := by
  have := length_formatRecord_le body
  omega

/-- **An append below 4/5 of the block** appends the record to the buffer. -/
theorem append_effect {p : Proc} {lb : LogBuffer} (h : AsyncSession p lb) (lc : Libc) (env : FileEnv)
    (body : CStr) (hne : body.bytes ≠ []) (hlt : lb.buff.length < 153600 * 4 / 5) :
    ∃ p', step lc p (.append env (some body)) = some p' ∧
      Effect p p' (lb.write (formatRecord body.bytes)).2 (sink p) ∧
      (lb.write (formatRecord body.bytes)).2.content = lb.content ++ formatRecord body.bytes := by
  obtain ⟨p', entry, hs, he, -, -, -, hent⟩ :=
    appendEx_async_effect env h.toOpened h.mode (printed_none lc p.statics hne)
  rw [hent (by omega)] at he
  refine ⟨p', hs, he, ?_⟩
  have hf := record_fits hlt body.bytes
  have hr := formatRecord_ne_nil body.bytes
  rw [h.good.content_write hr (by omega), h.cap, List.take_of_length_le]
  rw [List.length_append, h.good.length_content]
  omega

/-- **A flush of the async mode**, by the worker or by `flush_sync`. -/
theorem flush_effect {p : Proc} {lb : LogBuffer} (h : AsyncSession p lb) (lc : Libc) (env : FileEnv)
    (op : Op) (hop : op = .task env ∨ op = .flushSync env) :
    ∃ p', step lc p op = some p' ∧ Effect p p' lb.clear (writeBack lc env p.mlog lb.content (sink p)) := by
  obtain ⟨p', hs, he⟩ := logThreadTask_effect h.toLive lc env
  rcases hop with rfl | rfl
  · exact ⟨p', hs, he⟩
  · exact ⟨p', by rw [step, logAppenderFlushSync_eq, if_neg (by simp [h.mode]), hs], he⟩

/-- **Exactness** in the session that `p₀` started: what was drained has landed in the log file, and
together with the content of the buffer it is `r`. -/
structure Exact (p₀ : Proc) (r : Bytes) (p : Proc) (lb : LogBuffer) : Prop extends
    AsyncSession p lb where
  same : SameSession p₀ p
  split : ∃ drained, logFile p = logFile p₀ ++ landed p₀.mlog drained ∧ drained ++ lb.content = r

/-- **One append** puts its record at the end. -/
theorem Exact.append {p₀ p : Proc} {r : Bytes} {lb : LogBuffer} (h : Exact p₀ r p lb) (lc : Libc)
    (env : FileEnv) {body : CStr} (hne : body.bytes ≠ [])
    (hlt : bufferLength p < 153600 * 4 / 5) :
    ∃ p' lb', step lc p (.append env (some body)) = some p' ∧
      Exact p₀ (r ++ formatRecord body.bytes) p' lb' := by
  rw [h.bufferLength] at hlt
  obtain ⟨p', hs, he, hc⟩ := append_effect h.toAsyncSession lc env body hne hlt
  obtain ⟨drained, hfile, hr⟩ := h.split
  refine ⟨p', _, hs, h.kept he, h.same.next he, drained, ?_, ?_⟩
  · rw [he.logFile, ← hfile, sink]
  · rw [hc, ← hr, List.append_assoc]

/-- **One flush** moves the content to the log file. -/
theorem Exact.flush {p₀ p : Proc} {r : Bytes} {lb : LogBuffer} (h : Exact p₀ r p lb) (lc : Libc)
    {env : FileEnv} (henv : env.Succeeds) {op : Op} (hop : op = .task env ∨ op = .flushSync env) :
    ∃ p' lb', step lc p op = some p' ∧ Exact p₀ r p' lb' := by
  obtain ⟨p', hs, he⟩ := flush_effect h.toAsyncSession lc env op hop
  obtain ⟨drained, hfile, hr⟩ := h.split
  refine ⟨p', _, hs, h.writes he, h.same.next he, drained ++ lb.content, ?_, ?_⟩
  · rw [h.logFile_of_writes henv he, hfile, h.same.landed, landed_append, List.append_assoc]
  · rw [LogBuffer.content_clear, List.append_nil, hr]

theorem Exact.step {p₀ p : Proc} {r : Bytes} {lb : LogBuffer} (h : Exact p₀ r p lb) (lc : Libc)
    {op : Op} (hop : WholeOp FileEnv.Succeeds p op) :
    ∃ p' lb', Appender.step lc p op = some p' ∧ Exact p₀ (r ++ records [op]) p' lb' := by
  cases op with
  | append env log =>
    cases log with
    | none => exact hop.elim
    | some body =>
      obtain ⟨hne, hlt⟩ := hop
      have hr : records [.append env (some body)] = formatRecord body.bytes := by
        simp [records, bodies]
      rw [hr]
      exact h.append lc env hne hlt
  | task env => simpa [records, bodies] using h.flush lc hop (.inl rfl)
  | flushSync env => simpa [records, bodies] using h.flush lc hop (.inr rfl)
  | _ => exact hop.elim

/-- **Whole runs.** -/
theorem exact_run {lc : Libc} {p₀ : Proc} {lb₀ : LogBuffer} (h₀ : AsyncSession p₀ lb₀)
    (hc : lb₀.content = []) {ops : List Op}
    (hops : Meets (step lc) (WholeOp FileEnv.Succeeds) p₀ ops) :
    ∃ p lb, run (step lc) p₀ ops = some p ∧ Exact p₀ (records ops) p lb := by
  have hstart : Exact p₀ (records []) p₀ lb₀ :=
    ⟨h₀, .refl p₀, [], by simp, by rw [hc]; rfl⟩
  obtain ⟨p, hr, lb, h⟩ := run_total (P := fun ops p => ∃ lb, Exact p₀ (records ops) p lb)
    ⟨lb₀, hstart⟩
    (fun ops p op ⟨lb, h⟩ hop => by
      obtain ⟨p', lb', hs, h'⟩ := h.step lc hop
      exact ⟨p', hs, lb', by rw [records_append]; exact h'⟩)
    hops
  exact ⟨p, lb, hr, h⟩

theorem shortcut_empty {p : Proc} {lb : LogBuffer} (h : Live p lb)
    (hs : strnlen lb.buff.parray lb.buff.length = some 0) : lb.buff.length = 0 := by
  have := strnlen_eq_zero_iff.mp hs
  rwa [h.good.first, or_self] at this

/-! ### One append and one flush -/

/-- A new appender with the shared thread, in a file system without files. -/
def fresh : Proc := .create true (fun _ => []) ⟨0, 0⟩

theorem recovered_resize_nil : recovered (resize [] (150 * 1024)) = [] := by
  have h : (resize [] (150 * 1024) : Bytes).head? = some 0 := by
    rw [resize, List.take_nil, List.nil_append, List.head?_replicate]; rfl
  rw [recovered, if_pos h]

theorem fresh_open (lc : Libc) (dir name : CStr) :
    ∃ p, JustOpened lc p ∧ p.mlog.sgLogdir = dir.bytes ∧ logFile p = [] := by
  have hc : Closed fresh := closed_create _ _ _
  obtain ⟨p, hs, -, hd, -, -, -, -, hsink⟩ :=
    logAppenderOpen_spec hc lc .ok (fun _ => rfl) .ok .async dir name
  have hr : Reachable lc fresh := ⟨_, _, _, .refl⟩
  refine ⟨p, ⟨fresh, .ok, .ok, dir, name, hr, rfl, hs⟩, hd, ?_⟩
  have hm : openBlock .ok fresh.files (mmapFilePath dir.bytes name.bytes) = resize [] (150 * 1024) :=
    rfl
  rw [hm, openBack_of_nil recovered_resize_nil] at hsink
  exact congrArg Sink.out hsink

/-- The text `"a"`. -/
def textA : CStr := ⟨ascii "a", by decide⟩

theorem meets_append_task {lc : Libc} {p : Proc} {lb : LogBuffer} (env : FileEnv)
    (h : AsyncSession p lb) (h0 : lb.content = []) {ok : FileEnv → Prop} (henv : ok env) :
    Meets (step lc) (WholeOp ok) p [.append .ok (some textA), .task env] := by
  have hl : bufferLength p < 153600 * 4 / 5 := by
    rw [h.bufferLength, h.good.content_eq_nil_iff.mp h0]; decide
  exact ⟨⟨by decide, hl⟩, fun _ _ => ⟨henv, fun _ _ => trivial⟩⟩

/-- A write-back without a directory, or with an `ftell` that fails, stores nothing if the `FILE` holds nothing. -/
theorem writeBack_of_closed {lc : Libc} {env : FileEnv} {mlog : LogAppender} {s : Sink Byte} (hs : s.held = [])
    (h : mlog.sgLogdir = [] ∨ env.ftellOk = false) (data : Bytes) : writeBack lc env mlog data s = s := by
  rcases h with hd | ht
  · exact writeBack_of_dir_nil hd data s
  · have hcl : ∀ o, s.close o = s := fun o => Sink.close_of_held o hs
    simp only [writeBack, writeOut, ht, hcl, Bool.false_eq_true, if_false, ite_self]

/-- A flush that stores nothing loses the record. -/
theorem append_task_lost {lc : Libc} {p : Proc} (hp : JustOpened lc p) (env : FileEnv)
    (henv : p.mlog.sgLogdir = [] ∨ env.ftellOk = false) :
    ∃ p', run (step lc) p [.append .ok (some textA), .task env] = some p' ∧
      logFile p' ++ buffered p' = logFile p := by
  obtain ⟨lb, h, h0⟩ := hp.session
  have hl : lb.buff.length < 153600 * 4 / 5 := by
    rw [h.good.content_eq_nil_iff.mp h0]; decide
  obtain ⟨p₁, hs₁, he₁, -⟩ := append_effect h lc .ok textA (by decide) hl
  obtain ⟨p₂, hs₂, he₂⟩ := flush_effect (h.kept he₁) lc env (.task env) (.inl rfl)
  have hst : writeBack lc env p₁.mlog (lb.write (formatRecord textA.bytes)).2.content (sink p₁) = sink p₁ := by
    refine writeBack_of_closed (h.kept he₁).shut ?_ _
    exact henv.imp_left he₁.dir.trans
  refine ⟨p₂, run_of_step hs₁ (run_of_step hs₂ rfl), ?_⟩
  rw [he₂.logFile, hst, he₂.live.buffered, LogBuffer.content_clear, he₁.sink, List.append_nil]
  rfl

/-! ### Whole runs -/

/-- **Exactness over whole runs.** From an appender just opened in async mode, in a directory that is
not empty: after every sequence of operations the log file and the first `Length()` bytes of the buffer
together are the log file at the start and the records appended since, and no flush would take the
shortcut on a buffer that is not empty. -/
theorem async_exact {lc : Libc} {p : Proc} (hp : JustOpened lc p) (hd : p.mlog.sgLogdir ≠ [])
    {ops : List Op} (hops : Meets (step lc) (WholeOp FileEnv.Succeeds) p ops) :
    ∃ p' lb, run (step lc) p ops = some p' ∧ p'.mlog.sgLogBuff = some lb ∧
      logFile p' ++ lb.buff.parray.take lb.buff.length = logFile p ++ records ops ∧
      (strnlen lb.buff.parray lb.buff.length = some 0 → lb.buff.length = 0) := by
  obtain ⟨lb₀, h₀, hc₀⟩ := hp.session
  obtain ⟨p', lb, hr, h⟩ := exact_run h₀ hc₀ hops
  obtain ⟨drained, hfile, hsplit⟩ := h.split
  refine ⟨p', lb, hr, h.buff, ?_, shortcut_empty h.toLive⟩
  calc logFile p' ++ lb.content = logFile p ++ (drained ++ lb.content) := by
        rw [hfile, landed_of_dir hd, List.append_assoc]
    _ = logFile p ++ records ops := by rw [hsplit]

theorem async_exact_append_task :
    ∃ p p' lb, p.mlog.sgLogdir = ascii "d" ∧
      run (step utc) p [.append .ok (some textA), .task .ok] = some p' ∧
      p'.mlog.sgLogBuff = some lb ∧
      logFile p' ++ lb.buff.parray.take lb.buff.length = ascii "a\n" := by
  obtain ⟨p, hp, hd, hf⟩ := fresh_open utc ⟨ascii "d", by decide⟩ ⟨ascii "n", by decide⟩
  obtain ⟨lb, h, h0⟩ := hp.session
  obtain ⟨p', lb', hr, hb, he, -⟩ := async_exact hp (by rw [hd]; decide)
    (meets_append_task .ok h h0 FileEnv.succeeds_ok)
  exact ⟨p, p', lb', hd, hr, hb, by rw [he, hf]; decide⟩

/-- Exactness fails in the empty directory, and when `ftell` fails. -/
theorem async_exact_needs_dir_and_ftell :
    (∃ p p', JustOpened utc p ∧
      Meets (step utc) (WholeOp FileEnv.Succeeds) p [.append .ok (some textA), .task .ok] ∧
      run (step utc) p [.append .ok (some textA), .task .ok] = some p' ∧
      logFile p' ++ buffered p' ≠ logFile p ++ records [.append .ok (some textA), .task .ok]) ∧
    (∃ p p', JustOpened utc p ∧ p.mlog.sgLogdir = ascii "d" ∧
      Meets (step utc) (WholeOp fun env => env.fopenOk = true ∧ env.fwriteStored = none) p
        [.append .ok (some textA), .task { FileEnv.ok with ftellOk := false }] ∧
      run (step utc) p [.append .ok (some textA), .task { FileEnv.ok with ftellOk := false }] = some p' ∧
      logFile p' ++ buffered p' ≠
        logFile p ++ records [.append .ok (some textA), .task { FileEnv.ok with ftellOk := false }]) := by
  constructor
  · obtain ⟨p, hp, hd, hf⟩ := fresh_open utc ⟨[], by decide⟩ ⟨ascii "n", by decide⟩
    obtain ⟨lb, h, h0⟩ := hp.session
    obtain ⟨p', hr, he⟩ := append_task_lost hp .ok (.inl hd)
    refine ⟨p, p', hp, meets_append_task _ h h0 FileEnv.succeeds_ok, hr, ?_⟩
    rw [he, hf]; decide
  · obtain ⟨p, hp, hd, hf⟩ := fresh_open utc ⟨ascii "d", by decide⟩ ⟨ascii "n", by decide⟩
    obtain ⟨lb, h, h0⟩ := hp.session
    obtain ⟨p', hr, he⟩ := append_task_lost hp { FileEnv.ok with ftellOk := false } (.inr rfl)
    refine ⟨p, p', hp, hd, meets_append_task _ h h0 ⟨rfl, rfl⟩, hr, ?_⟩
    rw [he, hf]; decide

end MTAppenderFile.Loglib.Exactness
