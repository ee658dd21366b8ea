import MTAppenderFile.Loglib.Exactness

/-! # The two modes write the same file

From `open` to `close`, an appender in sync mode and one in async mode with the shared thread that
append the same bodies leave the same log file, at whatever times the calls are made, however many
flushes the second one has in between, and whether or not the directory is empty
(`sync_async_same_file`): both add the records to the log file, or nothing in the empty directory. -/

namespace MTAppenderFile.Loglib.Modes

open MTAppenderFile.Lib.Buffered
open MTAppenderFile.Lib.Run
open MTAppenderFile.Comm.CTypes
open MTAppenderFile.Loglib.Base
open MTAppenderFile.Loglib.Buffer
open MTAppenderFile.Loglib.Files
open MTAppenderFile.Loglib.Formatter
open MTAppenderFile.Loglib.Appender
open MTAppenderFile.Loglib.Session
open MTAppenderFile.Loglib.Lifecycle
open MTAppenderFile.Loglib.Exactness

/-! ### Opening on an empty mapping -/

/-- A mapping that starts with a NUL, so that `open` recovers nothing. -/
def EmptyMapping (files : Disk) (path : Bytes) : Prop :=
  (resize (files path) (150 * 1024)).head? = some 0

theorem open_emptyMapping (lc : Libc) (share : Bool) {files : Disk} (statics : FormatStatics)
    (env : FileEnv) (mode : AppendMode) {dir name : CStr}
    (hempty : EmptyMapping files (mmapFilePath dir.bytes name.bytes)) :
    ∃ p lb, step lc (.create share files statics) (.open .ok env mode dir name) = some p ∧
      Opened p lb ∧ lb.content = [] ∧ p.mlog.sgMode = mode ∧
      p.mlog.sgThreadAsync = (if share then .shared else .own) ∧
      p.mlog.sgLogdir = dir.bytes ∧ p.mlog.sgLogfilename = name.bytes ∧
      sink p = ⟨files (logfilePath dir.bytes name.bytes), []⟩ := by
  obtain ⟨p, hs, ho, hdir, hname, hmode, hth, -, hsink⟩ := logAppenderOpen_spec
    (closed_create share files statics) lc .ok (fun _ => rfl) env mode dir name
  refine ⟨p, _, hs, ho, LogBuffer.content_clear _, hmode, hth, hdir, hname, ?_⟩
  have hrec : recovered (openBlock .ok files (mmapFilePath dir.bytes name.bytes)) = [] := if_pos hempty
  rw [hsink]
  exact openBack_of_nil hrec env mode dir.bytes _

/-! ### The sync mode -/

/-- Appends in sync mode, with file operations that succeed. -/
def SyncOp : Op → Prop
  | .append env (some body) => body.bytes ≠ [] ∧ env.Succeeds
  | _ => False

/-- A session in sync mode: the records `r` have landed in the log file or are held by its `FILE`, and the buffer is
empty. -/
structure SyncExact (p₀ : Proc) (r : Bytes) (p : Proc) (lb : LogBuffer) : Prop extends
    Opened p lb where
  mode : p.mlog.sgMode = .sync
  empty : lb.content = []
  same : SameSession p₀ p
  file : (sink p).all = (sink p₀).all ++ landed p₀.mlog r

/-- **One append in sync mode.** -/
theorem SyncExact.step {p₀ p : Proc} {r : Bytes} {lb : LogBuffer} (h : SyncExact p₀ r p lb)
    (lc : Libc) {op : Op} (hop : SyncOp op) :
    ∃ p', Appender.step lc p op = some p' ∧ SyncExact p₀ (r ++ records [op]) p' lb := by
  cases op with
  | append env log =>
    cases log with
    | none => exact hop.elim
    | some body =>
      obtain ⟨hne, henv⟩ := hop
      obtain ⟨p', hs, he⟩ :=
        appendEx_sync_effect env h.toOpened h.mode (printed_none lc p.statics hne)
      have hr : records [.append env (some body)] = formatRecord body.bytes := by
        simp [records, bodies]
      refine ⟨p', hs, he.opened h.flag, he.mode.trans h.mode, h.empty, h.same.next he, ?_⟩
      rw [he.sink, all_writeBack henv, h.file, h.same.landed, hr, landed_append, List.append_assoc]
  | _ => exact hop.elim

theorem sync_run {lc : Libc} {p₀ : Proc} {lb : LogBuffer} (h₀ : Opened p₀ lb)
    (hm : p₀.mlog.sgMode = .sync) (hc : lb.content = []) {ops : List Op}
    (hops : ∀ op ∈ ops, SyncOp op) :
    ∃ p, run (step lc) p₀ ops = some p ∧ SyncExact p₀ (records ops) p lb := by
  have hstart : SyncExact p₀ (records []) p₀ lb := ⟨h₀, hm, hc, .refl p₀, by simp [records, bodies]⟩
  have hmeets : Meets (step lc) (fun _ => SyncOp) p₀ ops := meets_of_forall hops
  exact run_total (P := fun ops p => SyncExact p₀ (records ops) p lb) hstart
    (fun ops p op h hop => by
      obtain ⟨p', hs, h'⟩ := h.step lc hop
      exact ⟨p', hs, by rw [records_append]; exact h'⟩)
    hmeets

/-! ### Both modes -/

theorem close_session (lc : Libc) {p₀ p : Proc} {lb : LogBuffer} (h : Opened p lb)
    (hs : SameSession p₀ p) (worker : Option FileEnv) {env : FileEnv} (hclose : env.fcloseStored = none) :
    ∃ p', step lc p (.close worker env) = some p' ∧
      p'.files (logPath p₀.mlog) = (closeBack lc worker env p.mlog lb.content (sink p)).all := by
  obtain ⟨p', hstep, -, hd, hn, hf⟩ := logAppenderClose_spec h lc worker env
  refine ⟨p', hstep, ?_⟩
  rw [hclose, Sink.out_close] at hf
  rw [← hf, logFile, logPath, logPath, hd, hn, hs.dir, hs.name]

/-- **Sync and async mode write the same log file.** -/
theorem sync_async_same_file {lc : Libc} {files : Disk} {statics : FormatStatics} {dir name : CStr}
    (hempty : EmptyMapping files (mmapFilePath dir.bytes name.bytes))
    {share : Bool} {openS openA : FileEnv} {worker worker' : Option FileEnv} {closeS closeA : FileEnv}
    {opsS opsA : List Op} (hS : ∀ op ∈ opsS, SyncOp op)
    (hA : ∀ p, step lc (.create true files statics) (.open .ok openA .async dir name) = some p →
      Meets (step lc) (WholeOp FileEnv.Succeeds) p opsA)
    (hcloseS : closeS.fcloseStored = none) (hcloseA : closeA.Succeeds) (hbodies : bodies opsS = bodies opsA) :
    ∃ pS pA,
      run (step lc) (.create share files statics)
        (.open .ok openS .sync dir name :: (opsS ++ [.close worker closeS])) = some pS ∧
      run (step lc) (.create true files statics)
        (.open .ok openA .async dir name :: (opsA ++ [.close worker' closeA])) = some pA ∧
      pS.files (logfilePath dir.bytes name.bytes) = pA.files (logfilePath dir.bytes name.bytes) := by
  -- the sync run
  obtain ⟨s₀, lbS, hs₀, hoS, hcS, hmS, -, hdS, hnS, hfS⟩ :=
    open_emptyMapping lc share statics openS .sync hempty
  obtain ⟨s₁, hs₁, hS₁⟩ := sync_run hoS hmS hcS hS
  obtain ⟨pS, hs₂, hpS⟩ := close_session lc hS₁.toOpened hS₁.same worker hcloseS
  rw [hcS, closeBack_nil, hS₁.file, hfS, Sink.all_of_held rfl, logPath, hdS, hnS] at hpS
  -- the async run
  obtain ⟨a₀, lbA, ha₀, hoA, hcA, hmA, htA, hdA, hnA, hfA⟩ :=
    open_emptyMapping lc true statics openA .async hempty
  obtain ⟨a₁, lb₁, ha₁, hA₁⟩ := exact_run ⟨hoA, hmA, congrArg Sink.held hfA⟩ hcA (hA a₀ ha₀)
  obtain ⟨pA, ha₂, hpA⟩ := close_session lc hA₁.toOpened hA₁.same worker' hcloseA.2.2.2.2
  obtain ⟨drained, hdr, hsplit⟩ := hA₁.split
  have hout : logFile a₀ = files (logfilePath dir.bytes name.bytes) := congrArg Sink.out hfA
  rw [closeBack_shared _ _ _ (hA₁.same.thread.trans htA), all_writeBack hcloseA, Sink.all_of_held hA₁.shut,
    hA₁.same.landed, sink, hdr, List.append_assoc, ← landed_append, hsplit, hout, logPath, hdA, hnA] at hpA
  refine ⟨pS, pA, run_of_step hs₀ (run_trans hs₁ (run_of_step hs₂ rfl)),
    run_of_step ha₀ (run_trans ha₁ (run_of_step ha₂ rfl)), ?_⟩
  rw [hpS, hpA, landed, landed, hdS, hdA, records, records, hbodies]

theorem sync_async_same_file_fresh :
    ∃ pS pA,
      run (step utc) (.create false (fun _ => []) ⟨0, 0⟩)
        (.open .ok .ok .sync textA textA :: ([.append .ok (some textA)] ++ [.close none .ok])) =
          some pS ∧
      run (step utc) (.create true (fun _ => []) ⟨0, 0⟩)
        (.open .ok .ok .async textA textA ::
          ([.append .ok (some textA), .task .ok] ++ [.close none .ok])) = some pA ∧
      pS.files (ascii "a/a.mtlog") = pA.files (ascii "a/a.mtlog") := by
  have hempty : EmptyMapping (fun _ => []) (mmapFilePath textA.bytes textA.bytes) := by
    rw [EmptyMapping, resize, List.take_nil, List.nil_append, List.head?_replicate]; rfl
  refine sync_async_same_file hempty (fun op hop => ?_) (fun p hp => ?_) rfl FileEnv.succeeds_ok rfl
  · rw [List.mem_singleton] at hop
    subst hop
    exact ⟨by decide, FileEnv.succeeds_ok⟩
  · have hj : JustOpened utc p := ⟨_, _, _, _, _, ⟨_, _, _, .refl⟩, rfl, hp⟩
    obtain ⟨lb, h, h0⟩ := hj.session
    exact meets_append_task _ h h0 FileEnv.succeeds_ok

end MTAppenderFile.Loglib.Modes
