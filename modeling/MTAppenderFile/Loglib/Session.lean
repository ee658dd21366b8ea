import MTAppenderFile.Lib.Run
import MTAppenderFile.Loglib.Appender

/-! # What the operations do to an open appender

An appender is closed, or open with a good buffer of 150 KiB (`Closed`, `Opened`; `Live` leaves the
flag `sg_log_close` open, which `close` sets first). On an appender with a buffer every operation other
than `close` is summed up by its `Effect`: the buffer it leaves and the bytes it
adds to the log file; everything else about the session is as before. There is one such lemma for each
operation (`logThreadTask_effect` and so on), and later results use only these.

The log file with the bytes that its open `FILE` holds is a sink (`sink`). A write-back takes it to what
`writeBack` says: nothing is put in unless the file is open or can be opened and `ftell` succeeds (`Ready`), and
then what `fwrite` accepts; in async mode, or if the write fails, the sink is closed. -/

namespace MTAppenderFile.Loglib.Session

open MTAppenderFile.Lib.Block
open MTAppenderFile.Lib.Buffered
open MTAppenderFile.Lib.Run
open MTAppenderFile.Comm.CTypes
open MTAppenderFile.Comm.Auto
open MTAppenderFile.Comm.Ptr
open MTAppenderFile.Loglib.Base
open MTAppenderFile.Loglib.Buffer
open MTAppenderFile.Loglib.Files
open MTAppenderFile.Loglib.Formatter
open MTAppenderFile.Loglib.Appender

/-- The log file of the session. -/
def logPath (mlog : LogAppender) : Bytes := logfilePath mlog.sgLogdir mlog.sgLogfilename

/-- The content of the log file. -/
def logFile (p : Proc) : Bytes := p.files (logPath p.mlog)

/-- The bytes that the open `FILE` holds. -/
def held (mlog : LogAppender) : Bytes :=
  match mlog.sgLogfile with
  | some file => file.held
  | none => []

/-- The log file and its `FILE` as a sink. -/
def sink (p : Proc) : Sink Byte := ⟨logFile p, held p.mlog⟩

/-- The content of the buffer. -/
def buffered (p : Proc) : Bytes :=
  match p.mlog.sgLogBuff with
  | some lb => lb.content
  | none => []

/-- `GetData().Length()`. -/
def bufferLength (p : Proc) : ℕ :=
  match p.mlog.sgLogBuff with
  | some lb => lb.buff.length
  | none => 0

/-- An open `FILE` is the log file of the session, which has a directory. -/
def HandleOk (mlog : LogAppender) : Prop :=
  ∀ f, mlog.sgLogfile = some f → f.path = logPath mlog ∧ mlog.sgLogdir ≠ []

/-- A closed appender. -/
structure Closed (p : Proc) : Prop where
  flag : p.mlog.sgLogClose = true
  buff : p.mlog.sgLogBuff = none
  mmap : p.mlog.sgMmapFile = none
  file : p.mlog.sgLogfile = none
  block : p.mlog.sgBufferblockLength = 0 ∨ p.mlog.sgBufferblockLength = kBufferBlockLength

/-- An appender with the buffer `lb`. -/
structure Live (p : Proc) (lb : LogBuffer) : Prop where
  buff : p.mlog.sgLogBuff = some lb
  good : lb.Good
  cap : lb.buff.maxLength = 150 * 1024
  block : p.mlog.sgBufferblockLength = kBufferBlockLength
  mmap : ∃ mt, p.mlog.sgMmapFile = some mt ∧
    (mt.isOpen → mt.mmapFd = some (mmapFilePath p.mlog.sgLogdir p.mlog.sgLogfilename))
  handle : HandleOk p.mlog

/-- **An open appender** with the buffer `lb`. -/
structure Opened (p : Proc) (lb : LogBuffer) : Prop extends Live p lb where
  flag : p.mlog.sgLogClose = false

/-- **The effect of an operation on a session**: it leaves the buffer `lb`, and the log file with its `FILE`
as `s`. -/
structure Effect (p p' : Proc) (lb : LogBuffer) (s : Sink Byte) : Prop where
  live : Live p' lb
  flag : p'.mlog.sgLogClose = p.mlog.sgLogClose
  dir : p'.mlog.sgLogdir = p.mlog.sgLogdir
  name : p'.mlog.sgLogfilename = p.mlog.sgLogfilename
  mode : p'.mlog.sgMode = p.mlog.sgMode
  thread : p'.mlog.sgThreadAsync = p.mlog.sgThreadAsync
  mmapFile : p'.mlog.sgMmapFile = p.mlog.sgMmapFile
  files : p'.files = Function.update p.files (logPath p.mlog) s.out
  held : held p'.mlog = s.held

theorem Effect.path {p p' : Proc} {lb : LogBuffer} {s : Sink Byte} (h : Effect p p' lb s) :
    logPath p'.mlog = logPath p.mlog := by rw [logPath, h.dir, h.name]; rfl

/-- Two states of one session. -/
structure SameSession (p p' : Proc) : Prop where
  dir : p'.mlog.sgLogdir = p.mlog.sgLogdir
  name : p'.mlog.sgLogfilename = p.mlog.sgLogfilename
  thread : p'.mlog.sgThreadAsync = p.mlog.sgThreadAsync

theorem SameSession.refl (p : Proc) : SameSession p p := ⟨rfl, rfl, rfl⟩

theorem SameSession.next {p p₁ p₂ : Proc} {lb : LogBuffer} {s : Sink Byte} (h : SameSession p p₁)
    (he : Effect p₁ p₂ lb s) : SameSession p p₂ :=
  ⟨he.dir.trans h.dir, he.name.trans h.name, he.thread.trans h.thread⟩

theorem Effect.logFile {p p' : Proc} {lb : LogBuffer} {s : Sink Byte} (h : Effect p p' lb s) :
    logFile p' = s.out := by
  rw [Session.logFile, h.path, h.files, Function.update_self]

theorem Effect.sink {p p' : Proc} {lb : LogBuffer} {s : Sink Byte} (h : Effect p p' lb s) : sink p' = s := by
  rw [Session.sink, h.logFile, h.held]

theorem Effect.opened {p p' : Proc} {lb : LogBuffer} {s : Sink Byte} (h : Effect p p' lb s)
    (hf : p.mlog.sgLogClose = false) : Opened p' lb := ⟨h.live, h.flag.trans hf⟩

theorem Opened.setmode {p : Proc} {lb : LogBuffer} (h : Opened p lb) (mode : AppendMode) :
    Opened (logAppenderSetmode mode p) lb :=
  ⟨⟨h.buff, h.good, h.cap, h.block, h.mmap, h.handle⟩, h.flag⟩

theorem update_logFile (p : Proc) : Function.update p.files (logPath p.mlog) (sink p).out = p.files :=
  Function.update_eq_self ..

theorem Live.effect_refl {p : Proc} {lb : LogBuffer} (h : Live p lb) : Effect p p lb (sink p) :=
  ⟨h, rfl, rfl, rfl, rfl, rfl, rfl, (update_logFile p).symm, rfl⟩

theorem Live.buffered {p : Proc} {lb : LogBuffer} (h : Live p lb) : buffered p = lb.content := by
  rw [Session.buffered, h.buff]

theorem Live.bufferLength {p : Proc} {lb : LogBuffer} (h : Live p lb) :
    bufferLength p = lb.buff.length := by rw [Session.bufferLength, h.buff]

theorem Live.block_eq {p : Proc} {lb : LogBuffer} (h : Live p lb) : p.block = lb.buff.parray := by
  rw [Proc.block, h.buff]

theorem Live.length_le {p : Proc} {lb : LogBuffer} (h : Live p lb) :
    lb.buff.length ≤ 150 * 1024 := by rw [← h.cap]; exact h.good.le

/-! ### Writing back -/

/-- The log file is open, and `__openlogfile` keeps it. -/
def Kept (lc : Libc) (env : FileEnv) (mlog : LogAppender) : Prop :=
  mlog.sgLogfile.isSome = true ∧ sameDay lc env mlog mlog.sgLogdir = true

instance (lc : Libc) (env : FileEnv) (mlog : LogAppender) : Decidable (Kept lc env mlog) :=
  inferInstanceAs (Decidable (_ ∧ _))

/-- The log file is open or can be opened, and `ftell` succeeds. -/
def Ready (lc : Libc) (env : FileEnv) (mlog : LogAppender) : Prop :=
  mlog.sgLogdir ≠ [] ∧ (Kept lc env mlog ∨ env.fopenOk = true) ∧ env.ftellOk = true

instance (lc : Libc) (env : FileEnv) (mlog : LogAppender) : Decidable (Ready lc env mlog) :=
  inferInstanceAs (Decidable (_ ∧ _ ∧ _))

/-- What `__writefile` and the `__closelogfile` behind it do to the log file. -/
def writeOut (env : FileEnv) (mode : AppendMode) (data : Bytes) (s : Sink Byte) : Sink Byte :=
  let s := if env.ftellOk = true then s.put (fwrite env data).1 env.handed else s
  if mode = .async ∨ ¬ (env.ftellOk = true ∧ env.fwriteStored = none) then s.close env.fcloseStored else s

/-- **What a write-back of `data` does to the log file.** -/
def writeBack (lc : Libc) (env : FileEnv) (mlog : LogAppender) (data : Bytes) (s : Sink Byte) : Sink Byte :=
  if data = [] ∨ mlog.sgLogdir = [] then s
  else
    let s := if Kept lc env mlog then s else s.close env.fcloseOld
    if Kept lc env mlog ∨ env.fopenOk = true then writeOut env mlog.sgMode data s else s

@[simp] theorem fwrite_nil (env : FileEnv) : (fwrite env []).1 = [] := by
  unfold fwrite; split <;> simp

theorem writeOut_nil {s : Sink Byte} (h : s.held = []) (env : FileEnv) (mode : AppendMode) :
    writeOut env mode [] s = s := by
  have hput : s.put [] env.handed = s := by
    refine Sink.ext ?_ ?_ <;> simp [Sink.put, h]
  simp only [writeOut, fwrite_nil, hput, ite_self, Sink.close_of_held _ h]

theorem held_writeOut {env : FileEnv} {mode : AppendMode}
    (h : mode = .async ∨ ¬ (env.ftellOk = true ∧ env.fwriteStored = none)) (data : Bytes) (s : Sink Byte) :
    (writeOut env mode data s).held = [] := congrArg Sink.held (if_pos h)

@[simp] theorem writeBack_nil (lc : Libc) (env : FileEnv) (mlog : LogAppender) (s : Sink Byte) :
    writeBack lc env mlog [] s = s := if_pos (.inl rfl)

theorem writeBack_of_dir_nil {lc : Libc} {env : FileEnv} {mlog : LogAppender} (h : mlog.sgLogdir = [])
    (data : Bytes) (s : Sink Byte) : writeBack lc env mlog data s = s := if_pos (.inr h)

/-- What lands in the log file of data that is written back without failures: all of it, or nothing if
the directory is empty. -/
def landed (mlog : LogAppender) (data : Bytes) : Bytes := if mlog.sgLogdir = [] then [] else data

@[simp] theorem landed_nil (mlog : LogAppender) : landed mlog [] = [] := by simp [landed]

theorem landed_append (mlog : LogAppender) (a b : Bytes) :
    landed mlog (a ++ b) = landed mlog a ++ landed mlog b := by
  unfold landed; split_ifs <;> simp

theorem landed_of_dir {mlog : LogAppender} (h : mlog.sgLogdir ≠ []) (data : Bytes) :
    landed mlog data = data := if_neg h

theorem SameSession.landed {p p' : Proc} (h : SameSession p p') (data : Bytes) :
    Session.landed p'.mlog data = Session.landed p.mlog data := by
  rw [Session.landed, Session.landed, h.dir]

theorem all_writeBack {env : FileEnv} (he : env.Succeeds) (lc : Libc) (mlog : LogAppender) (data : Bytes)
    (s : Sink Byte) : (writeBack lc env mlog data s).all = s.all ++ landed mlog data := by
  obtain ⟨ho, ht, hw, hold, hc⟩ := he
  have hwrite : (fwrite env data).1 = data := by rw [fwrite, hw]
  rw [writeBack]
  split_ifs with hn hk hopen hopen
  · rcases hn with rfl | hd
    · rw [landed_nil, List.append_nil]
    · rw [landed, if_pos hd, List.append_nil]
  · rw [landed_of_dir fun hd => hn (.inr hd), writeOut, if_pos ht, hwrite]
    split_ifs
    · rw [hc, Sink.all_close, Sink.all_put]
    · rw [Sink.all_put]
  · exact absurd (.inl hk) hopen
  · rw [landed_of_dir fun hd => hn (.inr hd), writeOut, if_pos ht, hwrite, hold]
    split_ifs
    · rw [hc, Sink.all_close, Sink.all_put, Sink.all_close]
    · rw [Sink.all_put, Sink.all_close]
  · exact absurd (.inr ho) hopen

theorem held_writeBack {mlog : LogAppender} (hm : mlog.sgMode = .async) (lc : Libc) (env : FileEnv) (data : Bytes)
    {s : Sink Byte} (h : s.held = [] ∨ data ≠ [] ∧ mlog.sgLogdir ≠ []) :
    (writeBack lc env mlog data s).held = [] := by
  rw [writeBack]
  split_ifs with hn hk hopen hopen
  · rcases h with h | ⟨hne, hd⟩
    · exact h
    · exact absurd hn (not_or.mpr ⟨hne, hd⟩)
  · exact held_writeOut (.inl hm) data s
  · exact absurd (.inl hk) hopen
  · exact held_writeOut (.inl hm) data _
  · rfl

/-- How many bytes are left in the `FILE` when every call succeeds: none in async mode; in sync mode all but those
that `fwrite` hands over, and but for the `FILE` of another day, which is closed. -/
theorem length_held_writeBack {env : FileEnv} (he : env.Succeeds) (lc : Libc) {mlog : LogAppender} {data : Bytes}
    (hne : data ≠ []) (hd : mlog.sgLogdir ≠ []) (s : Sink Byte) :
    (writeBack lc env mlog data s).held.length = if mlog.sgMode = .async then 0 else
      (if Kept lc env mlog then s.held.length else 0) + data.length - env.handed := by
  obtain ⟨ho, ht, hw, hold, hc⟩ := he
  have hwrite : (fwrite env data).1 = data := by rw [fwrite, hw]
  have hput : ∀ s : Sink Byte, (writeOut env mlog.sgMode data s).held.length =
      if mlog.sgMode = .async then 0 else s.held.length + data.length - env.handed := by
    intro s
    by_cases hm : mlog.sgMode = .async
    · rw [if_pos hm, held_writeOut (.inl hm), List.length_nil]
    · simp [writeOut, ht, hw, hwrite, hm, Sink.put]
  rw [writeBack, if_neg (not_or.mpr ⟨hne, hd⟩), if_pos (.inr ho), hput]
  split_ifs <;> rfl

/-- **Only the log file has changed**, and is now as `s`. -/
structure Refiled (p p' : Proc) (s : Sink Byte) : Prop where
  eq : ∃ f t d, p' = { p with
    mlog := { p.mlog with sgLogfile := f, sgOpenfiletime := t, sgCurrentDir := d }
    files := Function.update p.files (logPath p.mlog) s.out }
  handle : HandleOk p'.mlog
  held : held p'.mlog = s.held

theorem Refiled.path {p p' : Proc} {s : Sink Byte} (h : Refiled p p' s) : logPath p'.mlog = logPath p.mlog := by
  obtain ⟨f, t, d, rfl⟩ := h.eq
  rfl

theorem Refiled.sink {p p' : Proc} {s : Sink Byte} (h : Refiled p p' s) : sink p' = s := by
  have hfile : logFile p' = s.out := by
    rw [logFile, h.path]
    obtain ⟨f, t, d, rfl⟩ := h.eq
    exact Function.update_self ..
  rw [Session.sink, hfile, h.held]

theorem refiled_refl {p : Proc} (h : HandleOk p.mlog) : Refiled p p (sink p) :=
  ⟨⟨p.mlog.sgLogfile, p.mlog.sgOpenfiletime, p.mlog.sgCurrentDir, by rw [update_logFile]⟩, h, rfl⟩

theorem Refiled.trans {p p₁ p₂ : Proc} {s₁ s₂ : Sink Byte} (h₁ : Refiled p p₁ s₁) (h₂ : Refiled p₁ p₂ s₂) :
    Refiled p p₂ s₂ := by
  refine ⟨?_, h₂.handle, h₂.held⟩
  obtain ⟨f₂, t₂, d₂, he₂⟩ := h₂.eq
  rw [h₁.path] at he₂
  obtain ⟨f₁, t₁, d₁, rfl⟩ := h₁.eq
  exact ⟨f₂, t₂, d₂, by rw [he₂]; simp only [Function.update_idem]⟩

theorem closelogfile_eq (env : FileEnv) (p : Proc) :
    ∃ t files, closelogfile env p =
      { p with mlog := { p.mlog with sgLogfile := none, sgOpenfiletime := t }, files := files } := by
  rw [closelogfile]
  cases hf : p.mlog.sgLogfile with
  | none =>
    refine ⟨p.mlog.sgOpenfiletime, p.files, ?_⟩
    obtain ⟨mlog, files, statics⟩ := p
    obtain ⟨_, _, _, _, _, _, file, _, _, _, _⟩ := mlog
    cases hf
    rfl
  | some file => exact ⟨0, _, rfl⟩

@[simp] theorem closelogfile_sgLogfile (env : FileEnv) (p : Proc) :
    (closelogfile env p).mlog.sgLogfile = none := by
  obtain ⟨t, files, h⟩ := closelogfile_eq env p
  rw [h]

@[simp] theorem closelogfile_sgMode (env : FileEnv) (p : Proc) :
    (closelogfile env p).mlog.sgMode = p.mlog.sgMode := by
  obtain ⟨t, files, h⟩ := closelogfile_eq env p
  rw [h]

/-- **`__closelogfile`** closes the sink. -/
theorem closelogfile_refiled {p : Proc} (h : HandleOk p.mlog) (env : FileEnv) :
    Refiled p (closelogfile env p) ((sink p).close env.fcloseStored) := by
  rw [closelogfile]
  cases hf : p.mlog.sgLogfile with
  | none =>
    have hheld : (sink p).held = [] := by
      rw [Session.sink, Session.held, hf]
    rw [Sink.close_of_held _ hheld]
    exact refiled_refl h
  | some file =>
    have hheld : (sink p).held = file.held := by
      rw [Session.sink, Session.held, hf]
    refine ⟨⟨none, 0, p.mlog.sgCurrentDir, ?_⟩, fun f hf => absurd hf (by simp), rfl⟩
    simp only [fclose, File.sink, (h file hf).1, Sink.close, hheld]
    rfl

/-- **`__openlogfile`** keeps the sink, or closes it and opens the file again. -/
theorem openlogfile_refiled (lc : Libc) (env : FileEnv) {p : Proc} (h : HandleOk p.mlog)
    (hd : p.mlog.sgLogdir ≠ []) :
    Refiled p (openlogfile lc env p.mlog.sgLogdir p).2
        (if Kept lc env p.mlog then sink p else (sink p).close env.fcloseOld) ∧
      ((openlogfile lc env p.mlog.sgLogdir p).1 = true ↔ Kept lc env p.mlog ∨ env.fopenOk = true) ∧
      (openlogfile lc env p.mlog.sgLogdir p).1 = (openlogfile lc env p.mlog.sgLogdir p).2.mlog.sgLogfile.isSome := by
  rw [openlogfile, if_neg hd]
  by_cases hk : Kept lc env p.mlog
  · have hc : (p.mlog.sgLogfile.isSome && sameDay lc env p.mlog p.mlog.sgLogdir) = true :=
      Bool.and_eq_true_iff.mpr hk
    rw [if_pos hc, if_pos hk]
    exact ⟨refiled_refl h, by simp [hk], hk.1.symm⟩
  · have hc : ¬ (p.mlog.sgLogfile.isSome && sameDay lc env p.mlog p.mlog.sgLogdir) = true := fun hc =>
      hk (Bool.and_eq_true_iff.mp hc)
    rw [if_neg hc, if_neg hk]
    refine ⟨⟨⟨if env.fopenOk then some ⟨logPath p.mlog, []⟩ else none, env.now, p.mlog.sgLogdir, ?_⟩,
      fun f hf => ?_, ?_⟩, ?_, rfl⟩
    · cases hf : p.mlog.sgLogfile with
      | none =>
        have hheld : (sink p).held = [] := by
          rw [Session.sink, Session.held, hf]
        rw [Sink.close_of_held _ hheld, update_logFile]
        rfl
      | some file =>
        have hheld : (sink p).held = file.held := by
          rw [Session.sink, Session.held, hf]
        simp only [fclose, File.sink, (h file hf).1, Sink.close, hheld]
        rfl
    · dsimp only at hf
      split_ifs at hf
      cases hf
      exact ⟨rfl, hd⟩
    · cases hfo : env.fopenOk <;> rfl
    · cases hfo : env.fopenOk <;> simp [hk]

/-- `__writefile` on the file of the appender. -/
def writelogfile (env : FileEnv) (data : Bytes) (p : Proc) : Bool × Proc :=
  let (ok, file, files) := writefile env data p.mlog.sgLogfile p.files
  (ok, { p with mlog := { p.mlog with sgLogfile := file }, files := files })

/-- `__log2file` closes the file in async mode, or if the write failed. -/
theorem log2fileLocked_eq (lc : Libc) (env : FileEnv) (data : Bytes) (p : Proc) :
    log2fileLocked lc env data p =
      if (openlogfile lc env p.mlog.sgLogdir p).1 = true then
        let q := (openlogfile lc env p.mlog.sgLogdir p).2
        if q.mlog.sgMode = .async ∨ ¬ (writelogfile env data q).1 = true then
          closelogfile env (writelogfile env data q).2
        else (writelogfile env data q).2
      else (openlogfile lc env p.mlog.sgLogdir p).2 := by
  rw [log2fileLocked]
  generalize openlogfile lc env p.mlog.sgLogdir p = r
  obtain ⟨ok, q⟩ := r
  cases ok with
  | false => rfl
  | true =>
    cases hm : q.mlog.sgMode <;> simp [hm, writelogfile]

theorem statics_log2fileLocked (lc : Libc) (env : FileEnv) (data : Bytes) (p : Proc) :
    (log2fileLocked lc env data p).statics = p.statics := by
  have hopen : (openlogfile lc env p.mlog.sgLogdir p).2.statics = p.statics := by
    unfold openlogfile
    split_ifs <;> rfl
  have hclose : ∀ p, (closelogfile env p).statics = p.statics := by
    intro p
    obtain ⟨t, files, hc⟩ := closelogfile_eq env p
    rw [hc]
  rw [log2fileLocked_eq]
  dsimp only
  split_ifs
  · exact (hclose _).trans hopen
  · exact hopen
  · exact hopen

theorem writelogfile_refiled (env : FileEnv) (data : Bytes) {p : Proc} (h : HandleOk p.mlog)
    (hopen : p.mlog.sgLogfile.isSome = true) :
    Refiled p (writelogfile env data p).2
      (if env.ftellOk = true then (sink p).put (fwrite env data).1 env.handed else sink p) := by
  obtain ⟨file, hf⟩ := Option.isSome_iff_exists.mp hopen
  have hsink : file.sink p.files = sink p := by
    rw [File.sink, Session.sink, Session.held, hf, (h file hf).1]
    rfl
  rw [writelogfile, hf, writefile]
  split_ifs with ht
  · refine ⟨⟨some ⟨file.path, ((sink p).put (fwrite env data).1 env.handed).held⟩, p.mlog.sgOpenfiletime,
      p.mlog.sgCurrentDir, ?_⟩, fun f hf' => ?_, ?_⟩
    · rw [hsink, (h file hf).1]
    · cases hf'
      exact h file hf
    · rw [hsink]
      rfl
  · refine ⟨⟨some file, p.mlog.sgOpenfiletime, p.mlog.sgCurrentDir, ?_⟩, fun f hf' => ?_, ?_⟩
    · rw [update_logFile]
    · cases hf'
      exact h file hf
    · show held { p.mlog with sgLogfile := some file } = held p.mlog
      rw [Session.held, Session.held, hf]

theorem writelogfile_fst (env : FileEnv) {data : Bytes} (hne : data ≠ []) {p : Proc}
    (hopen : p.mlog.sgLogfile.isSome = true) :
    (writelogfile env data p).1 = true ↔ env.ftellOk = true ∧ env.fwriteStored = none := by
  obtain ⟨file, hf⟩ := Option.isSome_iff_exists.mp hopen
  rw [writelogfile, hf, writefile]
  split_ifs with ht
  · cases hw : env.fwriteStored <;> simp [fwrite, hw, ht, hne]
  · simp [ht]

/-- **`__log2file`** writes back, and otherwise changes only the fields of the log file. -/
theorem log2file_refiled (lc : Libc) (env : FileEnv) (data : Bytes) {p : Proc} (h : HandleOk p.mlog) :
    Refiled p (log2file lc env data p) (writeBack lc env p.mlog data (sink p)) := by
  by_cases hg : data = [] ∨ p.mlog.sgLogdir = []
  · rw [log2file, writeBack, if_pos hg, if_pos hg]
    exact refiled_refl h
  rw [log2file, writeBack, if_neg hg, if_neg hg, log2fileLocked_eq]
  obtain ⟨hne, hd⟩ := not_or.mp hg
  obtain ⟨ho, hiff, hsome⟩ := openlogfile_refiled lc env h hd
  generalize openlogfile lc env p.mlog.sgLogdir p = r at ho hiff hsome
  obtain ⟨ok, q⟩ := r
  simp only at ho hiff hsome
  have hmode : q.mlog.sgMode = p.mlog.sgMode := by
    obtain ⟨f, t, d, rfl⟩ := ho.eq
    rfl
  generalize (if Kept lc env p.mlog then sink p else (sink p).close env.fcloseOld) = s at ho
  cases ok with
  | false =>
    rw [if_neg Bool.false_ne_true, if_neg fun hc => Bool.false_ne_true (hiff.mpr hc)]
    exact ho
  | true =>
    have hw := writelogfile_refiled env data ho.handle hsome.symm
    have hfst := writelogfile_fst env hne hsome.symm
    have hclose := closelogfile_refiled hw.handle env
    rw [hw.sink] at hclose
    rw [ho.sink] at hw hclose
    rw [if_pos rfl, if_pos (hiff.mp rfl), writeOut]
    simp only [hmode, hfst]
    split_ifs at hw hclose ⊢
    · exact ho.trans (hw.trans hclose)
    · exact ho.trans (hw.trans hclose)
    · exact ho.trans hw
    · exact ho.trans hw

theorem log2file_effect {lc : Libc} {env : FileEnv} {p : Proc} {lb : LogBuffer} (h : Live p lb)
    (data : Bytes) : Effect p (log2file lc env data p) lb (writeBack lc env p.mlog data (sink p)) := by
  have hr := log2file_refiled lc env data h.handle
  have hh := hr.handle
  have hheld := hr.held
  obtain ⟨f, t, d, he⟩ := hr.eq
  rw [he] at hh hheld ⊢
  exact ⟨⟨h.buff, h.good, h.cap, h.block, h.mmap, hh⟩, rfl, rfl, rfl, rfl, rfl, rfl, rfl, hheld⟩

theorem Live.effect_buff {p : Proc} {lb lb' : LogBuffer} (h : Live p lb) (hg : lb'.Good)
    (hc : lb'.buff.maxLength = lb.buff.maxLength) :
    Effect p { p with mlog := { p.mlog with sgLogBuff := some lb' } } lb' (sink p) :=
  ⟨⟨rfl, hg, hc.trans h.cap, h.block, h.mmap, h.handle⟩, rfl, rfl, rfl, rfl, rfl, rfl,
    (update_logFile p).symm, rfl⟩

theorem Effect.trans {p p₁ p₂ : Proc} {lb₁ lb₂ : LogBuffer} {s₁ s₂ : Sink Byte}
    (h₁ : Effect p p₁ lb₁ s₁) (h₂ : Effect p₁ p₂ lb₂ s₂) : Effect p p₂ lb₂ s₂ :=
  ⟨h₂.live, h₂.flag.trans h₁.flag, h₂.dir.trans h₁.dir, h₂.name.trans h₁.name, h₂.mode.trans h₁.mode,
    h₂.thread.trans h₁.thread, h₂.mmapFile.trans h₁.mmapFile, by
      rw [h₂.files, h₁.path, h₁.files, Function.update_idem], h₂.held⟩

/-! ### Flushing -/

theorem flushLogBuff_eq {p : Proc} {lb : LogBuffer} (h : Live p lb) :
    ∃ tmp, flushLogBuff p.mlog = some ({ p.mlog with sgLogBuff := some lb.clear }, tmp) ∧
      tmp.ptrBytes = if lb.content = [] then none else some lb.content := by
  obtain ⟨tmp, hf, ht⟩ := LogBuffer.flush_eq h.good.toWF 128 (by decide) (by decide)
  simp only [h.good.shortcut_iff] at ht
  refine ⟨tmp, ?_, ht⟩
  simp only [flushLogBuff, h.buff, hf, Option.bind_eq_bind, Option.bind_some]

theorem log2fileTmp_effect {p : Proc} {lb : LogBuffer} (h : Live p lb) (lc : Libc) (env : FileEnv)
    {tmp : AutoBuffer} {c : Prop} [Decidable c] {data : Bytes}
    (ht : tmp.ptrBytes = if c then none else some data) :
    Effect p (log2fileTmp lc env tmp p) lb (writeBack lc env p.mlog (if c then [] else data) (sink p)) := by
  rw [log2fileTmp, ht]
  split_ifs
  · rw [writeBack_nil]; exact h.effect_refl
  · exact log2file_effect h data

/-- **A flush task** clears the buffer, then writes its content back. -/
theorem logThreadTask_effect {p : Proc} {lb : LogBuffer} (h : Live p lb) (lc : Libc)
    (env : FileEnv) :
    ∃ p', logThreadTask lc env p = some p' ∧
      Effect p p' lb.clear (writeBack lc env p.mlog lb.content (sink p)) := by
  obtain ⟨tmp, hf, ht⟩ := flushLogBuff_eq h
  have hclear := h.effect_buff (LogBuffer.good_clear h.good.toWF h.good.four)
    (LogBuffer.maxLength_clear lb)
  have hc : (if lb.content = [] then [] else lb.content) = lb.content := by split_ifs <;> simp [*]
  have hw := log2fileTmp_effect hclear.live lc env ht
  rw [hc] at hw
  exact ⟨_, by simp only [logThreadTask, hf, Option.bind_eq_bind, Option.bind_some],
    hclear.trans hw⟩

/-- **`flush_sync`** is a flush task in async mode and does nothing in sync mode. -/
theorem logAppenderFlushSync_eq (lc : Libc) (env : FileEnv) (p : Proc) :
    logAppenderFlushSync lc env p =
      if p.mlog.sgMode = .sync then some p else logThreadTask lc env p := rfl

/-! ### Appending -/

/-- The record the formatter prints. -/
def Printed (lc : Libc) (st : FormatStatics) (info : Option LogInfo) (log : Option CStr)
    (data : Bytes) : Prop :=
  ∃ logBuff, logFormater lc st info log temp = some (st, logBuff) ∧ IsRecord logBuff ∧
    logBuff.content = data

theorem printed_none (lc : Libc) (st : FormatStatics) {body : CStr} (hne : body.bytes ≠ []) :
    Printed lc st none (some body) (formatRecord body.bytes) := by
  obtain ⟨logBuff, hf, -, -, hc⟩ := logFormater_none lc st hne
  exact ⟨logBuff, hf, (logFormater_temp hf).2, hc⟩

theorem exists_printed {lc : Libc} {st : FormatStatics} {info : Option LogInfo} {log : Option CStr}
    {r : FormatStatics × PtrBuffer} (h : logFormater lc st info log temp = some r) :
    ∃ data, Printed lc st info log data := by
  obtain ⟨st', logBuff⟩ := r
  obtain ⟨rfl, hr⟩ := logFormater_temp h
  exact ⟨_, logBuff, h, hr, rfl⟩

theorem readBlock_content {b : PtrBuffer} (h : b.WF) : readBlock b.parray b.length = some b.content :=
  readBlock_of_le (by rw [h.mem]; exact h.le)

theorem appenderSyncBuffer_eq {lc : Libc} {st : FormatStatics} {info : Option LogInfo}
    {log : Option CStr} {data : Bytes} (h : Printed lc st info log data) :
    appenderSyncBuffer lc st info log = some (st, some data) := by
  obtain ⟨logBuff, hf, hr, rfl⟩ := h
  have hl := hr.length_content_le
  have hcrypt : (List.replicate (16 * 1024) (0 : Byte)).length = 16 * 1024 := List.length_replicate
  unfold appenderSyncBuffer
  generalize List.replicate (16 * 1024) (0 : Byte) = bufferCrypt at hcrypt ⊢
  have hread : readBlock (overwrite bufferCrypt 0 logBuff.content) logBuff.content.length =
      some logBuff.content := by
    rw [readBlock_of_le (by rw [length_overwrite (by omega)]; omega)]
    simpa using take_overwrite (m := bufferCrypt) (p := 0) (l := logBuff.content) (Nat.zero_le _)
  have hle : logBuff.content.length ≤ bufferCrypt.length := by omega
  simp only [hf, Option.bind_eq_bind, Option.bind_some, readBlock_content hr.toWF,
    LogBuffer.writeOut, if_neg hr.content_ne_nil, if_pos hle, if_true, hread]

theorem printed_of_appenderSyncBuffer {lc : Libc} {st : FormatStatics} {info : Option LogInfo}
    {log : Option CStr} {r : FormatStatics × Option Bytes}
    (h : appenderSyncBuffer lc st info log = some r) :
    ∃ data, Printed lc st info log data ∧ r = (st, some data) := by
  obtain ⟨_, hf, -⟩ := Option.bind_eq_some_iff.mp h
  obtain ⟨data, hp⟩ := exists_printed hf
  exact ⟨data, hp, Option.some_inj.mp (h.symm.trans (appenderSyncBuffer_eq hp))⟩

theorem appenderSync_eq {lc : Libc} {env : FileEnv} {info : Option LogInfo} {log : Option CStr}
    {p : Proc} {data : Bytes} (h : Printed lc p.statics info log data) :
    appenderSync lc env info log p = some (log2file lc env data p) := by
  rw [appenderSync, appenderSyncBuffer_eq h]
  rfl

/-- The line that takes the place of a dropped record is a record, too. -/
theorem isRecord_overloadLine {logBuff : PtrBuffer} (h : IsRecord logBuff) (len : ℕ) :
    IsRecord (overloadLine logBuff len) := by
  have hb : (ascii "[F][ sg_buffer_async.Length() >= BUFFER_BLOCK_LENTH*4/5, len: ").head? = some 0x5B := by
    decide +kernel
  obtain ⟨text, hb⟩ := List.head?_eq_some_iff.mp hb
  have hc : (0x5B : Byte) ≠ 0 := by decide
  rw [overloadLine, hb, List.cons_append, List.cons_append]
  obtain ⟨hl, h0, hf⟩ := lead_snprintf (h.mem.trans h.cap) h.cap (16 * 1024) (by decide) hc
    (text ++ decimal (int32 len) ++ ascii "\n")
  exact ⟨hl.toWF, hl.cap, h0, _, hc, hf⟩

theorem overloadLength_eq {mlog : LogAppender} (h : mlog.sgBufferblockLength = kBufferBlockLength) :
    overloadLength mlog = 122880 := by rw [overloadLength, h]; decide

/-- The line that `__appender_async` puts in a buffer of the length `len`: the record, below 4/5 of the
block. -/
def entryOf (logBuff : PtrBuffer) (len : ℕ) : PtrBuffer :=
  if len ≥ 122880 then overloadLine logBuff len else logBuff

theorem isRecord_entryOf {logBuff : PtrBuffer} (h : IsRecord logBuff) (len : ℕ) :
    IsRecord (entryOf logBuff len) := by
  unfold entryOf
  split_ifs
  · exact isRecord_overloadLine h len
  · exact h

theorem appenderAsync_eq {lc : Libc} {info : Option LogInfo} {log : Option CStr} {p : Proc}
    {lb : LogBuffer} (h : Live p lb) {logBuff : PtrBuffer}
    (hf : logFormater lc p.statics info log temp = some (p.statics, logBuff))
    (hr : IsRecord logBuff) :
    appenderAsync lc info log p = some { p with
      mlog := { p.mlog with
        sgLogBuff := some (lb.write (entryOf logBuff lb.buff.length).content).2 } } := by
  have hent := isRecord_entryOf hr lb.buff.length
  have he : (if lb.buff.length ≥ overloadLength p.mlog then overloadLine logBuff lb.buff.length
      else logBuff) = entryOf logBuff lb.buff.length := by rw [overloadLength_eq h.block]; rfl
  have hl32 : uint32 (entryOf logBuff lb.buff.length).length =
      (entryOf logBuff lb.buff.length).length := by
    have := hent.maxLt
    have := hent.le
    rw [uint32_of_lt (by omega) (by omega), Int.toNat_natCast]
  simp only [appenderAsync, h.buff, hf, Option.bind_eq_bind, Option.bind_some, he, hl32,
    readBlock_content hent.toWF]

/-- **`__appender_async`** writes an entry to the buffer: the record, below 4/5 of the block. -/
theorem appenderAsync_effect {lc : Libc} {info : Option LogInfo} {log : Option CStr} {p : Proc}
    {lb : LogBuffer} (h : Live p lb) {data : Bytes} (hp : Printed lc p.statics info log data) :
    ∃ p' entry, appenderAsync lc info log p = some p' ∧ Effect p p' (lb.write entry).2 (sink p) ∧
      p'.statics = p.statics ∧ entry ≠ [] ∧ entry.head? ≠ some 0 ∧ entry.length ≤ 16 * 1024 ∧
      (lb.buff.length < 122880 → entry = data) := by
  obtain ⟨logBuff, hf, hr, rfl⟩ := hp
  have hent := isRecord_entryOf hr lb.buff.length
  have hle := h.length_le
  have hlc := hent.length_content_le
  have hd : lb.buff.length + (entryOf logBuff lb.buff.length).content.length < 2 ^ 32 := by omega
  refine ⟨_, _, appenderAsync_eq h hf hr, ?_, rfl, hent.content_ne_nil, hent.head?_content, hlc,
    fun hlt => ?_⟩
  · exact h.effect_buff (h.good.write hent.content_ne_nil hd hent.head?_content)
      (h.good.maxLength_write hent.content_ne_nil hd)
  · rw [entryOf, if_neg (by omega)]

theorem logAppenderAppendEx_printed {lc : Libc} {env : FileEnv} {log : Option CStr}
    {info : Option LogInfo} {p p' : Proc} {lb : LogBuffer} (h : Opened p lb)
    (hs : logAppenderAppendEx lc env log info p = some p') :
    ∃ data, Printed lc p.statics info log data := by
  rw [logAppenderAppendEx, if_neg (by simp [h.flag])] at hs
  split_ifs at hs
  · obtain ⟨r, hf, -⟩ := Option.bind_eq_some_iff.mp hs
    obtain ⟨data, hp, -⟩ := printed_of_appenderSyncBuffer hf
    exact ⟨data, hp⟩
  · rw [appenderAsync, h.buff] at hs
    obtain ⟨r, hf, -⟩ := Option.bind_eq_some_iff.mp hs
    exact exists_printed hf

/-- **An append in sync mode** writes the record back. -/
theorem appendEx_sync_effect {lc : Libc} (env : FileEnv) {log : Option CStr} {info : Option LogInfo}
    {p : Proc} {lb : LogBuffer} (h : Opened p lb) (hm : p.mlog.sgMode = .sync) {data : Bytes}
    (hp : Printed lc p.statics info log data) :
    ∃ p', logAppenderAppendEx lc env log info p = some p' ∧
      Effect p p' lb (writeBack lc env p.mlog data (sink p)) := by
  rw [logAppenderAppendEx, if_neg (by simp [h.flag]), if_pos hm, appenderSync_eq hp]
  exact ⟨_, rfl, log2file_effect h.toLive data⟩

/-- **An append in async mode** writes an entry to the buffer. -/
theorem appendEx_async_effect {lc : Libc} (env : FileEnv) {log : Option CStr} {info : Option LogInfo}
    {p : Proc} {lb : LogBuffer} (h : Opened p lb) (hm : p.mlog.sgMode = .async) {data : Bytes}
    (hp : Printed lc p.statics info log data) :
    ∃ p' entry, logAppenderAppendEx lc env log info p = some p' ∧
      Effect p p' (lb.write entry).2 (sink p) ∧ entry ≠ [] ∧ entry.head? ≠ some 0 ∧
      entry.length ≤ 16 * 1024 ∧ (lb.buff.length < 122880 → entry = data) := by
  obtain ⟨p', entry, hs, he, -, hne, h0, hl, hlt⟩ := appenderAsync_effect h.toLive hp
  rw [logAppenderAppendEx, if_neg (by simp [h.flag]), if_neg (by simp [hm])]
  exact ⟨p', entry, hs, he, hne, h0, hl, hlt⟩

end MTAppenderFile.Loglib.Session
