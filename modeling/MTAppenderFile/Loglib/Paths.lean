import MTAppenderFile.Loglib.Lifecycle

/-! # The paths of the two files

Each appender has two files with the same name and different extensions, the mapped one and the log file. `open`
puts the path of the first one together in 512 bytes, and `__openlogfile` that of the second one in 1024 bytes. What
is longer is cut without a word, from the extension on.

Several appenders share the disk here (`Appenders`), and each operation on one of them runs as a whole. The paths
are the whole ones, and two appenders with different names have nothing in common, exactly if no path is longer
than what holds it (`same_stem_iff`). -/

namespace MTAppenderFile.Loglib.Paths

open MTAppenderFile.Lib.Buffered
open MTAppenderFile.Lib.Run
open MTAppenderFile.Comm.CTypes
open MTAppenderFile.Loglib.Base
open MTAppenderFile.Loglib.Buffer
open MTAppenderFile.Loglib.Files
open MTAppenderFile.Loglib.Formatter
open MTAppenderFile.Loglib.Appender
open MTAppenderFile.Loglib.Session
open MTAppenderFile.Loglib.Lifecycle

/-- The path of both files, up to the extension. -/
def stem (mlog : LogAppender) : Bytes := mlog.sgLogdir ++ ascii "/" ++ mlog.sgLogfilename

/-- The mapping of the appender is the file `path`. -/
def Maps (mlog : LogAppender) (path : Bytes) : Prop :=
  ∃ mt, mlog.sgMmapFile = some mt ∧ mt.isOpen = true ∧ mt.mmapFd = some path

/-- A write-back of the appender goes to the file `path`, under some circumstances. -/
def WritesTo (lc : Libc) (mlog : LogAppender) (path : Bytes) : Prop :=
  ∃ env files statics file, (openlogfile lc env mlog.sgLogdir ⟨mlog, files, statics⟩).1 = true ∧
    (openlogfile lc env mlog.sgLogdir ⟨mlog, files, statics⟩).2.mlog.sgLogfile = some file ∧ file.path = path

/-- **The two files have the whole path**, each with its extension. -/
structure WholePaths (lc : Libc) (mlog : LogAppender) : Prop where
  mapped : ∀ path, Maps mlog path → path = stem mlog ++ ascii ".mmap2"
  log : ∀ path, WritesTo lc mlog path → path = stem mlog ++ ascii ".mtlog"

/-- The paths fit, as far as they are used: the mapped one in 512 bytes with its NUL, and that of the log file in
1024; without a directory nothing is written. -/
structure Fits (mlog : LogAppender) : Prop where
  mapped : (∃ path, Maps mlog path) → mlog.sgLogdir.length + mlog.sgLogfilename.length + 7 < 512
  log : mlog.sgLogdir ≠ [] → mlog.sgLogdir.length + mlog.sgLogfilename.length + 7 < 1024

/-! ### One appender -/

section One

variable {p : Proc} {lb : LogBuffer} (h : Live p lb)

include h

theorem eq_of_maps {path : Bytes} (hm : Maps p.mlog path) :
    path = mmapFilePath p.mlog.sgLogdir p.mlog.sgLogfilename := by
  obtain ⟨mt, hmt, ho, hfd⟩ := hm
  obtain ⟨mt', hmt', hfd'⟩ := h.mmap
  cases hmt.symm.trans hmt'
  exact Option.some_inj.mp (hfd.symm.trans (hfd' ho))

theorem writesTo_iff {lc : Libc} {path : Bytes} :
    WritesTo lc p.mlog path ↔ p.mlog.sgLogdir ≠ [] ∧ path = logPath p.mlog := by
  constructor
  · rintro ⟨env, files, statics, file, ho, hf, rfl⟩
    have hd : p.mlog.sgLogdir ≠ [] := fun hd => by
      rw [openlogfile, if_pos hd] at ho
      cases ho
    obtain ⟨hr, -, -⟩ := openlogfile_refiled lc env (p := ⟨p.mlog, files, statics⟩) h.handle hd
    exact ⟨hd, (hr.handle file hf).1.trans hr.path⟩
  · rintro ⟨hd, rfl⟩
    obtain ⟨hr, hiff, hsome⟩ := openlogfile_refiled lc .ok h.handle hd
    have ho := hiff.mpr (.inr rfl)
    obtain ⟨file, hf⟩ := Option.isSome_iff_exists.mp (hsome.symm.trans ho)
    exact ⟨.ok, p.files, p.statics, file, ho, hf, (hr.handle file hf).1.trans hr.path⟩

end One

theorem take_stem_iff {m : LogAppender} {e : Bytes} (he : e.length = 6) (n : ℕ) :
    (stem m ++ e).take n = stem m ++ e ↔ m.sgLogdir.length + m.sgLogfilename.length + 7 ≤ n := by
  have hs : (ascii "/").length = 1 := rfl
  have hl : (stem m ++ e).length = m.sgLogdir.length + m.sgLogfilename.length + 7 := by
    rw [stem, List.length_append, List.length_append, List.length_append, he, hs]
    omega
  rw [← hl]
  refine ⟨fun h => ?_, List.take_of_length_le⟩
  rw [← h]
  exact List.length_take_le _ _

theorem logPath_eq (mlog : LogAppender) : logPath mlog = (stem mlog ++ ascii ".mtlog").take 1023 := by
  have hext : ascii "." ++ LOG_EXT = ascii ".mtlog" := rfl
  rw [logPath, logfilePath, makeLogfilename, List.append_assoc, hext]
  rfl

/-- **The paths are whole exactly if they fit.** -/
theorem wholePaths_iff {p : Proc} {lb : LogBuffer} (h : Live p lb) (lc : Libc) :
    WholePaths lc p.mlog ↔ Fits p.mlog := by
  have hm := take_stem_iff (m := p.mlog) (e := ascii ".mmap2") rfl 511
  have hl := take_stem_iff (m := p.mlog) (e := ascii ".mtlog") rfl 1023
  constructor
  · refine fun hw => ⟨fun ⟨path, hp⟩ => ?_, fun hd => ?_⟩
    · exact Nat.lt_succ_of_le (hm.mp ((eq_of_maps h hp).symm.trans (hw.mapped path hp)))
    · have he := hw.log _ ((writesTo_iff h).mpr ⟨hd, rfl⟩)
      rw [logPath_eq] at he
      exact Nat.lt_succ_of_le (hl.mp he)
  · refine fun hf => ⟨fun path hp => ?_, fun path hp => ?_⟩
    · exact (eq_of_maps h hp).trans (hm.mpr (Nat.le_of_lt_succ (hf.mapped ⟨path, hp⟩)))
    · obtain ⟨hd, rfl⟩ := (writesTo_iff h).mp hp
      exact (logPath_eq _).trans (hl.mpr (Nat.le_of_lt_succ (hf.log hd)))

theorem closeBack_of_dir_nil {lc : Libc} {worker : Option FileEnv} {env : FileEnv} {mlog : LogAppender}
    (h : mlog.sgLogdir = []) (data : Bytes) (s : Sink Byte) : closeBack lc worker env mlog data s = s := by
  unfold closeBack
  split
  exacts [writeBack_of_dir_nil h data s, rfl, writeBack_of_dir_nil h data s]

theorem changed_of_effect {p p' : Proc} {lb : LogBuffer} {s : Sink Byte} {path : Bytes} (he : Effect p p' lb s)
    (hw : p.mlog.sgLogdir = [] → s = sink p) (hne : p'.files path ≠ p.files path) :
    p'.mlog.sgLogdir ≠ [] ∧ path = logPath p'.mlog := by
  have hpath : path = logPath p.mlog := by
    by_contra hp
    rw [he.files, Function.update_of_ne hp] at hne
    exact hne rfl
  refine ⟨fun hd => hne ?_, hpath.trans he.path.symm⟩
  rw [he.files, hw (he.dir.symm.trans hd), update_logFile]

theorem changed_of_closelogfile {env : FileEnv} {p : Proc} (h : HandleOk p.mlog) {path : Bytes}
    (hne : (closelogfile env p).files path ≠ p.files path) : p.mlog.sgLogdir ≠ [] ∧ path = logPath p.mlog := by
  cases hf : p.mlog.sgLogfile with
  | none =>
    refine absurd ?_ hne
    rw [closelogfile, hf]
  | some file =>
    obtain ⟨hpath, hd⟩ := h file hf
    refine ⟨hd, ?_⟩
    by_contra hp
    refine hne ?_
    rw [closelogfile, hf]
    simp only [fclose, hpath]
    exact Function.update_of_ne hp ..

theorem openMmap_changed {oenv : OpenEnv} {start filePath path : Bytes} {mapSize : ℤ} {files : Disk}
    (hne : (openMmap oenv ⟨none, false⟩ start filePath mapSize files).2.2 path ≠ files path) :
    (openMmap oenv ⟨none, false⟩ start filePath mapSize files).2.1 = ⟨some path, true⟩ := by
  cases ho : oenv.openOk with
  | false =>
    refine absurd ?_ hne
    simp only [openMmap, ho, Bool.false_eq_true, if_false]
  | true =>
    simp only [openMmap, ho, if_true, Bool.false_eq_true, if_false] at hne ⊢
    have hpath : path = filePath := by
      by_contra hp
      exact hne (Function.update_of_ne hp ..)
    rw [hpath]

theorem freeLogBuff_changed {p p' : Proc} (hf : freeLogBuff p = some p') {path : Bytes}
    (hne : p'.files path ≠ p.files path) : Maps p.mlog path := by
  obtain ⟨mt, hmt, rfl⟩ := Option.map_eq_some_iff.mp hf
  dsimp only at hne
  split_ifs at hne with ho
  · refine ⟨mt, hmt, ho, ?_⟩
    unfold closeMmap at hne
    cases hfd : mt.mmapFd with
    | none => rw [hfd] at hne; exact absurd rfl hne
    | some path' =>
      rw [hfd] at hne
      by_contra hp
      exact hne (Function.update_of_ne (fun he => hp (congrArg some he.symm)) ..)
  · exact absurd rfl hne

theorem changed_of_open {lc : Libc} {oenv : OpenEnv} {env : FileEnv} {mode : AppendMode} {dir name : CStr}
    {p p' : Proc} (h : Closed p) (hs : Appender.step lc p (.open oenv env mode dir name) = some p') {path : Bytes}
    (hne : p'.files path ≠ p.files path) :
    Maps p'.mlog path ∨ p'.mlog.sgLogdir ≠ [] ∧ path = logPath p'.mlog := by
  have hm := mmapOk_of_open h hs
  have hml := length_openBlock oenv p.files (mmapFilePath dir.bytes name.bytes)
  obtain ⟨tmp, hp, ht⟩ := logAppenderOpen_eq h lc oenv hm env mode dir name
  obtain ⟨mt, files, hopen, -, hfd, -⟩ := openMmap_eq hm [] (mmapFilePath dir.bytes name.bytes) p.files
  have hchanged := @openMmap_changed oenv [] (mmapFilePath dir.bytes name.bytes) path kBufferBlockLength p.files
  rw [hopen] at hp hchanged
  dsimp only at hchanged
  cases hp.symm.trans hs
  have he := log2fileTmp_effect (opened_opening h files hml mode hfd).toLive lc env ht
  by_cases hmap : files path = p.files path
  · refine .inr (changed_of_effect he (fun hd => writeBack_of_dir_nil hd _ _) ?_)
    rw [← hmap] at hne
    exact hne
  · exact .inl ⟨mt, he.mmapFile, by rw [hchanged hmap], by rw [hchanged hmap]⟩

theorem changed_of_close {lc : Libc} {worker : Option FileEnv} {env : FileEnv} {p p' : Proc} {lb : LogBuffer}
    (h : Opened p lb) (hs : Appender.step lc p (.close worker env) = some p') {path : Bytes}
    (hne : p'.files path ≠ p.files path) :
    Maps p.mlog path ∨ p'.mlog.sgLogdir ≠ [] ∧ path = logPath p'.mlog := by
  have hl : Live { p with mlog := { p.mlog with sgLogClose := true } } lb :=
    ⟨h.buff, h.good, h.cap, h.block, h.mmap, h.handle⟩
  obtain ⟨p₁, lb₁, ht, he⟩ := closeTask_effect hl lc worker env
  rw [Appender.step, logAppenderClose, if_neg (by rw [h.flag]; exact Bool.false_ne_true), ht,
    Option.bind_eq_bind, Option.bind_some] at hs
  obtain ⟨p₂, hfree, hs⟩ := Option.bind_eq_some_iff.mp hs
  cases hs
  have hmlog : p₂.mlog = { p₁.mlog with sgMmapFile := none, sgLogBuff := none } := by
    obtain ⟨mt, -, rfl⟩ := Option.map_eq_some_iff.mp hfree
    rfl
  have hhandle : HandleOk p₂.mlog := by
    rw [hmlog]
    exact he.live.handle
  have hsame : (closelogfile env p₂).mlog.sgLogdir = p₂.mlog.sgLogdir ∧
      logPath (closelogfile env p₂).mlog = logPath p₂.mlog := by
    obtain ⟨t, files, hcl⟩ := closelogfile_eq env p₂
    rw [hcl]
    exact ⟨rfl, rfl⟩
  by_cases hlog : (closelogfile env p₂).files path = p₂.files path
  · by_cases hfile : p₂.files path = p₁.files path
    · right
      rw [hlog, hfile] at hne
      rw [hsame.1, hsame.2, hmlog]
      exact changed_of_effect he (fun hd => closeBack_of_dir_nil hd _ _) hne
    · left
      obtain ⟨mt, hmt, ho, hfd⟩ := freeLogBuff_changed hfree hfile
      exact ⟨mt, he.mmapFile.symm.trans hmt, ho, hfd⟩
  · right
    rw [hsame.1, hsame.2]
    exact changed_of_closelogfile hhandle hlog

/-- **What an operation changes on the disk**: the file that is mapped before or after it, or the log file. -/
theorem changed_of_step {lc : Libc} {p p' : Proc} {op : Op} (h : Inv p) (hs : Appender.step lc p op = some p')
    {path : Bytes} (hne : p'.files path ≠ p.files path) :
    Maps p.mlog path ∨ Maps p'.mlog path ∨ p'.mlog.sgLogdir ≠ [] ∧ path = logPath p'.mlog := by
  rcases h with h | ⟨lb, h⟩
  · rcases step_closed h hs with rfl | ⟨mode, rfl⟩ | ⟨oenv, env, mode, dir, name, rfl⟩
    · exact absurd rfl hne
    · exact absurd rfl hne
    · exact .inr (changed_of_open h hs hne)
  · rcases step_opened h hs with ⟨lb', w, he, hw⟩ | ⟨mode, rfl⟩ | ⟨worker, env, rfl⟩
    · exact .inr (.inr (changed_of_effect he hw hne))
    · exact absurd rfl hne
    · exact (changed_of_close h hs hne).imp_right .inr

/-! ### Several appenders -/

/-- Several appenders on one disk, with the statics of the formatter. -/
structure Appenders (ι : Type*) where
  apps : ι → LogAppender
  files : Disk
  statics : FormatStatics

namespace Appenders

variable {ι : Type*}

/-- The appender `i`, with what all of them share. -/
def proc (s : Appenders ι) (i : ι) : Proc := ⟨s.apps i, s.files, s.statics⟩

/-- New appenders. -/
def create (useShareThread : ι → Bool) (files : Disk) (statics : FormatStatics) : Appenders ι :=
  ⟨fun i => logAppenderCreate (useShareThread i), files, statics⟩

/-- An operation on one of the appenders, as a whole. -/
def step [DecidableEq ι] (lc : Libc) (s : Appenders ι) (l : ι × Op) : Option (Appenders ι) :=
  (Appender.step lc (s.proc l.1) l.2).map fun p => ⟨Function.update s.apps l.1 p.mlog, p.files, p.statics⟩

/-- The appender `i` is open. -/
def IsOpen (s : Appenders ι) (i : ι) : Prop := (s.apps i).sgLogClose = false

/-- **The files of the open appenders**: their paths are whole, and appenders whose paths differ up to the extension
share neither the mapped file nor the log file; and no mapped file is a log file. -/
structure SameStem (lc : Libc) (s : Appenders ι) : Prop where
  whole : ∀ i, s.IsOpen i → WholePaths lc (s.apps i)
  mapped : ∀ i j, s.IsOpen i → s.IsOpen j → stem (s.apps i) ≠ stem (s.apps j) →
    ∀ path, ¬ (Maps (s.apps i) path ∧ Maps (s.apps j) path)
  log : ∀ i j, s.IsOpen i → s.IsOpen j → stem (s.apps i) ≠ stem (s.apps j) →
    ∀ path, ¬ (WritesTo lc (s.apps i) path ∧ WritesTo lc (s.apps j) path)
  kinds : ∀ i j, s.IsOpen i → s.IsOpen j → ∀ path, ¬ (Maps (s.apps i) path ∧ WritesTo lc (s.apps j) path)

end Appenders

section Appenders

variable {ι : Type*} {lc : Libc} {s : Appenders ι}

/-- **Whole paths keep the files apart.** -/
theorem sameStem_of_wholePaths (h : ∀ i, s.IsOpen i → WholePaths lc (s.apps i)) : s.SameStem lc := by
  refine ⟨h, fun i j hi hj hne path hp => hne ?_, fun i j hi hj hne path hp => hne ?_, fun i j hi hj path hp => ?_⟩
  · exact List.append_cancel_right (((h i hi).mapped _ hp.1).symm.trans ((h j hj).mapped _ hp.2))
  · exact List.append_cancel_right (((h i hi).log _ hp.1).symm.trans ((h j hj).log _ hp.2))
  · have he := ((h i hi).mapped _ hp.1).symm.trans ((h j hj).log _ hp.2)
    have hmap : (ascii ".mmap2").length = 6 := rfl
    have hlog : (ascii ".mtlog").length = 6 := rfl
    have hext : ascii ".mmap2" ≠ ascii ".mtlog" := by decide
    exact hext (List.append_inj_right' he (hmap.trans hlog.symm))

theorem closed_of_mlog {p q : Proc} (h : Closed p) (hm : q.mlog = p.mlog) : Closed q := by
  obtain ⟨mlog, files, statics⟩ := q
  cases hm
  exact ⟨h.flag, h.buff, h.mmap, h.file, h.block⟩

theorem inv_of_mlog {p q : Proc} (h : Inv p) (hm : q.mlog = p.mlog) : Inv q := by
  rcases h with h | ⟨lb, h⟩
  · exact .inl (closed_of_mlog h hm)
  · obtain ⟨mlog, files, statics⟩ := q
    cases hm
    exact .inr ⟨lb, ⟨h.buff, h.good, h.cap, h.block, h.mmap, h.handle⟩, h.flag⟩

theorem Appenders.inv_step [DecidableEq ι] {s' : Appenders ι} {l : ι × Op} (h : ∀ i, Inv (s.proc i))
    (hs : s.step lc l = some s') : ∀ i, Inv (s'.proc i) := by
  obtain ⟨p, hp, rfl⟩ := Option.map_eq_some_iff.mp hs
  intro i
  by_cases hi : i = l.1
  · subst hi
    exact inv_of_mlog (Lifecycle.inv_step (h l.1) hp) (Function.update_self ..)
  · exact inv_of_mlog (h i) (Function.update_of_ne hi ..)

end Appenders

/-- **The two files of an appender have the same stem exactly if their paths fit.** After any operations on several
appenders, the files of those that are open have whole paths, and are different files for different paths, exactly
if all of these paths fit. And an operation on an appender whose path to the log file fits then changes only that
file, and the file that it maps before or after. -/
theorem same_stem_iff {ι : Type*} [DecidableEq ι] {lc : Libc} {useShareThread : ι → Bool} {files : Disk}
    {statics : FormatStatics} {s : Appenders ι}
    (h : Reach (Appenders.step lc) (fun _ _ => True) (.create useShareThread files statics) s) :
    (s.SameStem lc ↔ ∀ i, s.IsOpen i → Fits (s.apps i)) ∧
      ∀ i op s', s.step lc (i, op) = some s' → Fits (s'.apps i) → ∀ path, s'.files path ≠ s.files path →
        Maps (s.apps i) path ∨ Maps (s'.apps i) path ∨ path = stem (s'.apps i) ++ ascii ".mtlog" := by
  have hinv : ∀ i, Inv (s.proc i) := h.inv
    (fun i => .inl (closed_create (useShareThread i) files statics)) fun _ _ _ hi _ hs => Appenders.inv_step hi hs
  constructor
  · constructor
    · intro hs i hi
      rcases hinv i with hc | ⟨lb, ho⟩
      · exact absurd (hc.flag.symm.trans hi) (by decide)
      · exact (wholePaths_iff ho.toLive lc).mp (hs.whole i hi)
    · intro hf
      refine sameStem_of_wholePaths fun i hi => ?_
      rcases hinv i with hc | ⟨lb, ho⟩
      · exact absurd (hc.flag.symm.trans hi) (by decide)
      · exact (wholePaths_iff ho.toLive lc).mpr (hf i hi)
  · intro i op s' hs hf path hne
    obtain ⟨p, hp, rfl⟩ := Option.map_eq_some_iff.mp hs
    simp only [Function.update_self] at hf ⊢
    refine (changed_of_step (hinv i) hp hne).imp_right (Or.imp_right ?_)
    rintro ⟨hd, rfl⟩
    rw [logPath_eq]
    exact (take_stem_iff rfl 1023).mpr (Nat.le_of_lt_succ (hf.log hd))

theorem step_open {ι : Type*} [DecidableEq ι] {s : Appenders ι} {i : ι} (h : Closed (s.proc i)) (lc : Libc)
    (dir name : CStr) :
    ∃ s', s.step lc (i, .open .ok .ok .sync dir name) = some s' ∧ s'.IsOpen i ∧
      (s'.apps i).sgLogdir = dir.bytes ∧ (s'.apps i).sgLogfilename = name.bytes ∧
      Maps (s'.apps i) (mmapFilePath dir.bytes name.bytes) ∧ ∀ j ≠ i, s'.apps j = s.apps j := by
  obtain ⟨p, hp, ho, hd, hn, -, -, ⟨mt, hmt, hiso⟩, -⟩ :=
    logAppenderOpen_spec h lc .ok (fun _ => rfl) .ok .sync dir name
  obtain ⟨mt', hmt', hfd⟩ := ho.mmap
  cases hmt.symm.trans hmt'
  obtain ⟨s', hs, happs⟩ : ∃ s', s.step lc (i, .open .ok .ok .sync dir name) = some s' ∧
      s'.apps = Function.update s.apps i p.mlog := by
    refine ⟨⟨Function.update s.apps i p.mlog, p.files, p.statics⟩, ?_, rfl⟩
    rw [Appenders.step, Appender.step, hp, Option.map_some]
  have hself : s'.apps i = p.mlog := by rw [happs, Function.update_self]
  refine ⟨s', hs, ?_, by rw [hself, hd], by rw [hself, hn], ?_, fun j hj => by
    rw [happs, Function.update_of_ne hj]⟩
  · rw [Appenders.IsOpen, hself]
    exact ho.flag
  · rw [hself, ← hd, ← hn]
    exact ⟨mt, hmt, hiso, hfd hiso⟩

theorem exists_two_open (dir name₁ name₂ : CStr) :
    ∃ s : Appenders Bool, Reach (Appenders.step utc) (fun _ _ => True)
        (.create (fun _ => true) (fun _ => []) ⟨0, 0⟩) s ∧
      ∀ i, s.IsOpen i ∧ (s.apps i).sgLogdir = dir.bytes ∧
        (s.apps i).sgLogfilename = (if i then name₂ else name₁).bytes ∧
        Maps (s.apps i) (mmapFilePath dir.bytes (if i then name₂ else name₁).bytes) := by
  have hc : ∀ i, Closed ((Appenders.create (fun _ : Bool => true) (fun _ => []) ⟨0, 0⟩).proc i) := fun i =>
    closed_create ..
  obtain ⟨s₁, hs₁, ho₁, hd₁, hn₁, hm₁, hrest₁⟩ := step_open (hc false) utc dir name₁
  have hc₁ : Closed (s₁.proc true) := closed_of_mlog (hc true) (hrest₁ true (by decide))
  obtain ⟨s₂, hs₂, ho₂, hd₂, hn₂, hm₂, hrest₂⟩ := step_open hc₁ utc dir name₂
  have hfalse := hrest₂ false (by decide)
  refine ⟨s₂, (Reach.tail .refl trivial hs₁).tail trivial hs₂, ?_⟩
  rintro (_ | _)
  · rw [Appenders.IsOpen, hfalse]
    exact ⟨ho₁, hd₁, hn₁, hm₁⟩
  · exact ⟨ho₂, hd₂, hn₂, hm₂⟩

def nameLog1 : CStr := ⟨ascii "log1", by decide⟩
def nameLog2 : CStr := ⟨ascii "log2", by decide⟩

/-- Two appenders that have been opened under short paths. -/
theorem same_stem_iff_short :
    ∃ s : Appenders Bool, (∀ i, s.IsOpen i) ∧ stem (s.apps false) = ascii "d/log1" ∧
      stem (s.apps true) = ascii "d/log2" ∧ s.SameStem utc := by
  obtain ⟨s, hr, h⟩ := exists_two_open ⟨ascii "d", by decide⟩ nameLog1 nameLog2
  have hname : ∀ i : Bool, (if i then nameLog2 else nameLog1).bytes.length = 4 := by decide
  have hstem : ∀ i, stem (s.apps i) = ascii "d/" ++ (if i then nameLog2 else nameLog1).bytes := fun i => by
    rw [stem, (h i).2.1, (h i).2.2.1]
    rfl
  refine ⟨s, fun i => (h i).1, (hstem false).trans (by decide), (hstem true).trans (by decide),
    (same_stem_iff hr).1.mpr fun i _ => ?_⟩
  constructor
  · intro _
    rw [(h i).2.1, (h i).2.2.1, hname i]
    decide
  · intro _
    rw [(h i).2.1, (h i).2.2.1, hname i]
    decide

/-- A directory of 507 bytes. -/
def dirLong : CStr :=
  ⟨(List.replicate 3 (ascii "/" ++ List.replicate 168 0x64)).flatten, by decide +kernel⟩

/-- **A long directory**: two appenders with different names map the same file, which has no extension. -/
theorem mapped_path_cut :
    ∃ s : Appenders Bool, Reach (Appenders.step utc) (fun _ _ => True)
        (.create (fun _ => true) (fun _ => []) ⟨0, 0⟩) s ∧
      (∀ i, s.IsOpen i) ∧ stem (s.apps false) ≠ stem (s.apps true) ∧
      (∀ i, Maps (s.apps i) (dirLong.bytes ++ ascii "/log")) ∧ ¬ s.SameStem utc := by
  obtain ⟨s, hr, h⟩ := exists_two_open dirLong nameLog1 nameLog2
  have hcut₁ : mmapFilePath dirLong.bytes nameLog1.bytes = dirLong.bytes ++ ascii "/log" := by decide +kernel
  have hcut₂ : mmapFilePath dirLong.bytes nameLog2.bytes = dirLong.bytes ++ ascii "/log" := by decide +kernel
  have hopen : ∀ i, s.IsOpen i := fun i => (h i).1
  have hstem : stem (s.apps false) ≠ stem (s.apps true) := by
    rw [stem, stem, (h false).2.1, (h true).2.1, (h false).2.2.1, (h true).2.2.1]
    exact fun he => absurd (List.append_cancel_left he) (by decide)
  have hmaps : ∀ i, Maps (s.apps i) (dirLong.bytes ++ ascii "/log") := by
    rintro (_ | _)
    · rw [← hcut₁]
      exact (h false).2.2.2
    · rw [← hcut₂]
      exact (h true).2.2.2
  refine ⟨s, hr, hopen, hstem, hmaps, fun hs => ?_⟩
  exact hs.mapped false true (hopen _) (hopen _) hstem _ ⟨hmaps false, hmaps true⟩

end MTAppenderFile.Loglib.Paths
