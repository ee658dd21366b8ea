import MTAppenderFile.Loglib.Changes

/-! # The files that the process touches

Any number of appenders are opened and used by any number of threads, and any call of the operating system may
fail. Whatever the threads do and in whatever order, a file that is not mapped is only ever appended to, and a
file that is neither mapped nor a log file of an `open` is not touched (`files_grow`).

Each appender has the mapping, the handle and the names of calls of `open` (`FilesOk`), and a thread that is in
`open` is in one of these calls. An operation keeps this and changes the files accordingly (`FilesOk.run`). -/

namespace MTAppenderFile.Loglib.World

open MTAppenderFile.Lib.Run
open MTAppenderFile.Comm.CTypes
open MTAppenderFile.Comm.Auto
open MTAppenderFile.Loglib.Base
open MTAppenderFile.Loglib.Buffer
open MTAppenderFile.Loglib.Files
open MTAppenderFile.Loglib.Formatter
open MTAppenderFile.Loglib.Appender
open MTAppenderFile.Loglib.Threads (drainBuffer)
open MTAppenderFile.Loglib.Session (log2fileLocked_eq)

/-- The paths of an `open` are among the mapped files and the log files. -/
structure Named (maps logs : Bytes → Prop) (filedir filename : CStr) : Prop where
  maps : maps (mmapFilePath filedir.bytes filename.bytes)
  logs : filedir.bytes ≠ [] → logs (logfilePath filedir.bytes filename.bytes)

/-- The files of an appender are among the mapped files and the log files. -/
structure FilesOk (maps logs : Bytes → Prop) (mlog : LogAppender) : Prop where
  mapped : ∀ mt, mlog.sgMmapFile = some mt → mt.isOpen = true → ∀ path, mt.mmapFd = some path → maps path
  file : ∀ f, mlog.sgLogfile = some f → logs f.path
  names : mlog.sgLogdir ≠ [] → logs (logfilePath mlog.sgLogdir mlog.sgLogfilename)

/-- What may happen to a file: nothing to one of nobody, and only an append to one that is not mapped. -/
def Grows (maps logs : Bytes → Prop) (files files' : Disk) : Prop :=
  ∀ path, ¬ maps path → files path <+: files' path ∧ (¬ logs path → files' path = files path)

/-- The arguments of an operation are those of an `open`. -/
def AppOp.Named (maps logs : Bytes → Prop) : {α : Type} → AppOp α → Prop
  | _, .map filedir filename => World.Named maps logs filedir filename
  | _, .names filedir filename => World.Named maps logs filedir filename
  | _, _ => True

section Operations

variable {maps logs : Bytes → Prop} {files files' files'' : Disk} {mlog mlog' : LogAppender}

theorem grows_refl (files : Disk) : Grows maps logs files files := fun _ _ => ⟨List.prefix_refl _, fun _ => rfl⟩

theorem Grows.trans (h : Grows maps logs files files') (h' : Grows maps logs files' files'') :
    Grows maps logs files files'' := fun path hp =>
  ⟨(h path hp).1.trans (h' path hp).1, fun hl => ((h' path hp).2 hl).trans ((h path hp).2 hl)⟩

theorem grows_map {path : Bytes} (hp : maps path) (m : Bytes) :
    Grows maps logs files (Function.update files path m) := by
  intro path' hp'
  have hne : path' ≠ path := by
    rintro rfl
    exact hp' hp
  rw [Function.update_of_ne hne]
  exact ⟨List.prefix_refl _, fun _ => rfl⟩

theorem grows_append {path : Bytes} (hp : logs path) (data : Bytes) :
    Grows maps logs files (Function.update files path (files path ++ data)) := by
  intro path' _
  by_cases hpath : path' = path
  · subst hpath
    rw [Function.update_self]
    exact ⟨List.prefix_append _ _, fun hl => absurd hp hl⟩
  · rw [Function.update_of_ne hpath]
    exact ⟨List.prefix_refl _, fun _ => rfl⟩

theorem filesOk_create (useShareThread : Bool) : FilesOk maps logs (logAppenderCreate useShareThread) where
  mapped := by rintro _ ⟨⟩
  file := by rintro _ ⟨⟩
  names h := absurd rfl h

theorem FilesOk.congr (h : FilesOk maps logs mlog)
    (hm : mlog'.sgMmapFile = mlog.sgMmapFile ∨ mlog'.sgMmapFile = none)
    (hf : mlog'.sgLogfile = mlog.sgLogfile ∨ mlog'.sgLogfile = none) (hd : mlog'.sgLogdir = mlog.sgLogdir)
    (hn : mlog'.sgLogfilename = mlog.sgLogfilename) : FilesOk maps logs mlog' := by
  refine ⟨fun mt hmt => ?_, fun f hfile => ?_, by rw [hd, hn]; exact h.names⟩
  · rcases hm with hm | hm
    · exact h.mapped mt (hm.symm.trans hmt)
    · cases hm.symm.trans hmt
  · rcases hf with hf | hf
    · exact h.file f (hf.symm.trans hfile)
    · cases hf.symm.trans hfile

theorem grows_fclose (stored : Option ℕ) {file : File} (hf : logs file.path) :
    Grows maps logs files (fclose stored file files) := grows_append hf _

/-- What is done to the log file of an appender: it stays one of its files, and is appended to. -/
def Appends (maps logs : Bytes → Prop) (p p' : Proc) : Prop :=
  FilesOk maps logs p'.mlog ∧ Grows maps logs p.files p'.files

theorem Appends.trans {p p' p'' : Proc} (h : Appends maps logs p p') (h' : Appends maps logs p' p'') :
    Appends maps logs p p'' := ⟨h'.1, h.2.trans h'.2⟩

theorem FilesOk.closelogfile {p : Proc} (h : FilesOk maps logs p.mlog) (env : FileEnv) :
    Appends maps logs p (Appender.closelogfile env p) := by
  unfold Appender.closelogfile
  split
  · exact ⟨h, grows_refl p.files⟩
  · next file hf => exact ⟨h.congr (.inl rfl) (.inr rfl) rfl rfl, grows_fclose _ (h.file file hf)⟩

theorem FilesOk.openlogfile {p : Proc} (h : FilesOk maps logs p.mlog) (lc : Libc) (env : FileEnv) :
    Appends maps logs p (Appender.openlogfile lc env p.mlog.sgLogdir p).2 := by
  unfold Appender.openlogfile
  split_ifs with hdir
  · exact ⟨h, grows_refl p.files⟩
  · exact ⟨h, grows_refl p.files⟩
  all_goals
    refine ⟨⟨h.mapped, fun f hf => ?_, h.names⟩, ?_⟩
    · cases hf
      try exact h.names hdir
    · dsimp only
      split
      · next file hf => exact grows_fclose _ (h.file file hf)
      · exact grows_refl p.files

theorem FilesOk.writelogfile {p : Proc} (h : FilesOk maps logs p.mlog) (env : FileEnv) (data : Bytes) :
    Appends maps logs p (Session.writelogfile env data p).2 := by
  unfold Session.writelogfile writefile
  cases hf : p.mlog.sgLogfile with
  | none => exact ⟨⟨h.mapped, by rintro _ ⟨⟩, h.names⟩, grows_refl p.files⟩
  | some file =>
    have hlog := h.file file hf
    dsimp only
    split_ifs
    · refine ⟨⟨h.mapped, fun f hf' => ?_, h.names⟩, grows_append hlog _⟩
      cases hf'
      exact hlog
    · refine ⟨⟨h.mapped, fun f hf' => ?_, h.names⟩, grows_refl p.files⟩
      cases hf'
      exact hlog

/-- **A write-back** appends to a log file. -/
theorem FilesOk.log2fileLocked {p : Proc} (h : FilesOk maps logs p.mlog) (lc : Libc) (env : FileEnv) (data : Bytes) :
    Appends maps logs p (Appender.log2fileLocked lc env data p) := by
  have ho := h.openlogfile lc env
  have hw := ho.trans (ho.1.writelogfile env data)
  rw [log2fileLocked_eq]
  dsimp only
  split_ifs
  · exact hw.trans (hw.1.closelogfile env)
  · exact hw
  · exact ho

theorem grows_closeMmap {mt : MmappedFile} (hm : ∀ path, mt.mmapFd = some path → maps path) (start : Bytes) :
    Grows maps logs files (closeMmap mt start files).2 := by
  unfold closeMmap
  dsimp only
  split
  · next path hpath => exact grows_map (hm path hpath) start
  · exact grows_refl files

theorem files_appenderInsert {lc : Libc} {info : Option LogInfo} {log : Option CStr} {p p' : Proc} {ok : Bool}
    (h : appenderInsert lc info log p = some (p', ok)) : p'.files = p.files := by
  obtain ⟨lb, -, h⟩ := Option.bind_eq_some_iff.mp h
  obtain ⟨r, -, h⟩ := Option.bind_eq_some_iff.mp h
  obtain ⟨data, -, h⟩ := Option.bind_eq_some_iff.mp h
  cases h
  rfl

theorem files_drainBuffer {p p' : Proc} {tmp : Option Bytes} (h : drainBuffer p = some (p', tmp)) :
    p'.files = p.files := by
  obtain ⟨r, -, h⟩ := Option.bind_eq_some_iff.mp h
  cases h
  rfl

theorem grows_openMmap {mt mt' : MmappedFile} {start filePath : Bytes} {mapSize : ℤ} {r : Option Bytes}
    {oenv : OpenEnv} (hm : mt.isOpen = true → ∀ path, mt.mmapFd = some path → maps path) (hp : maps filePath)
    (h : openMmap oenv mt start filePath mapSize files = (r, mt', files')) :
    (mt'.isOpen = true → ∀ path, mt'.mmapFd = some path → maps path) ∧ Grows maps logs files files' := by
  -- the mapping of before is closed first
  obtain ⟨mt₁, files₁, hclose, hg⟩ : ∃ mt₁ files₁,
      (if mt.isOpen then closeMmap mt start files else (mt, files)) = (mt₁, files₁) ∧
        Grows maps logs files files₁ := by
    split_ifs with hopen
    · exact ⟨_, _, rfl, grows_closeMmap (hm hopen) start⟩
    · exact ⟨_, _, rfl, grows_refl files⟩
  simp only [openMmap, hclose] at h
  split_ifs at h
  · cases h
    refine ⟨fun _ path hpath => ?_, hg.trans (grows_map hp _)⟩
    cases hpath
    exact hp
  · cases h
    refine ⟨fun _ path hpath => ?_, hg.trans (grows_map hp _)⟩
    cases hpath
    exact hp
  · cases h
    exact ⟨by rintro _ _ ⟨⟩, hg⟩

theorem FilesOk.openMap {p : Proc} (h : FilesOk maps logs p.mlog) {filedir filename : CStr}
    (hn : Named maps logs filedir filename) (oenv : OpenEnv) :
    FilesOk maps logs (World.openMap oenv filedir filename p).1.mlog ∧
      Grows maps logs p.files (World.openMap oenv filedir filename p).1.files := by
  have hold : (p.mlog.sgMmapFile.getD ⟨none, false⟩).isOpen = true →
      ∀ path, (p.mlog.sgMmapFile.getD ⟨none, false⟩).mmapFd = some path → maps path := by
    cases hmt : p.mlog.sgMmapFile with
    | none => rintro ⟨⟩
    | some mt => exact h.mapped mt hmt
  unfold World.openMap
  dsimp only
  generalize hr : openMmap oenv (p.mlog.sgMmapFile.getD ⟨none, false⟩) p.block _ _ p.files = r
  obtain ⟨start, mt, files⟩ := r
  obtain ⟨hmt, hg⟩ := grows_openMmap hold hn.maps hr
  refine ⟨⟨fun mt' h' => ?_, h.file, h.names⟩, hg⟩
  cases h'
  exact hmt

/-- **An operation** keeps the files of its appender, and changes no others. -/
theorem FilesOk.run {lc : Libc} {env : Env} {p p' : Proc} {α : Type} {op : AppOp α} {a : α}
    (h : FilesOk maps logs p.mlog) (hn : op.Named maps logs) (hr : op.run lc env p = some (p', a)) :
    FilesOk maps logs p'.mlog ∧ Grows maps logs p.files p'.files := by
  have hspec := AppOp.run_spec hr
  cases op with
  | loadClose | loadMode | loadBuff | emptyDir =>
    cases hr
    exact ⟨h, grows_refl _⟩
  | storeClose | storeMode | buff =>
    cases hr
    exact ⟨h.congr (.inl rfl) (.inl rfl) rfl rfl, grows_refl _⟩
  | length =>
    obtain ⟨_, -, hr⟩ := Option.map_eq_some_iff.mp hr
    cases hr
    exact ⟨h, grows_refl _⟩
  | format =>
    obtain ⟨_, -, hr⟩ := Option.map_eq_some_iff.mp hr
    cases hr
    exact ⟨h, grows_refl _⟩
  | insert info log =>
    obtain ⟨_, lb', -, hy, -⟩ := hspec
    rw [hy]
    refine ⟨h.congr (.inl rfl) (.inl rfl) rfl rfl, ?_⟩
    rw [files_appenderInsert hr]
    exact grows_refl _
  | drain =>
    obtain ⟨_, -, hy⟩ := hspec
    rw [hy]
    refine ⟨h.congr (.inl rfl) (.inl rfl) rfl rfl, ?_⟩
    rw [AppOp.run, Option.ite_none_left_eq_some] at hr
    rw [files_drainBuffer hr.2]
    exact grows_refl _
  | log2file data =>
    cases hr
    exact h.log2fileLocked lc env.file data
  | map filedir filename =>
    cases hr
    exact h.openMap hn env.mmap
  | names filedir filename =>
    cases hr
    exact ⟨⟨h.mapped, h.file, hn.logs⟩, grows_refl _⟩
  | free =>
    rw [AppOp.run, Option.ite_none_left_eq_some] at hr
    obtain ⟨p₁, hf, hr⟩ := Option.map_eq_some_iff.mp hr.2
    cases hr
    obtain ⟨mt, hmt, rfl⟩ := Option.map_eq_some_iff.mp hf
    refine ⟨h.congr (.inr rfl) (.inl rfl) rfl rfl, ?_⟩
    dsimp only
    split_ifs with hopen
    · exact grows_closeMmap (h.mapped mt hmt hopen) _
    · exact grows_refl _
  | closelogfile =>
    cases hr
    exact h.closelogfile env.file

end Operations

/-! ### The process -/

/-- The arguments of a statement are those of an `open`. -/
def Stmt.Named (maps logs : Bytes → Prop) : Stmt → Prop
  | .app _ op _ => op.Named maps logs
  | _ => True

/-- The paths that a call opens are among the mapped files and the log files. -/
def OpensIn (maps logs : Bytes → Prop) : Label → Prop
  | .call _ _ (.open _ filedir filename) => Named maps logs filedir filename
  | _ => True

/-- Each appender has files of an `open`, and a call of `open` has such paths. -/
structure FilesInv (maps logs : Bytes → Prop) (w : State) : Prop where
  apps : ∀ m, FilesOk maps logs (w.apps m)
  named : ∀ t m mode filedir filename, (w.pc t).fn = .open m mode filedir filename →
    Named maps logs filedir filename

section Process

variable {maps logs : Bytes → Prop} {lc : Libc} {w w' w₁ : State}

theorem Stmt.By.named {st : Stmt} {f : Fn} (h : st.By f) (hf : ∀ m, ¬ f.Opens m) : st.Named maps logs := by
  cases st with
  | app m op k =>
    cases op with
    | map => exact absurd h (hf m)
    | names => exact absurd h (hf m)
    | _ => trivial
  | _ => trivial

theorem openCode_named {m : Mlog} {mode : AppendMode} {filedir filename : CStr} {here : OpenPc → Pc}
    (h : Named maps logs filedir filename) (pc : OpenPc) :
    (openCode m mode filedir filename here pc).Named maps logs := by
  cases pc with
  | map => exact h
  | names tmp => exact h
  | setmode tmp pc =>
    cases pc with
    | start pc => cases pc <;> trivial
    | _ => trivial
  | file data pc => cases pc <;> trivial
  | _ => trivial

/-- **A statement names the files of its call.** -/
theorem FilesInv.code_named (h : FilesInv maps logs w) (t : Tid) : (code (w.pc t)).Named maps logs := by
  by_cases hf : ∃ m mode filedir filename pc, w.pc t = .open m mode filedir filename pc
  · obtain ⟨m, mode, filedir, filename, pc, hpc⟩ := hf
    have hn := h.named t m mode filedir filename (by rw [hpc]; rfl)
    rw [hpc]
    exact openCode_named hn pc
  · refine (code_by (w.pc t)).named ?_
    rintro m ⟨mode, filedir, filename, hfn⟩
    cases hpc : w.pc t with
    | «open» m' mode' filedir' filename' pc => exact hf ⟨m', mode', filedir', filename', pc, hpc⟩
    | _ =>
      rw [hpc] at hfn
      cases hfn

/-- **A statement** keeps the files of the appenders, and changes no others. -/
theorem Effect.filesOk {env : Env} {t : Tid} {st : Stmt} {pc : Pc} (he : Effect lc env t w st w₁ pc)
    (hn : st.Named maps logs) (h : ∀ m, FilesOk maps logs (w.apps m)) :
    (∀ m, FilesOk maps logs (w₁.apps m)) ∧ Grows maps logs w.files w₁.files := by
  cases he with
  | @app α n op k p a hm hr =>
    obtain ⟨hok, hg⟩ := FilesOk.run (p := w.app n) (h n) hn hr
    refine ⟨fun m => ?_, hg⟩
    show FilesOk maps logs (Function.update w.apps n p.mlog m)
    by_cases hmn : m = n
    · rw [hmn, Function.update_self]
      exact hok
    · rw [Function.update_of_ne hmn]
      exact h m
  | _ => exact ⟨h, grows_refl w.files⟩

theorem filesInv_init (files : Disk) (statics : FormatStatics) : FilesInv maps logs (.init files statics) :=
  ⟨fun m => filesOk_create m.useShareThread, by rintro _ _ _ _ _ ⟨⟩⟩

/-- **One step** keeps the files of the appenders, and changes no others. -/
theorem FilesInv.step {l : Label} (h : FilesInv maps logs w) (hl : OpensIn maps logs l)
    (hs : World.step lc w l = some w') : FilesInv maps logs w' ∧ Grows maps logs w.files w'.files := by
  obtain ⟨n, share, rfl, -, rfl⟩ | ⟨n, m, u, rfl, -, -, rfl⟩ | ⟨t, env, w₁, pc, rfl, he, rfl⟩ := step_cases hs
  · -- a new appender has no files
    refine ⟨⟨fun m => ?_, fun t m mode filedir filename hf => ?_⟩, grows_refl w.files⟩
    · show FilesOk maps logs (Function.update w.apps _ (logAppenderCreate share) m)
      by_cases hm : m = ⟨share, w.created⟩
      · rw [hm, Function.update_self]
        exact filesOk_create share
      · rw [Function.update_of_ne hm]
        exact h.apps m
    · by_cases ht : t = .caller n
      · rw [ht, goto_pc_self] at hf
        cases hf
      · rw [goto_pc_of_ne _ ht] at hf
        exact h.named t m mode filedir filename hf
  · refine ⟨⟨fun m' => ?_, fun t m' mode filedir filename hf => ?_⟩, ?_⟩
    · show FilesOk maps logs ((w.passed m u).apps m')
      rw [passed_apps]
      exact h.apps m'
    · by_cases ht : t = .caller n
      · rw [ht, goto_pc_self] at hf
        cases u with
        | «open» mode' filedir' filename' =>
          cases hf
          exact hl
        | _ => cases hf
      · rw [goto_pc_of_ne _ ht, passed_pc] at hf
        exact h.named t m' mode filedir filename hf
    · have hfiles : (w.passed m u).files = w.files := by cases u <;> rfl
      show Grows maps logs w.files (w.passed m u).files
      rw [hfiles]
      exact grows_refl w.files
  · obtain ⟨happs, hg⟩ := he.filesOk (h.code_named t) h.apps
    refine ⟨⟨happs, fun u m mode filedir filename hf => ?_⟩, hg⟩
    rcases he.fn_run u with hp | hp | ⟨a, -, hp⟩
    · rw [hp] at hf
      cases hf
    · exact h.named u m mode filedir filename (hp.symm.trans hf)
    · rw [hp] at hf
      cases hf

theorem opensIn_runs {t : Tid} {n : ℕ} : ∀ l ∈ runs t n, OpensIn maps logs l := by
  intro l hl
  rw [List.eq_of_mem_replicate hl]
  trivial

/-- **Files are only appended to.** -/
theorem files_grow (lc : Libc) (maps logs : Bytes → Prop) (files : Disk) (statics : FormatStatics) (w w' : State)
    (h : Reach (World.step lc) (fun _ => OpensIn maps logs) (.init files statics) w)
    (h' : Reach (World.step lc) (fun _ => OpensIn maps logs) w w') (path : Bytes) (hp : ¬ maps path) :
    w.files path <+: w'.files path ∧ (¬ logs path → w'.files path = w.files path) := by
  have hinv : FilesInv maps logs w :=
    h.inv (filesInv_init files statics) fun _ _ _ hi hl hs => (hi.step hl hs).1
  have hrun : FilesInv maps logs w' ∧ Grows maps logs w.files w'.files :=
    h'.inv (P := fun w' => FilesInv maps logs w' ∧ Grows maps logs w.files w'.files) ⟨hinv, grows_refl w.files⟩
      fun _ _ _ hi hl hs =>
        have hstep := hi.1.step hl hs
        ⟨hstep.1, hi.2.trans hstep.2⟩
  exact hrun.2 path hp

/-- Every call succeeds, and `fwrite` hands over all that it is given. -/
def Env.through : Env := { Env.ok with file := { FileEnv.ok with handed := 153600 } }

theorem files_grow_append :
    ∃ w w', run (World.step utc) (.init (fun _ => []) ⟨0, 0⟩) (.create 0 true :: runs (.caller 0) 4 ++
          .call 0 ⟨true, 0⟩ (.open .sync dirD nameN) :: runs (.caller 0) 12) = some w ∧
      run (World.step utc) w (.call 0 ⟨true, 0⟩ (.append none (some nameO)) ::
          List.replicate 7 (.run (.caller 0) .through)) = some w' ∧
      w'.files (logfilePath dirD.bytes nameN.bytes) ≠ w.files (logfilePath dirD.bytes nameN.bytes) ∧
      ∀ path, path ≠ mmapFilePath dirD.bytes nameN.bytes → w.files path <+: w'.files path ∧
        (path ≠ logfilePath dirD.bytes nameN.bytes → w'.files path = w.files path) := by
  have hsome : ((run (World.step utc) (.init (fun _ => []) ⟨0, 0⟩) (.create 0 true :: runs (.caller 0) 4 ++
      .call 0 ⟨true, 0⟩ (.open .sync dirD nameN) :: runs (.caller 0) 12)).any fun w =>
        (run (World.step utc) w (.call 0 ⟨true, 0⟩ (.append none (some nameO)) ::
          List.replicate 7 (.run (.caller 0) .through))).any fun w' =>
          w'.files (logfilePath dirD.bytes nameN.bytes) ≠ w.files (logfilePath dirD.bytes nameN.bytes)) = true := by
    decide +kernel
  obtain ⟨w, hw, hsome⟩ := (Option.any_eq_true _ _).mp hsome
  obtain ⟨w', hw', hne⟩ := (Option.any_eq_true _ _).mp hsome
  have hopen : OpensIn (· = mmapFilePath dirD.bytes nameN.bytes) (· = logfilePath dirD.bytes nameN.bytes)
      (.call 0 ⟨true, 0⟩ (.open .sync dirD nameN)) := ⟨rfl, fun _ => rfl⟩
  refine ⟨w, w', hw, hw', of_decide_eq_true hne, files_grow utc _ _ (fun _ => []) ⟨0, 0⟩ w w'
    (reach_of_run (meets_of_forall ?_) hw) (reach_of_run (meets_of_forall ?_) hw')⟩
  · simp only [List.cons_append, List.forall_mem_cons, List.forall_mem_append]
    exact ⟨trivial, opensIn_runs, hopen, opensIn_runs⟩
  · refine List.forall_mem_cons.mpr ⟨trivial, fun l hl => ?_⟩
    rw [List.eq_of_mem_replicate hl]
    trivial

end Process

end MTAppenderFile.Loglib.World
