import MTAppenderFile.Lib.Projection
import MTAppenderFile.Loglib.Modes
import MTAppenderFile.Loglib.Paths

/-! # Several appenders do not meet

An operation reads and writes the two files of its appender alone. So, as long as no two appenders ever open the same
path, operations on several appenders in any order are the same as the operations on each of them, one appender at a
time: each gets through them exactly if it gets through them alone, and ends with the same state and the same files
(`appenders_separate`). -/

namespace MTAppenderFile.Loglib.Separation

open MTAppenderFile.Lib.Run
open MTAppenderFile.Lib.Projection
open MTAppenderFile.Comm.CTypes
open MTAppenderFile.Comm.Auto
open MTAppenderFile.Loglib.Base
open MTAppenderFile.Loglib.Buffer
open MTAppenderFile.Loglib.Files
open MTAppenderFile.Loglib.Formatter
open MTAppenderFile.Loglib.Appender
open MTAppenderFile.Loglib.Session
open MTAppenderFile.Loglib.Lifecycle
open MTAppenderFile.Loglib.Exactness
open MTAppenderFile.Loglib.Modes
open MTAppenderFile.Loglib.Paths

/-- The paths that an operation opens. -/
def paths : Op → List Bytes
  | .open _ _ _ filedir filename =>
    [mmapFilePath filedir.bytes filename.bytes, logfilePath filedir.bytes filename.bytes]
  | _ => []

/-- The files are the same on the paths in `own`. -/
def AgreeOn (own : Bytes → Prop) (files files' : Disk) : Prop := ∀ path, own path → files' path = files path

/-- The process with other files. -/
def withFiles (p : Proc) (files : Disk) : Proc := { p with files := files }

section AgreeOn

variable {own : Bytes → Prop} {files files' : Disk}

theorem AgreeOn.update (h : AgreeOn own files files') (path m : Bytes) :
    AgreeOn own (Function.update files path m) (Function.update files' path m) := fun path' ho => by
  by_cases hp : path' = path
  · rw [hp, Function.update_self, Function.update_self]
  · rw [Function.update_of_ne hp, Function.update_of_ne hp]
    exact h path' ho

theorem AgreeOn.append (h : AgreeOn own files files') (path w : Bytes) :
    AgreeOn own (Function.update files path (files path ++ w)) (Function.update files' path (files' path ++ w)) :=
  fun path' ho => by
    by_cases hp : path' = path
    · subst hp
      rw [Function.update_self, Function.update_self, h path' ho]
    · rw [Function.update_of_ne hp, Function.update_of_ne hp]
      exact h path' ho

/-! ### An operation sees its own files alone -/

/-- What a function does with other files: the same, and the files agree again. -/
def Alike (own : Bytes → Prop) (p' q' : Proc) : Prop := ∃ files, q' = withFiles p' files ∧ AgreeOn own p'.files files

variable {p : Proc} (h : AgreeOn own p.files files')

include h

theorem openlogfile_withFiles (lc : Libc) (env : FileEnv) (dir : Bytes) :
    (openlogfile lc env dir (withFiles p files')).1 = (openlogfile lc env dir p).1 ∧
      Alike own (openlogfile lc env dir p).2 (openlogfile lc env dir (withFiles p files')).2 := by
  have hm : (withFiles p files').mlog = p.mlog := rfl
  unfold openlogfile
  rw [hm]
  split_ifs
  · exact ⟨rfl, files', rfl, h⟩
  · exact ⟨rfl, files', rfl, h⟩
  all_goals
    refine ⟨rfl, _, rfl, ?_⟩
    cases p.mlog.sgLogfile with
    | none => exact h
    | some file => exact h.append file.path _

theorem closelogfile_withFiles (env : FileEnv) :
    Alike own (closelogfile env p) (closelogfile env (withFiles p files')) := by
  have hm : (withFiles p files').mlog = p.mlog := rfl
  unfold closelogfile
  rw [hm]
  cases p.mlog.sgLogfile with
  | none => exact ⟨files', rfl, h⟩
  | some file => exact ⟨_, rfl, h.append file.path _⟩

theorem writelogfile_withFiles (env : FileEnv) (data : Bytes) :
    (writelogfile env data (withFiles p files')).1 = (writelogfile env data p).1 ∧
      Alike own (writelogfile env data p).2 (writelogfile env data (withFiles p files')).2 := by
  have hm : (withFiles p files').mlog = p.mlog := rfl
  unfold writelogfile
  rw [hm]
  cases p.mlog.sgLogfile with
  | none => exact ⟨rfl, _, rfl, h⟩
  | some file =>
    unfold writefile
    split_ifs
    · exact ⟨rfl, _, rfl, h.append file.path _⟩
    · exact ⟨rfl, _, rfl, h⟩

theorem log2file_withFiles (lc : Libc) (env : FileEnv) (data : Bytes) :
    Alike own (log2file lc env data p) (log2file lc env data (withFiles p files')) := by
  have hdir : (withFiles p files').mlog = p.mlog := rfl
  unfold log2file
  rw [hdir]
  split_ifs
  · exact ⟨files', rfl, h⟩
  · obtain ⟨ho, files₁, hq, h₁⟩ := openlogfile_withFiles h lc env p.mlog.sgLogdir
    rw [log2fileLocked_eq, log2fileLocked_eq, hdir, ho, hq]
    generalize (openlogfile lc env p.mlog.sgLogdir p).2 = p₁ at h₁ ⊢
    obtain ⟨hw, files₂, hq₂, h₂⟩ := writelogfile_withFiles h₁ env data
    have hmode : (withFiles p₁ files₁).mlog = p₁.mlog := rfl
    simp only [hmode, hw, hq₂]
    split_ifs
    · exact closelogfile_withFiles h₂ env
    · exact ⟨files₂, rfl, h₂⟩
    · exact ⟨files₁, rfl, h₁⟩

theorem log2fileTmp_withFiles (lc : Libc) (env : FileEnv) (tmp : AutoBuffer) :
    Alike own (log2fileTmp lc env tmp p) (log2fileTmp lc env tmp (withFiles p files')) := by
  unfold log2fileTmp
  split
  · exact log2file_withFiles h lc env _
  · exact ⟨files', rfl, h⟩

theorem logThreadTask_withFiles (lc : Libc) (env : FileEnv) :
    Option.Rel (Alike own) (logThreadTask lc env p) (logThreadTask lc env (withFiles p files')) := by
  unfold logThreadTask
  have hm : (withFiles p files').mlog = p.mlog := rfl
  rw [hm]
  cases flushLogBuff p.mlog with
  | none => exact .none
  | some r => exact .some (log2fileTmp_withFiles (p := { p with mlog := r.1 }) h lc env r.2)

theorem logAppenderAppendEx_withFiles (lc : Libc) (env : FileEnv) (log : Option CStr) (info : Option LogInfo) :
    Option.Rel (Alike own) (logAppenderAppendEx lc env log info p)
      (logAppenderAppendEx lc env log info (withFiles p files')) := by
  have hm : (withFiles p files').mlog = p.mlog := rfl
  have hst : (withFiles p files').statics = p.statics := rfl
  unfold logAppenderAppendEx
  rw [hm]
  split_ifs
  · exact .some ⟨files', rfl, h⟩
  · unfold appenderSync
    rw [hst]
    cases appenderSyncBuffer lc p.statics info log with
    | none => exact .none
    | some r =>
      obtain ⟨statics, data⟩ := r
      cases data with
      | none => exact .some ⟨files', rfl, h⟩
      | some data => exact .some (log2file_withFiles (p := { p with statics := statics }) h lc env data)
  · unfold appenderAsync
    rw [hm, hst]
    cases p.mlog.sgLogBuff with
    | none => exact .some ⟨files', rfl, h⟩
    | some lb =>
      cases logFormater lc p.statics info log temp with
      | none => exact .none
      | some r =>
        simp only [Option.bind_eq_bind, Option.bind_some]
        cases readBlock (if lb.buff.length ≥ overloadLength p.mlog then overloadLine r.2 lb.buff.length else r.2).parray
            (uint32 (if lb.buff.length ≥ overloadLength p.mlog then overloadLine r.2 lb.buff.length
              else r.2).length) with
        | none => exact .none
        | some data => exact .some ⟨files', rfl, h⟩

theorem openMmap_withFiles (oenv : OpenEnv) (mt : MmappedFile) (start : Bytes) {filePath : Bytes} (ho : own filePath)
    (mapSize : ℤ) :
    ∃ r mt' files₁ files₂, openMmap oenv mt start filePath mapSize p.files = (r, mt', files₁) ∧
      openMmap oenv mt start filePath mapSize files' = (r, mt', files₂) ∧ AgreeOn own files₁ files₂ := by
  have hclose : ∀ b : Bool, ∃ mt' files₁ files₂,
      (if b then closeMmap mt start p.files else (mt, p.files)) = (mt', files₁) ∧
        (if b then closeMmap mt start files' else (mt, files')) = (mt', files₂) ∧ AgreeOn own files₁ files₂ := by
    intro b
    cases b with
    | false => exact ⟨mt, _, _, rfl, rfl, h⟩
    | true =>
      refine ⟨⟨none, false⟩, _, _, rfl, rfl, ?_⟩
      cases mt.mmapFd with
      | none => exact h
      | some path => exact h.update path start
  obtain ⟨mt', files₁, files₂, h₁, h₂, ha⟩ := hclose mt.isOpen
  simp only [openMmap, h₁, h₂]
  split_ifs
  · rw [ha filePath ho]
    exact ⟨_, _, _, _, rfl, rfl, ha.update filePath _⟩
  · rw [ha filePath ho]
    exact ⟨_, _, _, _, rfl, rfl, ha.update filePath _⟩
  · exact ⟨_, _, _, _, rfl, rfl, ha⟩

theorem logAppenderOpen_withFiles (lc : Libc) (oenv : OpenEnv) (env : FileEnv) (mode : AppendMode)
    {filedir filename : CStr} (ho : own (mmapFilePath filedir.bytes filename.bytes)) :
    Option.Rel (Alike own) (logAppenderOpen lc oenv env mode filedir filename p)
      (logAppenderOpen lc oenv env mode filedir filename (withFiles p files')) := by
  have hm : (withFiles p files').mlog = p.mlog := rfl
  have hb : (withFiles p files').block = p.block := rfl
  have hq : (withFiles p files').files = files' := rfl
  unfold logAppenderOpen
  rw [hm, hb, hq]
  by_cases hc : ¬ p.mlog.sgLogClose = true
  · rw [if_pos hc, if_pos hc]
    exact .some ⟨files', rfl, h⟩
  · rw [if_neg hc, if_neg hc]
    generalize (if p.mlog.sgBufferblockLength ≤ 0 then kBufferBlockLength else p.mlog.sgBufferblockLength) = len
    obtain ⟨r, mt, files₁, files₂, h₁, h₂, ha⟩ := openMmap_withFiles h oenv (p.mlog.sgMmapFile.getD ⟨none, false⟩)
      p.block ho len
    simp only [h₁, h₂]
    cases (LogBuffer.ofBlock (r.getD (resize oenv.heap len.toNat)) len.toNat).flush (.empty 128) with
    | none => exact .none
    | some b => exact .some (log2fileTmp_withFiles (p := logAppenderSetmode mode { p with files := files₁, mlog := _ })
        ha lc env b.2)

theorem logAppenderClose_withFiles (lc : Libc) (worker : Option FileEnv) (env : FileEnv) :
    Option.Rel (Alike own) (logAppenderClose lc worker env p)
      (logAppenderClose lc worker env (withFiles p files')) := by
  have hm : (withFiles p files').mlog = p.mlog := rfl
  unfold logAppenderClose
  rw [hm]
  split_ifs
  · exact .some ⟨files', rfl, h⟩
  · have htask : Option.Rel (Alike own) (closeTask lc worker env { p with mlog := { p.mlog with sgLogClose := true } })
        (closeTask lc worker env { withFiles p files' with mlog := { p.mlog with sgLogClose := true } }) := by
      unfold closeTask
      dsimp only
      split
      · exact logThreadTask_withFiles (p := { p with mlog := { p.mlog with sgLogClose := true } }) h lc _
      · exact .some ⟨files', rfl, h⟩
      · exact logThreadTask_withFiles (p := { p with mlog := { p.mlog with sgLogClose := true } }) h lc _
    generalize closeTask lc worker env { p with mlog := { p.mlog with sgLogClose := true } } = r at htask
    generalize closeTask lc worker env { withFiles p files' with mlog := { p.mlog with sgLogClose := true } } = r'
      at htask
    cases htask with
    | none => exact .none
    | @some p₁ _ halike =>
      obtain ⟨files₁, rfl, ha⟩ := halike
      simp only [Option.bind_eq_bind, Option.bind_some, freeLogBuff]
      have hm₁ : (withFiles p₁ files₁).mlog = p₁.mlog := rfl
      rw [hm₁]
      cases p₁.mlog.sgMmapFile with
      | none => exact .none
      | some mt =>
        simp only [Option.map_some, Option.bind_some]
        have hfree : AgreeOn own
            (if mt.isOpen then (closeMmap mt (List.replicate p₁.mlog.sgBufferblockLength.toNat 0) p₁.files).2
              else p₁.files)
            (if mt.isOpen then (closeMmap mt (List.replicate p₁.mlog.sgBufferblockLength.toNat 0) files₁).2
              else files₁) := by
          split_ifs
          · unfold closeMmap
            dsimp only
            split
            · exact ha.update _ _
            · exact ha
          · exact ha
        exact .some (closelogfile_withFiles
          (p := { p₁ with mlog := { p₁.mlog with sgMmapFile := none, sgLogBuff := none }, files := _ }) hfree env)

/-- **An operation sees its own files alone.** -/
theorem step_withFiles (lc : Libc) {op : Op} (ho : ∀ path ∈ paths op, own path) :
    Option.Rel (Alike own) (Appender.step lc p op) (Appender.step lc (withFiles p files') op) := by
  cases op with
  | «open» oenv env mode filedir filename =>
    exact logAppenderOpen_withFiles h lc oenv env mode (ho _ List.mem_cons_self)
  | append env log => exact logAppenderAppendEx_withFiles h lc env log none
  | appendEx env log info => exact logAppenderAppendEx_withFiles h lc env log info
  | task env => exact logThreadTask_withFiles h lc env
  | flushSync env =>
    simp only [Appender.step, logAppenderFlushSync_eq]
    have hm : (withFiles p files').mlog = p.mlog := rfl
    rw [hm]
    split_ifs
    · exact .some ⟨files', rfl, h⟩
    · exact logThreadTask_withFiles h lc env
  | setmode mode => exact .some ⟨files', rfl, h⟩
  | close worker env => exact logAppenderClose_withFiles h lc worker env

end AgreeOn

/-! ### An operation writes its own files alone -/

/-- The files of an appender are its own. -/
structure Owns (own : Bytes → Prop) (mlog : LogAppender) : Prop where
  mapped : ∀ path, Maps mlog path → own path
  log : mlog.sgLogdir ≠ [] → own (logPath mlog)

section Owns

variable {own : Bytes → Prop} {lc : Libc} {p p' : Proc} {op : Op}

theorem owns_create (share : Bool) : Owns own (logAppenderCreate share) :=
  ⟨by rintro _ ⟨_, ⟨⟩, -⟩, fun hd => absurd rfl hd⟩

theorem not_maps_of_closed (h : Closed p) (path : Bytes) : ¬ Maps p.mlog path := by
  rintro ⟨mt, hm, -⟩
  cases h.mmap.symm.trans hm

theorem Owns.step (ho : Owns own p.mlog) (h : Inv p) (hop : ∀ path ∈ paths op, own path)
    (hs : Appender.step lc p op = some p') : Owns own p'.mlog := by
  rcases h with h | ⟨lb, h⟩
  · rcases step_closed h hs with rfl | ⟨mode, rfl⟩ | ⟨oenv, env, mode, dir, name, rfl⟩
    · exact ho
    · exact ⟨ho.mapped, ho.log⟩
    · obtain ⟨p₁, hp₁, hopen, hd, hn, -⟩ := logAppenderOpen_spec h lc oenv (mmapOk_of_open h hs) env mode dir name
      cases hp₁.symm.trans hs
      refine ⟨fun path hm => ?_, fun _ => ?_⟩
      · rw [eq_of_maps hopen.toLive hm, hd, hn]
        exact hop _ List.mem_cons_self
      · rw [logPath, hd, hn]
        exact hop _ (List.mem_cons_of_mem _ List.mem_cons_self)
  · rcases step_opened h hs with ⟨lb', w, he, -⟩ | ⟨mode, rfl⟩ | ⟨worker, env, rfl⟩
    · refine ⟨fun path hm => ho.mapped path ?_, fun hd => ?_⟩
      · rwa [Maps, he.mmapFile] at hm
      · rw [he.path]
        exact ho.log (by rwa [← he.dir])
    · exact ⟨ho.mapped, ho.log⟩
    · obtain ⟨p₁, hp₁, hc, hd, hn, -⟩ := logAppenderClose_spec h lc worker env
      cases hp₁.symm.trans hs
      refine ⟨fun path hm => absurd hm (not_maps_of_closed hc path), fun hd' => ?_⟩
      rw [logPath, hd, hn]
      exact ho.log (by rwa [← hd])

/-- **An operation changes its own files alone.** -/
theorem Owns.changed (ho : Owns own p.mlog) (h : Inv p) (hop : ∀ path ∈ paths op, own path)
    (hs : Appender.step lc p op = some p') {path : Bytes} (hne : p'.files path ≠ p.files path) : own path := by
  have ho' := ho.step h hop hs
  rcases changed_of_step h hs hne with hm | hm | ⟨hd, rfl⟩
  · exact ho.mapped path hm
  · exact ho'.mapped path hm
  · exact ho'.log hd

/-! ### The statics of the formatter -/

theorem statics_log2file (lc : Libc) (env : FileEnv) (data : Bytes) (p : Proc) :
    (log2file lc env data p).statics = p.statics := by
  unfold log2file
  split_ifs
  · rfl
  · exact statics_log2fileLocked lc env data p

theorem statics_log2fileTmp (lc : Libc) (env : FileEnv) (tmp : AutoBuffer) (p : Proc) :
    (log2fileTmp lc env tmp p).statics = p.statics := by
  unfold log2fileTmp
  split
  · exact statics_log2file lc env _ p
  · rfl

theorem statics_logThreadTask {env : FileEnv} (hs : logThreadTask lc env p = some p') : p'.statics = p.statics := by
  obtain ⟨r, -, he⟩ := Option.bind_eq_some_iff.mp hs
  cases he
  exact statics_log2fileTmp lc env r.2 _

theorem statics_logAppenderAppendEx {env : FileEnv} {log : Option CStr} {info : Option LogInfo}
    (hs : logAppenderAppendEx lc env log info p = some p') : p'.statics = p.statics := by
  unfold logAppenderAppendEx at hs
  split_ifs at hs
  · cases hs
    rfl
  · obtain ⟨r, hr, hs⟩ := Option.bind_eq_some_iff.mp hs
    obtain ⟨data, -, rfl⟩ := printed_of_appenderSyncBuffer hr
    cases hs
    exact statics_log2file lc env data _
  · unfold appenderAsync at hs
    split at hs
    · cases hs
      rfl
    · obtain ⟨r, hr, hs⟩ := Option.bind_eq_some_iff.mp hs
      obtain ⟨data, -, hs⟩ := Option.bind_eq_some_iff.mp hs
      cases hs
      exact (logFormater_temp hr).1

/-- **No operation changes the statics of the formatter.** -/
theorem statics_of_step (hs : Appender.step lc p op = some p') : p'.statics = p.statics := by
  cases op with
  | «open» oenv env mode filedir filename =>
    rw [Appender.step, logAppenderOpen] at hs
    by_cases hc : ¬ p.mlog.sgLogClose = true
    · rw [if_pos hc] at hs
      cases hs
      rfl
    · rw [if_neg hc] at hs
      obtain ⟨r, -, he⟩ := Option.bind_eq_some_iff.mp hs
      cases he
      exact statics_log2fileTmp lc env r.2 _
  | append env log => exact statics_logAppenderAppendEx hs
  | appendEx env log info => exact statics_logAppenderAppendEx hs
  | task env => exact statics_logThreadTask hs
  | flushSync env =>
    simp only [Appender.step, logAppenderFlushSync_eq] at hs
    split_ifs at hs
    · cases hs
      rfl
    · exact statics_logThreadTask hs
  | setmode mode =>
    cases hs
    rfl
  | close worker env =>
    simp only [Appender.step, logAppenderClose] at hs
    split_ifs at hs
    · cases hs
      rfl
    · obtain ⟨p₁, ht, hs⟩ := Option.bind_eq_some_iff.mp hs
      obtain ⟨p₂, hf, hs⟩ := Option.bind_eq_some_iff.mp hs
      cases hs
      obtain ⟨mt, -, rfl⟩ := Option.map_eq_some_iff.mp hf
      obtain ⟨t, files, hcl⟩ := closelogfile_eq env
        { p₁ with
          files := if mt.isOpen then (closeMmap mt (List.replicate p₁.mlog.sgBufferblockLength.toNat 0) p₁.files).2
            else p₁.files
          mlog := { p₁.mlog with sgMmapFile := none, sgLogBuff := none } }
      rw [hcl]
      have hst : p₁.statics = p.statics := by
        unfold closeTask at ht
        split at ht
        · exact (statics_logThreadTask ht).trans rfl
        · cases ht
          rfl
        · exact (statics_logThreadTask ht).trans rfl
      exact hst

end Owns

/-! ### Runs -/

/-- The appender `i` opens the path in the run. -/
def Opens {ι : Type*} (as : List (ι × Op)) (i : ι) (path : Bytes) : Prop := ∃ a ∈ as, a.1 = i ∧ path ∈ paths a.2

/-- An appender among others, and the same one alone. -/
structure Alone {ι : Type*} (own : Bytes → Prop) (i : ι) (s : Appenders ι) (p : Proc) : Prop where
  mlog : s.apps i = p.mlog
  statics : s.statics = p.statics
  files : AgreeOn own p.files s.files

section Runs

variable {ι : Type*} [DecidableEq ι] {lc : Libc} {own : ι → Bytes → Prop} {s s' : Appenders ι} {i : ι} {op : Op}

/-- What holds of all appenders: each is closed, or open with a good buffer, and has its own files. -/
def Apart (own : ι → Bytes → Prop) (s : Appenders ι) : Prop := ∀ i, Inv (s.proc i) ∧ Owns (own i) (s.apps i)

theorem Apart.step (h : Apart own s) (hop : ∀ path ∈ paths op, own i path) (hs : s.step lc (i, op) = some s') :
    Apart own s' := by
  have hinv := Appenders.inv_step (fun j => (h j).1) hs
  obtain ⟨p, hp, rfl⟩ := Option.map_eq_some_iff.mp hs
  intro j
  refine ⟨hinv j, ?_⟩
  by_cases hj : j = i
  · subst hj
    dsimp only
    rw [Function.update_self]
    exact (h j).2.step (h j).1 hop hp
  · dsimp only
    rw [Function.update_of_ne hj]
    exact (h j).2

theorem Alone.step {p : Proc} (h : Alone (own i) i s p) (hop : ∀ path ∈ paths op, own i path) :
    Option.Rel (Alone (own i) i) (s.step lc (i, op)) (Appender.step lc p op) := by
  have hproc : s.proc i = withFiles p s.files := by
    rw [Appenders.proc, h.mlog, h.statics]
    rfl
  have hrel := step_withFiles h.files lc hop
  rw [Appenders.step, hproc]
  cases hrel' : Appender.step lc p op with
  | none =>
    rw [hrel'] at hrel
    cases hq : Appender.step lc (withFiles p s.files) op with
    | none => exact .none
    | some q => rw [hq] at hrel; cases hrel
  | some p' =>
    rw [hrel'] at hrel
    cases hq : Appender.step lc (withFiles p s.files) op with
    | none => rw [hq] at hrel; cases hrel
    | some q =>
      rw [hq] at hrel
      cases hrel with
      | some halike =>
        obtain ⟨files, rfl, ha⟩ := halike
        exact .some ⟨Function.update_self .., rfl, ha⟩

theorem Alone.other {j : ι} {p : Proc} (h : Alone (own j) j s p) (hj : j ≠ i) (hapart : Apart own s)
    (hop : ∀ path ∈ paths op, own i path) (hdis : ∀ i j path, own i path → own j path → i = j)
    (hs : s.step lc (i, op) = some s') : Alone (own j) j s' p := by
  obtain ⟨q, hq, rfl⟩ := Option.map_eq_some_iff.mp hs
  refine ⟨?_, (statics_of_step hq).trans h.statics, fun path ho => ?_⟩
  · dsimp only
    rw [Function.update_of_ne hj]
    exact h.mlog
  · refine Eq.trans ?_ (h.files path ho)
    by_contra hne
    exact hj (hdis j i path ho ((hapart i).2.changed (hapart i).1 hop hq hne))

end Runs

/-- **Several appenders do not meet.** If no two appenders open the same path, then operations on them, in any order,
can be run exactly if the operations on each can be run alone; each appender ends as it does alone, and so do its
files; and a file that nobody opens is as it was. -/
theorem appenders_separate {ι : Type*} [DecidableEq ι] (lc : Libc) (useShareThread : ι → Bool) (files : Disk)
    (statics : FormatStatics) {as : List (ι × Op)} (hdis : ∀ i j path, Opens as i path → Opens as j path → i = j) :
    (∀ s, run (Appenders.step lc) (.create useShareThread files statics) as = some s →
      (∀ i, ∃ p, run (Appender.step lc) (.create (useShareThread i) files statics) (own i as) = some p ∧
        s.apps i = p.mlog ∧ ∀ path, Opens as i path → s.files path = p.files path) ∧
      ∀ path, (∀ i, ¬ Opens as i path) → s.files path = files path) ∧
    (run (Appenders.step lc) (.create useShareThread files statics) as = none →
      ∃ i, run (Appender.step lc) (.create (useShareThread i) files statics) (own i as) = none) := by
  have hm : Meets (Appenders.step lc) (fun _ a => ∀ path ∈ paths a.2, Opens as a.1 path)
      (.create useShareThread files statics) as :=
    meets_of_forall fun a ha path hp => ⟨a, ha, rfl, hp⟩
  have hapart : Apart (Opens as) (.create useShareThread files statics) := fun i =>
    ⟨.inl (closed_create (useShareThread i) files statics), owns_create _⟩
  obtain ⟨hsome, hnone⟩ := run_projects (R := fun i => Alone (Opens as i) i) (P := Apart (Opens as))
    (fun s l s' h hop hs => h.step hop hs) (fun i s p op _ hop h => h.step hop)
    (fun i j s s' p op hj h hop hs ha => ha.other hj h hop hdis hs) as _
    (fun i => .create (useShareThread i) files statics) hapart (fun i => ⟨rfl, rfl, fun _ _ => rfl⟩) hm
  refine ⟨fun s hr => ⟨fun i => ?_, fun path hno => ?_⟩, hnone⟩
  · obtain ⟨p, hp, halone⟩ := hsome s hr i
    exact ⟨p, hp, halone.mlog, halone.files⟩
  · have hreach := reach_of_run hm hr
    refine (hreach.inv (P := fun s => Apart (Opens as) s ∧ s.files path = files path) ⟨hapart, rfl⟩
      fun s l s' h hop hs => ⟨h.1.step hop hs, Eq.trans ?_ h.2⟩).2
    obtain ⟨q, hq, rfl⟩ := Option.map_eq_some_iff.mp hs
    by_contra hne
    exact hno l.1 ((h.1 l.1).2.changed (h.1 l.1).1 hop hq hne)

/-- The directory `"var"`. -/
def dirVar : CStr := ⟨ascii "var", by decide⟩

/-- An appender in sync mode, from `open` to `close`, with one append. -/
def syncSession (name : CStr) : List Op := [.open .ok .ok .sync dirVar name, .append .ok (some textA), .close none .ok]

theorem syncSession_file (name : CStr) :
    ∃ p, run (Appender.step utc) (.create true (fun _ => []) ⟨0, 0⟩) (syncSession name) = some p ∧
      p.files (logfilePath dirVar.bytes name.bytes) = ascii "a\n" := by
  have hempty : EmptyMapping (fun _ => []) (mmapFilePath dirVar.bytes name.bytes) := by
    rw [EmptyMapping, resize, List.take_nil, List.nil_append, List.head?_replicate]; rfl
  obtain ⟨p₁, lb, hs₁, ho, hc, hm, -, hd, hn, hsink⟩ := open_emptyMapping utc true ⟨0, 0⟩ .ok .sync hempty
  have hops : ∀ op ∈ [Op.append .ok (some textA)], SyncOp op := fun op hop => by
    rw [List.mem_singleton.mp hop]
    exact ⟨by decide, FileEnv.succeeds_ok⟩
  have hclose : FileEnv.ok.fcloseStored = none := rfl
  obtain ⟨p₂, hr₂, h₂⟩ := sync_run ho hm hc hops
  obtain ⟨p₃, hs₃, hfile⟩ := close_session utc h₂.toOpened h₂.same none hclose
  refine ⟨p₃, run_of_step hs₁ (run_trans hr₂ (run_of_step hs₃ rfl)), ?_⟩
  rw [hc, closeBack_nil, h₂.file, hsink, landed_of_dir (by rw [hd]; decide), logPath, hd, hn] at hfile
  rw [hfile]
  decide

/-- Two appenders in one directory: the calls of the one are between those of the other. -/
def twoSessions : List (Bool × Op) :=
  [(false, .open .ok .ok .sync dirVar nameLog1), (true, .open .ok .ok .sync dirVar nameLog2),
    (true, .append .ok (some textA)), (false, .append .ok (some textA)),
    (false, .close none .ok), (true, .close none .ok)]

theorem appenders_separate_two :
    ∃ s, run (Appenders.step utc) (.create (fun _ => true) (fun _ => []) ⟨0, 0⟩) twoSessions = some s ∧
      (∀ i, ∃ p, run (Appender.step utc) (.create true (fun _ => []) ⟨0, 0⟩)
          (syncSession (if i then nameLog2 else nameLog1)) = some p ∧ s.apps i = p.mlog) ∧
      s.files (ascii "var/log1.mtlog") = ascii "a\n" ∧ s.files (ascii "var/log2.mtlog") = ascii "a\n" := by
  have hown : ∀ i, own i twoSessions = syncSession (if i then nameLog2 else nameLog1) := by
    rintro (_ | _) <;> rfl
  have hopens : ∀ i path, Opens twoSessions i path ↔
      path ∈ paths (.open .ok .ok .sync dirVar (if i then nameLog2 else nameLog1)) := by
    intro i path
    constructor
    · rintro ⟨a, ha, rfl, hp⟩
      simp only [twoSessions, List.mem_cons, List.not_mem_nil, or_false] at ha
      obtain rfl | rfl | rfl | rfl | rfl | rfl := ha
      · exact hp
      · exact hp
      all_goals cases hp
    · intro hp
      exact ⟨(i, .open .ok .ok .sync dirVar (if i then nameLog2 else nameLog1)), by cases i <;> simp [twoSessions],
        rfl, hp⟩
  have hdis : ∀ i j path, Opens twoSessions i path → Opens twoSessions j path → i = j := by
    intro i j path hi hj
    rw [hopens] at hi hj
    simp only [paths, List.mem_cons, List.not_mem_nil, or_false] at hi hj
    revert hi hj
    cases i <;> cases j
    · exact fun _ _ => rfl
    · rintro (rfl | rfl) (h | h) <;> exact absurd h (by decide)
    · rintro (rfl | rfl) (h | h) <;> exact absurd h (by decide)
    · exact fun _ _ => rfl
  obtain ⟨hsome, hnone⟩ := appenders_separate utc (fun _ => true) (fun _ => []) ⟨0, 0⟩ hdis
  cases hr : run (Appenders.step utc) (.create (fun _ => true) (fun _ => []) ⟨0, 0⟩) twoSessions with
  | none =>
    obtain ⟨i, hi⟩ := hnone hr
    obtain ⟨p, hp, -⟩ := syncSession_file (if i then nameLog2 else nameLog1)
    rw [hown, hp] at hi
    cases hi
  | some s =>
    have hfile : ∀ i, ∃ p, run (Appender.step utc) (.create true (fun _ => []) ⟨0, 0⟩)
          (syncSession (if i then nameLog2 else nameLog1)) = some p ∧ s.apps i = p.mlog ∧
        s.files (logfilePath dirVar.bytes (if i then nameLog2 else nameLog1).bytes) = ascii "a\n" := by
      intro i
      obtain ⟨p, hp, hm, hf⟩ := (hsome s hr).1 i
      rw [hown] at hp
      obtain ⟨p', hp', hfile⟩ := syncSession_file (if i then nameLog2 else nameLog1)
      cases hp.symm.trans hp'
      refine ⟨p, hp, hm, (hf _ ((hopens i _).mpr ?_)).trans hfile⟩
      exact List.mem_cons_of_mem _ List.mem_cons_self
    refine ⟨s, rfl, fun i => ?_, ?_, ?_⟩
    · obtain ⟨p, hp, hm, -⟩ := hfile i
      exact ⟨p, hp, hm⟩
    · obtain ⟨p, -, -, hf⟩ := hfile false
      exact hf
    · obtain ⟨p, -, -, hf⟩ := hfile true
      exact hf

end MTAppenderFile.Loglib.Separation
