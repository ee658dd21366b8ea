import MTAppenderFile.Loglib.Changes
import MTAppenderFile.Loglib.Exactness

/-! # The log file that is kept open

`sg_logfile` is kept open between two write-backs in sync mode. `__openlogfile` uses it again on the same day in
the same directory; the file name is not compared. So the open file must be closed before `open` puts another
name in place. `close` does that, but a write-back that comes after it opens the file again (`handle_stays_open`).

As long as no write-back leaves the file open on an appender that has been closed, and the file name is not
replaced under an open file, every write-back goes to the file of the current directory and name, and a closed
appender has no open file (`writes_current`). -/

namespace MTAppenderFile.Loglib.World

open MTAppenderFile.Lib.Run
open MTAppenderFile.Comm.CTypes
open MTAppenderFile.Loglib.Base
open MTAppenderFile.Loglib.Files
open MTAppenderFile.Loglib.Formatter
open MTAppenderFile.Loglib.Appender
open MTAppenderFile.Loglib.Session (logPath Ready writelogfile log2fileLocked_eq closelogfile_sgLogfile)
open MTAppenderFile.Loglib.Exactness (textA)

/-- A call that closes `m` has set the flag, and not yet closed the log file. -/
def BeforeCloseFile (m : Mlog) (pc : Pc) : Prop :=
  closing m pc = some .notify ∨ closing m pc = some .join ∨ closing m pc = some .free

/-- **The appender has been closed**, or not yet been opened: the flag is set, and no call is on its way to
`__closelogfile`. -/
def Shut (m : Mlog) (w : State) : Prop :=
  (w.apps m).sgLogClose = true ∧ ∀ u, ¬ BeforeCloseFile m (w.pc u)

/-- A thread that is about to call `__openlogfile` and `__writefile` writes to the file of the current directory
and name, at any time of the day. -/
def WritesCurrent (lc : Libc) (m : Mlog) (w : State) : Prop :=
  ∀ t data k, code (w.pc t) = .app m (.log2file data) k → ∀ env : FileEnv,
    (openlogfile lc env (w.apps m).sgLogdir (w.app m)).1 = true →
      (openlogfile lc env (w.apps m).sgLogdir (w.app m)).2.mlog.sgLogfile.map File.path = some (logPath (w.apps m))

/-- The write-back succeeds in sync mode, so that the file stays open. -/
def StaysOpen (lc : Libc) (env : FileEnv) (data : Bytes) (mlog : LogAppender) : Prop :=
  mlog.sgMode = .sync ∧ Ready lc env mlog ∧ (fwrite env data).2 = true

/-- No write-back leaves the file of a closed appender open, and the file name is not replaced while a file is
open. -/
def KeepsHandle (lc : Libc) (w : State) : Label → Prop
  | .run t env => ∀ m,
      (∀ data k, code (w.pc t) = .app m (.log2file data) k → Shut m w →
        ¬ StaysOpen lc env.file data (w.apps m)) ∧
      ∀ filedir filename k, code (w.pc t) = .app m (.names filedir filename) k →
        filename.bytes ≠ (w.apps m).sgLogfilename → (w.apps m).sgLogfile = none
  | _ => True

/-- An open file is the log file of the directory it was opened in. -/
def OpenedAs (mlog : LogAppender) : Prop :=
  ∀ f, mlog.sgLogfile = some f → f.path = logfilePath mlog.sgCurrentDir mlog.sgLogfilename

/-- **The invariant**: an open file is the log file of its directory, and a closed appender has none. -/
structure HandleInv (m : Mlog) (w : State) : Prop where
  ok : OpenedAs (w.apps m)
  shut : Shut m w → (w.apps m).sgLogfile = none

section Sections

variable {lc : Libc} {env : FileEnv} {data : Bytes} {p : Proc} {mlog : LogAppender}

theorem openedAs_of_none (h : mlog.sgLogfile = none) : OpenedAs mlog := fun f hf => by
  rw [h] at hf
  cases hf

/-- **`__openlogfile` opens the log file**, or keeps it. -/
theorem openlogfile_path (h : OpenedAs p.mlog) :
    OpenedAs (openlogfile lc env p.mlog.sgLogdir p).2.mlog ∧
      ((openlogfile lc env p.mlog.sgLogdir p).1 = true →
        (openlogfile lc env p.mlog.sgLogdir p).2.mlog.sgLogfile.map File.path = some (logPath p.mlog)) := by
  unfold openlogfile
  by_cases hd : p.mlog.sgLogdir = []
  · rw [if_pos hd]
    exact ⟨h, by rintro ⟨⟩⟩
  rw [if_neg hd]
  split_ifs with hkept hopen
  · -- the file is kept
    obtain ⟨hsome, hday⟩ := Bool.and_eq_true_iff.mp hkept
    obtain ⟨f, hf⟩ := Option.isSome_iff_exists.mp hsome
    have hdir : p.mlog.sgCurrentDir = p.mlog.sgLogdir :=
      of_decide_eq_true (Bool.and_eq_true_iff.mp hday).2
    refine ⟨h, fun _ => ?_⟩
    show p.mlog.sgLogfile.map File.path = _
    rw [hf, Option.map_some, h f hf, hdir]
    rfl
  · exact ⟨fun f hf => by cases hf; rfl, fun _ => rfl⟩
  · exact ⟨openedAs_of_none rfl, by rintro ⟨⟩⟩

theorem writelogfile_path (env : FileEnv) (data : Bytes) (p : Proc) :
    (writelogfile env data p).2.mlog.sgLogfile.map File.path = p.mlog.sgLogfile.map File.path := by
  simp only [writelogfile, writefile]
  cases p.mlog.sgLogfile with
  | none => rfl
  | some f =>
    by_cases ht : env.ftellOk = true
    · simp [ht]
    · simp [ht]

theorem openedAs_writelogfile (h : OpenedAs p.mlog) : OpenedAs (writelogfile env data p).2.mlog := by
  intro f hf
  have hpath := writelogfile_path env data p
  rw [hf] at hpath
  obtain ⟨f₀, hf₀, hp⟩ := Option.map_eq_some_iff.mp hpath.symm
  exact hp.symm.trans (h f₀ hf₀)

theorem openedAs_log2fileLocked (h : OpenedAs p.mlog) : OpenedAs (log2fileLocked lc env data p).mlog := by
  have hopen : OpenedAs (openlogfile lc env p.mlog.sgLogdir p).2.mlog := (openlogfile_path h).1
  rw [log2fileLocked_eq]
  dsimp only
  split_ifs
  · exact openedAs_of_none (closelogfile_sgLogfile ..)
  · exact openedAs_writelogfile hopen
  · exact hopen

theorem writelogfile_fst {f : File} (hf : p.mlog.sgLogfile = some f) :
    (writelogfile env data p).1 = true ↔ env.ftellOk = true ∧ (fwrite env data).2 = true := by
  simp only [writelogfile, writefile, hf]
  by_cases ht : env.ftellOk = true
  · simp [ht]
  · simp [ht]

/-- `__log2file` keeps a file open only after a write-back that succeeds in sync mode. -/
theorem log2fileLocked_closes (hn : p.mlog.sgLogfile = none) (h : ¬ StaysOpen lc env data p.mlog) :
    (log2fileLocked lc env data p).mlog.sgLogfile = none := by
  rw [log2fileLocked_eq]
  unfold openlogfile
  by_cases hd : p.mlog.sgLogdir = []
  · rw [if_pos hd, if_neg Bool.false_ne_true]
    exact hn
  rw [if_neg hd, hn, Option.isSome_none, Bool.false_and, if_neg Bool.false_ne_true]
  by_cases ho : env.fopenOk = true
  · simp only [ho, if_true, Option.isSome_some]
    split_ifs with hclose
    · exact closelogfile_sgLogfile ..
    · -- the write has succeeded in sync mode
      obtain ⟨hmode, hw⟩ := not_or.mp hclose
      obtain ⟨ht, hf⟩ := (writelogfile_fst rfl).mp (not_not.mp hw)
      have hsync : p.mlog.sgMode = .sync := by
        cases hm : p.mlog.sgMode with
        | async => exact absurd hm hmode
        | sync => rfl
      exact absurd ⟨hsync, ⟨hd, .inr ho, ht⟩, hf⟩ h
  · simp [ho]

end Sections

section Handle

variable {lc : Libc} {env : Env} {t u : Tid} {w w₁ w' : State} {st : Stmt} {m : Mlog} {pc : Pc}

/-- What a statement does to the log file of `m`: a write-back, a new name, the end of it, or nothing. -/
theorem Effect.handle (he : Effect lc env t w st w₁ pc) (m : Mlog) :
    (∃ data k, st = .app m (.log2file data) k ∧
        w₁.apps m = (log2fileLocked lc env.file data (w.app m)).mlog) ∨
      (∃ filedir filename k, st = .app m (.names filedir filename) k ∧
        w₁.apps m = { w.apps m with sgLogdir := filedir.bytes, sgLogfilename := filename.bytes }) ∨
      (w₁.apps m).sgLogfile = none ∨
      (w₁.apps m).sgLogfile = (w.apps m).sgLogfile ∧ (w₁.apps m).sgCurrentDir = (w.apps m).sgCurrentDir ∧
        (w₁.apps m).sgLogfilename = (w.apps m).sgLogfilename := by
  cases he with
  | @app α n op k p a hn h =>
    by_cases hmn : m = n
    · subst hmn
      have happ : (w.setApp m p).apps m = p.mlog := Function.update_self ..
      rw [happ]
      have hs := AppOp.run_spec h
      cases op with
      | log2file data => cases h; exact .inl ⟨data, k, rfl, rfl⟩
      | names filedir filename => cases h; exact .inr (.inl ⟨filedir, filename, k, rfl, rfl⟩)
      | closelogfile =>
        obtain ⟨_, hs⟩ := hs
        exact .inr (.inr (.inl (by rw [hs])))
      | loadClose | loadMode | loadBuff | emptyDir | length =>
        exact .inr (.inr (.inr (by rw [hs.1]; exact ⟨rfl, rfl, rfl⟩)))
      | storeClose | storeMode | format | free =>
        exact .inr (.inr (.inr (by rw [hs]; exact ⟨rfl, rfl, rfl⟩)))
      | insert =>
        obtain ⟨_, _, -, hs, -⟩ := hs
        exact .inr (.inr (.inr (by rw [hs]; exact ⟨rfl, rfl, rfl⟩)))
      | drain =>
        obtain ⟨_, -, hs⟩ := hs
        exact .inr (.inr (.inr (by rw [hs]; exact ⟨rfl, rfl, rfl⟩)))
      | map =>
        obtain ⟨_, _, hs⟩ := hs
        exact .inr (.inr (.inr (by rw [hs]; exact ⟨rfl, rfl, rfl⟩)))
      | buff =>
        obtain ⟨_, hs⟩ := hs
        exact .inr (.inr (.inr (by rw [hs]; exact ⟨rfl, rfl, rfl⟩)))
    · have happ : (w.setApp n p).apps m = w.apps m := Function.update_of_ne hmn ..
      rw [happ]
      exact .inr (.inr (.inr ⟨rfl, rfl, rfl⟩))
  | _ => exact .inr (.inr (.inr ⟨rfl, rfl, rfl⟩))

theorem Effect.beforeCloseFile (he : Effect lc env t w (code (w.pc t)) w₁ pc)
    (hb : BeforeCloseFile m (w.pc t)) : BeforeCloseFile m pc ∨ (w₁.apps m).sgLogfile = none := by
  have hnext : ∀ {s}, closing m (w.pc t) = some s → s ≠ .load → s ≠ .done →
      (∃ s', closing m pc = some s' ∧ CloseMove m w w₁ s s') ∨ (w₁.apps m).sgLogfile = none := by
    intro s hs hl hd
    rcases he.closing_next hs with ⟨-, hm⟩ | h
    · cases hm with
      | stay => exact absurd rfl hd
      | closed => exact absurd rfl hl
      | file h => exact .inr h
    · exact .inl h
  rcases hb with hb | hb | hb
  · rcases hnext hb (by simp) (by simp) with ⟨s', hs', hm⟩ | h
    · cases hm with
      | stay => exact .inl (.inl hs')
      | notify => exact .inl (.inr (.inl hs'))
    · exact .inr h
  · rcases hnext hb (by simp) (by simp) with ⟨s', hs', hm⟩ | h
    · cases hm with
      | stay => exact .inl (.inr (.inl hs'))
      | join => exact .inl (.inr (.inr hs'))
    · exact .inr h
  · rcases hnext hb (by simp) (by simp) with ⟨s', hs', hm⟩ | h
    · cases hm with
      | stay => exact .inl (.inr (.inr hs'))
      | file h => exact .inr h
    · exact .inr h

theorem Synced.shut_of_run (hs : Synced w) (he : Effect lc env t w (code (w.pc t)) w₁ pc)
    (h : Shut m (w₁.goto t pc)) : Shut m w ∨ (w₁.apps m).sgLogfile = none := by
  obtain ⟨hflag, hnone⟩ := h
  have hpc : ¬ BeforeCloseFile m pc := by
    have hpc := hnone t
    rwa [goto_pc_self] at hpc
  by_cases hb : ∃ u, BeforeCloseFile m (w.pc u)
  · obtain ⟨u, hu⟩ := hb
    by_cases hut : u = t
    · subst hut
      exact .inr ((he.beforeCloseFile hu).resolve_left hpc)
    · have hn := hnone u
      rw [BeforeCloseFile, hs.closing_of_ne he hut] at hn
      exact absurd hu hn
  · refine .inl ⟨?_, fun u hu => hb ⟨u, hu⟩⟩
    have hf := he.sgLogClose m
    rw [show (w₁.apps m).sgLogClose = true from hflag] at hf
    cases hst : (code (w.pc t)).stores m with
    | none => rw [hst] at hf; exact hf.symm
    | some b =>
      rw [hst] at hf
      cases hf
      -- this is the store of `close`
      rcases he.closing_next (closing_of_stores hst) with ⟨-, hm⟩ | ⟨s', hs', hm⟩
      · cases hm
      · cases hm with
        | stay h => exact absurd rfl h
        | store => exact absurd (.inl hs') hpc

theorem HandleInv.run (h : HandleInv m w) (hs : Synced w) (hc : KeepsHandle lc w (.run t env))
    (he : Effect lc env t w (code (w.pc t)) w₁ pc) : HandleInv m (w₁.goto t pc) := by
  obtain ⟨hlog, hnames⟩ := hc m
  have hshut : Shut m (w₁.goto t pc) → (w.apps m).sgLogfile = none ∨ (w₁.apps m).sgLogfile = none :=
    fun hsh => (hs.shut_of_run he hsh).imp_left h.shut
  rcases he.handle m with ⟨data, k, hst, happ⟩ | ⟨filedir, filename, k, hst, happ⟩ | hnone |
    ⟨hfile, hdir, hname⟩
  · -- a write-back
    refine ⟨show OpenedAs (w₁.apps m) by rw [happ]; exact openedAs_log2fileLocked h.ok, fun hsh => ?_⟩
    rcases hs.shut_of_run he hsh with hsh | hn
    · show (w₁.apps m).sgLogfile = none
      rw [happ]
      exact log2fileLocked_closes (h.shut hsh) (hlog data k hst hsh)
    · exact hn
  · -- a new directory and a new name
    refine ⟨?_, fun hsh => ?_⟩
    · show OpenedAs (w₁.apps m)
      rw [happ]
      by_cases hn : filename.bytes = (w.apps m).sgLogfilename
      · rw [hn]
        exact h.ok
      · exact openedAs_of_none (hnames filedir filename k hst hn)
    · show (w₁.apps m).sgLogfile = none
      rcases hshut hsh with hn | hn
      · rw [happ]
        exact hn
      · exact hn
  · exact ⟨openedAs_of_none hnone, fun _ => hnone⟩
  · refine ⟨fun f hf => ?_, fun hsh => ?_⟩
    · show f.path = logfilePath (w₁.apps m).sgCurrentDir (w₁.apps m).sgLogfilename
      rw [hdir, hname]
      exact h.ok f (hfile.symm.trans hf)
    · show (w₁.apps m).sgLogfile = none
      rcases hshut hsh with hn | hn
      · rw [hfile, hn]
      · exact hn

theorem HandleInv.enter (h : HandleInv m w) {n : ℕ} (happ : (w₁.apps m).sgLogfile = none ∨ w₁.apps m = w.apps m)
    (hi : w.pc (.caller n) = .idle) (hpc : w₁.pc = w.pc) : HandleInv m (w₁.goto (.caller n) pc) := by
  rcases happ with hn | happ
  · exact ⟨openedAs_of_none hn, fun _ => hn⟩
  refine ⟨show OpenedAs (w₁.apps m) by rw [happ]; exact h.ok, fun hsh => ?_⟩
  obtain ⟨hflag, hnone⟩ := hsh
  show (w₁.apps m).sgLogfile = none
  rw [happ]
  refine h.shut ⟨happ ▸ hflag, fun u hu => ?_⟩
  by_cases hut : u = .caller n
  · rw [hut, hi] at hu
    rcases hu with hu | hu | hu <;> cases hu
  · have hn := hnone u
    rw [goto_pc_of_ne _ hut, hpc] at hn
    exact hn hu

theorem HandleInv.step {l : Label} (h : HandleInv m w) (hs : Synced w) (hc : KeepsHandle lc w l)
    (hstep : World.step lc w l = some w') : HandleInv m w' := by
  rcases step_cases hstep with ⟨n, share, -, hi, rfl⟩ | ⟨n, m', u, -, hi, -, rfl⟩ |
    ⟨t, env, w₁, pc, rfl, he, rfl⟩
  · refine h.enter ?_ hi rfl
    by_cases hm : m = ⟨share, w.created⟩
    · left
      show (Function.update w.apps _ _ m).sgLogfile = none
      rw [hm, Function.update_self]
      rfl
    · exact .inr (Function.update_of_ne hm ..)
  · cases u <;> exact h.enter (.inr rfl) hi rfl
  · exact h.run hs hc he

end Handle

/-- **Every write-back goes to the file of the current directory and name, and a closed appender has no open
file**, as long as no write-back leaves the file of a closed appender open and the file name is not replaced while
a file is open. -/
theorem writes_current (lc : Libc) (files : Disk) (statics : FormatStatics) (w : State)
    (h : Reach (step lc) (KeepsHandle lc) (.init files statics) w) (m : Mlog) :
    WritesCurrent lc m w ∧ (Shut m w → (w.apps m).sgLogfile = none) := by
  have hinv : Synced w ∧ HandleInv m w := by
    refine h.inv (P := fun w => Synced w ∧ HandleInv m w)
      ⟨synced_init files statics, openedAs_of_none rfl, fun _ => rfl⟩ fun s l s' hs hc hstep => ?_
    exact ⟨hs.1.step hstep, hs.2.step hs.1 hc hstep⟩
  refine ⟨fun t data k hst env ho => ?_, hinv.2.shut⟩
  exact (openlogfile_path (p := w.app m) hinv.2.ok).2 ho

/-- An appender is opened in sync mode, and `append` comes up to the lock in `__log2file`; another caller closes the
appender; and `append` goes on. -/
def writeAfterClose : List Label :=
  .create 0 true :: runs (.caller 0) 4 ++
  .call 0 ⟨true, 0⟩ (.open .sync dirD nameN) :: runs (.caller 0) 12 ++
  .call 0 ⟨true, 0⟩ (.append none (some textA)) :: runs (.caller 0) 4 ++
  .call 1 ⟨true, 0⟩ .close :: runs (.caller 1) 15 ++
  runs (.caller 0) 3

/-- The appender is opened again under another name, and `append` comes up to its write. -/
def writeAfterReopen : List Label :=
  writeAfterClose ++
  .call 0 ⟨true, 0⟩ (.open .sync dirD nameO) :: runs (.caller 0) 12 ++
  .call 0 ⟨true, 0⟩ (.append none (some textA)) :: runs (.caller 0) 5

/-- Whether a thread is to write to the log file of `m` for `append`. -/
def Pc.writes (m : Mlog) : Pc → Bool
  | .append n _ _ (.file _ .write) => n = m
  | _ => false

theorem code_of_writes {m : Mlog} {pc : Pc} (h : pc.writes m = true) :
    ∃ data k, code pc = .app m (.log2file data) k := by
  unfold Pc.writes at h
  split at h
  · exact ⟨_, _, by rw [of_decide_eq_true h]; rfl⟩
  · cases h

theorem handle_stays_open :
    (∃ w m, Reach (step utc) (fun _ _ => True) (.init (fun _ => []) ⟨0, 0⟩) w ∧ Shut m w ∧
        (w.apps m).sgLogfile ≠ none) ∧
      ∃ w m, Reach (step utc) (fun _ _ => True) (.init (fun _ => []) ⟨0, 0⟩) w ∧ ¬ WritesCurrent utc m w := by
  constructor
  · have hrun : (run (step utc) (.init (fun _ => []) ⟨0, 0⟩) writeAfterClose).any (fun w =>
        (w.pc (.caller 0)).isIdle && (w.pc (.caller 1)).isIdle && (w.apps ⟨true, 0⟩).sgLogClose &&
          decide ((w.apps ⟨true, 0⟩).sgLogfile ≠ none)) = true := by
      decide +kernel
    obtain ⟨w, hw, hb⟩ := (Option.any_eq_true _ _).mp hrun
    simp only [Bool.and_eq_true, isIdle_iff, decide_eq_true_iff] at hb
    obtain ⟨⟨⟨h₀, h₁⟩, hflag⟩, hfile⟩ := hb
    have hreach : Reach (step utc) (fun _ _ => True) (.init (fun _ => []) ⟨0, 0⟩) w :=
      reach_of_run (meets_of_forall fun _ _ => trivial) hw
    have hidle : IdleBut [0, 1] w := idleBut_of_run hw (by decide)
    refine ⟨w, ⟨true, 0⟩, hreach, ⟨hflag, fun u hu => ?_⟩, hfile⟩
    -- all calls have returned
    obtain ⟨s, hs⟩ : ∃ s, closing ⟨true, 0⟩ (w.pc u) = some s := by
      rcases hu with hu | hu | hu <;> exact ⟨_, hu⟩
    obtain ⟨n, rfl⟩ := (synced_of_reach hreach).caller_of_closing hs
    rw [hidle.idle (by simp [h₀, h₁])] at hs
    cases hs
  · have hrun : (run (step utc) (.init (fun _ => []) ⟨0, 0⟩) writeAfterReopen).any (fun w =>
        (w.pc (.caller 0)).writes ⟨true, 0⟩ &&
          let p := w.app ⟨true, 0⟩
          (openlogfile utc .ok p.mlog.sgLogdir p).1 &&
            decide ((openlogfile utc .ok p.mlog.sgLogdir p).2.mlog.sgLogfile.map File.path ≠
              some (logPath p.mlog))) = true := by
      decide +kernel
    obtain ⟨w, hw, hb⟩ := (Option.any_eq_true _ _).mp hrun
    simp only [Bool.and_eq_true, decide_eq_true_iff] at hb
    obtain ⟨hwrites, hopen, hfile⟩ := hb
    obtain ⟨data, k, hst⟩ := code_of_writes hwrites
    exact ⟨w, ⟨true, 0⟩, reach_of_run (meets_of_forall fun _ _ => trivial) hw,
      fun h => hfile (h (.caller 0) data k hst .ok hopen)⟩

/-- A test of `KeepsHandle`. -/
def handleTest (w : State) : Label → Bool
  | .run t _ => match code (w.pc t) with
    | .app m (.log2file _) _ => !(w.apps m).sgLogClose
    | .app m (.names _ _) _ => (w.apps m).sgLogfile.isNone
    | _ => true
  | _ => true

theorem keepsHandle_of_test {lc : Libc} {w : State} {l : Label} (h : handleTest w l = true) :
    KeepsHandle lc w l := by
  cases l with
  | run t env =>
    refine fun m => ⟨fun data k hst hshut => ?_, fun filedir filename k hst _ => ?_⟩
    · rw [handleTest, hst] at h
      have hflag : (w.apps m).sgLogClose = false := by simpa using h
      exact absurd (hshut.1.symm.trans hflag) (by decide)
    · rw [handleTest, hst] at h
      exact Option.isNone_iff_eq_none.mp h
  | _ => trivial

/-- A record is appended in async mode, and the worker writes it to the file. The mode is changed, and a record is
appended in sync mode, which leaves the file open. The appender is closed, and opened under another name, and `append`
comes up to its write. -/
def writeAcrossNames : List Label :=
  openNew 0 ++
  .call 0 ⟨true, 0⟩ (.append none (some textA)) :: runs (.caller 0) 18 ++
  runs (.worker .shared) 22 ++
  .call 0 ⟨true, 0⟩ (.setmode .sync) :: runs (.caller 0) 4 ++
  .call 1 ⟨true, 0⟩ (.append none (some textA)) :: runs (.caller 1) 7 ++
  .call 0 ⟨true, 0⟩ .close :: runs (.caller 0) 15 ++
  .call 1 ⟨true, 0⟩ (.open .sync dirD nameO) :: runs (.caller 1) 12 ++
  .call 0 ⟨true, 0⟩ (.append none (some textA)) :: runs (.caller 0) 5

theorem writes_current_acrossNames :
    ∃ w, run (step utc) (.init (fun _ => []) ⟨0, 0⟩) writeAcrossNames = some w ∧
      (w.apps ⟨true, 0⟩).sgLogfilename = nameO.bytes ∧
      (∃ data k, code (w.pc (.caller 0)) = .app ⟨true, 0⟩ (.log2file data) k) ∧
      WritesCurrent utc ⟨true, 0⟩ w ∧ (Shut ⟨true, 0⟩ w → (w.apps ⟨true, 0⟩).sgLogfile = none) := by
  have hrun : (run (step utc) (.init (fun _ => []) ⟨0, 0⟩) writeAcrossNames).any (fun w =>
      decide ((w.apps ⟨true, 0⟩).sgLogfilename = nameO.bytes) && (w.pc (.caller 0)).writes ⟨true, 0⟩) = true := by
    decide +kernel
  obtain ⟨w, hw, hb⟩ := (Option.any_eq_true _ _).mp hrun
  simp only [Bool.and_eq_true, decide_eq_true_iff] at hb
  have hmeets : Meets (step utc) (KeepsHandle utc) (.init (fun _ => []) ⟨0, 0⟩) writeAcrossNames :=
    meets_of_test [0, 1] handleTest (fun w l _ _ h => keepsHandle_of_test h) (by decide +kernel) (by decide +kernel)
  exact ⟨w, hw, hb.1, code_of_writes hb.2,
    writes_current utc (fun _ => []) ⟨0, 0⟩ w (reach_of_run hmeets hw) ⟨true, 0⟩⟩

end MTAppenderFile.Loglib.World
