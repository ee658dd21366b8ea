import MTAppenderFile.Loglib.Journal
import MTAppenderFile.Loglib.Modes

/-! # What many sessions write

An appender is opened and closed any number of times, on any directories and names, changes its mode, appends
and flushes. Every record that is appended to a log file is written to it exactly once, and those of one mode in
the order in which they were appended (`written_once`): nothing is left behind by a session, and nothing is
recovered by the next one, since `close` has wiped the mapped file.

It is proved for the journal. For each log file there are the records that are written and those that wait, all of
the async mode (`Split`); a flush moves these behind the ones that are written. -/

namespace MTAppenderFile.Loglib.Sessions

open MTAppenderFile.Lib.Block
open MTAppenderFile.Lib.Buffered
open MTAppenderFile.Lib.Run
open MTAppenderFile.Comm.CTypes
open MTAppenderFile.Comm.Ptr
open MTAppenderFile.Loglib.Base
open MTAppenderFile.Loglib.Buffer
open MTAppenderFile.Loglib.Files
open MTAppenderFile.Loglib.Formatter
open MTAppenderFile.Loglib.Appender
open MTAppenderFile.Loglib.Session
open MTAppenderFile.Loglib.Lifecycle
open MTAppenderFile.Loglib.Exactness
open MTAppenderFile.Loglib.Modes
open MTAppenderFile.Loglib.Separation
open MTAppenderFile.Loglib.Journal

/-- A record that is appended: its log file, the mode at the time, and its bytes. -/
structure Entry where
  path : Bytes
  mode : AppendMode
  record : Bytes
  deriving DecidableEq

/-! ### Written and waiting -/

/-- Of the entries `h` of a log file, which held `before`, some are written and the others wait, those of one mode
in order. -/
def Split (before now pending : Bytes) (h : List Entry) : Prop :=
  ∃ written waiting : List Entry, now = before ++ written.flatMap Entry.record ∧
    pending = waiting.flatMap Entry.record ∧ (∀ e ∈ waiting, e.mode = .async) ∧
    ∀ m, (written ++ waiting).filter (fun e => e.mode = m) = h.filter fun e => e.mode = m

section Split

variable {before now pending : Bytes} {h : List Entry} {e : Entry}

theorem split_nil (before : Bytes) : Split before before [] [] :=
  ⟨[], [], (List.append_nil _).symm, rfl, fun _ he => absurd he List.not_mem_nil, fun _ => rfl⟩

/-- A record in sync mode overtakes those that wait, which are of the other mode. -/
theorem Split.sync (hs : Split before now pending h) (he : e.mode = .sync) :
    Split before (now ++ e.record) pending (h ++ [e]) := by
  obtain ⟨written, waiting, hnow, hpending, hasync, hfilter⟩ := hs
  refine ⟨written ++ [e], waiting, ?_, hpending, hasync, fun m => ?_⟩
  · rw [hnow, List.flatMap_append, List.flatMap_singleton, List.append_assoc]
  · rw [List.filter_append h, ← hfilter m]
    simp only [List.filter_append]
    cases m with
    | async => simp [he]
    | sync =>
      have hnone : waiting.filter (fun e => e.mode = .sync) = [] :=
        List.filter_eq_nil_iff.mpr fun e hw => by simp [hasync e hw]
      rw [hnone, List.append_nil, List.append_nil]

theorem Split.async (hs : Split before now pending h) (he : e.mode = .async) :
    Split before now (pending ++ e.record) (h ++ [e]) := by
  obtain ⟨written, waiting, hnow, hpending, hasync, hfilter⟩ := hs
  refine ⟨written, waiting ++ [e], hnow, ?_, fun e' he' => ?_, fun m => ?_⟩
  · rw [hpending, List.flatMap_append, List.flatMap_singleton]
  · rcases List.mem_append.mp he' with hw | he'
    · exact hasync e' hw
    · rw [List.mem_singleton.mp he']
      exact he
  · rw [← List.append_assoc, List.filter_append, hfilter m, ← List.filter_append]

theorem Split.flush (hs : Split before now pending h) : Split before (now ++ pending) [] h := by
  obtain ⟨written, waiting, hnow, hpending, -, hfilter⟩ := hs
  refine ⟨written ++ waiting, [], ?_, rfl, fun _ he => absurd he List.not_mem_nil, fun m => ?_⟩
  · rw [hnow, hpending, List.flatMap_append, List.append_assoc]
  · rw [List.append_nil]
    exact hfilter m

end Split

/-! ### The journal -/

/-- The bytes that wait for a log file. -/
def pendingAt (j : State) (path : Bytes) : Bytes :=
  match j.log with
  | some l => if l.logPath = path then l.pending else []
  | none => []

/-- The entry of a record. -/
def entryOf (j : State) (record : Bytes) : Option Entry := j.log.map fun l => ⟨l.logPath, j.mode, record⟩

/-- **What is kept**: the mapped files are blank, an open log is in a directory, its two files are of their two
kinds, and every log file is split. -/
structure Kept (files : Disk) (maps : Bytes → Prop) (j : State) (h : List Entry) : Prop where
  blank : ∀ path, maps path → EmptyMapping j.files path
  log : ∀ l, j.log = some l → l.dir ≠ [] ∧ maps l.mapPath ∧ ¬ maps l.logPath
  split : ∀ path, ¬ maps path → Split (files path) (j.files path) (pendingAt j path) (h.filter fun e => e.path = path)

section Kept

variable {files fs : Disk} {maps : Bytes → Prop} {mode : AppendMode} {h : List Entry} {l : OpenLog}

theorem kept_create (hblank : ∀ path, maps path → EmptyMapping files path) : Kept files maps (.create files) [] where
  blank := hblank
  log := by rintro _ ⟨⟩
  split path _ := split_nil (files path)

theorem pendingAt_some (path : Bytes) :
    pendingAt ⟨fs, mode, some l⟩ path = if l.logPath = path then l.pending else [] := rfl

theorem write_apply (hdir : l.dir ≠ []) (data : Bytes) (fs : Disk) (path : Bytes) :
    l.write data fs path = if l.logPath = path then fs path ++ data else fs path := by
  rw [OpenLog.write, if_neg hdir]
  split_ifs with hp
  · rw [← hp, Function.update_self]
  · exact Function.update_of_ne (Ne.symm hp) _ _

theorem emptyMapping_congr {fs' : Disk} {path : Bytes} (he : fs' path = fs path) (hb : EmptyMapping fs path) :
    EmptyMapping fs' path := by rwa [EmptyMapping, he]

theorem Kept.blank_write (hk : Kept files maps ⟨fs, mode, some l⟩ h) (data : Bytes) {path : Bytes} (hp : maps path) :
    EmptyMapping (l.write data fs) path := by
  obtain ⟨hdir, -, hlog⟩ := hk.log l rfl
  refine emptyMapping_congr ?_ (hk.blank path hp)
  rw [write_apply hdir, if_neg]
  rintro rfl
  exact hlog hp

theorem filter_append_entry (e : Entry) (path : Bytes) :
    (h ++ [e]).filter (fun e => e.path = path) =
      h.filter (fun e => e.path = path) ++ if e.path = path then [e] else [] := by
  rw [List.filter_append]
  by_cases hp : e.path = path <;> simp [hp]

/-- **A flush.** -/
theorem Kept.flush {j : State} (hk : Kept files maps j h) : Kept files maps j.flush h := by
  obtain ⟨fs, mode, _ | l⟩ := j
  · exact hk
  · obtain ⟨hdir, hmap, hlog⟩ := hk.log l rfl
    refine ⟨fun path hp => hk.blank_write l.pending hp, ?_, fun path hp => ?_⟩
    · rintro _ ⟨⟩
      exact ⟨hdir, hmap, hlog⟩
    · have hs := hk.split path hp
      have hzero : pendingAt (State.flush ⟨fs, mode, some l⟩) path = [] := ite_self _
      have hfiles : (State.flush ⟨fs, mode, some l⟩).files path = l.write l.pending fs path := rfl
      rw [hzero, hfiles, write_apply hdir]
      rw [pendingAt_some] at hs
      by_cases hpath : l.logPath = path
      · rw [if_pos hpath] at hs ⊢
        exact hs.flush
      · rw [if_neg hpath] at hs ⊢
        exact hs

theorem Kept.sync (hk : Kept files maps ⟨fs, .sync, some l⟩ h) (record : Bytes) :
    Kept files maps ⟨l.write record fs, .sync, some l⟩ (h ++ [⟨l.logPath, .sync, record⟩]) := by
  refine ⟨fun path hp => hk.blank_write record hp, hk.log, fun path hp => ?_⟩
  have hs := hk.split path hp
  rw [filter_append_entry]
  dsimp only
  rw [write_apply (hk.log l rfl).1]
  split_ifs with hpath
  · exact hs.sync (e := ⟨l.logPath, .sync, record⟩) rfl
  · rw [List.append_nil]
    exact hs

theorem Kept.async (hk : Kept files maps ⟨fs, .async, some l⟩ h) (record : Bytes) :
    Kept files maps ⟨fs, .async, some { l with pending := l.pending ++ record }⟩
      (h ++ [⟨l.logPath, .async, record⟩]) := by
  refine ⟨hk.blank, ?_, fun path hp => ?_⟩
  · rintro _ ⟨⟩
    exact hk.log l rfl
  · have hs := hk.split path hp
    have hpend : pendingAt ⟨fs, .async, some { l with pending := l.pending ++ record }⟩ path =
        if l.logPath = path then l.pending ++ record else [] := rfl
    rw [filter_append_entry, hpend]
    rw [pendingAt_some] at hs
    dsimp only
    by_cases hpath : l.logPath = path
    · rw [if_pos hpath] at hs
      rw [if_pos hpath, if_pos hpath]
      exact hs.async (e := ⟨l.logPath, .async, record⟩) rfl
    · rw [if_neg hpath] at hs
      rw [if_neg hpath, if_neg hpath, List.append_nil]
      exact hs

/-- **An append** that finds the buffer below 4/5 of the block. -/
theorem Kept.append {j j' : State} (hk : Kept files maps j h) {record : Option Bytes}
    (hrecord : ∀ r ∈ record, r.length ≤ 16 * 1024)
    (hlow : j.mode = .async → ∀ l ∈ j.log, l.pending.length < 122880) (hs : j.append record = some j') :
    Kept files maps j' (h ++ (record.bind (entryOf j)).toList) := by
  obtain ⟨fs, mode, _ | l⟩ := j
  · cases hs
    have hnone : record.bind (entryOf ⟨fs, mode, none⟩) = none := Option.bind_eq_none_iff.mpr fun _ _ => rfl
    rw [hnone, Option.toList_none, List.append_nil]
    exact hk
  · obtain ⟨r, rfl, rfl⟩ := Option.map_eq_some_iff.mp hs
    cases mode with
    | sync => exact hk.sync r
    | async =>
      have hlt := hlow rfl l rfl
      have hr := hrecord r rfl
      have hline : (l.pending ++ waitingLine r l.pending.length).take 153600 = l.pending ++ r := by
        rw [waitingLine, if_neg (by omega), List.take_of_length_le (by rw [List.length_append]; omega)]
      dsimp only
      rw [hline]
      exact hk.async r

theorem Kept.remap {j j' : State} (hk : Kept files maps j h)
    (hblank : ∀ path, maps path → EmptyMapping j.files path → EmptyMapping j'.files path)
    (hfiles : ∀ path, ¬ maps path → j'.files path = j.files path)
    (hlog : ∀ l, j'.log = some l → l.dir ≠ [] ∧ maps l.mapPath ∧ ¬ maps l.logPath)
    (hpending : ∀ path, pendingAt j' path = pendingAt j path) : Kept files maps j' h := by
  refine ⟨fun path hp => hblank path hp (hk.blank path hp), hlog, fun path hp => ?_⟩
  rw [hfiles path hp, hpending]
  exact hk.split path hp

theorem emptyMapping_update {path path' m : Bytes} (hm : m.length = 150 * 1024) (h0 : m.head? = some 0)
    (hb : EmptyMapping fs path') : EmptyMapping (Function.update fs path m) path' := by
  by_cases hp : path' = path
  · rw [EmptyMapping, hp, Function.update_self, resize_of_length hm]
    exact h0
  · exact emptyMapping_congr (Function.update_of_ne hp _ _) hb

/-- **An open** of a mapped file that is blank, or over memory that starts with a NUL. -/
theorem Kept.open {j j' : State} (hk : Kept files maps j h) {oenv : OpenEnv} {dir name : Bytes} (hdir : dir ≠ [])
    (hmap : maps (mmapFilePath dir name)) (hlog : ¬ maps (logfilePath dir name))
    (hheap : oenv.openOk = false → (resize oenv.heap (150 * 1024)).head? = some 0)
    (hs : j.open oenv mode dir name = some j') : Kept files maps j' h := by
  obtain ⟨fs, mode', _ | l⟩ := j
  · have hblank : (openBlock oenv fs (mmapFilePath dir name)).head? = some 0 := by
      rw [openBlock]
      cases ho : oenv.openOk with
      | false => exact hheap ho
      | true => exact hk.blank _ hmap
    have hlen := length_openBlock oenv fs (mmapFilePath dir name)
    simp only [State.open, OpenLog.mapPath] at hs
    by_cases hfail : oenv.openOk = true ∧ ¬ oenv.mmapOk = true
    · rw [if_pos hfail] at hs
      cases hs
    rw [if_neg hfail, recovered, if_pos hblank, OpenLog.write_nil] at hs
    cases hs
    refine hk.remap (fun path hp hb => ?_) (fun path hp => ?_) ?_ fun path => ite_self _
    · dsimp only
      split_ifs
      · exact emptyMapping_update hlen hblank hb
      · exact hb
    · dsimp only
      split_ifs
      · refine Function.update_of_ne ?_ _ _
        rintro rfl
        exact hp hmap
      · rfl
    · rintro _ ⟨⟩
      exact ⟨hdir, hmap, hlog⟩
  · cases hs
    exact hk

theorem Kept.wipe {j : State} (hk : Kept files maps j h) (hnone : ∀ l ∈ j.log, l.pending = []) :
    Kept files maps (j.close false) h := by
  obtain ⟨fs, mode, _ | l⟩ := j
  · exact hk
  · obtain ⟨hdir, hmap, hlog⟩ := hk.log l rfl
    have hzero : (List.replicate 153600 0 : Bytes).head? = some 0 := rfl
    refine hk.remap (fun path hp hb => ?_) (fun path hp => ?_) (by rintro _ ⟨⟩) fun path => ?_
    · simp only [State.close, Bool.false_eq_true, if_false]
      split_ifs
      · exact emptyMapping_update List.length_replicate hzero hb
      · exact hb
    · simp only [State.close, Bool.false_eq_true, if_false]
      split_ifs
      · refine Function.update_of_ne ?_ _ _
        rintro rfl
        exact hp hmap
      · rfl
    · rw [pendingAt_some, hnone l rfl]
      exact (ite_self _).symm

/-- **A close** that flushes, or has nothing to flush. -/
theorem Kept.close {j : State} (hk : Kept files maps j h) {flushes : Bool}
    (hflush : flushes = false → ∀ l ∈ j.log, l.pending = []) : Kept files maps (j.close flushes) h := by
  cases flushes with
  | false => exact hk.wipe (hflush rfl)
  | true =>
    refine hk.flush.wipe ?_
    obtain ⟨fs, mode, _ | l⟩ := j
    · rintro _ ⟨⟩
    · rintro _ ⟨⟩
      rfl

end Kept

/-! ### Runs -/

/-- The record that an operation appends. -/
def appended (lc : Libc) (p : Proc) : Op → Option Entry
  | .append _ log => entry none log
  | .appendEx _ log info => entry info log
  | _ => none
where
  /-- The record for the log file of an open appender. -/
  entry (info : Option LogInfo) (log : Option CStr) : Option Entry :=
    if p.mlog.sgLogClose then none
    else (printRecord lc p.statics info log).map fun record => ⟨logPath p.mlog, p.mlog.sgMode, record⟩

/-- The mapped files of the appenders that are opened. -/
def Maps (ops : List Op) (path : Bytes) : Prop :=
  ∃ oenv env mode filedir filename, Op.open oenv env mode filedir filename ∈ ops ∧
    path = mmapFilePath filedir.bytes filename.bytes

/-- The operations without a loss: the file operations succeed, an append in async mode finds the buffer below 4/5
of the block, memory from the heap starts with a NUL, and the appender's own thread flushes on `close` if there is
something to flush. -/
def Lossless (p : Proc) (op : Op) : Prop :=
  OpSucceeds op ∧ match op with
    | .open oenv _ _ filedir _ =>
      filedir.bytes ≠ [] ∧ (oenv.openOk = false → (resize oenv.heap (150 * 1024)).head? = some 0)
    | .append _ _ | .appendEx _ _ _ => p.mlog.sgMode = .async → bufferLength p < 153600 * 4 / 5
    | .close worker _ => p.mlog.sgThreadAsync = .own → worker = none → bufferLength p = 0
    | _ => True

section Runs

variable {share : Bool} {st : FormatStatics} {lc : Libc} {files : Disk} {ops : List Op}

theorem entry_eq {p : Proc} {j : State} (h : Sim share st p j) (info : Option LogInfo) (log : Option CStr) :
    appended.entry lc p info log = (printRecord lc st info log).bind (entryOf j) := by
  obtain ⟨hnone, hc⟩ | ⟨l, lb, hsome, hl⟩ := h.log
  · rw [appended.entry, if_pos hc.flag]
    exact (Option.bind_eq_none_iff.mpr fun _ _ => by rw [entryOf, hnone]; rfl).symm
  · have hpath : logPath p.mlog = l.logPath := by rw [logPath, hl.dir, hl.name]; rfl
    have hentry : ∀ record, entryOf j record = some ⟨l.logPath, j.mode, record⟩ := fun record => by
      rw [entryOf, hsome]; rfl
    rw [appended.entry, if_neg (by simp [hl.flag]), h.statics, hpath, h.mode]
    cases printRecord lc st info log with
    | none => rfl
    | some record => exact (hentry record).symm

theorem length_printRecord_le {info : Option LogInfo} {log : Option CStr} {record : Bytes}
    (h : printRecord lc st info log = some record) : record.length ≤ 16 * 1024 := by
  obtain ⟨⟨st', logBuff⟩, hf, rfl⟩ := Option.map_eq_some_iff.mp h
  exact (logFormater_temp hf).2.length_content_le

theorem bufferLength_eq {p : Proc} {j : State} (h : Sim share st p j) {l : OpenLog} (hl : j.log = some l) :
    bufferLength p = l.pending.length := by
  obtain ⟨hnone, -⟩ | ⟨l', lb, hsome, hl'⟩ := h.log
  · cases hnone.symm.trans hl
  · cases hsome.symm.trans hl
    rw [hl'.bufferLength, ← hl'.pending, ← hl'.good.length_content]

/-- The journal of a state keeps what is to be kept. -/
def Keeps (share : Bool) (st : FormatStatics) (files : Disk) (maps : Bytes → Prop) (x : Proc × List Entry) : Prop :=
  ∃ j, Sim share st x.1 j ∧ Kept files maps j x.2

/-- **One operation** without a loss. -/
theorem Keeps.step {x x' : Proc × List Entry} (hx : Keeps share st files (Maps ops) x) {op : Op} (hop : op ∈ ops)
    (hlog : ∀ oenv env mode filedir filename, Op.open oenv env mode filedir filename ∈ ops →
      ¬ Maps ops (logfilePath filedir.bytes filename.bytes))
    (hl : Lossless x.1 op) (hs : traced (Appender.step lc) (appended lc) x op = some x') :
    Keeps share st files (Maps ops) x' := by
  obtain ⟨p, h⟩ := x
  obtain ⟨j, hsim, hk⟩ := hx
  obtain ⟨hs, hh⟩ := traced_eq_some.mp hs
  have hrel := hsim.step lc hl.1
  rw [hs] at hrel
  obtain ⟨j', hnext, hsim'⟩ : ∃ j', next share (printRecord lc st) j op = some j' ∧ Sim share st x'.1 j' := by
    cases hn : next share (printRecord lc st) j op <;> rw [hn] at hrel <;> cases hrel
    exact ⟨_, rfl, ‹_›⟩
  refine ⟨j', hsim', ?_⟩
  have happend : ∀ info log, (p.mlog.sgMode = .async → bufferLength p < 153600 * 4 / 5) →
      j.append (printRecord lc st info log) = some j' → Kept files (Maps ops) j'
        (h ++ (appended.entry lc p info log).toList) := by
    intro info log hlow hn
    rw [entry_eq hsim]
    refine hk.append (fun r hr => length_printRecord_le hr) (fun hm l hj => ?_) hn
    have hlt := hlow (hsim.mode.trans hm)
    rw [bufferLength_eq hsim hj] at hlt
    omega
  have hsame : appended lc p op = none → x'.2 = h := fun hn => by rw [hh, hn]; exact List.append_nil h
  cases op with
  | «open» oenv env mode filedir filename =>
    rw [hsame rfl]
    exact hk.open hl.2.1 ⟨oenv, env, mode, filedir, filename, hop, rfl⟩ (hlog _ _ _ _ _ hop) hl.2.2 hnext
  | append env log =>
    rw [hh]
    exact happend none log hl.2 hnext
  | appendEx env log info =>
    rw [hh]
    exact happend info log hl.2 hnext
  | task env =>
    rw [hsame rfl]
    cases hnext
    exact hk.flush
  | flushSync env =>
    rw [hsame rfl]
    cases hnext
    split_ifs
    · exact hk
    · exact hk.flush
  | setmode mode =>
    rw [hsame rfl]
    cases hnext
    exact hk.remap (fun _ _ hb => hb) (fun _ _ => rfl) hk.log fun _ => rfl
  | close worker env =>
    rw [hsame rfl]
    cases hnext
    refine hk.close fun hf l hj => ?_
    obtain ⟨hshare, hworker⟩ := Bool.or_eq_false_iff.mp hf
    have hown : p.mlog.sgThreadAsync = .own := by
      rw [hsim.thread, hshare]
      rfl
    have hzero := hl.2 hown (Option.isNone_iff_eq_none.mp (Option.isSome_eq_false_iff.mp hworker))
    rw [bufferLength_eq hsim hj] at hzero
    exact List.length_eq_zero_iff.mp hzero

/-- **Every record is written once.** An appender is opened and closed any number of times, on any paths, where no
log file is one of the mapped files, which are blank at the start; and no operation has a loss. When it is closed
at the end, each log file is what it was, followed by the records that were appended to it, each of them once, and
those of one mode in the order in which they were appended. -/
theorem written_once (lc : Libc) (useShareThread : Bool) (files : Disk) (st : FormatStatics) {ops : List Op}
    (hblank : ∀ path, Maps ops path → EmptyMapping files path)
    (hlog : ∀ oenv env mode filedir filename, Op.open oenv env mode filedir filename ∈ ops →
      ¬ Maps ops (logfilePath filedir.bytes filename.bytes))
    (hm : Meets (step lc) Lossless (.create useShareThread files st) ops)
    {p : Proc} {h : List Entry}
    (hr : run (traced (step lc) (appended lc)) (.create useShareThread files st, []) ops = some (p, h))
    (hclosed : p.mlog.sgLogClose = true) {path : Bytes} (hpath : ¬ Maps ops path) :
    ∃ written : List Entry, p.files path = files path ++ written.flatMap Entry.record ∧
      ∀ m, written.filter (fun e => e.mode = m) = h.filter fun e => e.mode = m ∧ e.path = path := by
  have hmem : Meets (traced (step lc) (appended lc)) (fun _ op => op ∈ ops) (.create useShareThread files st, [])
      ops := meets_of_forall fun op hop => hop
  obtain ⟨j, hsim, hk⟩ := (reach_of_run ((meets_traced _ hm).and hmem) hr).inv
    (P := Keeps useShareThread st files (Maps ops))
    ⟨.create files, sim_create useShareThread files st, kept_create hblank⟩
    fun x op x' hx hc hs => hx.step hc.2 hlog hc.1 hs
  obtain ⟨hnone, hshut⟩ : j.log = none ∧ Closed p := by
    obtain ⟨hnone, hc⟩ | ⟨l, lb, -, hl⟩ := hsim.log
    · exact ⟨hnone, hc⟩
    · exact absurd (hl.flag.symm.trans hclosed) Bool.false_ne_true
  obtain ⟨written, waiting, hnow, hpending, -, hfilter⟩ := hk.split path hpath
  have hwaiting : waiting.flatMap Entry.record = [] := by
    rw [← hpending, pendingAt, hnone]
  refine ⟨written ++ waiting, ?_, fun m => ?_⟩
  · rw [← filesOf_of_closed hshut, hsim.files, hnow, List.flatMap_append, hwaiting, List.append_nil]
  · rw [hfilter m, List.filter_filter]
    exact List.filter_congr fun e _ => (Bool.decide_and _ _).symm

/-- A session that changes its mode. -/
theorem written_once_setmode :
    ∃ p h, run (traced (step utc) (appended utc)) (fresh, []) [.open .ok .ok .async textA textA,
        .append .ok (some textA), .setmode .sync, .append .ok (some textA), .close none .ok] = some (p, h) ∧
      ∃ written : List Entry, p.files (ascii "a/a.mtlog") = [] ++ written.flatMap Entry.record ∧
        ∀ m, written.filter (fun e => e.mode = m) =
          h.filter fun e => e.mode = m ∧ e.path = ascii "a/a.mtlog" := by
  have hne : textA.bytes ≠ [] := by decide
  have hempty : ∀ path, EmptyMapping (fun _ => []) path := fun _ => by
    rw [EmptyMapping, resize, List.take_nil, List.nil_append, List.head?_replicate]; rfl
  obtain ⟨p₁, lb, hs₁, ho, hc, hmode, hthread, -, -, hsink⟩ :=
    open_emptyMapping utc true ⟨0, 0⟩ .ok .async (hempty (mmapFilePath textA.bytes textA.bytes))
  have hzero : bufferLength p₁ = 0 := by rw [ho.bufferLength, ho.good.content_eq_nil_iff.mp hc]
  obtain ⟨p₂, hs₂, he, -⟩ := append_effect ⟨ho, hmode, congrArg Sink.held hsink⟩ utc .ok textA hne
    (by rw [ho.good.content_eq_nil_iff.mp hc]; decide)
  have ho₃ := (he.opened ho.flag).setmode .sync
  obtain ⟨p₄, hs₄, he₄⟩ := appendEx_sync_effect .ok ho₃ rfl (printed_none utc p₂.statics hne)
  obtain ⟨p, hs, hclosed, -⟩ := logAppenderClose_spec (he₄.opened ho₃.flag) utc none .ok
  have hr : run (step utc) fresh [.open .ok .ok .async textA textA, .append .ok (some textA), .setmode .sync,
      .append .ok (some textA), .close none .ok] = some p :=
    run_of_step hs₁ (run_of_step hs₂ (run_of_step rfl (run_of_step hs₄ (run_of_step hs rfl))))
  have hshared : p₄.mlog.sgThreadAsync ≠ .own := by
    rw [he₄.thread, show (logAppenderSetmode .sync p₂).mlog.sgThreadAsync = p₂.mlog.sgThreadAsync from rfl,
      he.thread, hthread]
    decide
  have hm : Meets (step utc) Lossless fresh [.open .ok .ok .async textA textA, .append .ok (some textA),
      .setmode .sync, .append .ok (some textA), .close none .ok] := by
    refine meets_of_step ⟨FileEnv.succeeds_ok, hne, fun h => ?_⟩ hs₁ (meets_of_step ⟨FileEnv.succeeds_ok, fun _ => ?_⟩
      hs₂ (meets_of_step ⟨trivial, trivial⟩ rfl (meets_of_step ⟨FileEnv.succeeds_ok, fun h => ?_⟩ hs₄
        (meets_of_step ⟨⟨FileEnv.succeeds_ok, fun _ h => ?_⟩, fun h => absurd h hshared⟩ hs trivial))))
    · cases h
    · rw [hzero]
      decide
    · cases h
    · cases h
  obtain ⟨h, hr⟩ := run_traced (appended utc) [] hr
  refine ⟨p, h, hr, written_once utc true (fun _ => []) ⟨0, 0⟩ (fun path _ => hempty path) ?_ hm hr hclosed.flag ?_⟩
  · rintro _ _ _ filedir filename hop ⟨_, _, _, _, _, hop', hpath⟩
    simp only [List.mem_cons, Op.open.injEq, reduceCtorEq, List.not_mem_nil, or_false] at hop hop'
    obtain ⟨-, -, -, rfl, rfl⟩ := hop
    obtain ⟨-, -, -, rfl, rfl⟩ := hop'
    exact mmapFilePath_ne_logfilePath _ _ hpath.symm
  · rintro ⟨_, _, _, _, _, hop, hpath⟩
    simp only [List.mem_cons, Op.open.injEq, reduceCtorEq, List.not_mem_nil, or_false] at hop
    obtain ⟨-, -, -, rfl, rfl⟩ := hop
    exact mmapFilePath_ne_logfilePath _ _ hpath.symm

end Runs

end MTAppenderFile.Loglib.Sessions
