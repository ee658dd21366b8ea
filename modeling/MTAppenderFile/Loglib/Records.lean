import MTAppenderFile.Loglib.Atomicity
import MTAppenderFile.Loglib.Interleaving

/-! # Every record once

Threads append to an open appender, flush it and change its mode, as long as they like and in every order of their
statements. The appends of one thread are put in the buffer, or in the log file, in the order of its calls, each
once (`Delivered.owned`); and what has been put there is once in the file (or in the buffer of its open `FILE`), in
the log buffer, or drained and about to be written (`Lib.Handover`). So no record is lost, and none is written twice
(`records_once`).

The proof is about `Threads`, where a section is a step; `Atomicity` takes it to the statements. -/

namespace MTAppenderFile.Loglib.Records

open MTAppenderFile.Lib.Handover
open MTAppenderFile.Lib.Run
open MTAppenderFile.Comm.CTypes
open MTAppenderFile.Loglib.Base
open MTAppenderFile.Loglib.Files
open MTAppenderFile.Loglib.Formatter
open MTAppenderFile.Loglib.Appender
open MTAppenderFile.Loglib.Session
open MTAppenderFile.Loglib.Threads
open MTAppenderFile.Loglib.Steps
open MTAppenderFile.Loglib.Pipeline
open MTAppenderFile.Loglib.Interleaving

/-! ### The appends of a thread -/

/-- What an append is called with. -/
abbrev Text := Option LogInfo × Option CStr

/-- The record of an append. -/
def record (lc : Libc) (st : FormatStatics) (c : Text) : Bytes := printed lc st c.1 c.2

/-- The append of a thread whose record has not arrived. -/
def pending : Pc → List Text
  | .append info log _ => [(info, log)]
  | _ => []

/-- What the thread `t` appends by a call. -/
def appendOf (t : ℕ) : ℕ × Call → Option Text
  | (u, .append info log) => if u = t then some (info, log) else none
  | _ => none

/-- **The appends of the thread `t`**, in the order of the calls. -/
def appends (t : ℕ) (calls : List (ℕ × Call)) : List Text := calls.filterMap (appendOf t)

/-- The records have arrived as the threads have appended them: `own` says from which thread each of them is. -/
def Owned (lc : Libc) (st : FormatStatics) (calls : List (ℕ × Call)) (pc : ℕ → Pc) (log : List Bytes) : Prop :=
  ∃ own : List (ℕ × Bytes), own.map Prod.snd = log ∧ ∀ t, ∃ done, appends t calls = done ++ pending (pc t) ∧
    (own.filter (·.1 = t)).map Prod.snd = done.map (record lc st)

section Owned

variable {lc : Libc} {st : FormatStatics} {calls : List (ℕ × Call)} {pc pc' : ℕ → Pc} {log : List Bytes} {t : ℕ}

theorem appends_append (t : ℕ) (calls calls' : List (ℕ × Call)) :
    appends t (calls ++ calls') = appends t calls ++ appends t calls' := List.filterMap_append

theorem Owned.congr (h : Owned lc st calls pc log) (hp : ∀ u, pending (pc' u) = pending (pc u)) :
    Owned lc st calls pc' log := by
  obtain ⟨own, hown, ht⟩ := h
  exact ⟨own, hown, fun t => by rw [hp]; exact ht t⟩

theorem Owned.call (h : Owned lc st calls pc log) (hi : pc t = .idle) (c : Call) :
    Owned lc st (calls ++ [(t, c)]) (Function.update pc t c.entry) log := by
  obtain ⟨own, hown, hdone⟩ := h
  refine ⟨own, hown, fun u => ?_⟩
  obtain ⟨done, hd, ho⟩ := hdone u
  refine ⟨done, ?_, ho⟩
  rw [appends_append, hd]
  by_cases hu : u = t
  · subst hu
    rw [hi, Function.update_self]
    cases c with
    | append info log => simp [appends, appendOf, pending, Call.entry]
    | _ => simp [appends, appendOf, pending, Call.entry]
  · have hnone : appends u [(t, c)] = [] := by
      cases c with
      | append info log => simp [appends, appendOf, Ne.symm hu]
      | _ => rfl
    rw [Function.update_of_ne hu, hnone, List.append_nil]

theorem Owned.arrive (h : Owned lc st calls pc log) {c : Text} (hpc : pending (pc t) = [c])
    (hpc' : pending (pc' t) = []) (hothers : ∀ u, u ≠ t → pending (pc' u) = pending (pc u)) :
    Owned lc st calls pc' (log ++ [record lc st c]) := by
  obtain ⟨own, rfl, hdone⟩ := h
  refine ⟨own ++ [(t, record lc st c)], List.map_append, fun u => ?_⟩
  obtain ⟨done, hd, ho⟩ := hdone u
  by_cases hu : u = t
  · subst hu
    refine ⟨done ++ [c], ?_, ?_⟩
    · rw [hd, hpc, hpc', List.append_nil]
    · rw [List.filter_append, List.map_append, ho, List.map_append]
      simp
  · refine ⟨done, by rw [hd, hothers u hu], ?_⟩
    rw [List.filter_append, List.map_append, ho]
    simp [Ne.symm hu]

end Owned

/-! ### What a step does with a record -/

section Steps

variable {lc : Libc} {env : FileEnv} {p p' : Proc} {a : Act} {c : Option Bytes} {s s' : Sys} {t : ℕ}

theorem Does.statics (h : Does lc env p a p' c) : p'.statics = p.statics := by
  have hwrite : ∀ data, (log2file lc env data p).statics = p.statics := by
    intro data
    unfold log2file
    split_ifs
    · rfl
    · exact Session.statics_log2fileLocked lc env data p
  cases h with
  | insert h =>
    unfold appenderAsync at h
    split at h
    · cases h
      rfl
    · obtain ⟨⟨statics, logBuff⟩, hf, h⟩ := Option.bind_eq_some_iff.mp h
      obtain ⟨data, -, h⟩ := Option.bind_eq_some_iff.mp h
      obtain ⟨rfl, -⟩ := logFormater_temp hf
      cases h
      rfl
  | direct data => exact hwrite data
  | write data => exact hwrite data
  | drain h =>
    obtain ⟨lb, rfl, -⟩ := drainBuffer_frame h
    rfl
  | free h =>
    obtain ⟨mt, -, rfl⟩ := Option.map_eq_some_iff.mp h
    rfl
  | file =>
    obtain ⟨t, files, hc⟩ := closelogfile_eq env p
    rw [hc]
  | _ => rfl

theorem pending_workerStart (th : ThreadAsync) : pending (workerStart th) = [] := by cases th <;> rfl

theorem pending_eq_nil {pc : Pc} (h : kind pc ≠ .append) : pending pc = [] := by
  cases pc with
  | append => exact absurd rfl h
  | _ => rfl

theorem pending_others (h : Others t s s') {u : ℕ} (hu : u ≠ t) : pending (s'.pc u) = pending (s.pc u) := by
  rcases h u hu with hp | ⟨rfl, hi, hp⟩
  · rw [hp]
  · rw [hp, hi, pending_workerStart]
    rfl

/-- **What a step of an append does with its record**: nothing yet, or the record arrives. -/
theorem append_arrives {info : Option LogInfo} {log : Option CStr} {apc : AppendPc}
    (hpc : s.pc t = .append info log apc) (hflag : s.p.mlog.sgLogClose = false)
    (hbuff : s.p.mlog.sgLogBuff.isSome) (hdir : s.p.mlog.sgLogdir ≠ [])
    (hready : ∀ data, apc = .write data → data = record lc s.p.statics (info, log))
    (he : exec lc env t s (.append info log apc) = some s') (n : ℕ) :
    ((∃ apc', s'.pc t = .append info log apc' ∧
        ∀ data, apc' = .write data → data = record lc s.p.statics (info, log)) ∧
      (moveOf lc n t s).arrival = none) ∨
    pending (s'.pc t) = [] ∧ (moveOf lc n t s).arrival = some (n, record lc s.p.statics (info, log)) := by
  cases apc with
  | load =>
    cases he
    refine .inl ⟨⟨.mode, ?_, by rintro _ ⟨⟩⟩, by rw [moveOf, hpc]; rfl⟩
    rw [goto_pc_self, hflag]
    rfl
  | mode =>
    refine .inl ⟨?_, by rw [moveOf, hpc]; rfl⟩
    rw [exec, appendStep] at he
    split_ifs at he with hsync
    · -- the record is formatted
      obtain ⟨r, hr, he⟩ := Option.bind_eq_some_iff.mp he
      obtain ⟨data, hprinted, rfl⟩ := printed_of_appenderSyncBuffer hr
      cases he
      refine ⟨.write data, goto_pc_self .., ?_⟩
      rintro _ ⟨⟩
      exact (printed_of hprinted).symm
    · cases he
      exact ⟨.async, goto_pc_self .., by rintro _ ⟨⟩⟩
  | async =>
    have hnone : s.p.mlog.sgLogBuff.isNone = false := Option.isNone_eq_false_iff.mpr hbuff
    refine .inr ⟨?_, by simp only [moveOf, hpc, act, hnone]; rfl⟩
    obtain ⟨p', -, he⟩ := Option.bind_eq_some_iff.mp he
    have hidle : pending ((Sys.goto { s with p := p' } t .idle).pc t) = [] := by
      rw [goto_pc_self]
      rfl
    rw [Option.some_inj] at he
    split_ifs at he <;> subst he
    · rcases start_pc (Sys.goto { s with p := p' } t .idle) t with hs | ⟨rfl, -, hs⟩
      · rw [hs]
        exact hidle
      · rw [hs, pending_workerStart]
    · exact hidle
  | write data =>
    cases he
    refine .inr ⟨by rw [goto_pc_self]; rfl, ?_⟩
    simp only [moveOf, hpc, act, if_neg hdir, Move.arrival]
    rw [hready data rfl]

end Steps

/-! ### Runs -/

/-- **What the threads have delivered** since the appender was `p₀`. -/
structure Delivered (lc : Libc) (p₀ : Proc) (calls : List (ℕ × Call)) (x : Sys × Hist) : Prop
    extends Running p₀ x where
  dir : x.1.p.mlog.sgLogdir ≠ []
  statics : x.1.p.statics = p₀.statics
  distinct : Distinct x.2.pipe
  held : ∀ r ∈ x.2.pipe.log, Held x.2.pipe r
  ready : ∀ t info log data, x.1.pc t = .append info log (.write data) →
    data = record lc p₀.statics (info, log)
  owned : Owned lc p₀.statics calls x.1.pc (x.2.pipe.log.map Prod.snd)

section Delivered

variable {lc : Libc} {p₀ : Proc} {calls : List (ℕ × Call)} {x x' : Sys × Hist} {t : ℕ}

theorem Delivered.call (h : Delivered lc p₀ calls x) {c : Call} (hc : c ≠ .closeDestroy)
    (hs : tstep lc x (.call t c) = some x') : Delivered lc p₀ (calls ++ [(t, c)]) x' := by
  have hrun : Running p₀ x' :=
    h.toRunning.step (l := .call t c) (fun hn : Call.closeDestroy ≠ .closeDestroy => hn rfl) (Ne.symm hc) hs
  obtain ⟨-, -, hi, rfl⟩ := tstep_call hs
  refine ⟨hrun, h.dir, h.statics, h.distinct, h.held, fun u info log data hu => ?_, h.owned.call hi c⟩
  by_cases hut : u = t
  · rw [hut, goto_pc_self] at hu
    cases c <;> cases hu
  · rw [goto_pc_of_ne _ hut] at hu
    exact h.ready u info log data hu

theorem Delivered.owned_run (h : Delivered lc p₀ calls x) {env : FileEnv} (hs : tstep lc x (.run t env) = some x') :
    (∀ info log data, x'.1.pc t = .append info log (.write data) → data = record lc p₀.statics (info, log)) ∧
      Owned lc p₀.statics calls x'.1.pc (x'.2.pipe.log.map Prod.snd) := by
  obtain ⟨-, he, hx⟩ := tstep_run hs
  have hst := exec_stepped he
  have hlog : x'.2.pipe.log.map Prod.snd = x.2.pipe.log.map Prod.snd ++
      (moveOf lc x.2.pipe.log.length t x.1).arrival.toList.map Prod.snd := by
    rw [hx, log_move, List.map_append]
  have hothers : ∀ u, u ≠ t → pending (x'.1.pc u) = pending (x.1.pc u) := fun u hu =>
    pending_others hst.others hu
  by_cases hk : kind (x.1.pc t) = .append
  · obtain ⟨info, log, apc, hpc⟩ : ∃ info log apc, x.1.pc t = .append info log apc := by
      cases hpc : x.1.pc t with
      | append info log apc => exact ⟨info, log, apc, rfl⟩
      | _ => rw [hpc] at hk; cases hk
    have hready : ∀ data, apc = .write data → data = record lc x.1.p.statics (info, log) := by
      rintro data rfl
      rw [h.statics]
      exact h.ready t info log data hpc
    rcases append_arrives hpc h.flag h.buff h.dir hready (hpc ▸ he) x.2.pipe.log.length with
      ⟨⟨apc', hpc', hready'⟩, hnone⟩ | ⟨hpc', harr⟩
    · rw [hlog, hnone, Option.toList_none, List.map_nil, List.append_nil]
      rw [h.statics] at hready'
      refine ⟨fun info' log' data hw => ?_, h.owned.congr fun u => ?_⟩
      · rw [hpc'] at hw
        cases hw
        exact hready' data rfl
      · by_cases hu : u = t
        · rw [hu, hpc, hpc']
          rfl
        · exact hothers u hu
    · rw [hlog, harr, h.statics]
      refine ⟨fun info' log' data hw => ?_, h.owned.arrive (c := (info, log)) ?_ hpc' hothers⟩
      · rw [hw] at hpc'
        cases hpc'
      · rw [hpc]
        rfl
  · have hnone : (moveOf lc x.2.pipe.log.length t x.1).arrival = none := by
      cases harr : (moveOf lc x.2.pipe.log.length t x.1).arrival with
      | none => rfl
      | some r => exact absurd (kind_of_arrival harr) hk
    have hk' : kind (x'.1.pc t) ≠ .append := by
      rcases hst.leads.kind with hk' | hk' | ⟨-, hk'⟩ <;> rw [hk']
      · exact hk
      · rintro ⟨⟩
      · rintro ⟨⟩
    rw [hlog, hnone, Option.toList_none, List.map_nil, List.append_nil]
    refine ⟨fun info log data hw => ?_, h.owned.congr fun u => ?_⟩
    · rw [hw] at hk'
      exact absurd rfl hk'
    · by_cases hu : u = t
      · rw [hu, pending_eq_nil hk, pending_eq_nil hk']
      · exact hothers u hu

/-- **A step of a thread.** -/
theorem Delivered.run (h : Delivered lc p₀ calls x) {env : FileEnv} (hok : StepOk x.1 t env)
    (hs : tstep lc x (.run t env) = some x') : Delivered lc p₀ calls x' := by
  have hrun : Running p₀ x' := h.toRunning.run hok hs
  obtain ⟨-, he, hx⟩ := tstep_run hs
  have hst := exec_stepped he
  have hfresh : ∀ r, (moveOf lc x.2.pipe.log.length t x.1).arrival = some r → r ∉ x.2.pipe.log := by
    intro r hr hmem
    have hlt := h.number r hmem
    rw [arrival_moveOf hr] at hlt
    exact Nat.lt_irrefl _ hlt
  have hsame := (hst.does.frame h.coupled.holds.handle).same
  have hdir : x'.1.p.mlog.sgLogdir ≠ [] := by
    rw [hsame.dir]
    exact h.dir
  have hstatics : x'.1.p.statics = p₀.statics := (Does.statics hst.does).trans h.statics
  have hheld : ∀ r ∈ x'.2.pipe.log, Held x'.2.pipe r := by
    rw [hx]
    refine fun r hr => held_move_of_mem_log h.held (fun hm => ?_) (fun u hm => ?_) (fun r' hm => ?_) hr
    · exact h.close t (kind_of_act (act_of_wipe hm) rfl)
    · exact h.dir (dir_of_lose hm)
    · exact h.dir (dir_of_refuse hm)
  have hdistinct : Distinct x'.2.pipe := by
    rw [hx]
    exact h.distinct.move h.apart hfresh
  obtain ⟨hready, howned⟩ := h.owned_run hs
  refine ⟨hrun, hdir, hstatics, hdistinct, hheld, fun u info log data hu => ?_, howned⟩
  by_cases hut : u = t
  · rw [hut] at hu
    exact hready info log data hu
  · rcases hst.others u hut with hp | ⟨rfl, -, hp⟩
    · rw [hp] at hu
      exact h.ready u info log data hu
    · rw [hp] at hu
      cases hth : x.1.p.mlog.sgThreadAsync <;> rw [hth] at hu <;> cases hu

/-- What a step needs, so that nothing is lost: its operations on files succeed, and an append finds the buffer below
4/5. -/
abbrev Keeps (s : Sys) (l : Label) : Prop :=
  World.Fine FileEnv.Succeeds (fun p => bufferLength p < 153600 * 4 / 5) s l

theorem eq_of_insert {pc : Pc} {info : Option LogInfo} {log : Option CStr} (h : act pc = .insert info log) :
    pc = .append info log .async := by
  have hk : kind pc = .append := kind_of_act h rfl
  cases pc with
  | append info' log' apc =>
    cases apc with
    | async =>
      cases h
      rfl
    | _ => cases h
  | _ => cases hk

theorem stepOk_of_keeps {s : Sys} {env : FileEnv} (h : Keeps s (.run t env)) : StepOk s t env :=
  ⟨h.1, fun info log ha => h.2 info log (eq_of_insert ha)⟩

/-- **A run of the threads.** -/
theorem delivered_of_run {s s' : Sys} {h₀ : Hist} {ls : List Label} (h : Delivered lc p₀ [] (s, h₀))
    (hm : Meets (Threads.step lc) Keeps s ls) (hr : run (Threads.step lc) s ls = some s') :
    ∃ hist, Delivered lc p₀ (ls.filterMap World.calledThere) (s', hist) := by
  refine run_inv (P := fun ls s => ∃ hist, Delivered lc p₀ (ls.filterMap World.calledThere) (s, hist)) ?_ ⟨h₀, h⟩
    hm hr
  rintro ls s l s' ⟨hist, h⟩ hl hs
  have hstep : tstep lc (s, hist) l = some (s', note lc s hist l) := by
    rw [tstep, hs]
    rfl
  rw [List.filterMap_append]
  cases l with
  | call t c => exact ⟨_, h.call hl hstep⟩
  | run t env =>
    refine ⟨note lc s hist (.run t env), ?_⟩
    rw [show [Label.run t env].filterMap World.calledThere = [] from rfl, List.append_nil]
    exact h.run (stepOk_of_keeps hl) hstep

theorem bytes_eq (l : List Record) : bytes l = (l.map Prod.snd).flatten := List.flatMap_def

/-- **Every record once.** -/
theorem Delivered.exists_perm (h : Delivered lc p₀ calls x) :
    ∃ out buf rest, (out ++ buf ++ rest).Perm (x.2.pipe.log.map Prod.snd) ∧
      (sink x.1.p).all = (sink p₀).all ++ out.flatten ∧ buffered x.1.p = buf.flatten ∧
      ((∀ t, chunk (x.1.pc t) = none) → rest = []) := by
  obtain ⟨rest, hperm, hrest⟩ := h.apart.exists_perm h.distinct h.held
  refine ⟨x.2.pipe.out.map Prod.snd, x.2.pipe.buf.map Prod.snd, rest.map Prod.snd, ?_, ?_, ?_, fun hnone => ?_⟩
  · rw [← List.map_append, ← List.map_append]
    exact hperm.map Prod.snd
  · rw [h.coupled.holds.file, bytes_eq]
  · rw [h.coupled.buffered, bytes_eq]
  · cases hr : rest with
    | nil => rfl
    | cons r rest' =>
      obtain ⟨t, ht⟩ := hrest r (hr ▸ List.mem_cons_self)
      rw [h.coupled.hand_eq_nil.mpr (hnone t)] at ht
      cases ht

end Delivered

end MTAppenderFile.Loglib.Records

namespace MTAppenderFile.Loglib.World

open MTAppenderFile.Lib.Handover
open MTAppenderFile.Lib.Run
open MTAppenderFile.Comm.CTypes
open MTAppenderFile.Loglib.Base
open MTAppenderFile.Loglib.Buffer
open MTAppenderFile.Loglib.Files
open MTAppenderFile.Loglib.Formatter
open MTAppenderFile.Loglib.Appender
open MTAppenderFile.Loglib.Session (Opened sink buffered bufferLength)
open MTAppenderFile.Loglib.Steps (chunk kind)
open MTAppenderFile.Loglib.Pipeline (Hist Tracked Coupled Holds)
open MTAppenderFile.Loglib.Interleaving (Running)
open MTAppenderFile.Loglib.Records

/-! ### The statements -/

/-- In `__log2file`, before the bytes are written. -/
def Log2filePc.holds (data : Bytes) : Log2filePc → Option Bytes
  | .unlock => none
  | _ => some data

/-- In `__log_thread_task`. -/
def TaskPc.drained : TaskPc → Option Bytes
  | .unlock tmp => tmp
  | .file data pc => pc.holds data
  | _ => none

/-- **The bytes that a thread has drained and not yet written.** -/
def Pc.drained : Pc → Option Bytes
  | .flushSync _ (.unlock tmp) => tmp
  | .flushSync _ (.file data pc) => pc.holds data
  | .loop _ (.task pc) => pc.drained
  | .pass (.task _ _ pc) => pc.drained
  | _ => none

/-- What the caller `n` appends with a call. -/
def Label.text (n : ℕ) : Label → Option Text
  | .call k _ (.append info log) => if k = n then some (info, log) else none
  | _ => none

section Coarse

variable {lc : Libc} {st : FormatStatics} {m : Mlog} {pc : Pc}

theorem chunk_log2file (data : Bytes) {write ret : Threads.Pc} (hw : chunk write = some data)
    (hr : chunk ret = none) (fpc : Log2filePc) : chunk (fpc.coarse write ret) = fpc.holds data := by
  cases fpc with
  | unlock => exact hr
  | _ => exact hw

theorem chunk_task (within : Threads.TaskPc → Threads.Pc) {next : Threads.Pc}
    (hw : ∀ pc, chunk (within pc) = Steps.taskChunk (some pc)) (hn : chunk next = none) (tpc : TaskPc) :
    chunk (tpc.coarse within next) = tpc.drained := by
  cases tpc with
  | unlock tmp =>
    cases tmp with
    | none => exact hn
    | some data => exact hw _
  | file data fpc => exact chunk_log2file data (hw (.write data)) hn fpc
  | _ => exact hw _

theorem chunk_coarseStart (m : Mlog) : chunk m.coarseStart = none := by
  unfold Mlog.coarseStart
  split_ifs <;> rfl

theorem kind_coarseStart (m : Mlog) : kind m.coarseStart = .worker := by
  unfold Mlog.coarseStart
  split_ifs <;> rfl

theorem chunk_coarse (pc : Pc) : chunk (pc.coarse lc st m) = pc.drained := by
  cases pc with
  | append n info log apc =>
    cases apc with
    | format =>
      show chunk (formatCoarse lc st info log) = none
      unfold formatCoarse
      split <;> rfl
    | file data fpc => cases fpc <;> rfl
    | _ => rfl
  | setmode n mode spc => cases spc <;> rfl
  | flushSync n fpc =>
    cases fpc with
    | unlock tmp => cases tmp <;> rfl
    | file data fpc =>
      show chunk (fpc.coarse _ _) = fpc.holds data
      exact chunk_log2file data rfl rfl fpc
    | _ => rfl
  | routine a rpc => exact chunk_coarseStart m
  | loop n lpc =>
    cases lpc with
    | task tpc => exact chunk_task (fun pc => .loop (.task pc)) (fun pc => by cases pc <;> rfl) rfl tpc
    | _ => rfl
  | pass ppc =>
    cases ppc with
    | cond it =>
      show chunk (if it.index = 0 then _ else _) = none
      split_ifs <;> rfl
    | task it n tpc => exact chunk_task (fun pc => .pass (.task pc)) (fun pc => by cases pc <;> rfl) rfl tpc
    | _ => rfl
  | _ => rfl

theorem appends_called (n : ℕ) (ls : List Label) :
    appends (n + 1) (ls.filterMap called) = ls.filterMap (Label.text n) := by
  rw [appends, List.filterMap_filterMap]
  congr 1
  funext l
  cases l with
  | call k m u => cases u <;> simp [called, Use.coarse, appendOf, Label.text]
  | _ => rfl

theorem appends_worker (ls : List Label) : appends 0 (ls.filterMap called) = [] := by
  rw [appends, List.filterMap_filterMap, List.filterMap_eq_nil_iff]
  intro l _
  cases l with
  | call k m u => cases u <;> simp [called, Use.coarse, appendOf]
  | _ => rfl

end Coarse

section Settled

variable {lc : Libc} {w w' : State} {m : Mlog} {lb : LogBuffer}

theorem Settled.delivered (h : Settled m w) (ho : Opened (w.app m) lb) (hempty : lb.content = [])
    (hdir : (w.apps m).sgLogdir ≠ []) (hdrained : (w.pc (.worker m.sgThreadAsync)).drained = none) (lc : Libc) :
    Delivered lc (w.app m) [] (w.coarse lc m, .empty) := by
  have hidle : ∀ n, (w.coarse lc m).pc (n + 1) = .idle := fun n => by
    show (w.pc (.caller n)).coarse lc w.statics m = _
    rw [h.callers n]
    rfl
  have hholds : Holds (w.app m) (w.app m) [] [] := by
    refine ⟨.refl _, ho.handle, (List.append_nil _).symm, fun lb' hb => ?_, fun hb => ?_⟩
    · cases ho.buff.symm.trans hb
      exact ⟨ho.toLive, hempty⟩
    · cases ho.buff.symm.trans hb
  have hhands : ∀ t, chunk ((w.coarse lc m).pc t) = none := by
    rintro (_ | n)
    · exact (chunk_coarse _).trans hdrained
    · rw [hidle n]
      rfl
  have htracked : Tracked (w.app m) (w.coarse lc m, .empty) :=
    ⟨⟨hholds, hhands, fun _ hx => absurd hx List.not_mem_nil⟩, apart_empty,
      fun _ hx => absurd hx List.not_mem_nil, fun _ _ hx => absurd hx List.not_mem_nil, fun _ => rfl⟩
  have hkind : ∀ t, kind ((w.coarse lc m).pc t) = .idle ∨ kind ((w.coarse lc m).pc t) = .worker := by
    rintro (_ | n)
    · rcases h.worker with hleaving | ⟨hworks, -⟩
      · rcases hleaving.coarse lc w.statics m with hi | hi
        · exact .inl (congrArg kind hi)
        · exact .inr ((congrArg kind hi).trans (kind_coarseStart m))
      · exact .inr (hworks.forall_coarse (Q := fun pc => kind pc = .worker) (fun _ => rfl) fun _ => rfl)
    · exact .inl (by rw [hidle n]; rfl)
  have hclose : ∀ t, kind ((w.coarse lc m).pc t) ≠ .close := fun t => by
    rcases hkind t with hk | hk <;> rw [hk] <;> rintro ⟨⟩
  have hpending : ∀ t, pending ((w.coarse lc m).pc t) = [] := fun t => pending_eq_nil (by
    rcases hkind t with hk | hk <;> rw [hk] <;> rintro ⟨⟩)
  refine ⟨⟨htracked, h.flag, h.buff, hclose, rfl⟩, hdir, rfl, distinct_empty,
    fun _ hx => absurd hx List.not_mem_nil, fun t info log data ht => ?_, ⟨[], rfl, fun t => ⟨[], ?_, rfl⟩⟩⟩
  · have hp := hpending t
    rw [show (w.coarse lc m).pc t = .append info log (.write data) from ht] at hp
    cases hp
  · rw [show ((w.coarse lc m, Hist.empty).1.pc t) = (w.coarse lc m).pc t from rfl, hpending t]
    rfl

theorem Sim.chunk_eq_none {s : Threads.Sys} (h : Sim lc m w s) (hnone : ∀ t, (w.pc t).drained = none) (t : ℕ) :
    chunk (s.pc t) = none := by
  cases t with
  | zero =>
    rcases h.worker with ⟨-, hi | hi⟩ | ⟨-, -, hi⟩
    · rw [hi]
      rfl
    · rw [hi]
      exact chunk_coarseStart m
    · rw [hi, chunk_coarse]
      exact hnone _
  | succ n =>
    rw [h.callers n, chunk_coarse]
    exact hnone _

theorem Owned.callers {st : FormatStatics} {calls : List (ℕ × Threads.Call)} {pc : ℕ → Threads.Pc} {log : List Bytes}
    (h : Owned lc st calls pc log) (hworker : appends 0 calls = []) :
    ∃ own : List (ℕ × Bytes), own.map Prod.snd = log ∧
      ∀ n, ∃ done, appends (n + 1) calls = done ++ pending (pc (n + 1)) ∧
        (own.filter (·.1 = n)).map Prod.snd = done.map (record lc st) := by
  obtain ⟨own, hown, hdone⟩ := h
  have hne : ∀ x ∈ own, x.1 ≠ 0 := by
    obtain ⟨done, hd, ho⟩ := hdone 0
    have hnil : done = [] := (List.append_eq_nil_iff.mp (hd.symm.trans hworker)).1
    rw [hnil, List.map_nil, List.map_eq_nil_iff, List.filter_eq_nil_iff] at ho
    exact fun x hx h0 => ho x hx (decide_eq_true h0)
  refine ⟨own.map fun x => (x.1 - 1, x.2), by rw [List.map_map]; exact hown, fun n => ?_⟩
  obtain ⟨done, hd, ho⟩ := hdone (n + 1)
  refine ⟨done, hd, ?_⟩
  rw [← ho, List.filter_map, List.map_map]
  have hsame : ∀ x ∈ own, ((fun x : ℕ × Bytes => decide (x.1 = n)) ∘ fun x => (x.1 - 1, x.2)) x =
      decide (x.1 = n + 1) := by
    intro x hx
    have := hne x hx
    simp only [Function.comp_apply, decide_eq_decide]
    omega
  rw [List.filter_congr hsame]
  rfl

/-- **Every record once.** Threads append to an open appender, flush it and change its mode, in every order of their
statements; operations on files succeed, and an entry in the buffer finds it below 4/5. Then the appends of each
caller have arrived in the order of its calls, each once, but for one that has not returned; and each record that has
arrived is once in the log file or in the buffer of its open `FILE`, in the log buffer, or drained by a thread that is
to write it. -/
theorem records_once (lc : Libc) {ls : List Label} (h : Settled m w) (ho : Opened (w.app m) lb)
    (hempty : lb.content = []) (hdir : (w.apps m).sgLogdir ≠ [])
    (hdrained : (w.pc (.worker m.sgThreadAsync)).drained = none) (hl : ∀ l ∈ ls, l.Uses m)
    (hf : Meets (World.step lc) (State.Fine FileEnv.Succeeds (fun p => bufferLength p < 153600 * 4 / 5) m) w ls)
    (hr : run (World.step lc) w ls = some w') :
    ∃ own : List (ℕ × Bytes),
      (∀ n, ∃ done todo, ls.filterMap (Label.text n) = done ++ todo ∧ todo.length ≤ 1 ∧
        (w'.pc (.caller n) = .idle → todo = []) ∧
        (own.filter (·.1 = n)).map Prod.snd = done.map (record lc w.statics)) ∧
      ∃ out buf hands, (out ++ buf ++ hands).Perm (own.map Prod.snd) ∧
        (sink (w'.app m)).all = (sink (w.app m)).all ++ out.flatten ∧ buffered (w'.app m) = buf.flatten ∧
        ((∀ t, (w'.pc t).drained = none) → hands = []) := by
  obtain ⟨bs, s', hbs, hmeets, hsim, hcalled⟩ := h.run_answered lc FileEnv.succeeds_ok hl hf hr
  obtain ⟨hist, hdel⟩ := delivered_of_run (h.delivered ho hempty hdir hdrained lc) hmeets hbs
  rw [hcalled] at hdel
  obtain ⟨own, hown, hdone⟩ := Owned.callers hdel.owned (appends_worker ls)
  obtain ⟨out, buf, hands, hperm, hfile, hbuf, hhands⟩ := hdel.exists_perm
  rw [← hown] at hperm
  rw [hsim.p] at hfile hbuf
  refine ⟨own, fun n => ?_, out, buf, hands, hperm, hfile, hbuf, fun hnone => hhands (hsim.chunk_eq_none hnone)⟩
  obtain ⟨done, hd, howned⟩ := hdone n
  rw [appends_called] at hd
  refine ⟨done, pending (s'.pc (n + 1)), hd, ?_, fun hi => ?_, howned⟩
  · unfold pending
    split <;> simp
  · rw [hsim.callers n, hi]
    rfl

theorem succeeds_runs {t : Tid} {n : ℕ} : ∀ l ∈ runs t n, ∀ u env, l = .run u env → env.file.Succeeds := by
  intro l hl u env he
  rw [List.eq_of_mem_replicate hl] at he
  cases he
  exact FileEnv.succeeds_ok

theorem records_once_append :
    ∃ w w', Settled ⟨true, 0⟩ w ∧
      run (World.step utc) w (.call 0 ⟨true, 0⟩ (.append none (some nameO)) :: runs (.caller 0) 18 ++
        runs (.worker .shared) 20) = some w' ∧
      ∃ own : List (ℕ × Bytes),
        (∀ n, ∃ done todo, (if n = 0 then [(none, some nameO)] else []) = done ++ todo ∧ todo.length ≤ 1 ∧
          (w'.pc (.caller n) = .idle → todo = []) ∧
          (own.filter (·.1 = n)).map Prod.snd = done.map (record utc w.statics)) ∧
        ∃ out buf hands, (out ++ buf ++ hands).Perm (own.map Prod.snd) ∧
          (sink (w'.app ⟨true, 0⟩)).all = (sink (w.app ⟨true, 0⟩)).all ++ out.flatten ∧
          buffered (w'.app ⟨true, 0⟩) = buf.flatten ∧ ((∀ t, (w'.pc t).drained = none) → hands = []) := by
  have hsome : ((run (World.step utc) (.init (fun _ => []) ⟨0, 0⟩) (openNew 0)).any fun w =>
      ((w.apps ⟨true, 0⟩).sgLogBuff.any fun lb => lb.buff.parray.length = 150 * 1024 ∧
        lb.buff.maxLength = 150 * 1024 ∧ lb.buff.pos = 0 ∧ lb.buff.length = 0 ∧ lb.buff.parray.head? = some 0) ∧
      (w.apps ⟨true, 0⟩).sgBufferblockLength = kBufferBlockLength ∧ (w.apps ⟨true, 0⟩).sgLogdir ≠ [] ∧
      ((w.apps ⟨true, 0⟩).sgMmapFile.any fun mt => mt.mmapFd =
        some (mmapFilePath (w.apps ⟨true, 0⟩).sgLogdir (w.apps ⟨true, 0⟩).sgLogfilename)) ∧
      (w.apps ⟨true, 0⟩).sgLogfile.isNone ∧ (w.apps ⟨true, 0⟩).sgLogClose = false ∧
      (w.pc (.worker .shared)).isIdle ∧
      Meets (World.step utc) (fun w _ => bufferLength (w.app ⟨true, 0⟩) < 153600 * 4 / 5) w
        (.call 0 ⟨true, 0⟩ (.append none (some nameO)) :: runs (.caller 0) 18 ++ runs (.worker .shared) 20) ∧
      (run (World.step utc) w (.call 0 ⟨true, 0⟩ (.append none (some nameO)) :: runs (.caller 0) 18 ++
        runs (.worker .shared) 20)).isSome) = true := by
    decide +kernel
  obtain ⟨w, hw, hsome⟩ := (Option.any_eq_true _ _).mp hsome
  obtain ⟨hbuff, hblock, hdir, hmap, hfile, hflag, hworker, hmeets, hrun⟩ := of_decide_eq_true hsome
  obtain ⟨lb, hlb, hbuff⟩ := (Option.any_eq_true _ _).mp hbuff
  obtain ⟨hmem, hcap, hpos, hlen, hfirst⟩ := of_decide_eq_true hbuff
  obtain ⟨mt, hmt, hfd⟩ := (Option.any_eq_true _ _).mp hmap
  obtain ⟨w', hw'⟩ := Option.isSome_iff_exists.mp hrun
  have hgood : lb.Good := by
    refine ⟨⟨⟨?_, ?_, ?_, ?_, ?_⟩, ?_⟩, ?_, ?_⟩
    all_goals simp [hmem, hcap, hpos, hlen, hfirst]
  have hhandle : Session.HandleOk (w.apps ⟨true, 0⟩) := fun f hf => by
    rw [hf] at hfile
    cases hfile
  have hopened : Opened (w.app ⟨true, 0⟩) lb :=
    ⟨⟨hlb, hgood, hcap, hblock, ⟨mt, hmt, fun _ => of_decide_eq_true hfd⟩, hhandle⟩, hflag⟩
  have hsettled := settled_openNew hw
  have hdrained : (w.pc (.worker .shared)).drained = none := by
    rw [isIdle_iff.mp hworker]
    rfl
  have huses : ∀ l ∈ .call 0 ⟨true, 0⟩ (.append none (some nameO)) :: runs (.caller 0) 18 ++
      runs (.worker .shared) 20, l.Uses ⟨true, 0⟩ := by
    simp only [List.cons_append, List.forall_mem_cons, List.forall_mem_append]
    exact ⟨⟨rfl, trivial⟩, uses_runs, uses_runs⟩
  have hfine : Meets (World.step utc)
      (State.Fine FileEnv.Succeeds (fun p => bufferLength p < 153600 * 4 / 5) ⟨true, 0⟩) w
      (.call 0 ⟨true, 0⟩ (.append none (some nameO)) :: runs (.caller 0) 18 ++ runs (.worker .shared) 20) := by
    have hok : ∀ l ∈ .call 0 ⟨true, 0⟩ (.append none (some nameO)) :: runs (.caller 0) 18 ++ runs (.worker .shared) 20,
        ∀ t env, l = .run t env → env.file.Succeeds := by
      simp only [List.cons_append, List.forall_mem_cons, List.forall_mem_append]
      exact ⟨by rintro t env ⟨⟩, succeeds_runs, succeeds_runs⟩
    refine meets_of_inv (P := fun _ => True) (fun _ _ _ _ _ _ => trivial) (fun w l _ hc => ?_) trivial
      (hmeets.and (meets_of_forall hok))
    cases l with
    | run t env => exact ⟨hc.2 t env rfl, fun _ _ _ _ => hc.1⟩
    | _ => trivial
  obtain ⟨own, hown, hrest⟩ := records_once utc (settled_openNew hw) hopened
    ((hgood.content_eq_nil_iff).mpr hlen) hdir hdrained huses hfine hw'
  refine ⟨w, w', settled_openNew hw, hw', own, fun n => ?_, hrest⟩
  obtain ⟨done, todo, hd, hown⟩ := hown n
  refine ⟨done, todo, ?_, hown⟩
  rw [← hd]
  by_cases hn : n = 0
  · rw [if_pos hn, hn]
    rfl
  · simp [Label.text, runs, Ne.symm hn, hn]

end Settled

end MTAppenderFile.Loglib.World
