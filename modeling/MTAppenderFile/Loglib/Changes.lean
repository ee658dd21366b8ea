import MTAppenderFile.Loglib.Locking
import MTAppenderFile.Loglib.Session

/-! # What a step changes

`AppOp.Spec` says for each operation on an appender which of its fields it changes, and what it gives. A step
changes an appender by one operation or not at all (`Effect.spec`), deletes one, gives one to the program, or
changes the list. Taken one after the other, the operations of a function are that function in `Appender`
(`logAppenderOpen_eq_ops` and so on).

A call of `close` comes through the stages of `CloseStage`, one after the other: each step stays in the stage or
goes on to the next one by a `CloseMove` (`Effect.closing_next`). -/

namespace MTAppenderFile.Loglib.World

open MTAppenderFile.Lib.Vector
open MTAppenderFile.Comm.CTypes
open MTAppenderFile.Comm.Auto
open MTAppenderFile.Comm.Ptr
open MTAppenderFile.Loglib.Base
open MTAppenderFile.Loglib.Buffer
open MTAppenderFile.Loglib.Files
open MTAppenderFile.Loglib.Formatter
open MTAppenderFile.Loglib.Appender
open MTAppenderFile.Loglib.Threads (drainBuffer)
open MTAppenderFile.Loglib.Session (closelogfile_eq closelogfile_sgLogfile writelogfile log2fileLocked_eq)

/-! ### Operations on an appender -/

/-- Only the fields of the log file differ. -/
def FileFields (x y : LogAppender) : Prop :=
  ∃ f t d, y = { x with sgLogfile := f, sgOpenfiletime := t, sgCurrentDir := d }

/-- **The fields that an operation changes** from `x` to `y`, and what it gives. -/
def AppOp.Spec (x y : LogAppender) : {α : Type} → AppOp α → α → Prop
  | _, .loadClose, closed => y = x ∧ closed = x.sgLogClose
  | _, .storeClose b, _ => y = { x with sgLogClose := b }
  | _, .loadMode, mode => y = x ∧ mode = x.sgMode
  | _, .storeMode mode, _ => y = { x with sgMode := mode }
  | _, .loadBuff, null => y = x ∧ null = x.sgLogBuff.isNone
  | _, .emptyDir, empty => y = x ∧ empty = x.sgLogdir.isEmpty
  | _, .length, _ => y = x ∧ x.sgLogBuff.isSome = true
  | _, .format _ _, _ => y = x
  | _, .insert _ _, ok => ∃ lb lb', x.sgLogBuff = some lb ∧ y = { x with sgLogBuff := some lb' } ∧
      (ok = false → lb' = lb)
  | _, .drain, _ => ∃ lb, x.sgLogBuff = some lb ∧ y = { x with sgLogBuff := some lb.clear }
  | _, .log2file _, _ => FileFields x y
  | _, .map _ _, _ => ∃ len mt, y = { x with sgBufferblockLength := len, sgMmapFile := mt }
  | _, .buff _, _ => ∃ lb, y = { x with sgLogBuff := some lb }
  | _, .names filedir filename, _ => y = { x with sgLogdir := filedir.bytes, sgLogfilename := filename.bytes }
  | _, .free, _ => y = { x with sgMmapFile := none, sgLogBuff := none }
  | _, .closelogfile, _ => ∃ t, y = { x with sgLogfile := none, sgOpenfiletime := t }

/-- The flag that an operation stores in `sg_log_close`. -/
def AppOp.stores : {α : Type} → AppOp α → Option Bool
  | _, .storeClose b => some b
  | _, _ => none

/-- The operation leaves the buffer as it is. -/
def AppOp.keepsBuff : {α : Type} → AppOp α → Bool
  | _, .insert _ _ => false
  | _, .drain => false
  | _, .buff _ => false
  | _, .free => false
  | _, _ => true

/-- The flag that a statement stores in the `sg_log_close` of `m`. -/
def Stmt.stores (m : Mlog) : Stmt → Option Bool
  | .app n op _ => if n = m then op.stores else none
  | _ => none

section Operations

variable {lc : Libc} {env : Env} {p p' : Proc}

theorem write_false {lb lb' : LogBuffer} {data : Bytes} (h : lb.write data = (false, lb')) : lb' = lb := by
  unfold LogBuffer.write at h
  split_ifs at h <;> cases h
  rfl

theorem appenderInsert_spec {info : Option LogInfo} {log : Option CStr} {ok : Bool}
    (h : appenderInsert lc info log p = some (p', ok)) :
    AppOp.Spec p.mlog p'.mlog (.insert info log) ok := by
  obtain ⟨lb, hb, h⟩ := Option.bind_eq_some_iff.mp h
  obtain ⟨⟨statics, logBuff⟩, -, h⟩ := Option.bind_eq_some_iff.mp h
  obtain ⟨data, -, h⟩ := Option.bind_eq_some_iff.mp h
  dsimp only at h
  cases hw : lb.write data with
  | mk written lb' =>
    rw [hw] at h
    cases h
    refine ⟨lb, lb', hb, rfl, ?_⟩
    rintro rfl
    exact write_false hw

theorem flush_clear {lb lb' : LogBuffer} {buff tmp : AutoBuffer} (h : lb.flush buff = some (lb', tmp)) :
    lb' = lb.clear := by
  obtain ⟨n, -, h⟩ := Option.bind_eq_some_iff.mp h
  split_ifs at h
  · cases h; rfl
  · obtain ⟨data, -, h⟩ := Option.bind_eq_some_iff.mp h
    obtain ⟨_, -, h⟩ := Option.bind_eq_some_iff.mp h
    cases h; rfl

theorem drainBuffer_spec {tmp : Option Bytes} (hb : p.mlog.sgLogBuff.isNone ≠ true)
    (h : drainBuffer p = some (p', tmp)) : AppOp.Spec p.mlog p'.mlog .drain tmp := by
  obtain ⟨⟨mlog, buff⟩, hf, h⟩ := Option.bind_eq_some_iff.mp h
  cases h
  unfold flushLogBuff at hf
  split at hf
  · next hn => exact absurd (by rw [hn]; rfl) hb
  · next lb hlb =>
    obtain ⟨⟨lb', tmp⟩, hl, hf⟩ := Option.bind_eq_some_iff.mp hf
    cases hf
    exact ⟨lb, hlb, by rw [flush_clear hl]⟩

theorem FileFields.trans {x y z : LogAppender} (h : FileFields x y) (h' : FileFields y z) :
    FileFields x z := by
  obtain ⟨f, t, d, rfl⟩ := h
  obtain ⟨f', t', d', rfl⟩ := h'
  exact ⟨f', t', d', rfl⟩

theorem fileFields_openlogfile (lc : Libc) (env : FileEnv) (logDir : Bytes) (p : Proc) :
    FileFields p.mlog (openlogfile lc env logDir p).2.mlog := by
  unfold openlogfile
  split_ifs
  exacts [⟨_, _, _, rfl⟩, ⟨_, _, _, rfl⟩, ⟨_, _, _, rfl⟩, ⟨_, _, _, rfl⟩]

theorem fileFields_closelogfile (env : FileEnv) (p : Proc) : FileFields p.mlog (closelogfile env p).mlog := by
  obtain ⟨t, files, h⟩ := closelogfile_eq env p
  rw [h]
  exact ⟨_, _, _, rfl⟩

theorem fileFields_log2fileLocked (env : FileEnv) (data : Bytes) :
    FileFields p.mlog (log2fileLocked lc env data p).mlog := by
  have ho := fileFields_openlogfile lc env p.mlog.sgLogdir p
  have hw : ∀ q : Proc, FileFields q.mlog (writelogfile env data q).2.mlog := fun q => ⟨_, _, _, rfl⟩
  rw [log2fileLocked_eq]
  dsimp only
  split_ifs
  · exact (ho.trans (hw _)).trans (fileFields_closelogfile env _)
  · exact ho.trans (hw _)
  · exact ho

/-- **An operation meets its specification.** -/
theorem AppOp.run_spec {α : Type} {op : AppOp α} {a : α} (h : op.run lc env p = some (p', a)) :
    op.Spec p.mlog p'.mlog a := by
  cases op with
  | loadClose => cases h; exact ⟨rfl, rfl⟩
  | loadMode => cases h; exact ⟨rfl, rfl⟩
  | loadBuff => cases h; exact ⟨rfl, rfl⟩
  | emptyDir => cases h; exact ⟨rfl, rfl⟩
  | storeClose b => cases h; exact rfl
  | storeMode mode => cases h; exact rfl
  | names filedir filename => cases h; exact rfl
  | length =>
    obtain ⟨lb, hb, h⟩ := Option.map_eq_some_iff.mp h
    cases h
    exact ⟨rfl, by rw [hb]; rfl⟩
  | format info log =>
    obtain ⟨⟨statics, data⟩, -, h⟩ := Option.map_eq_some_iff.mp h
    cases h
    exact rfl
  | insert info log => exact appenderInsert_spec h
  | drain =>
    rw [AppOp.run, Option.ite_none_left_eq_some] at h
    exact drainBuffer_spec h.1 h.2
  | log2file data => cases h; exact fileFields_log2fileLocked env.file data
  | map filedir filename => cases h; exact ⟨_, _, rfl⟩
  | buff block => cases h; exact ⟨_, rfl⟩
  | free =>
    rw [AppOp.run, Option.ite_none_left_eq_some] at h
    obtain ⟨-, h⟩ := h
    obtain ⟨p₁, hf, h⟩ := Option.map_eq_some_iff.mp h
    cases h
    obtain ⟨mt, -, rfl⟩ := Option.map_eq_some_iff.mp hf
    exact rfl
  | closelogfile =>
    cases h
    obtain ⟨t, files, hc⟩ := closelogfile_eq env.file p
    exact ⟨t, by rw [hc]⟩

theorem AppOp.Spec.sgLogClose {α : Type} {op : AppOp α} {a : α} {x y : LogAppender} (h : op.Spec x y a) :
    y.sgLogClose = op.stores.getD x.sgLogClose := by
  cases op with
  | loadClose | loadMode | loadBuff | emptyDir | length => rw [h.1]; rfl
  | storeClose | storeMode | format | names | free => rw [h]; rfl
  | insert =>
    obtain ⟨_, _, -, rfl, -⟩ := h
    rfl
  | drain =>
    obtain ⟨_, -, rfl⟩ := h
    rfl
  | log2file =>
    obtain ⟨_, _, _, rfl⟩ := h
    rfl
  | map =>
    obtain ⟨_, _, rfl⟩ := h
    rfl
  | buff | closelogfile =>
    obtain ⟨_, rfl⟩ := h
    rfl

theorem AppOp.Spec.sgLogBuff {α : Type} {op : AppOp α} {a : α} {x y : LogAppender} (h : op.Spec x y a)
    (hk : op.keepsBuff = true) : y.sgLogBuff = x.sgLogBuff := by
  cases op with
  | loadClose | loadMode | loadBuff | emptyDir | length => rw [h.1]
  | storeClose | storeMode | format | names => rw [h]
  | insert | drain | buff | free => cases hk
  | log2file =>
    obtain ⟨_, _, _, rfl⟩ := h
    rfl
  | map =>
    obtain ⟨_, _, rfl⟩ := h
    rfl
  | closelogfile =>
    obtain ⟨_, rfl⟩ := h
    rfl

end Operations

/-! ### The functions as a whole

With one thread, the operations of a function one after the other are the function in `Appender`. -/

section Whole

variable {lc : Libc} {env : Env} {p : Proc}

theorem appenderAsync_eq_ops {info : Option LogInfo} {log : Option CStr} (hb : p.mlog.sgLogBuff.isSome = true) :
    appenderAsync lc info log p = ((AppOp.insert info log).run lc env p).map Prod.fst := by
  obtain ⟨lb, hlb⟩ := Option.isSome_iff_exists.mp hb
  unfold appenderAsync AppOp.run appenderInsert
  rw [hlb]
  simp only [Option.bind_eq_bind, Option.bind_some, Option.map_bind, Function.comp_def, Option.map_some]

theorem log2fileTmp_eq (env : FileEnv) (tmp : AutoBuffer) :
    log2fileTmp lc env tmp p = tmp.ptrBytes.elim p fun data => log2file lc env data p := by
  unfold log2fileTmp
  cases tmp.ptrBytes <;> rfl

theorem logThreadTask_eq_ops (hb : p.mlog.sgLogBuff.isSome = true) :
    logThreadTask lc env.file p =
      (AppOp.drain.run lc env p).map fun (p, tmp) => tmp.elim p fun data => log2file lc env.file data p := by
  have hnone : ¬ p.mlog.sgLogBuff.isNone = true := by
    rw [Option.isNone_eq_false_iff.mpr hb]
    exact Bool.false_ne_true
  rw [AppOp.run, if_neg hnone, logThreadTask, drainBuffer]
  cases flushLogBuff p.mlog with
  | none => rfl
  | some r => exact congrArg some (log2fileTmp_eq env.file r.2)

theorem logAppenderOpen_eq_ops {mode : AppendMode} {filedir filename : CStr} (hc : p.mlog.sgLogClose = true) :
    logAppenderOpen lc env.mmap env.file mode filedir filename p = (do
      let (p, block) ← (AppOp.map filedir filename).run lc env p
      let (p, _) ← (AppOp.buff block).run lc env p
      let (p, tmp) ← AppOp.drain.run lc env p
      let (p, _) ← (AppOp.names filedir filename).run lc env p
      let (p, _) ← (AppOp.storeClose false).run lc env p
      let (p, _) ← (AppOp.storeMode mode).run lc env p
      some (tmp.elim p fun data => log2file lc env.file data p)) := by
  rw [logAppenderOpen, if_neg (by rw [hc]; simp)]
  simp only [AppOp.run, Option.bind_eq_bind, Option.bind_some, drainBuffer, flushLogBuff, Option.isNone_some,
    Bool.false_eq_true, if_false, openMap, log2fileTmp_eq]
  generalize (LogBuffer.ofBlock _ _).flush _ = r
  cases r with
  | none => rfl
  | some r => rfl

end Whole

/-! ### The parts of the process -/

section Effect

variable {lc : Libc} {env : Env} {t : Tid} {w w₁ : State} {st : Stmt} {pc : Pc}

/-- **A statement changes an appender by one operation**, or not at all. -/
theorem Effect.spec (he : Effect lc env t w st w₁ pc) (m : Mlog) :
    w₁.apps m = w.apps m ∨ ∃ (α : Type) (op : AppOp α) (k : α → Pc) (a : α), st = .app m op k ∧
      pc = k a ∧ op.Spec (w.apps m) (w₁.apps m) a := by
  cases he with
  | @app α n op k p a hn h =>
    by_cases hmn : m = n
    · subst hmn
      refine .inr ⟨α, op, k, a, rfl, rfl, ?_⟩
      show op.Spec _ (Function.update w.apps m p.mlog m) a
      rw [Function.update_self]
      exact AppOp.run_spec h
    · exact .inl (Function.update_of_ne hmn ..)
  | _ => exact .inl rfl

theorem Effect.sgLogClose (he : Effect lc env t w st w₁ pc) (m : Mlog) :
    (w₁.apps m).sgLogClose = (st.stores m).getD (w.apps m).sgLogClose := by
  cases he with
  | @app α n op k p a hn h =>
    by_cases hnm : n = m
    · subst hnm
      show (Function.update w.apps n p.mlog n).sgLogClose = _
      rw [Function.update_self, Stmt.stores, if_pos rfl]
      exact (AppOp.run_spec h).sgLogClose
    · rw [Stmt.stores, if_neg hnm]
      exact congrArg LogAppender.sgLogClose (Function.update_of_ne (Ne.symm hnm) ..)
  | _ => rfl

/-- The flag stays set as long as the appender is not opened. -/
theorem Effect.stays_closed {m : Mlog} (he : Effect lc env t w st w₁ pc) (hopen : st.stores m ≠ some false)
    (h : (w.apps m).sgLogClose = true) : (w₁.apps m).sgLogClose = true := by
  rw [he.sgLogClose, h]
  cases hst : st.stores m with
  | none => rfl
  | some b =>
    cases b with
    | true => rfl
    | false => exact absurd hst hopen

theorem Effect.alive (he : Effect lc env t w st w₁ pc) :
    w₁.alive = w.alive ∨ ∃ m, st = .delete m pc ∧ w₁.alive = Function.update w.alive m false := by
  cases he with
  | @delete m k hm => exact .inr ⟨m, rfl, rfl⟩
  | _ => exact .inl rfl

theorem Effect.given (he : Effect lc env t w st w₁ pc) :
    w₁.given = w.given ∨ ∃ m, st = .give m pc ∧ w₁.given = Function.update w.given m true := by
  cases he with
  | @give m k => exact .inr ⟨m, rfl, rfl⟩
  | _ => exact .inl rfl

theorem Effect.created (he : Effect lc env t w st w₁ pc) : w₁.created = w.created := by cases he <;> rfl

theorem Effect.sharedAppenders (he : Effect lc env t w st w₁ pc) :
    w₁.sharedAppenders = w.sharedAppenders ∨
      (∃ m k, st = .vec (.push m) k ∧ w₁.sharedAppenders = w.sharedAppenders.pushBack m env.room) ∨
      ∃ m k, st = .vec (.erase m) k ∧ w₁.sharedAppenders = w.sharedAppenders.erase m := by
  cases he with
  | @vec α op k v a h =>
    cases op with
    | push m => cases h; exact .inr (.inl ⟨m, k, rfl, rfl⟩)
    | erase m => cases h; exact .inr (.inr ⟨m, k, rfl, rfl⟩)
    | empty => cases h; exact .inl rfl
    | begin => cases h; exact .inl rfl
    | more it | deref it | next it =>
      obtain ⟨_, -, h⟩ := Option.map_eq_some_iff.mp h
      cases h
      exact .inl rfl
  | _ => exact .inl rfl

end Effect

/-! ### The stages of `close` -/

/-- How far a call of `close` is: before the load of `sg_log_close`, the store, the broadcast to the appender's
own worker, in the join, before the end of `__closelogfile`, or behind it. -/
inductive CloseStage
  | load
  | store
  | notify
  | join
  | free
  | done
  deriving DecidableEq

/-- The stage at a point of `mtaf_log_appender_close`. -/
def ClosePc.stage : ClosePc → CloseStage
  | .load => .load
  | .store => .store
  | .notifyOwn => .notify
  | .isruning => .join
  | .joinLock => .join
  | .join => .join
  | .joinUnlock _ => .join
  | .readTid => .join
  | .pthreadJoin _ => .join
  | .fileUnlock => .done
  | _ => .free

/-- The stage at a point of `mtaf_log_appender_destroy`. -/
def DestroyPc.stage : DestroyPc → CloseStage
  | .close pc => pc.stage
  | _ => .done

/-- The stage at which a thread is to close `m`. -/
def closing (m : Mlog) : Pc → Option CloseStage
  | .close n pc => if n = m then some pc.stage else none
  | .destroy n pc => if n = m then some pc.stage else none
  | _ => none

/-- From one stage to the next one, and what that does. -/
inductive CloseMove (m : Mlog) (w w₁ : State) : CloseStage → CloseStage → Prop
  | stay {s : CloseStage} (h : s ≠ .store) : CloseMove m w w₁ s s
  | load (h : (w.apps m).sgLogClose = false) : CloseMove m w w₁ .load .store
  | closed (h : (w.apps m).sgLogClose = true) : CloseMove m w w₁ .load .done
  | store (h : (w₁.apps m).sgLogClose = true) : CloseMove m w w₁ .store .notify
  | notify (h : w₁ = w.goto (.worker (.own m)) (woken (w.pc (.worker (.own m))))) :
      CloseMove m w w₁ .notify .join
  | join : CloseMove m w w₁ .join .free
  | file (h : (w₁.apps m).sgLogfile = none) : CloseMove m w w₁ .free .done

section Closing

variable {lc : Libc} {env : Env} {t : Tid} {w w₁ : State} {m : Mlog} {pc : Pc}

/-- A step of `mtaf_log_appender_close` stays in its stage or goes on to the next one; the function returns
early, or at the end. -/
theorem closeCode_move {here : ClosePc → Pc} {ret : Pc} {c : ClosePc}
    (he : Effect lc env t w (closeCode m here ret c) w₁ pc) :
    (pc = ret ∧ CloseMove m w w₁ c.stage .done) ∨
      ∃ c', pc = here c' ∧ CloseMove m w w₁ c.stage c'.stage := by
  have hstay : ∀ {c' : ClosePc}, c.stage ≠ .store → pc = here c' → c'.stage = c.stage →
      ∃ c', pc = here c' ∧ CloseMove m w w₁ c.stage c'.stage := fun hc h hs =>
    ⟨_, h, by rw [hs]; exact .stay hc⟩
  cases c with
  | load =>
    cases he with
    | @app _ _ _ _ p closed _ h =>
      cases h
      cases hc : (w.apps m).sgLogClose with
      | false => exact .inr ⟨.store, if_neg (ne_true_of_eq_false hc), .load hc⟩
      | true => exact .inl ⟨if_pos hc, .closed hc⟩
  | store =>
    cases he with
    | @app _ _ _ _ p _ _ h =>
      cases h
      exact .inr ⟨.notifyOwn, rfl, .store (by simp [State.setApp])⟩
  | notifyOwn =>
    cases he with
    | notifyAll => exact .inr ⟨.isruning, rfl, .notify rfl⟩
  | isruning =>
    cases he with
    | isruning =>
      dsimp only
      split_ifs with hr
      · exact .inr ⟨.joinLock, rfl, .stay (by rintro ⟨⟩)⟩
      · exact .inr ⟨.notifyShared, rfl, .join⟩
  | joinLock =>
    cases he with
    | lock => exact .inr (hstay (by rintro ⟨⟩) rfl rfl)
  | join =>
    obtain ⟨found, hpc⟩ := he.leads (P := fun pc => ∃ found, pc = here (.joinUnlock found))
      fun found => ⟨found, rfl⟩
    exact .inr (hstay (by rintro ⟨⟩) hpc rfl)
  | joinUnlock found =>
    cases he with
    | unlock =>
      cases found with
      | false => exact .inr ⟨.notifyShared, rfl, .join⟩
      | true => exact .inr (hstay (by rintro ⟨⟩) rfl rfl)
  | readTid =>
    cases he with
    | readTid => exact .inr (hstay (by rintro ⟨⟩) rfl rfl)
  | pthreadJoin tid =>
    cases he with
    | pthreadJoin => exact .inr ⟨.notifyShared, rfl, .join⟩
  | notifyShared =>
    cases he with
    | notifyAll =>
      split_ifs
      exacts [.inr ⟨.task .load, rfl, .stay (by rintro ⟨⟩)⟩, .inr ⟨.lock, rfl, .stay (by rintro ⟨⟩)⟩]
  | task pc =>
    obtain ⟨c', hpc, hs⟩ := he.leads <|
      taskCode_leads (P := fun pc => ∃ c', pc = here c' ∧ c'.stage = .free) (fun pc => ⟨.task pc, rfl, rfl⟩)
        ⟨.lock, rfl, rfl⟩ pc
    exact .inr (hstay (by rintro ⟨⟩) hpc hs)
  | lock =>
    cases he with
    | lock => exact .inr (hstay (by rintro ⟨⟩) rfl rfl)
  | free =>
    cases he with
    | app => exact .inr (hstay (by rintro ⟨⟩) rfl rfl)
  | unlock =>
    cases he with
    | unlock => exact .inr (hstay (by rintro ⟨⟩) rfl rfl)
  | fileLock =>
    cases he with
    | lock => exact .inr (hstay (by rintro ⟨⟩) rfl rfl)
  | file =>
    cases he with
    | @app _ _ _ _ p _ _ h =>
      cases h
      refine .inr ⟨.fileUnlock, rfl, .file ?_⟩
      simp [State.setApp, State.app]
  | fileUnlock =>
    cases he with
    | unlock => exact .inl ⟨rfl, .stay (by rintro ⟨⟩)⟩

theorem exists_closing_iff : (∃ s, closing m pc = some s) ↔ pc.fn.Closes m := by
  cases pc with
  | close n pc => simp [closing, Pc.fn, Fn.Closes]
  | destroy n pc => simp [closing, Pc.fn, Fn.Closes]
  | _ => simp [closing, Pc.fn, Fn.Closes]

/-- Behind its call of `close`, `destroy` is done with it. -/
theorem code_destroy_done {d : DestroyPc} (hd : ∀ c, d ≠ .close c) :
    (code (.destroy m d)).Leads fun pc => pc = .idle ∨ closing m pc = some .done := by
  have hdone : ∀ {d : DestroyPc}, (∀ c, d ≠ .close c) → closing m (.destroy m d) = some .done := by
    intro d hd
    cases d with
    | close c => exact absurd rfl (hd c)
    | _ => exact if_pos rfl
  cases d with
  | close c => exact absurd rfl (hd c)
  | erase => exact fun _ => .inr (hdone (by rintro _ ⟨⟩))
  | delete => exact .inl rfl
  | _ => exact .inr (hdone (by rintro _ ⟨⟩))

theorem Effect.closing_next (he : Effect lc env t w (code (w.pc t)) w₁ pc) {s : CloseStage}
    (hs : closing m (w.pc t) = some s) :
    (pc = .idle ∧ CloseMove m w w₁ s .done) ∨ ∃ s', closing m pc = some s' ∧ CloseMove m w w₁ s s' := by
  generalize w.pc t = pc₀ at he hs
  cases pc₀ with
  | close n c =>
    rw [closing, Option.ite_none_right_eq_some, Option.some_inj] at hs
    obtain ⟨rfl, rfl⟩ := hs
    rcases closeCode_move he with h | ⟨c', rfl, h⟩
    · exact .inl h
    · exact .inr ⟨_, if_pos rfl, h⟩
  | destroy n d =>
    rw [closing, Option.ite_none_right_eq_some, Option.some_inj] at hs
    obtain ⟨rfl, rfl⟩ := hs
    cases d with
    | close c =>
      rw [code, destroyCode] at he
      rcases closeCode_move he with ⟨rfl, h⟩ | ⟨c', rfl, h⟩
      · refine .inr ⟨.done, ?_, h⟩
        split_ifs
        exacts [if_pos rfl, if_pos rfl]
      · exact .inr ⟨_, if_pos rfl, h⟩
    | _ =>
      rcases he.leads (code_destroy_done (by rintro _ ⟨⟩)) with rfl | h
      · exact .inl ⟨rfl, .stay (by rintro ⟨⟩)⟩
      · exact .inr ⟨_, h, .stay (by rintro ⟨⟩)⟩
  | _ => cases hs

theorem Effect.closing_prev (he : Effect lc env t w (code (w.pc t)) w₁ pc) {s' : CloseStage}
    (hs' : closing m pc = some s') : ∃ s, closing m (w.pc t) = some s ∧ CloseMove m w w₁ s s' := by
  have hcl : pc.fn.Closes m := exists_closing_iff.mp ⟨s', hs'⟩
  rcases he.leads (code_leads_fn _) with rfl | hfn
  · cases hs'
  rw [hfn] at hcl
  obtain ⟨s, hs⟩ := exists_closing_iff.mpr hcl
  rcases he.closing_next hs with ⟨rfl, -⟩ | ⟨s'', hs'', h⟩
  · cases hs'
  · cases hs'.symm.trans hs''
    exact ⟨s, hs, h⟩

theorem taskCode_stores {n : Mlog} {here : TaskPc → Pc} {ret : Pc} (c : TaskPc) :
    (taskCode n here ret c).stores m = none := by
  cases c with
  | file data c => cases c <;> simp [taskCode, log2fileCode, Stmt.stores, AppOp.stores]
  | _ => simp [taskCode, Stmt.stores, AppOp.stores]

theorem closeCode_stores {here : ClosePc → Pc} {ret : Pc} {c : ClosePc}
    (h : (closeCode m here ret c).stores m = some true) : c = .store := by
  cases c with
  | store => rfl
  | task c =>
    rw [closeCode, taskCode_stores] at h
    cases h
  | _ => simp [closeCode, Stmt.stores, AppOp.stores] at h

theorem by_of_stores {st : Stmt} {f : Fn} {b : Bool} (h : st.stores m = some b) (hby : st.By f) :
    if b then f.Closes m else f.Opens m := by
  cases st with
  | app n op k =>
    rw [Stmt.stores, Option.ite_none_right_eq_some] at h
    obtain ⟨rfl, h⟩ := h
    cases op with
    | storeClose b' => cases h; exact hby
    | _ => cases h
  | _ => cases h

theorem closing_of_stores (h : (code pc).stores m = some true) : closing m pc = some .store := by
  have hcl : pc.fn.Closes m := by_of_stores h (code_by pc)
  cases pc with
  | close n c =>
    rcases hcl with hcl | hcl <;> cases hcl
    rw [closeCode_stores h]
    exact if_pos rfl
  | destroy n d =>
    rcases hcl with hcl | hcl <;> cases hcl
    cases d with
    | close c =>
      rw [code, destroyCode] at h
      rw [closeCode_stores h]
      exact if_pos rfl
    | _ => cases h
  | _ => rcases hcl with hcl | hcl <;> cases hcl

theorem Synced.caller_of_closing (hs : Synced w) {u : Tid} {s : CloseStage} (h : closing m (w.pc u) = some s) :
    ∃ n, u = .caller n := by
  cases u with
  | caller n => exact ⟨n, rfl⟩
  | worker a =>
    have hcl : (w.pc (.worker a)).fn.Closes m := exists_closing_iff.mp ⟨s, h⟩
    rcases hs.worker a with hi | hfn
    · rw [hi] at hcl
      rcases hcl with hcl | hcl <;> cases hcl
    · rw [hfn] at hcl
      rcases hcl with hcl | hcl <;> cases hcl

theorem Synced.closing_of_ne (hs : Synced w) (he : Effect lc env t w (code (w.pc t)) w₁ pc) {u : Tid}
    (hu : u ≠ t) : closing m ((w₁.goto t pc).pc u) = closing m (w.pc u) := by
  refine hs.eq_of_ne he hu ?_
  rintro pc ⟨a, hfn⟩
  cases pc <;> first | rfl | cases hfn

end Closing

end MTAppenderFile.Loglib.World
