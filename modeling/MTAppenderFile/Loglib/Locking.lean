import MTAppenderFile.Lib.Locks
import MTAppenderFile.Lib.Run
import MTAppenderFile.Loglib.Moves

/-! # The order of the locks

The locks that a thread has can be read off its place (`held`). A lock is taken only above those the thread has:
the spinlock first, then `sg_mutex_buffer_async`, then `sg_mutex_log_file`, and the `splock` of a `Thread` or the
mutex of a `Condition` last. Every function releases in the opposite order what it has taken, on every path, and
joins a thread without any lock. This is checked at every program point (`code_keeps`).

In every reachable state the owners of the locks are the threads at these places (`synced_of_reach`); so no
threads wait for each other in a circle (`locks_in_order`). -/

namespace MTAppenderFile.Loglib.World

open MTAppenderFile.Lib.Run
open MTAppenderFile.Lib.Locks
open MTAppenderFile.Comm.CTypes
open MTAppenderFile.Loglib.Base
open MTAppenderFile.Loglib.Files
open MTAppenderFile.Loglib.Formatter
open MTAppenderFile.Loglib.Appender

/-- The order in which locks are taken. -/
def rank : Lock → ℕ
  | .spinlock => 0
  | .bufferAsync _ => 1
  | .logFile _ => 2
  | .splock _ => 3
  | .cond _ => 3

/-! ### The locks at every point -/

/-- In `__log2file`. -/
def log2fileHeld (m : Mlog) : Log2filePc → List Lock
  | .write => [.logFile m]
  | .unlock => [.logFile m]
  | _ => []

/-- In `__log_thread_task`. -/
def taskHeld (m : Mlog) : TaskPc → List Lock
  | .drain => [.bufferAsync m]
  | .unlock _ => [.bufferAsync m]
  | .file _ pc => log2fileHeld m pc
  | _ => []

/-- In `Thread::start`. -/
def startHeld (a : Async) : StartPc → List Lock
  | .lock => []
  | _ => [.splock a]

/-- In `Condition::wait`. -/
def waitHeld (a : Async) : WaitPc → List Lock
  | .lock => []
  | .blocked => []
  | .relock => []
  | _ => [.cond a]

/-- In `mtaf_log_appender_setmode`. -/
def setmodeHeld (m : Mlog) : SetmodePc → List Lock
  | .start pc => startHeld m.sgThreadAsync pc
  | _ => []

/-- In `mtaf_log_appender_create`. -/
def createHeld (m : Mlog) : CreatePc → List Lock
  | .threadUnlock => [.splock (.own m)]
  | .push => [.spinlock]
  | .spinUnlock => [.spinlock]
  | _ => []

/-- In `mtaf_log_appender_open`. -/
def openHeld (m : Mlog) : OpenPc → List Lock
  | .names _ => [.logFile m]
  | .store _ => [.logFile m]
  | .setmode _ pc => setmodeHeld m pc ++ [.logFile m]
  | .unlock _ => [.logFile m]
  | .file _ pc => log2fileHeld m pc
  | _ => []

/-- In `mtaf_log_appender_append_ex`. -/
def appendHeld (m : Mlog) : AppendPc → List Lock
  | .load => []
  | .mode => []
  | .format => []
  | .file _ pc => log2fileHeld m pc
  | .lock => []
  | .start pc => startHeld .shared pc ++ [.bufferAsync m]
  | _ => [.bufferAsync m]

/-- In `mtaf_log_appender_flush_sync`. -/
def flushSyncHeld (m : Mlog) : FlushSyncPc → List Lock
  | .test => [.bufferAsync m]
  | .drain => [.bufferAsync m]
  | .unlock _ => [.bufferAsync m]
  | .file _ pc => log2fileHeld m pc
  | _ => []

/-- In `mtaf_log_appender_close`. -/
def closeHeld (m : Mlog) : ClosePc → List Lock
  | .join => [.splock m.sgThreadAsync]
  | .joinUnlock _ => [.splock m.sgThreadAsync]
  | .task pc => taskHeld m pc
  | .free => [.bufferAsync m]
  | .unlock => [.bufferAsync m]
  | .file => [.logFile m]
  | .fileUnlock => [.logFile m]
  | _ => []

/-- In `mtaf_log_appender_destroy`. -/
def destroyHeld (m : Mlog) : DestroyPc → List Lock
  | .close pc => closeHeld m pc
  | .threadUnlock => [.splock m.sgThreadAsync]
  | .erase => [.spinlock]
  | .spinUnlock => [.spinlock]
  | _ => []

/-- In `Thread::start_routine`. -/
def routineHeld (a : Async) : RoutinePc → List Lock
  | .initLock => []
  | .cleanLock => []
  | _ => [.splock a]

/-- In `__async_log_thread_operation`. -/
def loopHeld (m : Mlog) : LoopPc → List Lock
  | .task pc => taskHeld m pc
  | .wait pc => waitHeld (.own m) pc
  | _ => []

/-- In `__async_log_shared_thread_operation`. -/
def passHeld : PassPc → List Lock
  | .lock => []
  | .task _ m pc => taskHeld m pc ++ [.spinlock]
  | .wait pc => waitHeld .shared pc
  | _ => [.spinlock]

/-- **The locks that a thread has**, the last one first. -/
def held : Pc → List Lock
  | .idle => []
  | .create m pc => createHeld m pc
  | .open m _ _ _ pc => openHeld m pc
  | .append m _ _ pc => appendHeld m pc
  | .setmode m _ pc => setmodeHeld m pc
  | .flush _ _ => []
  | .flushSync m pc => flushSyncHeld m pc
  | .close m pc => closeHeld m pc
  | .destroy m pc => destroyHeld m pc
  | .routine a pc => routineHeld a pc
  | .loop m pc => loopHeld m pc
  | .pass pc => passHeld pc

/-! ### The code keeps to it -/

/-- A statement is taken with the locks `h`: a lock above them is taken, the last one is released, a thread is
started under its `splock` and joined without a lock, and everything else leaves them. -/
def Stmt.Keeps (h : List Lock) : Stmt → Prop
  | .stop => h = []
  | .lock l k => (∀ l' ∈ h, rank l' < rank l) ∧ held k = l :: h
  | .unlock l k => h = l :: held k ∧ ∀ l' ∈ held k, rank l' < rank l
  | .block a k => h = .cond a :: held k ∧ ∀ l' ∈ held k, rank l' < 3
  | .start a k => .splock a ∈ h ∧ held k = h
  | .pthreadJoin _ _ k => h = [] ∧ held k = []
  | .sleep k => h = [] ∧ held k = []
  | st => st.Leads fun pc => held pc = h

section Keeps

variable {m : Mlog} {a : Async} {ret : Pc} {h : List Lock}

theorem held_fileTmp {file : Bytes → Log2filePc → Pc} (hfile : ∀ data, held (file data .test) = h)
    (hret : held ret = h) (tmp : Option Bytes) : held (fileTmp file ret tmp) = h := by
  cases tmp with
  | none => exact hret
  | some data => exact hfile data

theorem log2fileCode_keeps {data : Bytes} {here : Log2filePc → Pc}
    (hh : ∀ pc, held (here pc) = log2fileHeld m pc ++ h) (hret : held ret = h)
    (hr : ∀ l ∈ h, rank l < 2) (pc : Log2filePc) :
    (log2fileCode m data here ret pc).Keeps (log2fileHeld m pc ++ h) := by
  cases pc with
  | test =>
    intro empty
    dsimp only
    split_ifs
    exacts [hret, hh _]
  | lock => exact ⟨hr, hh _⟩
  | write => exact fun _ => hh _
  | unlock => exact ⟨by rw [hret]; rfl, by rw [hret]; exact hr⟩

theorem taskCode_keeps {here : TaskPc → Pc} (hh : ∀ pc, held (here pc) = taskHeld m pc ++ h)
    (hret : held ret = h) (hr : ∀ l ∈ h, rank l < 1) (pc : TaskPc) :
    (taskCode m here ret pc).Keeps (taskHeld m pc ++ h) := by
  have hr' : ∀ l ∈ h, rank l < 2 := fun l hl => (hr l hl).trans (by decide)
  cases pc with
  | load =>
    intro null
    dsimp only
    split_ifs
    exacts [hret, hh _]
  | lock => exact ⟨hr, hh _⟩
  | drain => exact fun _ => hh _
  | unlock tmp =>
    have hk : held (fileTmp (fun data pc => here (.file data pc)) ret tmp) = h :=
      held_fileTmp (fun _ => hh _) hret tmp
    exact ⟨by rw [hk]; rfl, by rw [hk]; exact hr⟩
  | file data pc => exact log2fileCode_keeps (fun pc => hh (.file data pc)) hret hr' pc

theorem rank_nil_lt {n : ℕ} : ∀ l ∈ ([] : List Lock), rank l < n := by simp

theorem taskCode_keeps_nil {here : TaskPc → Pc} (hh : ∀ pc, held (here pc) = taskHeld m pc)
    (hret : held ret = []) (pc : TaskPc) : (taskCode m here ret pc).Keeps (taskHeld m pc) := by
  have hk := taskCode_keeps (fun pc => by rw [hh, List.append_nil]) hret rank_nil_lt pc
  rwa [List.append_nil] at hk

theorem startCode_keeps {here : StartPc → Pc} (hh : ∀ pc, held (here pc) = startHeld a pc ++ h)
    (hret : held ret = h) (hr : ∀ l ∈ h, rank l < 3) (pc : StartPc) :
    (startCode a here ret pc).Keeps (startHeld a pc ++ h) := by
  cases pc with
  | lock => exact ⟨hr, hh _⟩
  | start => exact ⟨List.mem_cons_self, hh _⟩
  | unlock => exact ⟨by rw [hret]; rfl, by rw [hret]; exact hr⟩

theorem waitCode_keeps {here : WaitPc → Pc} (hh : ∀ pc, held (here pc) = waitHeld a pc)
    (hret : held ret = []) (pc : WaitPc) : (waitCode a here ret pc).Keeps (waitHeld a pc) := by
  cases pc with
  | lock => exact ⟨rank_nil_lt, hh _⟩
  | cas =>
    intro notified
    dsimp only
    split_ifs
    exacts [hh _, hh _]
  | block => exact ⟨by rw [hh]; rfl, by rw [hh]; exact rank_nil_lt⟩
  | blocked => exact ⟨rfl, hh _⟩
  | relock => exact ⟨rank_nil_lt, hh _⟩
  | clear => exact hh _
  | unlock => exact ⟨by rw [hret]; rfl, by rw [hret]; exact rank_nil_lt⟩

theorem setmodeCode_keeps {mode : AppendMode} {here : SetmodePc → Pc}
    (hh : ∀ pc, held (here pc) = setmodeHeld m pc ++ h) (hret : held ret = h)
    (hr : ∀ l ∈ h, rank l < 3) (pc : SetmodePc) :
    (setmodeCode m mode here ret pc).Keeps (setmodeHeld m pc ++ h) := by
  cases pc with
  | store => exact fun _ => hh _
  | notifyOwn => exact hh _
  | notifyShared => exact hh _
  | mode =>
    intro mode
    dsimp only
    split_ifs
    exacts [hh _, hret]
  | isruning =>
    intro run
    dsimp only
    split_ifs
    exacts [hh _, hret]
  | start pc => exact startCode_keeps (fun pc => hh (.start pc)) hret hr pc

theorem scanCode_keeps {info : Option LogInfo} {here : ScanPc → Pc} (hh : ∀ pc, held (here pc) = h)
    (hret : held ret = h) (pc : ScanPc) : (scanCode info here ret pc).Keeps h := by
  have hl : (scanCode info here ret pc).Leads fun pc => held pc = h := scanCode_leads hh hret pc
  cases pc <;> exact hl

theorem closeCode_keeps {here : ClosePc → Pc} (hh : ∀ pc, held (here pc) = closeHeld m pc)
    (hret : held ret = []) (pc : ClosePc) : (closeCode m here ret pc).Keeps (closeHeld m pc) := by
  cases pc with
  | load =>
    intro closed
    dsimp only
    split_ifs
    exacts [hret, hh _]
  | store => exact fun _ => hh _
  | notifyOwn => exact hh _
  | isruning =>
    intro run
    dsimp only
    split_ifs
    exacts [hh _, hh _]
  | joinLock => exact ⟨rank_nil_lt, hh _⟩
  | join => exact fun _ => hh _
  | joinUnlock found =>
    have hunlock : ∀ k, held k = [] → (Stmt.unlock (.splock m.sgThreadAsync) k).Keeps [.splock m.sgThreadAsync] :=
      fun k hk => ⟨by rw [hk], by rw [hk]; exact rank_nil_lt⟩
    cases found with
    | false => exact hunlock (here .notifyShared) (hh _)
    | true => exact hunlock (here .readTid) (hh _)
  | readTid => exact fun _ => hh _
  | pthreadJoin tid => exact ⟨rfl, hh _⟩
  | notifyShared =>
    show held (if _ then _ else _) = []
    split_ifs
    exacts [hh _, hh _]
  | task pc =>
    exact taskCode_keeps_nil (fun pc => hh (.task pc)) (hh .lock) pc
  | lock => exact ⟨rank_nil_lt, hh _⟩
  | free => exact fun _ => hh _
  | unlock => exact ⟨by rw [hh]; rfl, by rw [hh]; exact rank_nil_lt⟩
  | fileLock => exact ⟨rank_nil_lt, hh _⟩
  | file => exact fun _ => hh _
  | fileUnlock => exact ⟨by rw [hret]; rfl, by rw [hret]; exact rank_nil_lt⟩

theorem rank_buffer_lt : ∀ l ∈ [Lock.bufferAsync m], rank l < 2 := by simp [rank]

theorem rank_file_lt : ∀ l ∈ [Lock.logFile m], rank l < 3 := by simp [rank]

theorem log2fileCode_keeps_nil {data : Bytes} {here : Log2filePc → Pc}
    (hh : ∀ pc, held (here pc) = log2fileHeld m pc) (hret : held ret = []) (pc : Log2filePc) :
    (log2fileCode m data here ret pc).Keeps (log2fileHeld m pc) := by
  have hk : (log2fileCode m data here ret pc).Keeps (log2fileHeld m pc ++ []) :=
    log2fileCode_keeps (fun pc => by rw [hh, List.append_nil]) hret rank_nil_lt pc
  rwa [List.append_nil] at hk

theorem openCode_keeps {mode : AppendMode} {filedir filename : CStr} {here : OpenPc → Pc}
    (hh : ∀ pc, held (here pc) = openHeld m pc) (pc : OpenPc) :
    (openCode m mode filedir filename here pc).Keeps (openHeld m pc) := by
  cases pc with
  | load =>
    intro closed
    dsimp only
    split_ifs
    exacts [rfl, hh _]
  | map => exact fun _ => hh _
  | buff block => exact fun _ => hh _
  | flush => exact fun _ => hh _
  | lock tmp => exact ⟨rank_nil_lt, hh _⟩
  | names tmp => exact fun _ => hh _
  | store tmp => exact fun _ => hh _
  | setmode tmp pc =>
    exact setmodeCode_keeps (fun pc => hh (.setmode tmp pc)) (hh (.unlock tmp)) rank_file_lt pc
  | unlock tmp =>
    have hk : held (fileTmp (fun data pc => here (.file data pc)) .idle tmp) = [] :=
      held_fileTmp (fun _ => hh _) rfl tmp
    exact ⟨by rw [hk]; rfl, by rw [hk]; exact rank_nil_lt⟩
  | file data pc => exact log2fileCode_keeps_nil (fun pc => hh (.file data pc)) rfl pc

theorem appendCode_keeps {info : Option LogInfo} {log : Option CStr} {here : AppendPc → Pc}
    (hh : ∀ pc, held (here pc) = appendHeld m pc) (pc : AppendPc) :
    (appendCode m info log here pc).Keeps (appendHeld m pc) := by
  cases pc with
  | load =>
    intro closed
    dsimp only
    split_ifs
    exacts [rfl, hh _]
  | mode =>
    intro mode
    dsimp only
    split_ifs
    exacts [hh _, hh _]
  | format => exact fun tmp => held_fileTmp (fun _ => hh _) rfl tmp
  | file data pc => exact log2fileCode_keeps_nil (fun pc => hh (.file data pc)) rfl pc
  | lock => exact ⟨rank_nil_lt, hh _⟩
  | test =>
    intro null
    dsimp only
    split_ifs
    exacts [hh _, hh _]
  | insert =>
    intro ok
    dsimp only
    split_ifs
    exacts [hh _, hh _]
  | length =>
    intro full
    dsimp only
    split_ifs
    exacts [hh _, hh _]
  | notify => exact hh _
  | isruning =>
    intro run
    dsimp only
    split_ifs
    exacts [hh _, hh _]
  | start pc =>
    refine startCode_keeps (fun pc => hh (.start pc)) (hh (.scan .begin)) (fun l hl => ?_) pc
    exact (rank_buffer_lt l hl).trans (by decide)
  | scan pc => exact scanCode_keeps (fun pc => hh (.scan pc)) (hh .unlock) pc
  | unlock => exact ⟨rfl, rank_nil_lt⟩

theorem flushSyncCode_keeps {here : FlushSyncPc → Pc}
    (hh : ∀ pc, held (here pc) = flushSyncHeld m pc) (pc : FlushSyncPc) :
    (flushSyncCode m here pc).Keeps (flushSyncHeld m pc) := by
  cases pc with
  | mode =>
    intro mode
    dsimp only
    split_ifs
    exacts [rfl, hh _]
  | lock => exact ⟨rank_nil_lt, hh _⟩
  | test =>
    intro null
    dsimp only
    split_ifs
    exacts [hh _, hh _]
  | drain => exact fun _ => hh _
  | unlock tmp =>
    have hk : held (fileTmp (fun data pc => here (.file data pc)) .idle tmp) = [] :=
      held_fileTmp (fun _ => hh _) rfl tmp
    exact ⟨by rw [hk]; rfl, by rw [hk]; exact rank_nil_lt⟩
  | file data pc => exact log2fileCode_keeps_nil (fun pc => hh (.file data pc)) rfl pc

theorem createCode_keeps {here : CreatePc → Pc} (hh : ∀ pc, held (here pc) = createHeld m pc)
    (pc : CreatePc) : (createCode m here pc).Keeps (createHeld m pc) := by
  cases pc with
  | threadLock => exact ⟨rank_nil_lt, hh _⟩
  | threadUnlock => exact ⟨by rw [hh]; rfl, by rw [hh]; exact rank_nil_lt⟩
  | spinLock => exact ⟨rank_nil_lt, hh _⟩
  | push => exact fun _ => hh _
  | spinUnlock => exact ⟨by rw [hh]; rfl, by rw [hh]; exact rank_nil_lt⟩
  | give => exact (rfl : held .idle = [])

theorem destroyCode_keeps {here : DestroyPc → Pc} (hh : ∀ pc, held (here pc) = destroyHeld m pc)
    (pc : DestroyPc) : (destroyCode m here pc).Keeps (destroyHeld m pc) := by
  cases pc with
  | close pc =>
    refine closeCode_keeps (fun pc => hh (.close pc)) ?_ pc
    split_ifs
    exacts [hh _, hh _]
  | threadLock => exact ⟨rank_nil_lt, hh _⟩
  | threadUnlock => exact ⟨by rw [hh]; rfl, by rw [hh]; exact rank_nil_lt⟩
  | spinLock => exact ⟨rank_nil_lt, hh _⟩
  | erase => exact fun _ => hh _
  | spinUnlock => exact ⟨by rw [hh]; rfl, by rw [hh]; exact rank_nil_lt⟩
  | delete => exact (rfl : held .idle = [])

theorem routineCode_keeps {here : RoutinePc → Pc} (hh : ∀ pc, held (here pc) = routineHeld a pc)
    (pc : RoutinePc) : (routineCode a here pc).Keeps (routineHeld a pc) := by
  have htarget : held (target a) = [] := by cases a <;> rfl
  cases pc with
  | initLock => exact ⟨rank_nil_lt, hh _⟩
  | initUnlock => exact ⟨by rw [htarget]; rfl, by rw [htarget]; exact rank_nil_lt⟩
  | cleanLock => exact ⟨rank_nil_lt, hh _⟩
  | clean => exact hh _
  | cleanUnlock => exact ⟨rfl, rank_nil_lt⟩

theorem loopCode_keeps {here : LoopPc → Pc} (hh : ∀ pc, held (here pc) = loopHeld m pc)
    (hret : held ret = []) (pc : LoopPc) : (loopCode m here ret pc).Keeps (loopHeld m pc) := by
  cases pc with
  | top =>
    intro null
    dsimp only
    split_ifs
    exacts [hret, hh _]
  | task pc => exact taskCode_keeps_nil (fun pc => hh (.task pc)) (hh .load) pc
  | load =>
    intro closed
    dsimp only
    split_ifs
    exacts [hret, hh _]
  | wait pc => exact waitCode_keeps (fun pc => hh (.wait pc)) (hh .top) pc

theorem passCode_keeps {here : PassPc → Pc} (hh : ∀ pc, held (here pc) = passHeld pc)
    (hret : held ret = []) (pc : PassPc) : (passCode here ret pc).Keeps (passHeld pc) := by
  cases pc with
  | lock => exact ⟨rank_nil_lt, hh _⟩
  | empty =>
    intro empty
    dsimp only
    split_ifs
    exacts [hh _, hh _]
  | exit => exact ⟨by rw [hret]; rfl, by rw [hret]; exact rank_nil_lt⟩
  | begin => exact fun _ => hh _
  | cond it =>
    intro more
    dsimp only
    split_ifs
    exacts [hh _, hh _]
  | deref it => exact fun _ => hh _
  | load it m =>
    intro closed
    dsimp only
    split_ifs
    exacts [hh _, hh _]
  | task it m pc =>
    exact taskCode_keeps (fun pc => hh (.task it m pc)) (hh (.next it)) (by simp [rank]) pc
  | next it => exact fun _ => hh _
  | unlock => exact ⟨by rw [hh]; rfl, by rw [hh]; exact rank_nil_lt⟩
  | wait pc => exact waitCode_keeps (fun pc => hh (.wait pc)) (hh .lock) pc

end Keeps

/-- **Every statement keeps to the order of the locks.** -/
theorem code_keeps (pc : Pc) : (code pc).Keeps (held pc) := by
  cases pc with
  | idle => exact rfl
  | create m pc => exact createCode_keeps (fun _ => rfl) pc
  | «open» m mode filedir filename pc => exact openCode_keeps (fun _ => rfl) pc
  | append m info log pc => exact appendCode_keeps (fun _ => rfl) pc
  | setmode m mode pc =>
    have hk : (setmodeCode m mode (.setmode m mode) .idle pc).Keeps (setmodeHeld m pc ++ []) :=
      setmodeCode_keeps (fun pc => (List.append_nil _).symm) rfl (by exact rank_nil_lt) pc
    rwa [List.append_nil] at hk
  | flush m pc =>
    cases pc with
    | notifyOwn => exact (rfl : held (.flush m .notifyShared) = [])
    | notifyShared => exact (rfl : held .idle = [])
  | flushSync m pc => exact flushSyncCode_keeps (fun _ => rfl) pc
  | close m pc => exact closeCode_keeps (fun _ => rfl) rfl pc
  | destroy m pc => exact destroyCode_keeps (fun _ => rfl) pc
  | routine a pc => exact routineCode_keeps (fun _ => rfl) pc
  | loop m pc => exact loopCode_keeps (fun _ => rfl) rfl pc
  | pass pc => exact passCode_keeps (fun _ => rfl) rfl pc

/-! ### The owners -/

/-- The worker has ended, but for the release of its `splock`. -/
def ended : Pc → Bool
  | .idle => true
  | .routine _ .cleanUnlock => true
  | _ => false

/-- A statement ends its worker, or leaves it ended (`e`) or not. -/
def Stmt.Ends (e : Bool) : Stmt → Prop
  | .cleanup _ k => World.ended k = true
  | st => st.Leads fun pc => World.ended pc = e

/-- **The threads and their locks**: the owners are the threads at these places, the callers are in functions
of the program, a worker is in its routine, and it has ended if its `Thread` says so. -/
structure Synced (w : State) : Prop where
  holds : Holds w.owner fun t => held (w.pc t)
  caller : ∀ n a, (w.pc (.caller n)).fn ≠ .worker a
  worker : ∀ a, w.pc (.worker a) = .idle ∨ (w.pc (.worker a)).fn = .worker a
  ended : ∀ a, (w.thread a).isended = true ↔ ended (w.pc (.worker a)) = true

theorem held_woken (pc : Pc) : held (woken pc) = held pc := by
  unfold woken
  split <;> rfl

theorem ended_woken (pc : Pc) : ended (woken pc) = ended pc := by
  unfold woken
  split <;> rfl

theorem log2fileCode_ends {m : Mlog} {data : Bytes} {here : Log2filePc → Pc} {ret : Pc}
    (h : ∀ pc, ended (here pc) = false) (hret : ended ret = false) (pc : Log2filePc) :
    (log2fileCode m data here ret pc).Ends false := by
  have hl : (log2fileCode m data here ret pc).Leads fun pc => ended pc = false :=
    log2fileCode_leads h hret pc
  cases pc <;> exact hl

theorem taskCode_ends {m : Mlog} {here : TaskPc → Pc} {ret : Pc} (h : ∀ pc, ended (here pc) = false)
    (hret : ended ret = false) (pc : TaskPc) : (taskCode m here ret pc).Ends false := by
  have hl : (taskCode m here ret pc).Leads fun pc => ended pc = false := taskCode_leads h hret pc
  cases pc with
  | file data pc => exact log2fileCode_ends (fun pc => h (.file data pc)) hret pc
  | _ => exact hl

theorem waitCode_ends {a : Async} {here : WaitPc → Pc} {ret : Pc} (h : ∀ pc, ended (here pc) = false)
    (hret : ended ret = false) (pc : WaitPc) : (waitCode a here ret pc).Ends false := by
  have hl : (waitCode a here ret pc).Leads fun pc => ended pc = false := waitCode_leads h hret pc
  cases pc <;> exact hl

theorem code_ends {pc : Pc} {a : Async} (h : pc.fn = .worker a) : (code pc).Ends (ended pc) := by
  cases pc with
  | routine a pc =>
    cases pc with
    | initUnlock =>
      cases a with
      | shared => exact (rfl : ended (.pass .lock) = false)
      | own m => exact (rfl : ended (.loop m .top) = false)
    | clean => exact (rfl : ended (.routine a .cleanUnlock) = true)
    | cleanUnlock => exact (rfl : ended .idle = true)
    | cleanLock => exact (rfl : ended (.routine a .clean) = false)
    | initLock => exact (rfl : ended (.routine a .initUnlock) = false)
  | loop m pc =>
    have hl : (code (.loop m pc)).Leads fun pc => ended pc = false :=
      loopCode_leads (fun _ => by exact rfl) (by exact rfl) pc
    cases pc with
    | task pc =>
      show (taskCode m (fun pc => .loop m (.task pc)) (.loop m .load) pc).Ends false
      exact taskCode_ends (fun _ => rfl) rfl pc
    | wait pc =>
      show (waitCode (.own m) (fun pc => .loop m (.wait pc)) (.loop m .top) pc).Ends false
      exact waitCode_ends (fun _ => rfl) rfl pc
    | _ => exact hl
  | pass pc =>
    have hl : (code (.pass pc)).Leads fun pc => ended pc = false :=
      passCode_leads (fun _ => by exact rfl) (by exact rfl) pc
    cases pc with
    | task it m pc =>
      show (taskCode m (fun pc => .pass (.task it m pc)) (.pass (.next it)) pc).Ends false
      exact taskCode_ends (fun _ => rfl) rfl pc
    | wait pc =>
      show (waitCode .shared (fun pc => .pass (.wait pc)) (.pass .lock) pc).Ends false
      exact waitCode_ends (fun _ => rfl) rfl pc
    | _ => exact hl
  | _ => cases h

section Run

variable {lc : Libc} {env : Env} {t : Tid} {w w₁ w' : State} {st : Stmt} {pc : Pc}

theorem Synced.eq_worker (hs : Synced w) {a : Async} (h : (w.pc t).fn = .worker a) : t = .worker a := by
  cases t with
  | caller n => exact absurd h (hs.caller n a)
  | worker b =>
    rcases hs.worker b with hi | hb
    · rw [hi] at h
      cases h
    · rw [hb] at h
      cases h
      rfl

/-- A worker that is started has ended, and released its `splock`: the thread that starts it has it. -/
theorem Synced.idle_of_start (hs : Synced w) {a : Async} {k : Pc} (hst : code (w.pc t) = .start a k)
    (he : (w.thread a).isended = true) : w.pc (.worker a) = .idle := by
  have hk := code_keeps (w.pc t)
  rw [hst] at hk
  have hend := (hs.ended a).mp he
  rcases hs.worker a with hi | hfn
  · exact hi
  cases hpc : w.pc (.worker a) with
  | idle => rfl
  | routine b pc =>
    rw [hpc] at hend hfn
    cases hfn
    cases pc with
    | cleanUnlock =>
      have hmem : Lock.splock a ∈ held (w.pc (.worker a)) := by
        rw [hpc]; exact List.mem_cons_self
      cases hs.holds.unique hk.1 hmem
      rw [hpc] at hst
      cases hst
    | _ => cases hend
  | _ =>
    rw [hpc] at hend
    cases hend

theorem Synced.held_eq (hs : Synced w) (he : Effect lc env t w (code (w.pc t)) w₁ pc) (u : Tid) :
    held (w₁.pc u) = held (w.pc u) := by
  cases u with
  | caller n => rw [he.pc_caller]
  | worker a =>
    rcases he.pc_worker a with hp | ⟨-, hp⟩ | ⟨⟨k, hst⟩, hend, hp⟩
    · rw [hp]
    · rw [hp, held_woken]
    · rw [hp, hs.idle_of_start hst hend]
      rfl

theorem Effect.holds (he : Effect lc env t w st w₁ pc) (hk : st.Keeps (held (w.pc t)))
    (hh : Holds w.owner fun u => held (w.pc u)) (hothers : ∀ u, held (w₁.pc u) = held (w.pc u)) :
    Holds (w₁.goto t pc).owner fun u => held ((w₁.goto t pc).pc u) := by
  have hne : ∀ u, u ≠ t → held ((w₁.goto t pc).pc u) = held (w.pc u) := fun u hu => by
    rw [goto_pc_of_ne _ hu, hothers]
  have hsame : held pc = held (w.pc t) → ∀ u, held ((w₁.goto t pc).pc u) = held (w.pc u) := by
    intro hpc u
    by_cases hu : u = t
    · rw [hu, goto_pc_self, hpc]
    · exact hne u hu
  cases he with
  | lock _ hl => exact hh.lock hl (by rw [goto_pc_self]; exact hk.2) hne
  | unlock =>
    refine hh.unlock (by rw [goto_pc_self]; exact hk.1) (fun hm => ?_) hne
    rw [goto_pc_self] at hm
    exact Nat.lt_irrefl _ (hk.2 _ hm)
  | block =>
    refine hh.unlock (by rw [goto_pc_self]; exact hk.1) (fun hm => ?_) hne
    rw [goto_pc_self] at hm
    exact Nat.lt_irrefl _ (hk.2 _ hm)
  | spawn | failed | started => exact hh.congr (hsame hk.2)
  | pthreadJoin => exact hh.congr (hsame (hk.2.trans hk.1.symm))
  | sleep => exact hh.congr (hsame (hk.2.trans hk.1.symm))
  | app | vec | isruning | ended | join | readTid | cas => exact hh.congr (hsame (hk _))
  | cleanup | notifyAll | clear | give | delete => exact hh.congr (hsame hk)

theorem Effect.worker (he : Effect lc env t w st w₁ pc) (a : Async) :
    ((w₁.thread a).isended = (w.thread a).isended ∧ (∀ k, st ≠ .cleanup a k) ∧
        World.ended (w₁.pc (.worker a)) = World.ended (w.pc (.worker a))) ∨
      (st = .cleanup a pc ∧ (w₁.thread a).isended = true) ∨
      (∃ k, st = .start a k) ∧ (w.thread a).isended = true ∧ (w₁.thread a).isended = false ∧
        w₁.pc (.worker a) = .routine a .initLock := by
  cases he with
  | @spawn b k hb =>
    by_cases hab : a = b
    · subst hab
      exact .inr (.inr ⟨⟨_, rfl⟩, hb, by simp [State.spawn, State.goto], goto_pc_self ..⟩)
    · refine .inl ⟨by simp [State.spawn, State.goto, hab], by rintro _ ⟨⟩, ?_⟩
      rw [State.spawn, goto_pc_of_ne _ (by simp [hab])]
  | @cleanup b k =>
    by_cases hab : a = b
    · subst hab
      exact .inr (.inl ⟨rfl, by simp⟩)
    · exact .inl ⟨by simp [hab], by rintro _ ⟨⟩; exact hab rfl, rfl⟩
  | @join b k hb =>
    refine .inl ⟨?_, by rintro _ ⟨⟩, rfl⟩
    by_cases hab : a = b
    · subst hab; simp
    · simp [hab]
  | @failed b k tid hb =>
    refine .inl ⟨?_, by rintro _ ⟨⟩, rfl⟩
    by_cases hab : a = b
    · subst hab; simp [State.unspawned]
    · simp [State.unspawned, hab]
  | @notifyAll b k =>
    refine .inl ⟨rfl, by rintro _ ⟨⟩, ?_⟩
    by_cases hab : a = b
    · subst hab
      rw [goto_pc_self, ended_woken]
    · rw [goto_pc_of_ne _ (by simp [hab])]
  | _ => exact .inl ⟨rfl, by rintro _ ⟨⟩, rfl⟩

theorem Effect.ends {e : Bool} (he : Effect lc env t w st w₁ pc) (hst : st.Ends e)
    (hc : ∀ a k, st ≠ .cleanup a k) : World.ended pc = e := by
  cases he with
  | cleanup => exact absurd rfl (hc _ _)
  | app | vec | isruning | ended | join | readTid | cas => exact hst _
  | _ => exact hst

theorem Synced.ended_run (hs : Synced w) (he : Effect lc env t w (code (w.pc t)) w₁ pc) (a : Async) :
    ((w₁.goto t pc).thread a).isended = true ↔ World.ended ((w₁.goto t pc).pc (.worker a)) = true := by
  have hby := code_by (w.pc t)
  show (w₁.thread a).isended = true ↔ _
  by_cases ht : t = .worker a
  · subst ht
    have hfn : (w.pc (.worker a)).fn = .worker a := by
      rcases hs.worker a with hi | hfn
      · rw [hi] at he
        cases he
      · exact hfn
    have hends := code_ends hfn
    rw [goto_pc_self]
    rcases he.worker a with ⟨hsame, hc, -⟩ | ⟨hst, hend⟩ | ⟨⟨k, hst⟩, hend, -⟩
    · rw [hsame, hs.ended a, he.ends hends]
      intro b k hst
      rw [hst] at hby
      cases hfn.symm.trans hby
      exact hc k hst
    · rw [hst] at hends
      exact iff_of_true hend hends
    · rw [hs.idle_of_start hst hend] at hst
      cases hst
  · rw [goto_pc_of_ne _ (Ne.symm ht)]
    rcases he.worker a with ⟨hsame, -, hp⟩ | ⟨hst, -⟩ | ⟨-, -, hend, hp⟩
    · rw [hsame, hs.ended a, hp]
    · rw [hst] at hby
      exact absurd (hs.eq_worker hby) ht
    · rw [hend, hp]
      exact iff_of_false Bool.false_ne_true Bool.false_ne_true

theorem Effect.fn_run (he : Effect lc env t w (code (w.pc t)) w₁ pc) (u : Tid) :
    (w₁.goto t pc).pc u = .idle ∨ ((w₁.goto t pc).pc u).fn = (w.pc u).fn ∨
      ∃ a, u = .worker a ∧ (w₁.goto t pc).pc u = .routine a .initLock := by
  by_cases hu : u = t
  · subst hu
    rw [goto_pc_self]
    exact (he.leads (code_leads_fn _)).imp_right .inl
  · rw [goto_pc_of_ne _ hu]
    cases u with
    | caller n => exact .inr (.inl (by rw [he.pc_caller]))
    | worker a =>
      rcases he.pc_worker a with hp | ⟨-, hp⟩ | ⟨-, -, hp⟩
      · exact .inr (.inl (by rw [hp]))
      · exact .inr (.inl (by rw [hp, fn_woken]))
      · exact .inr (.inr ⟨a, rfl, hp⟩)

theorem Synced.run (hs : Synced w) (he : Effect lc env t w (code (w.pc t)) w₁ pc) :
    Synced (w₁.goto t pc) where
  holds := he.holds (code_keeps _) hs.holds (hs.held_eq he)
  caller := by
    intro n a h
    rcases he.fn_run (.caller n) with hi | hfn | ⟨b, hb, -⟩
    · rw [hi] at h
      cases h
    · rw [hfn] at h
      exact hs.caller n a h
    · cases hb
  worker := by
    intro a
    rcases he.fn_run (.worker a) with hi | hfn | ⟨b, hb, hpc⟩
    · exact .inl hi
    · rcases hs.worker a with hi | h
      · rw [hi] at hfn
        exact .inl (fn_eq_idle_iff.mp hfn)
      · exact .inr (hfn.trans h)
    · cases hb
      exact .inr (by rw [hpc]; rfl)
  ended := hs.ended_run he

/-- What is said of the functions of the program only does not change for the other threads. -/
theorem Synced.eq_of_ne (hs : Synced w) (he : Effect lc env t w (code (w.pc t)) w₁ pc) {u : Tid} (hu : u ≠ t)
    {β : Type} {g : Pc → β} (hg : ∀ pc, (∃ a, pc.fn = .worker a) → g pc = g .idle) :
    g ((w₁.goto t pc).pc u) = g (w.pc u) := by
  cases u with
  | caller n => rw [goto_pc_of_ne _ hu, he.pc_caller]
  | worker a =>
    have hworker : ∀ {w : State}, Synced w → g (w.pc (.worker a)) = g .idle := fun hs => by
      rcases hs.worker a with hi | hfn
      · rw [hi]
      · exact hg _ ⟨a, hfn⟩
    rw [hworker hs, hworker (hs.run he)]

theorem synced_init (files : Disk) (statics : FormatStatics) : Synced (.init files statics) where
  holds := fun _ _ => iff_of_false (by rintro ⟨⟩) (by rintro ⟨⟩)
  caller := by rintro _ _ ⟨⟩
  worker := fun _ => .inl rfl
  ended := fun _ => iff_of_true rfl rfl

theorem Synced.enter (hs : Synced w) {n : ℕ} (hi : w.pc (.caller n) = .idle) (hheld : held pc = [])
    (hfn : ∀ a, pc.fn ≠ .worker a) (howner : w₁.owner = w.owner) (hthread : w₁.thread = w.thread)
    (hpc : w₁.pc = w.pc) : Synced (w₁.goto (.caller n) pc) where
  holds := by
    show Holds w₁.owner _
    rw [howner]
    refine hs.holds.congr fun u => ?_
    by_cases hu : u = .caller n
    · rw [hu, goto_pc_self, hi, hheld]
      rfl
    · rw [goto_pc_of_ne _ hu, hpc]
  caller := by
    intro k a
    by_cases hk : k = n
    · subst hk
      rw [goto_pc_self]
      exact hfn a
    · rw [goto_pc_of_ne _ (by simp [hk]), hpc]
      exact hs.caller k a
  worker := by
    intro a
    rw [goto_pc_of_ne _ (by simp), hpc]
    exact hs.worker a
  ended := by
    intro a
    rw [goto_pc_of_ne _ (by simp), hpc]
    show (w₁.thread a).isended = true ↔ _
    rw [hthread]
    exact hs.ended a

theorem Synced.step {l : Label} (hs : Synced w) (h : World.step lc w l = some w') : Synced w' := by
  rcases step_cases h with ⟨n, share, -, hi, rfl⟩ | ⟨n, m, u, -, hi, -, rfl⟩ | ⟨t, env, w₁, pc, -, he, rfl⟩
  · cases share <;> exact hs.enter hi rfl (by rintro _ ⟨⟩) rfl rfl rfl
  · cases u <;> exact hs.enter hi rfl (by rintro _ ⟨⟩) rfl rfl rfl
  · exact hs.run he

/-- **In every reachable state** the owners of the locks are the threads at the places where the locks are
taken, and the workers are as their `Thread` says. -/
theorem synced_of_reach {C : State → Label → Prop} {files : Disk} {statics : FormatStatics}
    (h : Reach (World.step lc) C (.init files statics) w) : Synced w :=
  h.inv (synced_init files statics) fun _ _ _ hs _ hstep => hs.step hstep

/-- **A run of the callers `ns` meets a condition** if every step passes a test of it. -/
theorem meets_of_test {C : State → Label → Prop} (ns : List ℕ) (test : State → Label → Bool) {files : Disk}
    {statics : FormatStatics} {ls : List Label}
    (htest : ∀ w l, Synced w → IdleBut ns w → test w l = true → C w l) (hby : ∀ l ∈ ls, l.By ns)
    (h : Meets (World.step lc) (fun w l => test w l = true) (.init files statics) ls) :
    Meets (World.step lc) C (.init files statics) ls :=
  meets_of_inv (P := fun w => Synced w ∧ IdleBut ns w)
    (fun _ _ _ hw hl hs => ⟨hw.1.step hs, hw.2.step hl.1 hs⟩) (fun w l hw hl => htest w l hw.1 hw.2 hl.2)
    ⟨synced_init files statics, idleBut_init ns files statics⟩ ((meets_of_forall hby).and h)

/-! ### No deadlock -/

/-- The lock that the thread is about to take. -/
def State.wants (w : State) (t : Tid) : Option Lock :=
  match code (w.pc t) with
  | .lock l _ => some l
  | _ => none

/-- The thread that the thread is about to join. -/
def State.joins (w : State) (t : Tid) : Option Tid :=
  match code (w.pc t) with
  | .pthreadJoin a _ _ => some (.worker a)
  | _ => none

theorem wants_eq_some_iff {l : Lock} : w.wants t = some l ↔ ∃ k, code (w.pc t) = .lock l k := by
  unfold State.wants
  constructor
  · intro h
    split at h
    · next hst => cases h; exact ⟨_, hst⟩
    · cases h
  · rintro ⟨k, hst⟩
    rw [hst]

theorem joins_eq_some_iff {u : Tid} :
    w.joins t = some u ↔ ∃ a tid k, code (w.pc t) = .pthreadJoin a tid k ∧ u = .worker a := by
  unfold State.joins
  constructor
  · intro h
    split at h
    · next hst => cases h; exact ⟨_, _, _, hst, rfl⟩
    · cases h
  · rintro ⟨a, tid, k, hst, rfl⟩
    rw [hst]

theorem Synced.ordered (hs : Synced w) :
    Ordered w.owner (fun t => held (w.pc t)) w.wants w.joins rank where
  holds := hs.holds
  above := by
    intro t l hl
    obtain ⟨k, hst⟩ := wants_eq_some_iff.mp hl
    have hk := code_keeps (w.pc t)
    rw [hst] at hk
    exact hk.1
  bare := by
    intro t u hu
    obtain ⟨a, tid, k, hst, -⟩ := joins_eq_some_iff.mp hu
    have hk := code_keeps (w.pc t)
    rw [hst] at hk
    refine ⟨hk.1, ?_⟩
    unfold State.wants
    rw [hst]
  ends := by
    intro t u hu
    obtain ⟨a, -, -, -, rfl⟩ := joins_eq_some_iff.mp hu
    unfold State.joins
    split
    · next hst =>
      -- a worker is in no function that closes
      have hby := code_by (w.pc (.worker a))
      rw [hst] at hby
      obtain ⟨m, hm⟩ := hby
      rcases hs.worker a with hi | hfn
      · rw [hi] at hst
        cases hst
      · rw [hfn] at hm
        rcases hm with hm | hm <;> cases hm
    · rfl

end Run

/-- **The locking protocol has no deadlock.** In every reachable state no threads wait for each other in a
circle, each for a lock that the next one has or for the end of the next one; no thread wants a lock that it
has; and a thread that has returned has no lock. -/
theorem locks_in_order (lc : Libc) (files : Disk) (statics : FormatStatics) (w : State)
    (h : Reach (step lc) (fun _ _ => True) (.init files statics) w) :
    (∀ t, ¬ Relation.TransGen (Waits w.owner w.wants w.joins) t t) ∧
      (∀ t l, w.wants t = some l → w.owner l ≠ some t) ∧
      ∀ t l, w.pc t = .idle → w.owner l ≠ some t := by
  have hs := synced_of_reach h
  refine ⟨hs.ordered.no_cycle, fun t l => hs.ordered.not_owner, fun t l hi ho => ?_⟩
  have hm : l ∈ held (w.pc t) := (hs.holds l t).mp ho
  rw [hi] at hm
  cases hm

/-- An appender is opened and appended to, and the shared worker comes to the buffer mutex in its task. Another caller
has that mutex in `append`, and a third call creates an appender. -/
def threeInLine : List Label :=
  openNew 0 ++
  .call 0 ⟨true, 0⟩ (.append none (some nameO)) :: runs (.caller 0) 18 ++
  runs (.worker .shared) 9 ++
  .call 1 ⟨true, 0⟩ (.append none (some nameO)) :: runs (.caller 1) 3 ++
  [.create 0 true]

theorem locks_in_order_threeInLine :
    ∃ w, run (step utc) (.init (fun _ => []) ⟨0, 0⟩) threeInLine = some w ∧
      (Waits w.owner w.wants w.joins (.caller 0) (.worker .shared) ∧
        Waits w.owner w.wants w.joins (.worker .shared) (.caller 1)) ∧
      (∀ t, ¬ Relation.TransGen (Waits w.owner w.wants w.joins) t t) ∧
      (∀ t l, w.wants t = some l → w.owner l ≠ some t) ∧
      ∀ t l, w.pc t = .idle → w.owner l ≠ some t := by
  have hrun : (run (step utc) (.init (fun _ => []) ⟨0, 0⟩) threeInLine).any (fun w =>
      decide (w.wants (.caller 0) = some .spinlock ∧ w.owner .spinlock = some (.worker .shared) ∧
        w.wants (.worker .shared) = some (.bufferAsync ⟨true, 0⟩) ∧
        w.owner (.bufferAsync ⟨true, 0⟩) = some (.caller 1))) = true := by
    decide +kernel
  obtain ⟨w, hw, hb⟩ := (Option.any_eq_true _ _).mp hrun
  obtain ⟨hwants₀, howner₀, hwants, howner⟩ := of_decide_eq_true hb
  exact ⟨w, hw, ⟨.lock hwants₀ howner₀, .lock hwants howner⟩,
    locks_in_order utc (fun _ => []) ⟨0, 0⟩ w (reach_of_run (meets_of_forall fun _ _ => trivial) hw)⟩

end MTAppenderFile.Loglib.World
