import MTAppenderFile.Loglib.Lifecycle

/-! # What an open leaves behind

The functions that open and close an appender, with what the model of the appender leaves out: the outcome of
`ftruncate`, the end of a mapping that is longer than its file, and the descriptors, mappings and heap blocks
that the process holds. With an `ftruncate` that succeeds this is the `open` of that model
(`logAppenderOpen_proc`).

A mapping has all its addresses, but only the pages of its file may be touched, and only the bytes of the file
are stored. `mtaf_open_mmap` checks `open` and nothing else: an `open` of the appender leaves a whole block or
nothing, for an outcome of its calls, exactly if `mmap` succeeds and the file is as long as the mapping
(`opens_whole_iff`). -/

namespace MTAppenderFile.Loglib.Opening

open MTAppenderFile.Lib.Block
open MTAppenderFile.Lib.Run
open MTAppenderFile.Comm.CTypes
open MTAppenderFile.Comm.Auto
open MTAppenderFile.Comm.Ptr
open MTAppenderFile.Loglib.Base
open MTAppenderFile.Loglib.Buffer
open MTAppenderFile.Loglib.Files
open MTAppenderFile.Loglib.Formatter
open MTAppenderFile.Loglib.Appender
open MTAppenderFile.Loglib.Session
open MTAppenderFile.Loglib.Lifecycle

/-- What the calls of one `mtaf_open_mmap` return. -/
structure MapEnv extends OpenEnv where
  ftruncateOk : Bool

/-- Where a pointer to a block points; of a mapping, the first `backed` bytes are those of the file. -/
inductive Block
  | null
  | failed
  | mapped (path : Bytes) (backed : ℕ)
  | heap (n : ℕ)
  deriving DecidableEq, Repr

/-- What the process holds for an appender. -/
inductive Resource
  | fd (path : Bytes)
  | mapping (path : Bytes) (size : ℤ)
  | mmapFile
  | logBuff
  | heap (n : ℕ)
  deriving DecidableEq, Repr

/-- `mtaf_mmapped_file` with its `start` and `size`, and what the calls on it change. -/
structure Maps where
  mt : MmappedFile
  start : Block
  size : ℤ
  files : Disk
  held : List Resource

/-- The end of the page in which `n` bytes end. -/
def pageEnd (page n : ℕ) : ℕ := n + (page - n % page) % page

/-- The bytes of a mapping of `file` that may be touched: up to the end of the last page of the file. -/
def touchable (page : ℕ) (file : Bytes) (mapSize : ℕ) : Bytes :=
  resize file (min mapSize (pageEnd page file.length))

/-- `munmap(mt->start, mt->size)` of a mapping with the bytes `bytes`. -/
def munmap (bytes : Bytes) (m : Maps) : Maps :=
  match m.start with
  | .mapped path backed => { m with
      files := Function.update m.files path (bytes.take backed ++ (m.files path).drop backed)
      held := m.held.erase (.mapping path m.size) }
  | _ => m

/-- `close(mt->mmapFd)`. -/
def closeFd (m : Maps) : Maps :=
  match m.mt.mmapFd with
  | some path => { m with held := m.held.erase (.fd path) }
  | none => m

/-- `mtaf_close_mmap(mt)`. -/
def closeMmap (bytes : Bytes) (m : Maps) : Maps := { closeFd (munmap bytes m) with mt := ⟨none, false⟩ }

/-- `mtaf_open_mmap(mt, filePath, mapSize, false)`: whether it returns `0`, and the bytes at `start`. `bytes`
are those of a mapping that is still open. -/
def openMmap (page : ℕ) (menv : MapEnv) (bytes filePath : Bytes) (mapSize : ℤ) (m : Maps) :
    Bool × Bytes × Maps :=
  let m := if m.mt.isOpen then closeMmap bytes m else m
  if menv.openOk then
    let file := if menv.ftruncateOk then resize (m.files filePath) mapSize.toNat else m.files filePath
    let m := { m with
      mt := ⟨some filePath, true⟩
      size := mapSize
      files := Function.update m.files filePath file
      held := .fd filePath :: m.held }
    if menv.mmapOk then
      (true, touchable page file mapSize.toNat, { m with
        start := .mapped filePath (min mapSize.toNat file.length)
        held := .mapping filePath mapSize :: m.held })
    else (true, [], { m with start := .failed })
  else (false, [], { m with mt := { m.mt with mmapFd := none } })

/-! ### The appender -/

/-- The process, where the pointers of the appender point, and what it holds. -/
structure Sys where
  proc : Proc
  start : Block
  size : ℤ
  ptr : Block
  held : List Resource

/-- The process with a new appender. -/
def Sys.create (useShareThread : Bool) (files : Disk) (statics : FormatStatics) : Sys :=
  ⟨.create useShareThread files statics, .null, 0, .null, []⟩

/-- The length of the block, once `open` has set it. -/
def blockLength (mlog : LogAppender) : ℤ :=
  if mlog.sgBufferblockLength ≤ 0 then kBufferBlockLength else mlog.sgBufferblockLength

/-- The `mtaf_mmapped_file` of `open`, from `malloc` if there is none. -/
def mallocMmapFile (s : Sys) : Maps :=
  match s.proc.mlog.sgMmapFile with
  | some mt => ⟨mt, s.start, s.size, s.proc.files, s.held⟩
  | none => ⟨⟨none, false⟩, s.start, s.size, s.proc.files, .mmapFile :: s.held⟩

/-- The call of `mtaf_open_mmap`. -/
def openCall (page : ℕ) (menv : MapEnv) (filedir filename : CStr) (s : Sys) : Bool × Bytes × Maps :=
  openMmap page menv s.proc.block (mmapFilePath filedir.bytes filename.bytes) (blockLength s.proc.mlog)
    (mallocMmapFile s)

/-- `mtaf_log_appender_open(mlog, _mode, filedir, filename)`. -/
def logAppenderOpen (lc : Libc) (page : ℕ) (menv : MapEnv) (env : FileEnv) (mode : AppendMode)
    (filedir filename : CStr) (s : Sys) : Option Sys :=
  if ¬ s.proc.mlog.sgLogClose then some s
  else
    let len := blockLength s.proc.mlog
    let (useMmap, start, m) := openCall page menv filedir filename s
    let (ptr, bytes, m) := if useMmap then (m.start, start, { m with held := .logBuff :: m.held })
      else (.heap len.toNat, resize menv.heap len.toNat,
        { m with held := .logBuff :: .heap len.toNat :: m.held })
    let lb := LogBuffer.ofBlock bytes len.toNat
    let mlog := { s.proc.mlog with sgBufferblockLength := len, sgLogBuff := some lb }
    if ptr = .null then
      let m := if useMmap ∧ m.mt.isOpen then closeMmap bytes m else m
      some ⟨{ s.proc with mlog := { mlog with sgMmapFile := some m.mt }, files := m.files }, m.start, m.size,
        ptr, m.held⟩
    else do
      let (lb, buffer) ← lb.flush (.empty 128)
      let p := { s.proc with
        files := m.files
        mlog := { mlog with
          sgMmapFile := some m.mt
          sgLogBuff := some lb
          sgLogdir := filedir.bytes
          sgLogfilename := filename.bytes
          sgLogClose := false } }
      some ⟨log2fileTmp lc env buffer (logAppenderSetmode mode p), m.start, m.size, ptr, m.held⟩

/-- The block of `close`: the mapping is wiped, which touches the whole block, and unmapped, or the heap block
freed. -/
def freeBlock (len : ℕ) (block : Bytes) (ptr : Block) (m : Maps) : Option Maps :=
  if m.mt.isOpen then
    if len ≤ block.length then some (closeMmap (List.replicate len 0) m) else none
  else match ptr with
    | .heap n => some { m with held := m.held.erase (.heap n) }
    | _ => none

/-- `mtaf_log_appender_close(mlog)`. -/
def logAppenderClose (lc : Libc) (worker : Option FileEnv) (env : FileEnv) (s : Sys) : Option Sys :=
  if s.proc.mlog.sgLogClose then some s
  else do
    let p ← closeTask lc worker env { s.proc with mlog := { s.proc.mlog with sgLogClose := true } }
    let mt ← p.mlog.sgMmapFile
    let m ← freeBlock p.mlog.sgBufferblockLength.toNat p.block s.ptr ⟨mt, s.start, s.size, p.files, s.held⟩
    let p := { p with mlog := { p.mlog with sgMmapFile := none, sgLogBuff := none }, files := m.files }
    some ⟨closelogfile env p, m.start, m.size, .null, (m.held.erase .mmapFile).erase .logBuff⟩

/-- The two operations. -/
inductive Op
  | open (menv : MapEnv) (env : FileEnv) (mode : AppendMode) (filedir filename : CStr)
  | close (worker : Option FileEnv) (env : FileEnv)

/-- One operation. -/
def step (lc : Libc) (page : ℕ) (s : Sys) : Op → Option Sys
  | .open menv env mode filedir filename => logAppenderOpen lc page menv env mode filedir filename s
  | .close worker env => logAppenderClose lc worker env s

/-- The states that they reach from a new appender. -/
def Reachable (lc : Libc) (page : ℕ) (s : Sys) : Prop :=
  ∃ useShareThread files statics,
    Reach (step lc page) (fun _ _ => True) (.create useShareThread files statics) s

/-! ### All or nothing -/

/-- `n` bytes from the block on are there: on the heap, or those of a file, by a mapping that is held. -/
def Backed (held : List Resource) (n : ℕ) : Block → Prop
  | .mapped path backed => (∃ size, .mapping path size ∈ held) ∧ n ≤ backed
  | .heap m => .heap m ∈ held ∧ n ≤ m
  | _ => False

/-- **An `open` left all or nothing**: an open appender with an empty buffer over a block of which every byte is
there, or a closed one without a buffer, and nothing more is held than before. -/
def AllOrNothing (s s' : Sys) : Prop :=
  (s'.proc.mlog.sgLogClose = false ∧
    (∃ lb, s'.proc.mlog.sgLogBuff = some lb ∧ lb.buff.length = 0 ∧
      lb.buff.maxLength = s'.proc.mlog.sgBufferblockLength.toNat) ∧
    Backed s'.held s'.proc.mlog.sgBufferblockLength.toNat s'.ptr) ∨
  (s'.proc.mlog.sgLogClose = true ∧ s'.proc.mlog.sgLogBuff = none ∧ s'.held = s.held)

/-- `mtaf_open_mmap` returns `0` only with a mapping of `mapSize` bytes at `start`. -/
def MapsOnSuccess (mapSize : ℤ) (r : Bool × Bytes × Maps) : Prop :=
  r.1 = true → ∃ path backed, r.2.2.start = .mapped path backed ∧ Backed r.2.2.held mapSize.toNat r.2.2.start

/-- What is expected of an `open` with given outcomes of its calls. -/
def OpensWhole (lc : Libc) (page : ℕ) (menv : MapEnv) (env : FileEnv) (mode : AppendMode)
    (filedir filename : CStr) (s : Sys) : Prop :=
  (∀ s', logAppenderOpen lc page menv env mode filedir filename s = some s' → AllOrNothing s s') ∧
  MapsOnSuccess (blockLength s.proc.mlog) (openCall page menv filedir filename s)

/-! ### The mapping -/

theorem le_pageEnd (page n : ℕ) : n ≤ pageEnd page n := Nat.le_add_right _ _

theorem touchable_of_le {page : ℕ} {file : Bytes} {mapSize : ℕ} (h : mapSize ≤ file.length) :
    touchable page file mapSize = resize file mapSize := by
  rw [touchable, Nat.min_eq_left (h.trans (le_pageEnd page _))]

theorem length_touchable (page : ℕ) (file : Bytes) (mapSize : ℕ) :
    (touchable page file mapSize).length = min mapSize (pageEnd page file.length) := length_resize _ _

/-- The file that is mapped: after `ftruncate`. -/
def mappedFile (menv : MapEnv) (files : Disk) (path : Bytes) : Bytes :=
  if menv.ftruncateOk then resize (files path) 153600 else files path

theorem le_length_mappedFile (menv : MapEnv) (files : Disk) (path : Bytes) :
    153600 ≤ (mappedFile menv files path).length ↔ menv.ftruncateOk = true ∨ 153600 ≤ (files path).length := by
  unfold mappedFile
  split_ifs with h
  · exact iff_of_true (Nat.le_of_eq (length_resize _ _).symm) (.inl h)
  · exact (or_iff_right h).symm

section Closed

variable {s : Sys} (h : Closed s.proc)

include h

theorem blockLength_closed : blockLength s.proc.mlog = kBufferBlockLength := blockLength_of_closed h

theorem mallocMmapFile_closed :
    mallocMmapFile s = ⟨⟨none, false⟩, s.start, s.size, s.proc.files, .mmapFile :: s.held⟩ := by
  rw [mallocMmapFile, h.mmap]

theorem openCall_closed (page : ℕ) (menv : MapEnv) (filedir filename : CStr) :
    openCall page menv filedir filename s =
      if menv.openOk then
        let path := mmapFilePath filedir.bytes filename.bytes
        let file := mappedFile menv s.proc.files path
        if menv.mmapOk then
          (true, touchable page file 153600, ⟨⟨some path, true⟩, .mapped path (min 153600 file.length),
            kBufferBlockLength, Function.update s.proc.files path file,
            .mapping path kBufferBlockLength :: .fd path :: .mmapFile :: s.held⟩)
        else (true, [], ⟨⟨some path, true⟩, .failed, kBufferBlockLength,
          Function.update s.proc.files path file, .fd path :: .mmapFile :: s.held⟩)
      else (false, [], ⟨⟨none, false⟩, s.start, s.size, s.proc.files, .mmapFile :: s.held⟩) := by
  rw [openCall, blockLength_closed h, mallocMmapFile_closed h]
  rfl

/-- **When `mtaf_open_mmap` reports success only with a mapping.** -/
theorem mapsOnSuccess_iff (page : ℕ) (menv : MapEnv) (filedir filename : CStr) :
    MapsOnSuccess (blockLength s.proc.mlog) (openCall page menv filedir filename s) ↔
      (menv.openOk = true → menv.mmapOk = true ∧ (menv.ftruncateOk = true ∨
        153600 ≤ (s.proc.files (mmapFilePath filedir.bytes filename.bytes)).length)) := by
  have hk : kBufferBlockLength.toNat = 153600 := rfl
  rw [openCall_closed h, blockLength_closed h, MapsOnSuccess, hk]
  dsimp only
  split_ifs with ho hm
  · have hle := le_length_mappedFile menv s.proc.files (mmapFilePath filedir.bytes filename.bytes)
    refine ⟨fun hb _ => ⟨hm, hle.mp ?_⟩, fun hc _ => ⟨_, _, rfl, ⟨_, List.mem_cons_self⟩, ?_⟩⟩
    · obtain ⟨path, backed, -, hb⟩ := hb rfl
      exact (Nat.le_min.mp hb.2).2
    · exact Nat.le_min.mpr ⟨Nat.le_refl _, hle.mpr (hc ho).2⟩
  · refine ⟨fun hb _ => ?_, fun hc => absurd (hc ho).1 hm⟩
    obtain ⟨path, backed, hs, -⟩ := hb rfl
    exact absurd hs (by simp)
  · exact iff_of_true (fun h0 => absurd h0 (by simp)) (fun h0 => absurd h0 ho)

/-! ### The outcomes of an open -/

section Outcomes

variable (lc : Libc) (page : ℕ) {menv : MapEnv} (env : FileEnv) (mode : AppendMode) (filedir filename : CStr)

theorem logAppenderOpen_heap (ho : menv.openOk = false) :
    logAppenderOpen lc page menv env mode filedir filename s =
      ((LogBuffer.ofBlock (resize menv.heap 153600) 153600).flush (.empty 128)).map fun r =>
        ⟨log2fileTmp lc env r.2 (opening s.proc ⟨none, false⟩ s.proc.files r.1 mode filedir filename),
          s.start, s.size, .heap 153600, .logBuff :: .heap 153600 :: .mmapFile :: s.held⟩ := by
  have hk : kBufferBlockLength.toNat = 153600 := rfl
  simp only [logAppenderOpen, h.flag, openCall_closed h, blockLength_closed h, ho, hk, not_true_eq_false,
    if_false, Bool.false_eq_true, reduceCtorEq]
  cases (LogBuffer.ofBlock (resize menv.heap 153600) 153600).flush (.empty 128) <;> rfl

theorem logAppenderOpen_mapped (ho : menv.openOk = true) (hm : menv.mmapOk = true) :
    let path := mmapFilePath filedir.bytes filename.bytes
    let file := mappedFile menv s.proc.files path
    logAppenderOpen lc page menv env mode filedir filename s =
      ((LogBuffer.ofBlock (touchable page file 153600) 153600).flush (.empty 128)).map fun r =>
        ⟨log2fileTmp lc env r.2 (opening s.proc ⟨some path, true⟩ (Function.update s.proc.files path file) r.1
            mode filedir filename),
          .mapped path (min 153600 file.length), kBufferBlockLength, .mapped path (min 153600 file.length),
          .logBuff :: .mapping path kBufferBlockLength :: .fd path :: .mmapFile :: s.held⟩ := by
  have hk : kBufferBlockLength.toNat = 153600 := rfl
  intro path file
  simp only [logAppenderOpen, h.flag, openCall_closed h, blockLength_closed h, ho, hm, hk, not_true_eq_false,
    if_false, if_true, reduceCtorEq]
  cases (LogBuffer.ofBlock (touchable page file 153600) 153600).flush (.empty 128) <;> rfl

/-- An `open` whose `mmap` fails does not return: the flush reads the mapping. -/
theorem logAppenderOpen_failed (ho : menv.openOk = true) (hm : ¬ menv.mmapOk = true) :
    logAppenderOpen lc page menv env mode filedir filename s = none := by
  have hk : kBufferBlockLength.toNat = 153600 := rfl
  simp only [logAppenderOpen, h.flag, openCall_closed h, blockLength_closed h, ho, if_neg hm, hk,
    not_true_eq_false, if_false, if_true, reduceCtorEq, flush_nil]
  rfl

/-- **With an `ftruncate` that succeeds** this is the `open` of the model of the appender. -/
theorem logAppenderOpen_proc (ht : menv.ftruncateOk = true) :
    (logAppenderOpen lc page menv env mode filedir filename s).map Sys.proc =
      Appender.logAppenderOpen lc menv.toOpenEnv env mode filedir filename s.proc := by
  have hk : kBufferBlockLength.toNat = 153600 := rfl
  have hlen : (if s.proc.mlog.sgBufferblockLength ≤ 0 then kBufferBlockLength
      else s.proc.mlog.sgBufferblockLength) = kBufferBlockLength := blockLength_of_closed h
  cases ho : menv.openOk with
  | false =>
    rw [logAppenderOpen_heap h lc page env mode filedir filename ho]
    simp only [Appender.logAppenderOpen, Files.openMmap, h.flag, h.mmap, hlen, hk, ho, not_true_eq_false,
      Option.getD_none, Bool.false_eq_true, if_false]
    cases (LogBuffer.ofBlock (resize menv.heap 153600) 153600).flush (.empty 128) <;> rfl
  | true =>
    by_cases hm : menv.mmapOk = true
    · let path := mmapFilePath filedir.bytes filename.bytes
      have hfile : mappedFile menv s.proc.files path = resize (s.proc.files path) 153600 := if_pos ht
      have hlen' := length_resize (s.proc.files path) 153600
      have htouch : touchable page (resize (s.proc.files path) 153600) 153600 =
          resize (s.proc.files path) 153600 := by
        rw [touchable_of_le (Nat.le_of_eq hlen'.symm), resize_of_length hlen']
      rw [logAppenderOpen_mapped h lc page env mode filedir filename ho hm, hfile, htouch]
      simp only [Appender.logAppenderOpen, Files.openMmap, h.flag, h.mmap, hlen, hk, ho, hm, not_true_eq_false,
        Option.getD_none, Option.getD_some, Bool.false_eq_true, if_false, if_true]
      cases (LogBuffer.ofBlock (resize (s.proc.files path) 153600) 153600).flush (.empty 128) <;> rfl
    · rw [logAppenderOpen_failed h lc page env mode filedir filename ho hm,
        Lifecycle.logAppenderOpen_failed h lc ho hm]
      rfl

end Outcomes

end Closed

/-! ### The reachable states -/

/-- What an open appender holds: its two structures, and a mapping with its descriptor or a heap block. -/
def Holds (s : Sys) : Prop :=
  ∃ mt, s.proc.mlog.sgMmapFile = some mt ∧
    ((mt.isOpen = true ∧ ∃ path backed, mt.mmapFd = some path ∧ s.start = .mapped path backed ∧
        s.held = [.logBuff, .mapping path s.size, .fd path, .mmapFile]) ∨
      (mt.isOpen = false ∧ ∃ n, s.ptr = .heap n ∧ s.held = [.logBuff, .heap n, .mmapFile]))

/-- An appender with an empty buffer over a mapping that cannot be touched up to its end. -/
structure Short (s : Sys) : Prop where
  flag : s.proc.mlog.sgLogClose = false
  block : s.proc.mlog.sgBufferblockLength = kBufferBlockLength
  mmap : ∃ mt, s.proc.mlog.sgMmapFile = some mt ∧ mt.isOpen = true
  buff : ∃ lb, s.proc.mlog.sgLogBuff = some lb ∧ lb.buff.length = 0 ∧ lb.buff.parray.length < 153600

/-- **The invariant**: closed, and nothing is held; or open over a whole block; or over a short one. -/
inductive Inv (s : Sys) : Prop
  | closed (h : Closed s.proc) (hh : s.held = [])
  | opened (lb : LogBuffer) (h : Opened s.proc lb) (hh : Holds s)
  | short (h : Short s)

theorem opened_of_length {p : Proc} (h : Closed p) (lc : Libc) (env : FileEnv) (mode : AppendMode)
    (filedir filename : CStr) (mt : MmappedFile) (files : Disk) {bytes : Bytes} (hl : bytes.length = 153600)
    (hfd : mt.isOpen = true → mt.mmapFd = some (mmapFilePath filedir.bytes filename.bytes)) :
    ∃ tmp p', (LogBuffer.ofBlock bytes 153600).flush (.empty 128) =
        some ((LogBuffer.ofBlock bytes 153600).clear, tmp) ∧
      log2fileTmp lc env tmp (opening p mt files (LogBuffer.ofBlock bytes 153600).clear mode filedir filename) =
        p' ∧
      Opened p' (LogBuffer.ofBlock bytes 153600).clear ∧ p'.mlog.sgMmapFile = some mt := by
  obtain ⟨tmp, hf, ht⟩ := flush_ofBlock hl
  have he := log2fileTmp_effect (opened_opening h files hl mode hfd).toLive lc env ht
  exact ⟨tmp, _, hf, rfl, he.opened rfl, he.mmapFile⟩

section Whole

variable {s : Sys} (h : Closed s.proc) (lc : Libc) (page : ℕ) {menv : MapEnv} (env : FileEnv)
  (mode : AppendMode) (filedir filename : CStr)

include h

/-- **An `open` over the heap block** returns. -/
theorem open_heap (ho : menv.openOk = false) :
    ∃ s' bytes, logAppenderOpen lc page menv env mode filedir filename s = some s' ∧
      Opened s'.proc (LogBuffer.ofBlock bytes 153600).clear ∧ s'.proc.mlog.sgMmapFile = some ⟨none, false⟩ ∧
      s'.ptr = .heap 153600 ∧ s'.held = .logBuff :: .heap 153600 :: .mmapFile :: s.held := by
  obtain ⟨tmp, p', hf, hp, hop, hmt⟩ := opened_of_length h lc env mode filedir filename
    ⟨none, false⟩ s.proc.files (length_resize menv.heap 153600) fun h0 => absurd h0 (by simp)
  rw [logAppenderOpen_heap h lc page env mode filedir filename ho, hf, Option.map_some, hp]
  exact ⟨_, _, rfl, hop, hmt, rfl, rfl⟩

/-- **An `open` over a mapping that can be touched up to its end** returns. -/
theorem open_mapped (ho : menv.openOk = true) (hm : menv.mmapOk = true) {path file : Bytes}
    (hpath : mmapFilePath filedir.bytes filename.bytes = path)
    (hfile : mappedFile menv s.proc.files path = file) (hle : 153600 ≤ pageEnd page file.length) :
    ∃ s' bytes, logAppenderOpen lc page menv env mode filedir filename s = some s' ∧
      Opened s'.proc (LogBuffer.ofBlock bytes 153600).clear ∧
      s'.proc.mlog.sgMmapFile = some ⟨some path, true⟩ ∧
      s'.start = .mapped path (min 153600 file.length) ∧ s'.ptr = s'.start ∧
      s'.held = .logBuff :: .mapping path s'.size :: .fd path :: .mmapFile :: s.held := by
  subst hpath hfile
  have hlen := (length_touchable page _ 153600).trans (Nat.min_eq_left hle)
  obtain ⟨tmp, p', hf, hp, hop, hmt⟩ := opened_of_length h lc env mode filedir filename
    ⟨some _, true⟩ (Function.update s.proc.files _ _) hlen fun _ => rfl
  rw [logAppenderOpen_mapped h lc page env mode filedir filename ho hm, hf, Option.map_some, hp]
  exact ⟨_, _, rfl, hop, hmt, rfl, rfl, rfl⟩

end Whole

/-- The flush of `open` over a short block returns only if the block starts with a NUL. -/
theorem flush_ofBlock_short {bytes : Bytes} (hl : bytes.length < 153600) {r : LogBuffer × AutoBuffer}
    (hf : (LogBuffer.ofBlock bytes 153600).flush (.empty 128) = some r) :
    r = ((LogBuffer.ofBlock bytes 153600).clear, .empty 128) := by
  obtain ⟨n, -, hf⟩ := Option.bind_eq_some_iff.mp hf
  split_ifs at hf with h0
  · exact (Option.some_inj.mp hf).symm
  · have hnone : readBlock bytes 153600 = none := readBlock_of_lt (by omega)
    rw [LogBuffer.parray_ofBlock, LogBuffer.length_ofBlock, hnone] at hf
    exact absurd hf (by simp)

/-- **Opening preserves the invariant.** -/
theorem inv_open {lc : Libc} {page : ℕ} {menv : MapEnv} {env : FileEnv} {mode : AppendMode}
    {filedir filename : CStr} {s s' : Sys} (h : Closed s.proc) (hh : s.held = [])
    (hs : logAppenderOpen lc page menv env mode filedir filename s = some s') : Inv s' := by
  cases ho : menv.openOk with
  | false =>
    obtain ⟨s₁, bytes, hs₁, hop, hmt, hptr, hheld⟩ := open_heap h lc page env mode filedir filename ho
    cases hs₁.symm.trans hs
    exact .opened _ hop ⟨_, hmt, .inr ⟨rfl, _, hptr, by rw [hheld, hh]⟩⟩
  | true =>
    by_cases hm : menv.mmapOk = true
    · generalize hpath : mmapFilePath filedir.bytes filename.bytes = path
      generalize hfile : mappedFile menv s.proc.files path = file
      by_cases hle : 153600 ≤ pageEnd page file.length
      · obtain ⟨s₁, bytes, hs₁, hop, hmt, hstart, -, hheld⟩ :=
          open_mapped h lc page env mode filedir filename ho hm hpath hfile hle
        cases hs₁.symm.trans hs
        exact .opened _ hop ⟨_, hmt, .inl ⟨rfl, _, _, rfl, hstart, by rw [hheld, hh]⟩⟩
      · have hlen := length_touchable page file 153600
        have hshort : (touchable page file 153600).length < 153600 := by omega
        rw [logAppenderOpen_mapped h lc page env mode filedir filename ho hm, hpath, hfile] at hs
        obtain ⟨r, hf, hs⟩ := Option.map_eq_some_iff.mp hs
        rw [flush_ofBlock_short hshort hf] at hs
        cases hs
        exact .short ⟨rfl, rfl, ⟨_, rfl, rfl⟩, _, rfl, LogBuffer.length_clear _,
          (LogBuffer.length_parray_clear _).trans_lt hshort⟩
    · rw [logAppenderOpen_failed h lc page env mode filedir filename ho hm] at hs
      cases hs

theorem held_closeMmap (bytes : Bytes) {m : Maps} {path : Bytes} {backed : ℕ} (hfd : m.mt.mmapFd = some path)
    (hstart : m.start = .mapped path backed) :
    (closeMmap bytes m).held = (m.held.erase (.mapping path m.size)).erase (.fd path) := by
  have hun : (munmap bytes m).mt.mmapFd = some path ∧
      (munmap bytes m).held = m.held.erase (.mapping path m.size) := by
    rw [munmap, hstart]; exact ⟨hfd, rfl⟩
  rw [closeMmap, closeFd, hun.1, ← hun.2]

theorem held_freeBlock {len : ℕ} {block : Bytes} (hl : len ≤ block.length) {ptr : Block} {m m' : Maps}
    (hheld : (m.mt.isOpen = true ∧ ∃ path backed, m.mt.mmapFd = some path ∧ m.start = .mapped path backed ∧
        m.held = [.logBuff, .mapping path m.size, .fd path, .mmapFile]) ∨
      (m.mt.isOpen = false ∧ ∃ n, ptr = .heap n ∧ m.held = [.logBuff, .heap n, .mmapFile]))
    (hm : freeBlock len block ptr m = some m') : (m'.held.erase .mmapFile).erase .logBuff = [] := by
  unfold freeBlock at hm
  rcases hheld with ⟨ho, path, backed, hfd, hstart, hheld⟩ | ⟨ho, n, rfl, hheld⟩
  · rw [if_pos ho, if_pos hl] at hm
    cases hm
    rw [held_closeMmap _ hfd hstart, hheld]
    simp
  · rw [if_neg (by rw [ho]; exact Bool.false_ne_true)] at hm
    cases hm
    simp [hheld]

/-- **Closing an appender over a whole block** gives everything back. -/
theorem inv_close {lc : Libc} {worker : Option FileEnv} {env : FileEnv} {s s' : Sys} {lb : LogBuffer}
    (h : Opened s.proc lb) (hh : Holds s) (hs : logAppenderClose lc worker env s = some s') : Inv s' := by
  have hk : kBufferBlockLength.toNat = 153600 := rfl
  have hl : Live { s.proc with mlog := { s.proc.mlog with sgLogClose := true } } lb :=
    ⟨h.buff, h.good, h.cap, h.block, h.mmap, h.handle⟩
  obtain ⟨p₁, lb₁, ht, he⟩ := closeTask_effect hl lc worker env
  obtain ⟨mt, hmt, hheld⟩ := hh
  have hmt₁ : p₁.mlog.sgMmapFile = some mt := he.mmapFile.trans hmt
  have hblock : 153600 ≤ p₁.block.length := by
    rw [he.live.block_eq, he.live.good.mem, he.live.cap]
  rw [logAppenderClose, if_neg (by rw [h.flag]; exact Bool.false_ne_true)] at hs
  obtain ⟨p, hp, hs⟩ := Option.bind_eq_some_iff.mp hs
  cases ht.symm.trans hp
  obtain ⟨mt', hmt', hs⟩ := Option.bind_eq_some_iff.mp hs
  cases hmt₁.symm.trans hmt'
  obtain ⟨m, hm, hs⟩ := Option.bind_eq_some_iff.mp hs
  rw [he.live.block, hk] at hm
  have hgone := held_freeBlock hblock hheld hm
  cases hs
  exact .closed (closed_closelogfile env he.flag rfl rfl he.live.block) hgone

theorem closeTask_of_empty (lc : Libc) (worker : Option FileEnv) (env : FileEnv) {p : Proc} {lb : LogBuffer}
    (hb : p.mlog.sgLogBuff = some lb) (h0 : lb.buff.length = 0) :
    ∃ lb', closeTask lc worker env p = some { p with mlog := { p.mlog with sgLogBuff := some lb' } } ∧
      lb'.buff.parray.length = lb.buff.parray.length := by
  have hf : lb.flush (.empty 128) = some (lb.clear, .empty 128) := by
    rw [LogBuffer.flush, h0, strnlen]; rfl
  have htask : ∀ env, logThreadTask lc env p =
      some { p with mlog := { p.mlog with sgLogBuff := some lb.clear } } := by
    intro env
    rw [logThreadTask, flushLogBuff, hb]
    simp only [hf, Option.bind_eq_bind, Option.bind_some]
    rfl
  have hp : p = { p with mlog := { p.mlog with sgLogBuff := some lb } } := by rw [← hb]
  unfold closeTask
  split
  · exact ⟨_, htask _, LogBuffer.length_parray_clear lb⟩
  · exact ⟨lb, congrArg some hp, rfl⟩
  · exact ⟨_, htask _, LogBuffer.length_parray_clear lb⟩

/-- Closing an appender over a short block does not return: it wipes the whole block. -/
theorem logAppenderClose_short {lc : Libc} {worker : Option FileEnv} {env : FileEnv} {s : Sys} (h : Short s) :
    logAppenderClose lc worker env s = none := by
  have hk : kBufferBlockLength.toNat = 153600 := rfl
  obtain ⟨mt, hmt, ho⟩ := h.mmap
  obtain ⟨lb, hb, h0, hlen⟩ := h.buff
  obtain ⟨lb', ht, hlen'⟩ := closeTask_of_empty lc worker env
    (p := { s.proc with mlog := { s.proc.mlog with sgLogClose := true } }) hb h0
  have hshort : ¬ 153600 ≤ lb'.buff.parray.length := by omega
  have hfree : ∀ m : Maps, m.mt = mt → freeBlock 153600 lb'.buff.parray s.ptr m = none := by
    rintro m rfl
    unfold freeBlock
    rw [if_pos ho, if_neg hshort]
  rw [logAppenderClose, if_neg (by rw [h.flag]; exact Bool.false_ne_true), ht]
  simp only [Option.bind_eq_bind, Option.bind_some, hmt, h.block, hk, Proc.block]
  rw [hfree _ rfl, Option.bind_none]

/-- **Every operation preserves the invariant.** -/
theorem inv_step {lc : Libc} {page : ℕ} {s s' : Sys} {op : Op} (h : Inv s) (hs : step lc page s op = some s') :
    Inv s' := by
  have hopen : s.proc.mlog.sgLogClose = false → ∀ menv env mode dir name,
      logAppenderOpen lc page menv env mode dir name s = some s := by
    intro hf menv env mode dir name
    rw [logAppenderOpen, if_pos (by simp [hf])]
  cases op with
  | «open» menv env mode dir name =>
    cases h with
    | closed hc hh => exact inv_open hc hh hs
    | opened lb hop hh =>
      cases (hopen hop.flag menv env mode dir name).symm.trans hs
      exact .opened lb hop hh
    | short hsh =>
      cases (hopen hsh.flag menv env mode dir name).symm.trans hs
      exact .short hsh
  | close worker env =>
    cases h with
    | closed hc hh =>
      have hsame : logAppenderClose lc worker env s = some s := by rw [logAppenderClose, if_pos hc.flag]
      cases hsame.symm.trans hs
      exact .closed hc hh
    | opened lb hop hh => exact inv_close hop hh hs
    | short hsh => exact absurd ((logAppenderClose_short hsh).symm.trans hs) (by simp)

theorem inv_create (useShareThread : Bool) (files : Disk) (statics : FormatStatics) :
    Inv (.create useShareThread files statics) := .closed (closed_create useShareThread files statics) rfl

/-- **In a reachable state a closed appender holds nothing.** -/
theorem Reachable.closed {lc : Libc} {page : ℕ} {s : Sys} (h : Reachable lc page s)
    (hc : s.proc.mlog.sgLogClose = true) : Closed s.proc ∧ s.held = [] := by
  obtain ⟨share, files, statics, hr⟩ := h
  have hinv : Inv s := hr.inv (inv_create share files statics) fun _ _ _ hi _ hs => inv_step hi hs
  cases hinv with
  | closed h hh => exact ⟨h, hh⟩
  | opened lb h hh => exact absurd (h.flag.symm.trans hc) (by decide)
  | short h => exact absurd (h.flag.symm.trans hc) (by decide)

/-! ### When an open is all or nothing -/

/-- An open appender with an empty buffer over a whole block. -/
theorem allOrNothing_of_opened {s s' : Sys} {bytes : Bytes}
    (h : Opened s'.proc (LogBuffer.ofBlock bytes 153600).clear) (hb : Backed s'.held 153600 s'.ptr) :
    AllOrNothing s s' := by
  have hk : s'.proc.mlog.sgBufferblockLength.toNat = 153600 := by rw [h.block]; rfl
  rw [AllOrNothing, hk]
  exact .inl ⟨h.flag, ⟨_, h.buff, LogBuffer.length_clear _, LogBuffer.maxLength_clear _⟩, hb⟩

/-- **An `open` that gets the heap block, or a mapping of a file that is as long,** returns with all. -/
theorem open_whole {s : Sys} (h : Closed s.proc) (lc : Libc) (page : ℕ) {menv : MapEnv} (env : FileEnv)
    (mode : AppendMode) (filedir filename : CStr)
    (hc : menv.openOk = true → menv.mmapOk = true ∧ (menv.ftruncateOk = true ∨
      153600 ≤ (s.proc.files (mmapFilePath filedir.bytes filename.bytes)).length)) :
    ∃ s', logAppenderOpen lc page menv env mode filedir filename s = some s' ∧ AllOrNothing s s' := by
  cases ho : menv.openOk with
  | false =>
    obtain ⟨s', bytes, hs', hop, -, hptr, hheld⟩ := open_heap h lc page env mode filedir filename ho
    refine ⟨s', hs', allOrNothing_of_opened hop ?_⟩
    rw [hptr, hheld]
    exact ⟨by simp, Nat.le_refl _⟩
  | true =>
    obtain ⟨hm, hlong⟩ := hc ho
    have hfile := (le_length_mappedFile menv s.proc.files _).mpr hlong
    obtain ⟨s', bytes, hs', hop, -, hstart, hptr, hheld⟩ := open_mapped h lc page env mode filedir filename
      ho hm rfl rfl (hfile.trans (le_pageEnd page _))
    refine ⟨s', hs', allOrNothing_of_opened hop ?_⟩
    rw [hptr, hstart, hheld]
    exact ⟨⟨s'.size, by simp⟩, Nat.le_min.mpr ⟨Nat.le_refl _, hfile⟩⟩

/-- **When an open is all or nothing**, in a closed state that the operations reach and for an outcome of its
calls: exactly if `open` fails, or `mmap` succeeds and the file is as long as the mapping. -/
theorem opens_whole_iff {lc : Libc} {page : ℕ} {s : Sys} (hr : Reachable lc page s)
    (hc : s.proc.mlog.sgLogClose = true) (menv : MapEnv) (env : FileEnv) (mode : AppendMode)
    (filedir filename : CStr) :
    OpensWhole lc page menv env mode filedir filename s ↔
      (menv.openOk = true → menv.mmapOk = true ∧ (menv.ftruncateOk = true ∨
        153600 ≤ (s.proc.files (mmapFilePath filedir.bytes filename.bytes)).length)) := by
  have h := (hr.closed hc).1
  rw [OpensWhole, mapsOnSuccess_iff h]
  constructor
  · exact fun hw => hw.2
  · intro hw
    obtain ⟨s₁, hs₁, ha⟩ := open_whole h lc page env mode filedir filename hw
    refine ⟨fun s' hs => ?_, hw⟩
    cases hs₁.symm.trans hs
    exact ha

/-- A directory. -/
def logsDir : CStr := ⟨ascii "logs", by decide⟩

/-- The name of an appender. -/
def appName : CStr := ⟨ascii "app", by decide⟩

/-- A new appender, where every file is a NUL. -/
def oneByte : Sys := .create true (fun _ => [0]) ⟨0, 0⟩

/-- A new appender, and calls that all succeed. -/
theorem opens_whole_iff_new : OpensWhole utc 4096 ⟨.ok, true⟩ .ok .async logsDir appName oneByte :=
  (opens_whole_iff ⟨true, _, _, .refl⟩ rfl ⟨.ok, true⟩ .ok .async logsDir appName).mpr fun _ =>
    ⟨rfl, .inl rfl⟩

theorem flush_ofBlock_nul {bytes : Bytes} (h : bytes.head? = some 0) :
    (LogBuffer.ofBlock bytes 153600).flush (.empty 128) =
      some ((LogBuffer.ofBlock bytes 153600).clear, .empty 128) := by
  have hs : strnlen bytes 153600 = some 0 := strnlen_eq_zero_iff.mpr (.inr h)
  rw [LogBuffer.flush, LogBuffer.parray_ofBlock, LogBuffer.length_ofBlock, hs]
  rfl

/-- **When `ftruncate` fails** the appender is open over 153600 bytes of which one is in the file; and a failed
`mmap` counts as a success. -/
theorem open_over_short_file :
    Reachable utc 4096 oneByte ∧ oneByte.proc.mlog.sgLogClose = true ∧
    (∃ s', logAppenderOpen utc 4096 ⟨.ok, false⟩ .ok .async logsDir appName oneByte = some s' ∧
      s'.proc.mlog.sgLogClose = false ∧ s'.proc.mlog.sgBufferblockLength = 153600 ∧
      s'.ptr = .mapped (mmapFilePath logsDir.bytes appName.bytes) 1 ∧ ¬ AllOrNothing oneByte s') ∧
    ¬ MapsOnSuccess (blockLength oneByte.proc.mlog)
      (openCall 4096 ⟨⟨true, false, []⟩, true⟩ logsDir appName oneByte) := by
  have h : Closed oneByte.proc := closed_create _ _ _
  refine ⟨⟨true, _, _, .refl⟩, rfl, ?_, fun hm => ?_⟩
  · have hnul : (touchable 4096 (mappedFile ⟨.ok, false⟩ oneByte.proc.files
        (mmapFilePath logsDir.bytes appName.bytes)) 153600).head? = some 0 := rfl
    refine ⟨_, by rw [logAppenderOpen_mapped h utc 4096 .ok .async logsDir appName rfl rfl,
      flush_ofBlock_nul hnul, Option.map_some], rfl, rfl, rfl, ?_⟩
    rintro (⟨-, -, hb⟩ | ⟨hf, -⟩)
    · exact absurd (Nat.le_min.mp hb.2).2 (by decide)
    · exact absurd hf (by decide)
  · have hf : (openCall 4096 ⟨⟨true, false, []⟩, true⟩ logsDir appName oneByte).2.2.start = .failed := rfl
    obtain ⟨path, backed, hs, -⟩ := hm rfl
    rw [hf] at hs
    cases hs

end MTAppenderFile.Loglib.Opening
