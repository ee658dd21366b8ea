import Mathlib.Logic.Function.Basic
import MTAppenderFile.Lib.Buffered
import MTAppenderFile.Comm.CTypes

/-! # Files and the mapped file

The files of the process are a function from paths to contents; a file that does not exist has no
content. The code writes one kind of file through `FILE`, always opened with `"ab"`, and maps
another (`loglib/mtaf_mmap_file.cpp`).

A `FILE` has a buffer: what `fwrite` accepts is held there until the library writes it to the file, which it
may do at any `fwrite` and does at `fclose`. A crash loses what is held.

What the calls of the operating system return is the environment's: `FileEnv` for one write-back
(`gettimeofday`, `fopen`, `ftell`, `fwrite`, `fclose`), `OpenEnv` for one `mtaf_open_mmap` (`open`, `mmap`, and
the bytes of the memory that takes the mapping's place when `open` fails). `ftruncate` is taken to succeed.

A mapping is shared, so its bytes are the file's. The model keeps them in the buffer laid over the
mapping and puts them in the file when the mapping ends; a mapping that failed has no byte that may
be touched. -/

namespace MTAppenderFile.Loglib.Files

open MTAppenderFile.Lib.Buffered
open MTAppenderFile.Comm.CTypes

/-- The contents of the files, by path. -/
abbrev Disk := Bytes → Bytes

/-- A `FILE` opened with `"ab"`, and the bytes in its buffer. -/
structure File where
  path : Bytes
  held : Bytes
  deriving DecidableEq, Repr

/-- What the calls of one write-back return. `fwriteStored = some k` is an `fwrite` that accepts `k`
bytes, or all but one of them, and fails; `handed` is how many bytes of the buffer are in the file after it.
`fcloseStored = some k` is an `fclose` in `__closelogfile` that writes `k` bytes of the buffer and fails, and
`fcloseOld` the `fclose` in `__openlogfile`. -/
structure FileEnv where
  now : ℤ
  fopenOk : Bool
  ftellOk : Bool
  fwriteStored : Option ℕ
  handed : ℕ
  fcloseOld : Option ℕ
  fcloseStored : Option ℕ
  deriving DecidableEq, Repr

/-- Every call of the write-back succeeds. -/
def FileEnv.Succeeds (env : FileEnv) : Prop :=
  env.fopenOk = true ∧ env.ftellOk = true ∧ env.fwriteStored = none ∧ env.fcloseOld = none ∧ env.fcloseStored = none

/-- A write-back in which every call succeeds, and `fwrite` leaves everything in the buffer. -/
def FileEnv.ok : FileEnv := ⟨0, true, true, none, 0, none, none⟩

theorem FileEnv.succeeds_ok : FileEnv.ok.Succeeds := ⟨rfl, rfl, rfl, rfl, rfl⟩

/-- The bytes `fwrite(_data, _len, 1, _file)` accepts, and whether it returns `1`. -/
def fwrite (env : FileEnv) (data : Bytes) : Bytes × Bool :=
  match env.fwriteStored with
  | none => (data, data ≠ [])
  | some k => (data.take (min k (data.length - 1)), false)

/-- A `FILE` and its file as a sink. -/
def File.sink (file : File) (files : Disk) : Sink Byte := ⟨files file.path, file.held⟩

/-- `fclose(file)`. -/
def fclose (stored : Option ℕ) (file : File) (files : Disk) : Disk :=
  Function.update files file.path ((file.sink files).close stored).out

/-- `__writefile(_data, _len, _file)`. -/
def writefile (env : FileEnv) (data : Bytes) (file : Option File) (files : Disk) : Bool × Option File × Disk :=
  match file with
  | none => (false, none, files)
  | some file =>
    if env.ftellOk then
      let (stored, ret) := fwrite env data
      let s := (file.sink files).put stored env.handed
      (ret, some { file with held := s.held }, Function.update files file.path s.out)
    else (false, some file, files)

/-- What the calls of one `mtaf_open_mmap` return. -/
structure OpenEnv where
  openOk : Bool
  mmapOk : Bool
  heap : Bytes

/-- The file can be opened and mapped. -/
def OpenEnv.ok : OpenEnv := ⟨true, true, []⟩

/-- `mtaf_mmapped_file`; the bytes at its `start` are the log buffer's. -/
structure MmappedFile where
  mmapFd : Option Bytes
  isOpen : Bool
  deriving DecidableEq, Repr

/-- `mtaf_close_mmap(mt)`. -/
def closeMmap (mt : MmappedFile) (start : Bytes) (files : Disk) : MmappedFile × Disk :=
  (⟨none, false⟩, match mt.mmapFd with
    | some path => Function.update files path start
    | none => files)

/-- `mtaf_open_mmap(mt, filePath, mapSize, false)`: the mapped bytes, or `none` for `-1`. `start` are
the bytes of a mapping that is still open. -/
def openMmap (oenv : OpenEnv) (mt : MmappedFile) (start filePath : Bytes) (mapSize : ℤ)
    (files : Disk) : Option Bytes × MmappedFile × Disk :=
  let (mt, files) := if mt.isOpen then closeMmap mt start files else (mt, files)
  if oenv.openOk then
    let m := resize (files filePath) mapSize.toNat
    (some (if oenv.mmapOk then m else []), ⟨some filePath, true⟩, Function.update files filePath m)
  else (none, { mt with mmapFd := none }, files)

/-! ### Paths -/

/-- `LOG_EXT`. -/
def LOG_EXT : Bytes := ascii "mtlog"

/-- `__make_logfilename(_tv, _logdir, _filename, _fileext, _filepath, _len)`. -/
def makeLogfilename (logdir filename fileext : Bytes) (len : ℕ) : Bytes :=
  (logdir ++ ascii "/" ++ filename ++ ascii "." ++ fileext).take (len - 1)

/-- `logfilepath` of `__openlogfile`. -/
def logfilePath (logdir filename : Bytes) : Bytes := makeLogfilename logdir filename LOG_EXT 1024

/-- `mmap_file_path` of `mtaf_log_appender_open`. -/
def mmapFilePath (filedir filename : Bytes) : Bytes :=
  (filedir ++ ascii "/" ++ filename ++ ascii ".mmap2").take 511

/-- **The two files of an appender are different files**, cut paths included. -/
theorem mmapFilePath_ne_logfilePath (dir name : Bytes) :
    mmapFilePath dir name ≠ logfilePath dir name := by
  have e1 : (ascii ".mmap2").length = 6 := rfl
  have e2 : (ascii "." ++ LOG_EXT).length = 6 := rfl
  intro h
  have hm : mmapFilePath dir name = ((dir ++ ascii "/" ++ name) ++ ascii ".mmap2").take 511 := rfl
  have hl : logfilePath dir name = ((dir ++ ascii "/" ++ name) ++ (ascii "." ++ LOG_EXT)).take 1023 := by
    simp only [logfilePath, makeLogfilename, List.append_assoc]
  rw [hm, hl] at h
  generalize dir ++ ascii "/" ++ name = s at h
  have l1 : (s ++ ascii ".mmap2").length = s.length + 6 := by rw [List.length_append, e1]
  have l2 : (s ++ (ascii "." ++ LOG_EXT)).length = s.length + 6 := by rw [List.length_append, e2]
  have hlen := congrArg List.length h
  rw [List.length_take, List.length_take, l1, l2] at hlen
  have h1 : (s ++ ascii ".mmap2").length ≤ 511 := by omega
  have h2 : (s ++ (ascii "." ++ LOG_EXT)).length ≤ 1023 := by omega
  rw [List.take_of_length_le h1, List.take_of_length_le h2, List.append_cancel_left_eq] at h
  revert h; decide

end MTAppenderFile.Loglib.Files
