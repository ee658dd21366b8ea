import MTAppenderFile.Loglib.Formatter

/-! # The head of a record

`mtaf_log_formater` prints the head `[level][time][tag]: ` with an `snprintf` of 1024 bytes, and moves the
cursor by the length the whole head would have had. A head of up to 1023 bytes is there as a whole, and the
record behind it is well formed (`WellFormed`). Of a longer head there are 1023 bytes and a NUL, which no later
write reaches: the cursor is behind it. So the record is well formed exactly if the head is shorter than 1024
bytes (`wellFormed_iff`). -/

namespace MTAppenderFile.Loglib.Header

open MTAppenderFile.Lib.Block
open MTAppenderFile.Comm.CTypes
open MTAppenderFile.Comm.Ptr
open MTAppenderFile.Loglib.Base
open MTAppenderFile.Loglib.Formatter

/-- `_info->tag ? _info->tag : ""`. -/
def tagText (info : LogInfo) : Bytes :=
  match info.tag with
  | some tag => tag.bytes
  | none => []

/-- The index that is used in `levelStrings`. -/
def levelIndex (info : LogInfo) (logbody : Option CStr) : ℤ :=
  if logbody.isSome then info.level else LOG_LEVEL_FATAL

/-- `[level][time][tag]: `. -/
def headText (level time tag : Bytes) : Bytes :=
  ascii "[" ++ level ++ ascii "][" ++ time ++ ascii "][" ++ tag ++ ascii "]: "

theorem formatHead_eq (lc : Libc) (info : LogInfo) (logbody : Option CStr) (log : PtrBuffer) :
    formatHead lc (some info) logbody log =
      (levelStrings (levelIndex info logbody)).bind fun level =>
        printAtPos log (headText level (tempTime lc info.timeval) (tagText info)) := rfl

theorem nul_notMem_tagText (info : LogInfo) : (0 : Byte) ∉ tagText info := by
  unfold tagText
  split
  · exact CStr.nul _
  · exact List.not_mem_nil

theorem length_tempTime_le (lc : Libc) (tv : TimeVal) : (tempTime lc tv).length ≤ 63 := by
  unfold tempTime
  split_ifs
  · exact List.length_take_le _ _
  · exact Nat.zero_le _

theorem nul_notMem_tempTime (lc : Libc) (tv : TimeVal) : (0 : Byte) ∉ tempTime lc tv := by
  unfold tempTime
  split_ifs
  · exact fun h => nul_notMem_timeText lc tv (List.mem_of_mem_take h)
  · exact List.not_mem_nil

theorem levelStrings_of_lt {i : ℤ} (h0 : 0 ≤ i) (h6 : i < 6) :
    ∃ c : Byte, c ≠ 0 ∧ levelStrings i = some [c] := by
  obtain ⟨n, rfl⟩ := Int.eq_ofNat_of_zero_le h0
  have hn : n < 6 := by omega
  match n, hn with
  | 0, _ => exact ⟨0x56, by decide, rfl⟩
  | 1, _ => exact ⟨0x44, by decide, rfl⟩
  | 2, _ => exact ⟨0x49, by decide, rfl⟩
  | 3, _ => exact ⟨0x57, by decide, rfl⟩
  | 4, _ => exact ⟨0x45, by decide, rfl⟩
  | 5, _ => exact ⟨0x46, by decide, rfl⟩

theorem levelStrings_isSome_iff (i : ℤ) : (levelStrings i).isSome = true ↔ 0 ≤ i ∧ i < 6 := by
  constructor
  · intro h
    unfold levelStrings at h
    split_ifs at h with h0
    · rw [isSome_getElem?] at h
      have hl : ([ascii "V", ascii "D", ascii "I", ascii "W", ascii "E", ascii "F"] : List Bytes).length = 6 :=
        rfl
      omega
    · exact absurd h (by simp)
  · rintro ⟨h0, h6⟩
    obtain ⟨c, -, h⟩ := levelStrings_of_lt h0 h6
    rw [h]; rfl

theorem length_headText (c : Byte) (time tag : Bytes) :
    (headText [c] time tag).length = 9 + time.length + tag.length := by
  have h1 : (ascii "[").length = 1 := rfl
  have h2 : (ascii "][").length = 2 := rfl
  have h3 : (ascii "]: ").length = 3 := rfl
  simp only [headText, List.length_append, List.length_singleton, h1, h2, h3]
  omega

theorem nul_notMem_headText {c : Byte} (hc : c ≠ 0) {time tag : Bytes} (ht : (0 : Byte) ∉ time)
    (hg : (0 : Byte) ∉ tag) : (0 : Byte) ∉ headText [c] time tag := by
  have h1 : (0 : Byte) ∉ ascii "[" := by decide
  have h2 : (0 : Byte) ∉ ascii "][" := by decide
  have h3 : (0 : Byte) ∉ ascii "]: " := by decide
  simp only [headText, List.mem_append, List.mem_singleton, not_or]
  exact ⟨⟨⟨⟨⟨⟨h1, hc.symm⟩, h2⟩, ht⟩, h2⟩, hg⟩, h3⟩

/-! ### Printing the head into the fresh buffer -/

/-- The memory with a head: 1023 bytes of it, and a NUL. -/
def headMemory (text : Bytes) : Bytes := overwrite temp.parray 0 (text.take 1023 ++ [0])

theorem length_head_le (text : Bytes) : (text.take 1023 ++ [0]).length ≤ 1024 := by
  have := List.length_take_le 1023 text
  rw [List.length_append, List.length_singleton]; omega

@[simp] theorem length_headMemory (text : Bytes) : (headMemory text).length = 16384 := by
  have := length_head_le text
  rw [headMemory, length_overwrite (by rw [length_temp_parray]; omega), length_temp_parray]

theorem printAtPos_temp_eq (text : Bytes) :
    printAtPos temp text = some ({ temp with parray := headMemory text }.setLength
      (offT (snprintf 1024 text).2) (sizeT (snprintf 1024 text).2)) := by
  have hle := length_head_le text
  have hout : (snprintf 1024 text).1 = text.take 1023 ++ [0] := rfl
  have hst : storeAll temp.parray (storesAt 0 (text.take 1023 ++ [0])) = headMemory text :=
    storeAll_storesAt _ _ 0 (by rw [length_temp_parray]; omega)
  have hfit : 0 ≤ temp.pos ∧ temp.pos + (text.take 1023 ++ [0]).length ≤ temp.parray.length := by
    rw [temp_pos, length_temp_parray]; omega
  simp only [printAtPos, hout]
  rw [if_pos hfit]
  simp only [temp_pos, temp_length, hst, Int.zero_add, Int.natCast_zero]

/-- **The buffer behind a head**: the cursor has moved by the length of the text, at most to the end. -/
def headLog (text : Bytes) : PtrBuffer :=
  ⟨headMemory text, (min text.length 16384 : ℕ), min text.length 16384, 16384⟩

theorem printAtPos_temp {text : Bytes} (h : text.length < 2 ^ 31) :
    printAtPos temp text = some (headLog text) := by
  have hret : (snprintf 1024 text).2 = (text.length : ℕ) := by
    rw [snprintf]; simp only [if_pos h]
  rw [printAtPos_temp_eq, hret, offT_of_lt (by omega) (by omega), sizeT_natCast (by omega),
    PtrBuffer.setLength_eq (by omega)]
  rfl

/-- A longer head: the whole buffer becomes content, and the cursor stays at the start. -/
theorem printAtPos_temp_of_long {text : Bytes} (h : 2 ^ 31 ≤ text.length) :
    printAtPos temp text = some ⟨headMemory text, 0, 16384, 16384⟩ := by
  have hret : (snprintf 1024 text).2 = -1 := by
    rw [snprintf]; simp only [if_neg (Nat.not_lt.mpr h)]
  have ho : offT (-1) = -1 := by decide
  have hs : sizeT (-1) = 2 ^ 64 - 1 := by decide
  have hz : uint32 0 = 0 := by decide
  rw [printAtPos_temp_eq, hret, ho, hs]
  simp [PtrBuffer.setLength, PtrBuffer.seek, PtrBuffer.clamp, hz]

theorem atEnd_headLog (text : Bytes) : (headLog text).AtEnd :=
  ⟨⟨Int.natCast_nonneg _, Int.le_refl _, Nat.min_le_right _ _, length_headMemory text,
    show 16384 < 2 ^ 32 by decide⟩, rfl⟩

theorem logFormater_head {lc : Libc} {info : LogInfo} {logbody : Option CStr} {level : Bytes}
    (hl : levelStrings (levelIndex info logbody) = some level)
    (ht : (headText level (tempTime lc info.timeval) (tagText info)).length < 2 ^ 31) (st : FormatStatics) :
    logFormater lc st (some info) logbody temp =
      (formatNextline ((headLog (headText level (tempTime lc info.timeval) (tagText info))).write
        (bodyData logbody (headLog (headText level (tempTime lc info.timeval) (tagText info)))))).map
        fun log => (st, log) :=
  logFormater_of_head temp_room (by rw [formatHead_eq, hl, Option.bind_some, printAtPos_temp ht])

/-! ### Short heads -/

section Short

variable {text : Bytes} (h : text.length < 1024)

include h

theorem content_headLog : (headLog text).content = text := by
  have hlen : (headLog text).length = 0 + text.length := by
    rw [headLog, Nat.zero_add, Nat.min_eq_left (by omega)]
  have hmem : (headLog text).parray = overwrite temp.parray 0 (text ++ [0]) := by
    rw [show (headLog text).parray = headMemory text from rfl, headMemory,
      List.take_of_length_le (by omega)]
  rw [PtrBuffer.content, hlen, hmem, take_overwrite_append (Nat.zero_le _)]
  rfl

theorem length_headLog : (headLog text).length = text.length := Nat.min_eq_left (by omega)

theorem bodyLimit_headLog : bodyLimit (headLog text) = 16254 - text.length := by
  have hs : sizeT (((headLog text).maxLength : ℤ) - (headLog text).length) = 16384 - text.length := by
    rw [length_headLog h, show (headLog text).maxLength = 16384 from rfl,
      sizeT_of_lt (by omega) (by omega)]
    omega
  have h130 : 16384 - text.length > 130 := by omega
  have hmax : ¬ 16384 - text.length - 130 > 0xFFFF := by omega
  simp only [bodyLimit, hs, if_pos h130, if_neg hmax]
  omega

/-- **The record behind a short head**: the head, what fits of the body, and a newline unless the body ends
with one. -/
theorem record_short {body : CStr} (hb : body.bytes ≠ []) :
    ∃ log data nl, formatNextline ((headLog text).write (bodyData (some body) (headLog text))) = some log ∧
      log.length ≤ 16384 ∧ data <+: body.bytes ∧ log.content = text ++ data ++ nl ∧
      (nl = [] ∨ nl = [0x0A]) ∧ log.content.getLast? = some 0x0A := by
  have h4 : 4 ≤ (headLog text).maxLength := show 4 ≤ 16384 by decide
  have hlim := bodyLimit_headLog h
  have hlen := length_headLog h
  have hcont := content_headLog h
  have hend := atEnd_headLog text
  have hcap : (headLog text).maxLength = 16384 := rfl
  have hdata : bodyData (some body) (headLog text) = body.bytes.take (16254 - text.length) := by
    rw [bodyData, hlim]
  have hpre : body.bytes.take (16254 - text.length) <+: body.bytes := List.take_prefix _ _
  have hle : (body.bytes.take (16254 - text.length)).length ≤ 16254 - text.length :=
    List.length_take_le _ _
  have hpos : 0 < (body.bytes.take (16254 - text.length)).length := by
    have := List.length_pos_iff.mpr hb
    rw [List.length_take]; omega
  rw [hdata]
  generalize headLog text = log₀ at *
  generalize body.bytes.take (16254 - text.length) = data at *
  have hd : log₀.length + data.length < 2 ^ 32 := by omega
  have hw := hend.write h4 hd
  have hwc := hend.content_write_of_le h4 hd (by omega)
  have hwl := hend.length_write h4 hd
  have hwm : (log₀.write data).maxLength = 16384 := (hend.maxLength_write h4 hend.pos hd).trans hcap
  rw [hcont] at hwc
  obtain ⟨log, hn, ha, hm, hc⟩ := formatNextline_eq hw (by omega) (by omega) (by omega)
  have hll : log.length ≤ 16384 := by rw [← hwm, ← hm]; exact ha.le
  rw [hwc] at hc
  split_ifs at hc with hnl
  · exact ⟨log, data, [], hn, hll, hpre, by rw [hc, List.append_nil], .inl rfl, by rw [hc, hnl]⟩
  · exact ⟨log, data, [0x0A], hn, hll, hpre, hc, .inr rfl, by rw [hc, List.getLast?_concat]⟩

end Short

/-! ### Long heads -/

/-- **Behind a long head the NUL stays**: it is in front of the cursor of every later write. -/
theorem nul_mem_record {text : Bytes} (h : 1024 ≤ text.length) (logbody : Option CStr) :
    ∃ log, formatNextline ((headLog text).write (bodyData logbody (headLog text))) = some log ∧
      (0 : Byte) ∈ log.content := by
  have h4 : 4 ≤ (headLog text).maxLength := show 4 ≤ 16384 by decide
  have hcap : (headLog text).maxLength = 16384 := rfl
  have hend := atEnd_headLog text
  have hlen : 1024 ≤ (headLog text).length ∧ (headLog text).length ≤ 16384 := by
    have hl : (headLog text).length = min text.length 16384 := rfl
    omega
  have hdata := length_bodyData_le logbody (headLog text)
  have hnul : (headLog text).parray.take 1024 = text.take 1023 ++ [0] := by
    have hl : 0 + (text.take 1023 ++ [0]).length = 1024 := by
      rw [List.length_append, List.length_take, List.length_singleton]; omega
    rw [show (headLog text).parray = headMemory text from rfl, headMemory, ← hl,
      take_overwrite (Nat.zero_le _)]
    rfl
  generalize bodyData logbody (headLog text) = data at hdata ⊢
  generalize headLog text = log₀ at *
  have hd : log₀.length + data.length < 2 ^ 32 := by omega
  have hw := hend.write h4 hd
  have hwl := hend.length_write h4 hd
  have hwm : (log₀.write data).maxLength = 16384 := (hend.maxLength_write h4 hend.pos hd).trans hcap
  have hwt := hend.take_write h4 hd hlen.1
  generalize log₀.write data = log₁ at *
  have hle₁ := hw.le
  obtain ⟨log, hn, hlog⟩ := exists_formatNextline hw (by omega)
  have hd₁ : log₁.length + ([0x0A] : Bytes).length < 2 ^ 32 := by
    rw [List.length_singleton]; omega
  have hlast : log.parray.take 1024 = text.take 1023 ++ [0] ∧ 1024 ≤ log.length := by
    rcases hlog with rfl | rfl
    · exact ⟨hwt.trans hnul, by omega⟩
    · refine ⟨?_, ?_⟩
      · rw [hw.take_write (by omega) hd₁ (by omega), hwt, hnul]
      · rw [hw.length_write (by omega) hd₁]; omega
  refine ⟨log, hn, ?_⟩
  have ht : log.content.take 1024 = text.take 1023 ++ [0] := by
    rw [PtrBuffer.content, List.take_take, Nat.min_eq_left hlast.2, hlast.1]
  exact List.mem_of_mem_take (by rw [ht]; simp)

/-! ### The record -/

/-- **A well formed record**: no NUL byte; the head, with the tag possibly cut; the start of the body; and a
newline at the end. -/
structure WellFormed (level time tag body record : Bytes) : Prop where
  nul : (0 : Byte) ∉ record
  shape : ∃ tag' data nl, tag' <+: tag ∧ data <+: body ∧ (nl = [] ∨ nl = [0x0A]) ∧
    record = headText level time tag' ++ data ++ nl
  last : record.getLast? = some 0x0A

theorem length_head_lt (lc : Libc) {info : LogInfo} (ht : (tagText info).length < 2 ^ 31 - 200) (c : Byte) :
    (headText [c] (tempTime lc info.timeval) (tagText info)).length < 2 ^ 31 := by
  have := length_tempTime_le lc info.timeval
  rw [length_headText]; omega

/-- **When a record with information is well formed**: exactly if its head is shorter than 1024 bytes. -/
theorem wellFormed_iff (lc : Libc) (st : FormatStatics) {info : LogInfo} {body : CStr}
    (hl : 0 ≤ info.level ∧ info.level ≤ 5) (ht : (tagText info).length < 2 ^ 31 - 200)
    (hb : body.bytes ≠ []) :
    (∃ level log, levelStrings info.level = some level ∧
        logFormater lc st (some info) (some body) temp = some (st, log) ∧ log.length ≤ 16384 ∧
        WellFormed level (tempTime lc info.timeval) (tagText info) body.bytes log.content) ↔
      9 + (tempTime lc info.timeval).length + (tagText info).length < 1024 := by
  obtain ⟨c, hc, hlev⟩ := levelStrings_of_lt hl.1 (by omega)
  have hidx : levelStrings (levelIndex info (some body)) = some [c] := hlev
  have hform := logFormater_head hidx (length_head_lt lc ht c) st
  rw [← length_headText c]
  have hnul := nul_notMem_headText hc (nul_notMem_tempTime lc info.timeval) (nul_notMem_tagText info)
  generalize htext : headText [c] (tempTime lc info.timeval) (tagText info) = text at hform hnul ⊢
  constructor
  · rintro ⟨level, log, -, hf, -, hwf⟩
    by_contra hlong
    obtain ⟨log', hn, hmem⟩ := nul_mem_record (Nat.not_lt.mp hlong) (some body)
    rw [hn] at hform
    cases hform.symm.trans hf
    exact hwf.nul hmem
  · intro hshort
    obtain ⟨log, data, nl, hn, hle, hdata, hcont, hnl, hlast⟩ := record_short hshort hb
    rw [hn] at hform
    refine ⟨[c], log, hlev, hform, hle, ⟨?_, ⟨_, data, nl, List.prefix_rfl, hdata, hnl, ?_⟩, hlast⟩⟩
    · rw [hcont, List.mem_append, List.mem_append, not_or, not_or]
      refine ⟨⟨hnul, fun h => body.nul (hdata.subset h)⟩, ?_⟩
      rcases hnl with rfl | rfl
      · exact List.not_mem_nil
      · decide
    · rw [htext, hcont]

/-- The body `x`. -/
def bodyX : CStr := ⟨ascii "x", by decide⟩

/-- A debug level, no tag and no time. -/
def plainInfo : LogInfo := ⟨1, none, ⟨0, 0⟩⟩

/-- A debug record `x` without tag and time. -/
theorem wellFormed_iff_plain :
    ∃ level log, levelStrings plainInfo.level = some level ∧
      logFormater utc ⟨0, 0⟩ (some plainInfo) (some bodyX) temp = some (⟨0, 0⟩, log) ∧
      log.length ≤ 16384 ∧
      WellFormed level (tempTime utc plainInfo.timeval) (tagText plainInfo) bodyX.bytes log.content := by
  have ht : (tagText plainInfo).length < 2 ^ 31 - 200 := by decide
  exact (wellFormed_iff utc ⟨0, 0⟩ (by decide) ht (by decide)).mpr (by decide)

/-- A tag of 1100 letters. -/
def longTag : CStr := ⟨List.replicate 1100 0x61, fun h => absurd (List.eq_of_mem_replicate h) (by decide)⟩

/-- A debug level and the tag of 1100 letters. -/
def longInfo : LogInfo := ⟨1, some longTag, ⟨0, 0⟩⟩

/-- **A long tag puts a NUL in the record.** -/
theorem long_tag_nul :
    ∃ log, logFormater utc ⟨0, 0⟩ (some longInfo) (some bodyX) temp = some (⟨0, 0⟩, log) ∧
      (0 : Byte) ∈ log.content ∧
      ¬ ∃ level, WellFormed level (tempTime utc longInfo.timeval) (tagText longInfo) bodyX.bytes log.content := by
  have hlen : (tagText longInfo).length = 1100 := List.length_replicate
  have hlev : levelStrings (levelIndex longInfo (some bodyX)) = some [0x44] := rfl
  have hlong : 1024 ≤ (headText [0x44] (tempTime utc longInfo.timeval) (tagText longInfo)).length := by
    rw [length_headText, hlen]; omega
  obtain ⟨log, hn, hmem⟩ := nul_mem_record hlong (some bodyX)
  have hform := logFormater_head hlev (length_head_lt utc (by rw [hlen]; decide) 0x44) ⟨0, 0⟩
  rw [hn] at hform
  exact ⟨log, hform, hmem, fun ⟨_, hwf⟩ => hwf.nul hmem⟩

end MTAppenderFile.Loglib.Header
