import MTAppenderFile.Comm.Ptr
import MTAppenderFile.Loglib.Base

/-! # The formatter

`mtaf_log_formater` (`loglib/mtaf_formatter.cpp`) prints one record into a `PtrBuffer`: the head
`[level][time][tag]: ` if there is a `mtaf_log_info`, the body up to 130 bytes below the capacity,
and a newline unless the cursor already stands behind one. Its two static counters are passed
through. It is undefined (`none`) for a level without a name, for a `NULL` body where it is measured,
and where the newline test would read in front of the buffer.

Both appender functions call it on a fresh 16 KiB buffer (`temp`). There a record without a
`mtaf_log_info` is `formatRecord` of its body (`logFormater_none`), and every record, whatever its
information, is a well formed buffer whose first byte is not NUL (`logFormater_temp`). -/

namespace MTAppenderFile.Loglib.Formatter

open MTAppenderFile.Lib.Block
open MTAppenderFile.Comm.CTypes
open MTAppenderFile.Comm.Ptr
open MTAppenderFile.Loglib.Base

/-- The static variables of `mtaf_log_formater`. -/
structure FormatStatics where
  errorCount : ℤ
  errorSize : ℤ
  deriving DecidableEq, Repr

/-- `levelStrings[i]`; undefined outside the table. -/
def levelStrings (i : ℤ) : Option Bytes :=
  if 0 ≤ i then
    [ascii "V", ascii "D", ascii "I", ascii "W", ascii "E", ascii "F"][i.toNat]?
  else none

/-- `snprintf((char *)_log.PosPtr(), 1024, …)` followed by `_log.Length(Pos() + ret, Length() + ret)`;
undefined when the text runs off the memory. -/
def printAtPos (log : PtrBuffer) (text : Bytes) : Option PtrBuffer :=
  let (out, ret) := snprintf 1024 text
  if 0 ≤ log.pos ∧ log.pos + out.length ≤ log.parray.length then
    let log := { log with parray := storeAll log.parray (storesAt log.pos out) }
    some (log.setLength (offT (log.pos + ret)) (sizeT (log.length + ret)))
  else none

/-- The branch for a buffer with less than 5 KiB of room. -/
def formatNoRoom (st : FormatStatics) (logbody : Option CStr) (log : PtrBuffer) :
    Option (FormatStatics × PtrBuffer) := do
  let body ← logbody
  let errorSize ← strnlen body.mem (1024 * 1024)
  let st : FormatStatics := ⟨int32 (st.errorCount + 1), int32 errorSize⟩
  if log.maxLength ≥ sizeT (log.length + 128) then
    let log ← printAtPos log (ascii "[F]log_size <= 5*1024, err(" ++ decimal st.errorCount ++
      ascii ", " ++ decimal st.errorSize ++ ascii ")\n")
    some (⟨0, 0⟩, log.write [])
  else some (st, log)

/-- `temp_time` of the head. -/
def tempTime (lc : Libc) (tv : TimeVal) : Bytes :=
  if tv.tvSec ≠ 0 then (timeText lc tv).take 63 else []

/-- The head `[level][time][tag]: `, if there is information. -/
def formatHead (lc : Libc) (info : Option LogInfo) (logbody : Option CStr) (log : PtrBuffer) :
    Option PtrBuffer :=
  match info with
  | none => some log
  | some info => do
    let level ← levelStrings (if logbody.isSome then info.level else LOG_LEVEL_FATAL)
    let tag := match info.tag with
      | some tag => tag.bytes
      | none => []
    printAtPos log (ascii "[" ++ level ++ ascii "][" ++ tempTime lc info.timeval ++ ascii "][" ++
      tag ++ ascii "]: ")

/-- `bodylen` before it is cut to the length of the body. -/
def bodyLimit (log : PtrBuffer) : ℕ :=
  let bodylen := if sizeT (log.maxLength - log.length) > 130
    then sizeT (log.maxLength - log.length) - 130 else 0
  if bodylen > 0xFFFF then 0xFFFF else bodylen

/-- The body, or a text in its place. -/
def formatBody (logbody : Option CStr) (log : PtrBuffer) : Option PtrBuffer :=
  match logbody with
  | some body => do
    let bodylen ← strnlen body.mem (bodyLimit log)
    let bodylen := if bodylen > 0xFFFF then 0xFFFF else bodylen
    let data ← readBlock body.mem bodylen
    some (log.write data)
  | none => some (log.write (ascii "error!! NULL==_logbody"))

/-- The newline behind a record that does not end with one. -/
def formatNextline (log : PtrBuffer) : Option PtrBuffer :=
  let nextline : Byte := 0x0A
  if 1 ≤ log.pos then
    log.parray[(log.pos - 1).toNat]?.map fun c => if c ≠ nextline then log.write [nextline] else log
  else none

/-- `mtaf_log_formater(_info, _logbody, _log)`. -/
def logFormater (lc : Libc) (st : FormatStatics) (info : Option LogInfo) (logbody : Option CStr)
    (log : PtrBuffer) : Option (FormatStatics × PtrBuffer) :=
  if log.maxLength ≤ sizeT (log.length + 5 * 1024) then formatNoRoom st logbody log
  else do
    let log ← formatHead lc info logbody log
    let log ← formatBody logbody log
    let log ← formatNextline log
    some (st, log)

/-- `char temp[16 * 1024] = {0}` under `PtrBuffer(temp, 0, sizeof(temp))`. -/
def temp : PtrBuffer := .ofPtr (List.replicate (16 * 1024) 0) 0 (16 * 1024)

/-! ### Records without information -/

/-- **The record of a body**: at most 16254 bytes of it, and a newline unless it ends with one. -/
def formatRecord (body : Bytes) : Bytes :=
  if (body.take 16254).getLast? = some 0x0A then body.take 16254 else body.take 16254 ++ [0x0A]

theorem formatRecord_ne_nil (body : Bytes) : formatRecord body ≠ [] := by
  unfold formatRecord
  split_ifs with h
  · rintro h0; simp [h0] at h
  · simp

theorem length_formatRecord_le (body : Bytes) : (formatRecord body).length ≤ 16255 := by
  have h := List.length_take_le 16254 body
  unfold formatRecord
  split_ifs
  · omega
  · rw [List.length_append, List.length_singleton]; omega

/-- **A record has no NUL byte** when its body has none. -/
theorem nul_notMem_formatRecord (s : CStr) : (0 : Byte) ∉ formatRecord s.bytes := by
  have h : (0 : Byte) ∉ s.bytes.take 16254 := fun h => s.nul (List.mem_of_mem_take h)
  unfold formatRecord
  split_ifs
  · exact h
  · simp [h]

@[simp] theorem temp_pos : temp.pos = 0 := rfl

@[simp] theorem temp_length : temp.length = 0 := rfl

@[simp] theorem temp_maxLength : temp.maxLength = 16384 := rfl

@[simp] theorem length_temp_parray : temp.parray.length = 16384 := List.length_replicate

theorem wf_temp : temp.WF :=
  ⟨by simp, by simp, by simp, by simp, by simp⟩

theorem atEnd_temp : temp.AtEnd := ⟨wf_temp, rfl⟩

theorem content_temp : temp.content = [] := by rw [PtrBuffer.content, temp_length, List.take_zero]

/-- The branch for a buffer without room is not taken on the 16 KiB buffer. -/
theorem temp_room : ¬ temp.maxLength ≤ sizeT (temp.length + 5 * 1024) := by
  rw [temp_maxLength, temp_length]; decide

theorem bodyLimit_temp : bodyLimit temp = 16254 := by
  rw [bodyLimit, temp_maxLength, temp_length]; decide

theorem getLast?_content {b : PtrBuffer} (h : b.AtEnd) (h0 : 0 < b.length) :
    b.content.getLast? = b.parray[(b.pos - 1).toNat]? := by
  have hm : b.length ≤ b.parray.length := by rw [h.mem]; exact h.le
  have hp : (b.pos - 1).toNat = b.length - 1 := by rw [h.pos]; omega
  rw [hp, List.getLast?_eq_getElem?, h.length_content, PtrBuffer.content,
    List.getElem?_take_of_lt (by omega)]

theorem exists_formatNextline {b : PtrBuffer} (h : b.AtEnd) (h0 : 0 < b.length) :
    ∃ b', formatNextline b = some b' ∧ (b' = b ∨ b' = b.write [0x0A]) := by
  have hle := h.le
  have hlen : (b.pos - 1).toNat < b.parray.length := by rw [h.mem, h.pos]; omega
  rw [formatNextline, if_pos (by rw [h.pos]; omega), List.getElem?_eq_getElem hlen]
  refine ⟨_, rfl, ?_⟩
  dsimp only
  split_ifs
  · exact .inr rfl
  · exact .inl rfl

theorem formatNextline_eq {b : PtrBuffer} (h : b.AtEnd) (h4 : 4 ≤ b.maxLength) (h0 : 0 < b.length)
    (hr : b.length + 1 ≤ b.maxLength) :
    ∃ b', formatNextline b = some b' ∧ b'.AtEnd ∧ b'.maxLength = b.maxLength ∧
      b'.content = if b.content.getLast? = some 0x0A then b.content else b.content ++ [0x0A] := by
  have hmax := h.maxLt
  have hlen : (b.pos - 1).toNat < b.parray.length := by rw [h.mem, h.pos]; omega
  have hg := getLast?_content h h0
  rw [formatNextline, if_pos (by rw [h.pos]; omega), hg, List.getElem?_eq_getElem hlen]
  refine ⟨_, rfl, ?_⟩
  generalize b.parray[(b.pos - 1).toNat] = c
  by_cases hc : c = 0x0A
  · simp [hc, h]
  · simp only [ne_eq, hc, not_false_eq_true, if_true, Option.some.injEq, if_false]
    have hd : b.length + ([0x0A] : Bytes).length < 2 ^ 32 := by simp; omega
    exact ⟨h.write h4 hd, h.maxLength_write h4 h.pos hd, h.content_write_of_le h4 hd (by simpa using hr)⟩

/-- What is written for the body. -/
def bodyData (logbody : Option CStr) (log : PtrBuffer) : Bytes :=
  match logbody with
  | some body => body.bytes.take (bodyLimit log)
  | none => ascii "error!! NULL==_logbody"

theorem bodyLimit_le (log : PtrBuffer) : bodyLimit log ≤ 0xFFFF := by
  unfold bodyLimit
  dsimp only
  split_ifs <;> omega

/-- The body is cut to the limit and written. -/
theorem formatBody_eq (logbody : Option CStr) (log : PtrBuffer) :
    formatBody logbody log = some (log.write (bodyData logbody log)) := by
  cases logbody with
  | none => rfl
  | some body =>
    have hlim := bodyLimit_le log
    have hle : ¬ min (bodyLimit log) body.bytes.length > 0xFFFF := by omega
    have hread : readBlock body.mem (min (bodyLimit log) body.bytes.length) =
        some (body.bytes.take (bodyLimit log)) := by
      have hmem : body.mem.length = body.bytes.length + 1 := List.length_append
      rw [readBlock_of_le (by omega), CStr.mem,
        List.take_append_of_le_length (Nat.min_le_right _ _), ← List.take_eq_take_min]
    simp only [formatBody, body.strnlen_mem, Option.bind_eq_bind, Option.bind_some, if_neg hle, hread]
    rfl

theorem length_bodyData_le (logbody : Option CStr) (log : PtrBuffer) :
    (bodyData logbody log).length ≤ 0xFFFF := by
  cases logbody with
  | none =>
    have hl : (bodyData none log).length = 22 := rfl
    omega
  | some body => exact le_trans (List.length_take_le _ _) (bodyLimit_le log)

theorem nul_notMem_bodyData (logbody : Option CStr) (log : PtrBuffer) :
    (0 : Byte) ∉ bodyData logbody log := by
  cases logbody with
  | none => exact show (0 : Byte) ∉ ascii "error!! NULL==_logbody" by decide
  | some body => exact fun h => body.nul (List.mem_of_mem_take h)

theorem logFormater_of_head {lc : Libc} {st : FormatStatics} {info : Option LogInfo} {logbody : Option CStr}
    {log log₁ : PtrBuffer} (hr : ¬ log.maxLength ≤ sizeT (log.length + 5 * 1024))
    (hh : formatHead lc info logbody log = some log₁) :
    logFormater lc st info logbody log =
      (formatNextline (log₁.write (bodyData logbody log₁))).map fun log => (st, log) := by
  rw [logFormater, if_neg hr, hh]
  simp only [Option.bind_eq_bind, Option.bind_some, formatBody_eq, Option.map_eq_bind, Function.comp_def]

/-- **A record without information**, printed into a fresh buffer. -/
theorem logFormater_none (lc : Libc) (st : FormatStatics) {body : CStr} (hne : body.bytes ≠ []) :
    ∃ log, logFormater lc st none (some body) temp = some (st, log) ∧ log.AtEnd ∧
      log.maxLength = 16 * 1024 ∧ log.content = formatRecord body.bytes := by
  have h4 : 4 ≤ temp.maxLength := by rw [temp_maxLength]; decide
  have hlen : (body.bytes.take 16254).length ≤ 16254 := List.length_take_le _ _
  have hlen0 : 0 < (body.bytes.take 16254).length := by
    have := List.length_pos_iff.mpr hne
    rw [List.length_take]; omega
  have hbody : bodyData (some body) temp = body.bytes.take 16254 := by rw [bodyData, bodyLimit_temp]
  have hform : formatRecord body.bytes = if (body.bytes.take 16254).getLast? = some 0x0A
      then body.bytes.take 16254 else body.bytes.take 16254 ++ [0x0A] := rfl
  rw [hform]
  generalize body.bytes.take 16254 = data at hlen hlen0 hbody
  have hd : temp.length + data.length < 2 ^ 32 := by rw [temp_length]; omega
  have hw := atEnd_temp.write h4 hd
  have hmax : (temp.write data).maxLength = 16384 := wf_temp.maxLength_write h4 atEnd_temp.pos hd
  have hc : (temp.write data).content = data := by
    rw [atEnd_temp.content_write_of_le h4 hd (by rw [temp_length, temp_maxLength]; omega),
      content_temp, List.nil_append]
  have hl : (temp.write data).length = data.length := by rw [← hw.length_content, hc]
  obtain ⟨log, hn, ha, hm, hcl⟩ := formatNextline_eq hw (by omega) (by omega) (by omega)
  exact ⟨log, by rw [logFormater_of_head temp_room rfl, hbody, hn]; rfl, ha, hm.trans hmax, by rw [hcl, hc]⟩

/-! ### Records with any information -/

/-- What every stage of the formatter preserves on the 16 KiB buffer: the buffer is well formed, and
once the cursor has left the start the first byte is not NUL. -/
structure Lead (log : PtrBuffer) : Prop extends log.WF where
  cap : log.maxLength = 16 * 1024
  first : 0 < log.pos → ∃ c : Byte, c ≠ 0 ∧ log.parray.head? = some c

theorem lead_temp : Lead temp := ⟨wf_temp, rfl, fun h => by simp at h⟩

theorem Lead.write {log : PtrBuffer} (h : Lead log) {data : Bytes} (hl : data.length ≤ 0xFFFF)
    (h0 : data.head? ≠ some 0) : Lead (log.write data) := by
  have hn := h.nonneg
  have hp := h.posLe
  have hle := h.le
  have hcap := h.cap
  obtain ⟨p, hpos⟩ := Int.eq_ofNat_of_zero_le hn
  have h4 : 4 ≤ log.maxLength := by omega
  have hd : p + data.length < 2 ^ 32 := by omega
  refine ⟨h.toWF.write h4 hpos hd, (h.maxLength_write h4 hpos hd).trans hcap, fun hw => ?_⟩
  rcases Nat.eq_zero_or_pos p with hp0 | hp0
  · -- at the start: the write leaves the start only if there is data
    cases data with
    | nil =>
      rw [h.write_eq h4 hpos hd] at hw
      simp [hp0] at hw
    | cons c data =>
      rw [h.head?_write_of_zero h4 hpos hd hp0 (by simp)]
      exact ⟨c, fun hc => h0 (by simp [hc]), rfl⟩
  · rw [h.head?_write_of_pos h4 hpos hd hp0]
    exact h.first (by omega)

theorem lead_snprintf {log : PtrBuffer} (hmem : log.parray.length = 16 * 1024)
    (hcap : log.maxLength = 16 * 1024) (size : ℕ) (hs : 1 < size ∧ size ≤ 16 * 1024) {c : Byte}
    (hc : c ≠ 0) (text : Bytes) :
    let log' := { log with
      parray := storeAll log.parray (storesAt 0 (snprintf size (c :: text)).1) }.setLength
        (snprintf size (c :: text)).2 (sizeT (snprintf size (c :: text)).2)
    Lead log' ∧ 0 < log'.length ∧ log'.parray.head? = some c := by
  have hout : ((snprintf size (c :: text)).1).length ≤ size := by
    simp only [snprintf, List.length_append, List.length_take, List.length_singleton]; omega
  have hst : storeAll log.parray (storesAt 0 (snprintf size (c :: text)).1) =
      overwrite log.parray 0 (snprintf size (c :: text)).1 :=
    storeAll_storesAt _ _ 0 (by omega)
  have hhead : (overwrite log.parray 0 (snprintf size (c :: text)).1).head? = some c := by
    obtain ⟨k, hk⟩ : ∃ k, size - 1 = k + 1 := ⟨size - 2, by omega⟩
    simp [overwrite, snprintf, hk]
  have hlen : (overwrite log.parray 0 (snprintf size (c :: text)).1).length = 16 * 1024 := by
    rw [length_overwrite (by omega), hmem]
  rw [hst]
  generalize overwrite log.parray 0 (snprintf size (c :: text)).1 = m at hhead hlen ⊢
  by_cases hb : (c :: text).length < 2 ^ 31
  · -- the length of the text, cut to the capacity
    have hret : (snprintf size (c :: text)).2 = ((c :: text).length : ℕ) := by
      rw [snprintf]; simp only [if_pos hb]
    have hpos : 0 < (c :: text).length := Nat.succ_pos _
    rw [hret]
    generalize (c :: text).length = n at hb hpos
    rw [sizeT_natCast (by omega), PtrBuffer.setLength_eq (by omega)]
    simp only [hcap]
    exact ⟨⟨⟨Int.natCast_nonneg _, Int.le_refl _, Nat.min_le_right _ _, hlen, by simp⟩, rfl,
      fun _ => ⟨c, hc, hhead⟩⟩, by omega, hhead⟩
  · -- no length to return: the whole buffer becomes content and the cursor goes to the start
    have hret : (snprintf size (c :: text)).2 = -1 := by
      rw [snprintf]; simp only [if_neg hb]
    have hsz : sizeT (-1) = 2 ^ 64 - 1 := by decide
    have hz : uint32 0 = 0 := by decide
    rw [hret, hsz]
    have hset : ({ log with parray := m }.setLength (-1) (2 ^ 64 - 1)) =
        ⟨m, 0, 16 * 1024, 16 * 1024⟩ := by
      simp [PtrBuffer.setLength, PtrBuffer.seek, PtrBuffer.clamp, hz, hcap]
    rw [hset]
    exact ⟨⟨⟨Int.le_refl 0, by simp, Nat.le_refl _, hlen, by simp⟩, rfl,
      fun _ => ⟨c, hc, hhead⟩⟩, by simp, hhead⟩

theorem Lead.formatBody {log log' : PtrBuffer} (h : Lead log) {logbody : Option CStr}
    (hb : formatBody logbody log = some log') : Lead log' := by
  rw [formatBody_eq] at hb
  cases hb
  exact h.write (length_bodyData_le logbody log) fun h0 =>
    nul_notMem_bodyData logbody log (List.mem_of_mem_head? h0)

theorem Lead.formatNextline {log log' : PtrBuffer} (h : Lead log)
    (hn : formatNextline log = some log') : Lead log' ∧ 0 < log'.length ∧ 0 < log'.pos := by
  have hp := h.posLe
  rw [Formatter.formatNextline] at hn
  split_ifs at hn with h1
  obtain ⟨c, -, hc⟩ := Option.map_eq_some_iff.mp hn
  split_ifs at hc with hne
  · subst hc
    have hle := h.le
    have hcap := h.cap
    obtain ⟨p, hpos⟩ := Int.eq_ofNat_of_zero_le h.nonneg
    have hw : Lead (log.write [0x0A]) := h.write (by decide) (by decide)
    have hpos' : 0 < (log.write [0x0A]).pos := by
      have := Nat.le_max_left log.length (p + log.room [0x0A] p)
      rw [h.write_eq (by omega) hpos (by simp; omega)]
      simp only [List.length_singleton]; omega
    have := hw.posLe
    exact ⟨hw, by omega, hpos'⟩
  · subst hc
    exact ⟨h, by omega, by omega⟩

theorem lead_printAtPos {log log' : PtrBuffer} (hmem : log.parray.length = 16 * 1024)
    (hcap : log.maxLength = 16 * 1024) (hpos : log.pos = 0) (hlen : log.length = 0) {c : Byte}
    (hc : c ≠ 0) {text : Bytes} (h : printAtPos log (c :: text) = some log') : Lead log' := by
  have hret : offT (snprintf 1024 (c :: text)).2 = (snprintf 1024 (c :: text)).2 := by
    simp only [snprintf]
    exact offT_of_lt (by split_ifs <;> omega) (by split_ifs <;> omega)
  simp only [printAtPos] at h
  split_ifs at h
  cases h
  simp only [hpos, hlen, Int.zero_add, Int.natCast_zero, hret]
  have := (lead_snprintf hmem hcap 1024 (by decide) hc text).1
  simpa only [hpos, hlen] using this

theorem lead_formatHead {lc : Libc} {info : Option LogInfo} {logbody : Option CStr} {log : PtrBuffer}
    (h : formatHead lc info logbody temp = some log) : Lead log := by
  cases info with
  | none => cases h; exact lead_temp
  | some info =>
    obtain ⟨level, -, h⟩ := Option.bind_eq_some_iff.mp h
    have hb : ascii "[" = [0x5B] := rfl
    simp only [hb, List.append_assoc, List.singleton_append] at h
    exact lead_printAtPos length_temp_parray temp_maxLength temp_pos temp_length (by decide) h

/-- **A printed record**: a well formed buffer that is not empty and does not start with a NUL. -/
structure IsRecord (log : PtrBuffer) : Prop extends log.WF where
  cap : log.maxLength = 16 * 1024
  nonempty : 0 < log.length
  first : ∃ c : Byte, c ≠ 0 ∧ log.parray.head? = some c

section IsRecord

variable {log : PtrBuffer} (h : IsRecord log)

include h

theorem IsRecord.content_ne_nil : log.content ≠ [] := fun h0 =>
  absurd (h.content_eq_nil_iff.mp h0) (by have := h.nonempty; omega)

theorem IsRecord.head?_content : log.content.head? ≠ some 0 := by
  obtain ⟨c, hc, hf⟩ := h.first
  rw [PtrBuffer.head?_content (by have := h.nonempty; omega), hf]
  simpa using hc

theorem IsRecord.length_content_le : log.content.length ≤ 16 * 1024 := by
  rw [h.length_content, ← h.cap]; exact h.le

end IsRecord

/-- **Every record**, whatever its information. -/
theorem logFormater_temp {lc : Libc} {st st' : FormatStatics} {info : Option LogInfo}
    {logbody : Option CStr} {log : PtrBuffer}
    (h : logFormater lc st info logbody temp = some (st', log)) : st' = st ∧ IsRecord log := by
  rw [logFormater, if_neg temp_room] at h
  obtain ⟨log₀, h₀, h⟩ := Option.bind_eq_some_iff.mp h
  obtain ⟨log₁, h₁, h⟩ := Option.bind_eq_some_iff.mp h
  obtain ⟨log₂, h₂, h⟩ := Option.bind_eq_some_iff.mp h
  obtain ⟨hl₂, hlen, hpos⟩ := ((lead_formatHead h₀).formatBody h₁).formatNextline h₂
  cases h
  exact ⟨rfl, ⟨hl₂.toWF, hl₂.cap, hlen, hl₂.first hpos⟩⟩

end MTAppenderFile.Loglib.Formatter
