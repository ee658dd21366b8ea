import MTAppenderFile.Loglib.Header
import MTAppenderFile.Loglib.Buffer

/-! # The memory the formatter touches

`mtaf_log_formater` indexes two things without a test: the table of the level names, and the byte in front of
the cursor, to see whether the record ends with a newline. The first is out of range for a level outside the
table, `LOG_LEVEL_NONE` among them; the second is in front of the buffer if nothing has moved the cursor, as
for an empty body without information (`reads_in_range_iff`).

What it stores stays in the 16 KiB buffer, whatever that byte in front of the buffer is, and the record is at
most as long as the buffer that `__appender_sync` copies it to (`formatter_in_bounds`). For this the newline
test takes the byte in front of the buffer as a parameter (`formatNextlineFrom`). -/

namespace MTAppenderFile.Loglib.Bounds

open MTAppenderFile.Lib.Block
open MTAppenderFile.Comm.CTypes
open MTAppenderFile.Comm.Ptr
open MTAppenderFile.Loglib.Base
open MTAppenderFile.Loglib.Buffer
open MTAppenderFile.Loglib.Formatter
open MTAppenderFile.Loglib.Header

/-- `LOG_LEVEL_NONE`. -/
def LOG_LEVEL_NONE : ℤ := 6

/-! ### The log at the newline test -/

/-- The formatter up to the newline test. -/
def beforeNextline (lc : Libc) (info : Option LogInfo) (logbody : Option CStr) (log : PtrBuffer) :
    Option PtrBuffer :=
  (formatHead lc info logbody log).bind (formatBody logbody)

theorem beforeNextline_of_head {lc : Libc} {info : Option LogInfo} {logbody : Option CStr}
    {log log₁ : PtrBuffer} (hh : formatHead lc info logbody log = some log₁) :
    beforeNextline lc info logbody log = some (log₁.write (bodyData logbody log₁)) := by
  rw [beforeNextline, hh, Option.bind_some, formatBody_eq]

theorem logFormater_eq_beforeNextline (lc : Libc) (st : FormatStatics) (info : Option LogInfo)
    (logbody : Option CStr) :
    logFormater lc st info logbody temp =
      ((beforeNextline lc info logbody temp).bind formatNextline).map fun log => (st, log) := by
  rw [logFormater, if_neg temp_room, beforeNextline]
  cases formatHead lc info logbody temp with
  | none => rfl
  | some log => simp only [Option.bind_eq_bind, Option.bind_some, Option.map_eq_bind, formatBody_eq,
      Function.comp_def]

/-- The index of the level is in the table. -/
def LevelInTable (info : Option LogInfo) (logbody : Option CStr) : Prop :=
  ∀ i, info = some i → 0 ≤ levelIndex i logbody ∧ levelIndex i logbody < 6

/-- **The formatter reads in range**: the index of the level is in the table, and the byte in front of the
cursor, at the newline test, is in the buffer. -/
structure ReadsInRange (lc : Libc) (info : Option LogInfo) (logbody : Option CStr) : Prop where
  level : LevelInTable info logbody
  newline : ∀ log, beforeNextline lc info logbody temp = some log → 1 ≤ log.pos ∧ log.pos - 1 < 16384

/-- Something moves the cursor before the newline test: the text for a missing body, a body that is not empty,
or a head whose length fits in an `int`. -/
def MovesCursor (lc : Libc) : Option LogInfo → Option CStr → Prop
  | _, none => True
  | none, some body => body.bytes ≠ []
  | some info, some _ => 9 + (tempTime lc info.timeval).length + (tagText info).length < 2 ^ 31

/-! ### The cursor -/

theorem one_le_pos_write {log : PtrBuffer} (h : log.WF) (hcap : log.maxLength = 16384) {data : Bytes}
    (hd : data.length ≤ 0xFFFF) :
    1 ≤ (log.write data).pos ↔ 1 ≤ log.pos ∨ data ≠ [] := by
  obtain ⟨p, hp⟩ := Int.eq_ofNat_of_zero_le h.nonneg
  have hle := h.posLe
  have hlen := h.le
  rw [h.write_eq (by omega) hp (by omega), hp, ← List.length_pos_iff]
  simp only [PtrBuffer.room]
  omega

theorem wf_write {log : PtrBuffer} (h : log.WF) (hcap : log.maxLength = 16384) {data : Bytes}
    (hd : data.length ≤ 0xFFFF) : (log.write data).WF ∧ (log.write data).maxLength = 16384 := by
  obtain ⟨p, hp⟩ := Int.eq_ofNat_of_zero_le h.nonneg
  have hpos := h.posLe
  have hlen := h.le
  have h4 : 4 ≤ log.maxLength := by omega
  have hp32 : p + data.length < 2 ^ 32 := by omega
  exact ⟨h.write h4 hp hp32, (h.maxLength_write h4 hp hp32).trans hcap⟩

/-- The buffer behind a head whose length has no `int`. -/
def longLog (text : Bytes) : PtrBuffer := ⟨headMemory text, 0, 16384, 16384⟩

theorem wf_longLog (text : Bytes) : (longLog text).WF :=
  ⟨Int.le_refl 0, Int.natCast_nonneg _, Nat.le_refl _, length_headMemory text,
    show 16384 < 2 ^ 32 by decide⟩

theorem bodyLimit_longLog (text : Bytes) : bodyLimit (longLog text) = 0 := by
  have hl : (longLog text).length = 16384 := rfl
  have hm : (longLog text).maxLength = 16384 := rfl
  rw [bodyLimit, hl, hm]; decide

/-- **The log behind the head**, if the level has a name: a well formed 16 KiB log. The cursor is at the start
if there is no information or the head is too long. -/
theorem exists_formatHead (lc : Libc) {info : Option LogInfo} {logbody : Option CStr}
    (hl : LevelInTable info logbody) :
    ∃ log, formatHead lc info logbody temp = some log ∧ log.WF ∧ log.maxLength = 16384 ∧
      match info with
      | none => log = temp
      | some i =>
        if 9 + (tempTime lc i.timeval).length + (tagText i).length < 2 ^ 31 then log.AtEnd ∧ 1 ≤ log.pos
        else log.pos = 0 ∧ bodyLimit log = 0 := by
  cases info with
  | none => exact ⟨temp, rfl, wf_temp, rfl, rfl⟩
  | some i =>
    obtain ⟨c, -, hc⟩ := levelStrings_of_lt (hl i rfl).1 (hl i rfl).2
    have hlen := length_headText c (tempTime lc i.timeval) (tagText i)
    rw [formatHead_eq, hc, Option.bind_some]
    generalize headText [c] (tempTime lc i.timeval) (tagText i) = text at hlen ⊢
    by_cases ht : text.length < 2 ^ 31
    · have hpos : (headLog text).pos = (min text.length 16384 : ℕ) := rfl
      refine ⟨headLog text, printAtPos_temp ht, (atEnd_headLog text).toWF, rfl, ?_⟩
      dsimp only
      rw [if_pos (by omega)]
      exact ⟨atEnd_headLog text, by omega⟩
    · refine ⟨longLog text, printAtPos_temp_of_long (Nat.not_lt.mp ht), wf_longLog text, rfl, ?_⟩
      dsimp only
      rw [if_neg (by omega)]
      exact ⟨rfl, bodyLimit_longLog text⟩

/-! ### What is read -/

theorem one_le_pos_beforeNextline (lc : Libc) {info : Option LogInfo} {logbody : Option CStr}
    (hl : LevelInTable info logbody) :
    ∃ log, beforeNextline lc info logbody temp = some log ∧ log.WF ∧ log.maxLength = 16384 ∧
      (1 ≤ log.pos ↔ MovesCursor lc info logbody) := by
  obtain ⟨log, hh, hwf, hcap, hlog⟩ := exists_formatHead lc hl
  have hd := length_bodyData_le logbody log
  have hw := wf_write hwf hcap hd
  refine ⟨_, beforeNextline_of_head hh, hw.1, hw.2, ?_⟩
  rw [one_le_pos_write hwf hcap hd]
  cases logbody with
  | none =>
    have hne : bodyData none log ≠ [] := show ascii "error!! NULL==_logbody" ≠ [] by decide
    exact iff_of_true (.inr hne) trivial
  | some body =>
    cases info with
    | none =>
      dsimp only at hlog ⊢
      have h0 : ¬ 1 ≤ log.pos := by rw [hlog, temp_pos]; omega
      have hlim : bodyLimit log = 16254 := by rw [hlog, bodyLimit_temp]
      have hiff : bodyData (some body) log ≠ [] ↔ body.bytes ≠ [] := by
        rw [bodyData, hlim, ← List.length_pos_iff, ← List.length_pos_iff, List.length_take]
        omega
      rw [hiff]
      exact or_iff_right h0
    | some i =>
      dsimp only at hlog ⊢
      split_ifs at hlog with ht
      · exact iff_of_true (.inl hlog.2) ht
      · have hnil : bodyData (some body) log = [] := by rw [bodyData, hlog.2, List.take_zero]
        refine iff_of_false ?_ ht
        rw [hlog.1, hnil]
        simp

theorem formatHead_none {lc : Libc} {info : Option LogInfo} {logbody : Option CStr} {log : PtrBuffer}
    (hl : ¬ LevelInTable info logbody) : formatHead lc info logbody log = none := by
  unfold LevelInTable at hl
  push Not at hl
  obtain ⟨i, rfl, hi⟩ := hl
  have hnone : levelStrings (levelIndex i logbody) = none := by
    rw [← Option.not_isSome_iff_eq_none, levelStrings_isSome_iff]
    omega
  rw [formatHead_eq, hnone, Option.bind_none]

/-- **The formatter is defined exactly where it reads in range.** -/
theorem isSome_logFormater_iff (lc : Libc) (st : FormatStatics) (info : Option LogInfo)
    (logbody : Option CStr) :
    (logFormater lc st info logbody temp).isSome = true ↔ ReadsInRange lc info logbody := by
  rw [logFormater_eq_beforeNextline, Option.isSome_map]
  by_cases hl : LevelInTable info logbody
  · obtain ⟨log, hb, hwf, hcap, -⟩ := one_le_pos_beforeNextline lc hl
    have hpos := hwf.posLe
    have hle := hwf.le
    have hmem := hwf.mem
    rw [hb, Option.bind_some, formatNextline]
    split_ifs with h1
    · refine iff_of_true ?_ ⟨hl, fun log' h' => ?_⟩
      · rw [Option.isSome_map, isSome_getElem?]
        omega
      · cases hb.symm.trans h'
        omega
    · exact iff_of_false Bool.false_ne_true fun h => h1 (h.newline log hb).1
  · rw [beforeNextline, formatHead_none hl]
    exact iff_of_false Bool.false_ne_true fun h => hl h.level

theorem levelInTable_iff (info : Option LogInfo) (logbody : Option CStr) :
    LevelInTable info logbody ↔ ∀ i, info = some i → logbody.isSome → 0 ≤ i.level ∧ i.level < 6 := by
  unfold LevelInTable levelIndex
  refine forall₂_congr fun i _ => ?_
  split_ifs with hb
  · exact ⟨fun h _ => h, fun h => h hb⟩
  · exact iff_of_true (by decide) fun h => absurd h hb

/-- **When the formatter reads in range**: with a body, the level has a name; and something moves the
cursor. -/
theorem reads_in_range_iff (lc : Libc) (info : Option LogInfo) (logbody : Option CStr) :
    ReadsInRange lc info logbody ↔
      (∀ i, info = some i → logbody.isSome → 0 ≤ i.level ∧ i.level < 6) ∧ MovesCursor lc info logbody := by
  rw [← levelInTable_iff]
  constructor
  · intro h
    obtain ⟨log, hb, -, -, hiff⟩ := one_le_pos_beforeNextline lc h.level
    exact ⟨h.level, hiff.mp (h.newline log hb).1⟩
  · rintro ⟨hl, hm⟩
    obtain ⟨log, hb, hwf, hcap, hiff⟩ := one_le_pos_beforeNextline lc hl
    refine ⟨hl, fun log' h' => ⟨?_, ?_⟩⟩ <;> cases hb.symm.trans h'
    · exact hiff.mpr hm
    · have hpos := hwf.posLe
      have hle := hwf.le
      omega

/-- The empty body. -/
def bodyEmpty : CStr := ⟨[], List.not_mem_nil⟩

/-- An information with `LOG_LEVEL_NONE`. -/
def noneInfo : LogInfo := ⟨LOG_LEVEL_NONE, none, ⟨0, 0⟩⟩

/-- **`LOG_LEVEL_NONE` is behind the table, and an empty body without information leaves the cursor at the
start.** -/
theorem reads_out_of_range :
    ¬ ReadsInRange utc (some noneInfo) (some bodyX) ∧ ¬ ReadsInRange utc none (some bodyEmpty) := by
  constructor
  · intro h
    exact absurd (h.level noneInfo rfl).2 (by decide)
  · intro h
    obtain ⟨log, hb, -, -, hiff⟩ := one_le_pos_beforeNextline utc h.level
    exact hiff.mp (h.newline log hb).1 rfl

/-! ### What is stored

The stores of the formatter do not depend on whether the newline test stays in the buffer: with the byte that is
in front of the buffer as a parameter, the formatter is defined for every level that has a name. -/

/-- The byte in front of the cursor. -/
def byteBefore (front : Byte) (log : PtrBuffer) : Option Byte :=
  if 1 ≤ log.pos then log.parray[(log.pos - 1).toNat]? else some front

/-- `formatNextline` where `front` is the byte in front of the buffer. -/
def formatNextlineFrom (front : Byte) (log : PtrBuffer) : Option PtrBuffer :=
  (byteBefore front log).map fun c => if c ≠ 0x0A then log.write [0x0A] else log

/-- `logFormater` where `front` is the byte in front of the buffer. -/
def logFormaterFrom (front : Byte) (lc : Libc) (st : FormatStatics) (info : Option LogInfo)
    (logbody : Option CStr) (log : PtrBuffer) : Option (FormatStatics × PtrBuffer) :=
  if log.maxLength ≤ sizeT (log.length + 5 * 1024) then formatNoRoom st logbody log
  else do
    let log ← formatHead lc info logbody log
    let log ← formatBody logbody log
    let log ← formatNextlineFrom front log
    some (st, log)

theorem formatNextlineFrom_of_some {log log' : PtrBuffer} (h : formatNextline log = some log') (front : Byte) :
    formatNextlineFrom front log = some log' := by
  unfold formatNextline at h
  split_ifs at h with h1
  rw [formatNextlineFrom, byteBefore, if_pos h1]
  exact h

/-- **Where the formatter is defined, the byte in front of the buffer does not matter.** -/
theorem logFormaterFrom_of_some {lc : Libc} {st : FormatStatics} {info : Option LogInfo} {logbody : Option CStr}
    {log : PtrBuffer} {r : FormatStatics × PtrBuffer} (h : logFormater lc st info logbody log = some r)
    (front : Byte) : logFormaterFrom front lc st info logbody log = some r := by
  unfold logFormater at h
  unfold logFormaterFrom
  split_ifs at h ⊢
  · exact h
  obtain ⟨log₁, h₁, h⟩ := Option.bind_eq_some_iff.mp h
  obtain ⟨log₂, h₂, h⟩ := Option.bind_eq_some_iff.mp h
  obtain ⟨log₃, h₃, h⟩ := Option.bind_eq_some_iff.mp h
  rw [h₁, Option.bind_eq_bind, Option.bind_some, h₂, Option.bind_some, formatNextlineFrom_of_some h₃ front]
  exact h

/-- The stores of the head. -/
def headStores (lc : Libc) (info : Option LogInfo) (logbody : Option CStr) (log : PtrBuffer) :
    List (ℤ × Byte) :=
  match info with
  | none => []
  | some info =>
    match levelStrings (levelIndex info logbody) with
    | some level =>
      storesAt log.pos (snprintf 1024 (headText level (tempTime lc info.timeval) (tagText info))).1
    | none => []

/-- The stores of the newline test. -/
def nextlineStores (front : Byte) (log : PtrBuffer) : List (ℤ × Byte) :=
  if byteBefore front log = some 0x0A then [] else log.writeStores [0x0A] log.pos

/-- The stores of the formatter behind the head, in program order. -/
def tailStores (front : Byte) (logbody : Option CStr) (log : PtrBuffer) : List (ℤ × Byte) :=
  log.writeStores (bodyData logbody log) log.pos ++ nextlineStores front (log.write (bodyData logbody log))

/-- **The stores of the formatter**, in program order. -/
def formatterStores (front : Byte) (lc : Libc) (info : Option LogInfo) (logbody : Option CStr)
    (log : PtrBuffer) : List (ℤ × Byte) :=
  headStores lc info logbody log ++ (formatHead lc info logbody log).elim [] (tailStores front logbody)

/-- A 16 KiB log with the cursor at the end of the content. -/
structure Log16 (log : PtrBuffer) : Prop extends log.AtEnd where
  cap : log.maxLength = 16384

/-- A write to such a log stores in it and leaves such a log. -/
theorem Log16.write {log : PtrBuffer} (h : Log16 log) {data : Bytes} (hd : data.length ≤ 0xFFFF) :
    Log16 (log.write data) ∧ ∀ s ∈ log.writeStores data log.pos, 0 ≤ s.1 ∧ s.1 < 16384 := by
  have hcap := h.cap
  have h4 : 4 ≤ log.maxLength := by omega
  have hle := h.le
  have hd32 : log.length + data.length < 2 ^ 32 := by omega
  refine ⟨⟨h.toAtEnd.write h4 hd32, (h.maxLength_write h4 h.pos hd32).trans hcap⟩, fun s hs => ?_⟩
  rw [h.pos] at hs
  have := h.sized.mem_writeStores (Nat.le_refl _) data h4 hs
  omega

theorem Log16.nextline {log : PtrBuffer} (h : Log16 log) (front : Byte) :
    ∃ log', formatNextlineFrom front log = some log' ∧ Log16 log' ∧
      log'.parray = storeAll log.parray (nextlineStores front log) ∧
      ∀ s ∈ nextlineStores front log, 0 ≤ s.1 ∧ s.1 < 16384 := by
  have hcap := h.cap
  have hle := h.le
  have hmem := h.mem
  have hpos := h.pos
  have hc : ∃ c, byteBefore front log = some c := by
    unfold byteBefore
    split_ifs
    · exact ⟨_, List.getElem?_eq_getElem (by omega)⟩
    · exact ⟨front, rfl⟩
  obtain ⟨c, hc⟩ := hc
  rw [formatNextlineFrom, nextlineStores, hc, Option.map_some]
  by_cases hnl : c = 0x0A
  · rw [if_neg (not_not.mpr hnl), if_pos (by rw [hnl])]
    exact ⟨log, rfl, h, rfl, fun s hs => absurd hs List.not_mem_nil⟩
  · have hw := h.write (show ([0x0A] : Bytes).length ≤ 0xFFFF by decide)
    rw [if_pos hnl, if_neg fun h => hnl (Option.some.inj h)]
    exact ⟨_, rfl, hw.1, PtrBuffer.parray_write _ _, hw.2⟩

theorem log16_formatHead {lc : Libc} {info : Option LogInfo} {logbody : Option CStr}
    (hl : LevelInTable info logbody)
    (ht : ∀ i level, info = some i → levelStrings (levelIndex i logbody) = some level →
      0 ≤ (snprintf 1024 (headText level (tempTime lc i.timeval) (tagText i))).2) :
    ∃ log, formatHead lc info logbody temp = some log ∧ Log16 log ∧
      log.parray = storeAll temp.parray (headStores lc info logbody temp) ∧
      ∀ s ∈ headStores lc info logbody temp, 0 ≤ s.1 ∧ s.1 < 16384 := by
  cases info with
  | none => exact ⟨temp, rfl, ⟨atEnd_temp, temp_maxLength⟩, rfl, fun s hs => absurd hs List.not_mem_nil⟩
  | some i =>
    obtain ⟨c, -, hc⟩ := levelStrings_of_lt (hl i rfl).1 (hl i rfl).2
    have hret := ht i [c] rfl hc
    rw [formatHead_eq, headStores, hc, Option.bind_some]
    dsimp only
    generalize headText [c] (tempTime lc i.timeval) (tagText i) = text at hret ⊢
    have hlt : text.length < 2 ^ 31 := by
      by_contra hlong
      rw [snprintf, if_neg hlong] at hret
      omega
    have hout : (snprintf 1024 text).1 = text.take 1023 ++ [0] := rfl
    have hle := length_head_le text
    refine ⟨headLog text, printAtPos_temp hlt, ⟨atEnd_headLog text, rfl⟩, ?_, fun s hs => ?_⟩
    · rw [hout, temp_pos]
      exact (storeAll_storesAt _ _ 0 (by rw [length_temp_parray]; omega)).symm
    · rw [hout, temp_pos] at hs
      have := mem_storesAt hs
      omega

theorem exists_writeOut {data output : Bytes} {n : ℕ} (h : data.length ≤ output.length) :
    ∃ out, LogBuffer.writeOut data output n = some out ∧ out.2.1.length = output.length := by
  unfold LogBuffer.writeOut
  split_ifs
  · exact ⟨_, rfl, rfl⟩
  · exact ⟨_, rfl, length_overwrite (by omega)⟩

/-- **The formatter stores in the buffer**: for every level with a name and every head of which `snprintf` knows
the length, the log ends with the cursor behind its content, all stores are below 16 KiB, and the copy to a
16 KiB buffer fits. -/
theorem formatter_in_bounds (front : Byte) (lc : Libc) (st : FormatStatics) (info : Option LogInfo)
    (logbody : Option CStr) (hl : ∀ i, info = some i → 0 ≤ i.level ∧ i.level ≤ 5)
    (ht : ∀ i level, info = some i → levelStrings (levelIndex i logbody) = some level →
      0 ≤ (snprintf 1024 (headText level (tempTime lc i.timeval) (tagText i))).2) :
    ∃ log, logFormaterFrom front lc st info logbody temp = some (st, log) ∧
      (0 ≤ log.pos ∧ log.pos = log.length ∧ log.length ≤ 16384) ∧
      log.parray = storeAll temp.parray (formatterStores front lc info logbody temp) ∧
      (∀ s ∈ formatterStores front lc info logbody temp, 0 ≤ s.1 ∧ s.1 < 16384) ∧
      ∀ bufferCrypt : Bytes, bufferCrypt.length = 16384 →
        ∃ data out, readBlock log.parray log.length = some data ∧ data.length = log.length ∧
          LogBuffer.writeOut data bufferCrypt 16384 = some out ∧ out.2.1.length = 16384 := by
  have hl' : LevelInTable info logbody :=
    (levelInTable_iff info logbody).mpr fun i hi _ => by have := hl i hi; omega
  obtain ⟨log₁, h₁, h16₁, hp₁, hs₁⟩ := log16_formatHead hl' ht
  obtain ⟨h16₂, hs₂⟩ := h16₁.write (length_bodyData_le logbody log₁)
  obtain ⟨log, hn, h16, hp, hs⟩ := h16₂.nextline front
  have hst : formatterStores front lc info logbody temp =
      headStores lc info logbody temp ++ tailStores front logbody log₁ := by
    rw [formatterStores, h₁]; rfl
  have hform : logFormaterFrom front lc st info logbody temp = some (st, log) := by
    rw [logFormaterFrom, if_neg temp_room, h₁, Option.bind_eq_bind, Option.bind_some, formatBody_eq,
      Option.bind_some, hn]
    rfl
  have hcap := h16.cap
  have hle := h16.le
  have hmem := h16.mem
  refine ⟨log, hform, ⟨h16.nonneg, h16.pos, by omega⟩, ?_, fun s hs' => ?_, fun bufferCrypt hb => ?_⟩
  · rw [hst, storeAll_append, ← hp₁, tailStores, storeAll_append, ← PtrBuffer.parray_write, ← hp]
  · rw [hst, tailStores, List.mem_append, List.mem_append] at hs'
    rcases hs' with h | h | h
    · exact hs₁ s h
    · exact hs₂ s h
    · exact hs s h
  · have hlen : (log.parray.take log.length).length = log.length := by rw [List.length_take]; omega
    obtain ⟨out, ho, hol⟩ := exists_writeOut (show (log.parray.take log.length).length ≤ bufferCrypt.length by omega)
    exact ⟨_, out, readBlock_of_le (by omega), hlen, ho, by omega⟩

/-- A debug record `x` without tag and time, whatever is in front of the buffer. -/
theorem formatter_in_bounds_plain :
    ∃ log, logFormaterFrom 7 utc ⟨0, 0⟩ (some plainInfo) (some bodyX) temp = some (⟨0, 0⟩, log) ∧
      (0 ≤ log.pos ∧ log.pos = log.length ∧ log.length ≤ 16384) ∧
      log.parray = storeAll temp.parray (formatterStores 7 utc (some plainInfo) (some bodyX) temp) ∧
      (∀ s ∈ formatterStores 7 utc (some plainInfo) (some bodyX) temp, 0 ≤ s.1 ∧ s.1 < 16384) ∧
      ∀ bufferCrypt : Bytes, bufferCrypt.length = 16384 →
        ∃ data out, readBlock log.parray log.length = some data ∧ data.length = log.length ∧
          LogBuffer.writeOut data bufferCrypt 16384 = some out ∧ out.2.1.length = 16384 := by
  refine formatter_in_bounds 7 utc ⟨0, 0⟩ (some plainInfo) (some bodyX) ?_ ?_
  · intro i hi
    cases hi
    decide
  · intro i level hi hlev
    cases hi
    cases hlev
    decide

end MTAppenderFile.Loglib.Bounds
