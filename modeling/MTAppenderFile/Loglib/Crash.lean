import MTAppenderFile.Loglib.Mapping

/-! # A crash in the middle of an append

The mapping survives a crash at any instant, so a crash during an append leaves the memory after a
prefix of the stores of `PtrBuffer::Write` (`crashed`). A reader should then get the committed records
and a prefix of the new one, and no byte that this append has not stored (`Recovers`).

The first store already overwrites the first zero of the old marker. What the reader gets is exact
(`reader_crashed`): the committed records, the stored bytes of the record, and then everything up to
the next three zeros. It recovers exactly when these stand directly behind the stored bytes
(`recovers_iff`), and after one store they never do (`not_recovers_one`). -/

namespace MTAppenderFile.Loglib.Crash

open MTAppenderFile.Lib.Block
open MTAppenderFile.Lib.Delim
open MTAppenderFile.Comm.CTypes
open MTAppenderFile.Comm.Ptr
open MTAppenderFile.Loglib.Base
open MTAppenderFile.Loglib.Buffer
open MTAppenderFile.Loglib.Files
open MTAppenderFile.Loglib.Formatter
open MTAppenderFile.Loglib.Appender
open MTAppenderFile.Loglib.Session
open MTAppenderFile.Loglib.Lifecycle
open MTAppenderFile.Loglib.Exactness
open MTAppenderFile.Loglib.Mapping

/-- The memory after the first `j` stores of a cursor write of `data`. -/
def crashed (b : PtrBuffer) (data : Bytes) (j : ℕ) : Bytes :=
  storeAll b.parray ((b.writeStores data b.pos).take j)

/-- The reader gets the committed records and a prefix of the new one, and only bytes that were
committed or stored. -/
def Recovers (committed data : Bytes) (j : ℕ) (m : Bytes) : Prop :=
  (∃ x, x <+: data ∧ reader m = committed ++ x) ∧ (reader m).length ≤ committed.length + j

/-- A buffer from which the reader gets exactly the content, with the end marker behind it. -/
structure Committed (b : PtrBuffer) : Prop extends b.AtEnd where
  four : 4 ≤ b.maxLength
  reads : reader b.parray = b.content
  marked : marker <+: b.parray.drop b.length

theorem committed_of_reachable {lc : Libc} {p : Proc} (hp : Reachable lc p) {lb : LogBuffer}
    (hb : p.mlog.sgLogBuff = some lb) (hr : reader lb.buff.parray = lb.content)
    (hm : marker <+: lb.buff.parray.drop lb.buff.length) : Committed lb.buff := by
  rcases hp.inv with hc | ⟨lb', h⟩
  · rw [hc.buff] at hb; cases hb
  · cases h.buff.symm.trans hb
    exact ⟨h.good.toAtEnd, h.good.four, hr, hm⟩

/-- The end marker that an append of `data` stores, if it stores one. -/
def newMarker (b : PtrBuffer) (data : Bytes) : Bytes :=
  if b.length + data.length + 4 < b.maxLength then marker else []

/-- What stands behind the stored bytes of the record after `j` stores: the part of the new marker that
is stored, and the old memory. -/
def behind (b : PtrBuffer) (data : Bytes) (j : ℕ) : Bytes :=
  (newMarker b data).take (j - data.length) ++
    b.parray.drop (b.length + min j data.length + ((newMarker b data).take (j - data.length)).length)

/-- No end of content is found inside the committed records, whatever is written behind them. -/
theorem not_start_content {b : PtrBuffer} (h : Committed b) (x : Bytes) {i : ℕ}
    (hi : i < b.content.length) :
    ¬ zeros3 <+: (b.content ++ x).drop i := by
  obtain ⟨y, hy⟩ := h.marked
  have hp : b.parray = b.content ++ (zeros3 ++ (0x0D :: y)) := by
    rw [← List.take_append_drop b.length b.parray, ← hy, marker_eq, List.append_assoc]; rfl
  have hr : ¬ zeros3 <+: b.parray.drop i :=
    not_prefix_of_lt_before (by rw [← reader, h.reads]; exact hi)
  rw [hp] at hr
  exact not_start_of_marker hi hr

section Committed

variable {b : PtrBuffer} (h : Committed b) {data : Bytes} (hf : b.length + data.length ≤ b.maxLength)
  (j : ℕ)

include h hf

/-- **The memory after `j` stores**: the committed records, the stored bytes, and what is behind. -/
theorem crashed_eq :
    crashed b data j = b.content ++ (data.take (min j data.length) ++ behind b data j) := by
  have hmax := h.maxLt
  have hroom : b.room data b.length = data.length := by unfold PtrBuffer.room; omega
  have hst : b.stored data b.length = data ++ newMarker b data := by
    rw [PtrBuffer.stored, hroom, List.take_length, Nat.max_eq_right (Nat.le_add_right _ _)]; rfl
  have hfit := h.sized.add_stored_le (Nat.le_refl b.length) data
  rw [← h.mem] at hfit
  have htake : (data ++ newMarker b data).take j =
      data.take (min j data.length) ++ (newMarker b data).take (j - data.length) := by
    rw [List.take_append, ← List.take_eq_take_min]
  have hlen : (data.take (min j data.length)).length = min j data.length :=
    List.length_take_of_le (Nat.min_le_right _ _)
  have hle : ((b.stored data b.length).take j).length ≤ (b.stored data b.length).length :=
    List.length_take_le' _ _
  rw [crashed, h.pos, h.sized.writeStores_eq (Nat.le_refl b.length) data h.four, take_storesAt,
    storeAll_storesAt _ _ _ (by omega), hst, htake, overwrite, behind]
  simp only [List.length_append, hlen, List.append_assoc, Nat.add_assoc]
  rfl

/-- **What the reader gets** after `j` stores of a record without NUL bytes. -/
theorem reader_crashed (hnul : (0 : Byte) ∉ data) :
    reader (crashed b data j) =
      b.content ++ (data.take (min j data.length) ++ reader (behind b data j)) := by
  have hnul' : (0 : Byte) ∉ data.take (min j data.length) := fun h0 => hnul (List.mem_of_mem_take h0)
  have hdata : ∀ i < (data.take (min j data.length)).length,
      ¬ zeros3 <+: (data.take (min j data.length) ++ behind b data j).drop i :=
    fun i hi => not_start_of_notMem hnul' hi
  rw [crashed_eq h hf, reader, before_append fun i hi => not_start_content h _ hi,
    before_append hdata]
  rfl

/-- The reader recovers exactly when it stops directly behind the stored bytes. -/
theorem recovers_iff_stops (hnul : (0 : Byte) ∉ data) :
    Recovers b.content data j (crashed b data j) ↔ reader (behind b data j) = [] := by
  have hlen : (data.take (min j data.length)).length = min j data.length :=
    List.length_take_of_le (Nat.min_le_right _ _)
  rw [Recovers, reader_crashed h hf j hnul]
  constructor
  · rintro ⟨⟨x, hx, he⟩, hle⟩
    rw [List.append_cancel_left_eq] at he
    have hxl := hx.length_le
    rw [← he, List.length_append, hlen] at hxl
    rw [List.length_append, List.length_append, hlen] at hle
    exact List.eq_nil_of_length_eq_zero (by omega)
  · intro hr
    rw [hr, List.append_nil]
    exact ⟨⟨_, List.take_prefix _ _, rfl⟩, by rw [List.length_append, hlen]; omega⟩

end Committed

/-- **The three bytes where the reader should stop**, after `k` stored bytes of the record: zeros of
the new marker that are stored already, or zeros of the old memory; or the end of the memory. -/
def ZerosBehind (b : PtrBuffer) (data : Bytes) (j : ℕ) : Prop :=
  b.length + min j data.length = b.maxLength ∨
    ∀ i < 3, (b.length + data.length + 4 < b.maxLength ∧ min j data.length + i < j) ∨
      b.parray[b.length + min j data.length + i]? = some 0

theorem reader_behind_iff {b : PtrBuffer} (h : Committed b) {data : Bytes}
    (hf : b.length + data.length ≤ b.maxLength) (j : ℕ) :
    reader (behind b data j) = [] ↔ ZerosBehind b data j := by
  have hmem := h.mem
  have hm : ((newMarker b data).take (j - data.length)).length =
      if b.length + data.length + 4 < b.maxLength then min (j - data.length) 4 else 0 := by
    rw [newMarker, List.length_take]; split_ifs <;> simp
  have hget : ∀ i < 3, (behind b data j)[i]? = some 0 ↔
      (b.length + data.length + 4 < b.maxLength ∧ min j data.length + i < j) ∨
        b.parray[b.length + min j data.length + i]? = some 0 := by
    intro i hi
    by_cases hs : i < ((newMarker b data).take (j - data.length)).length
    · have hg : b.length + data.length + 4 < b.maxLength := by
        by_contra hg
        rw [hm, if_neg hg] at hs
        omega
      rw [hm, if_pos hg] at hs
      rw [behind, List.getElem?_append_left (by rw [hm, if_pos hg]; exact hs),
        List.getElem?_take_of_lt (by omega), newMarker, if_pos hg]
      have hz : marker[i]? = some 0 := by
        obtain rfl | rfl | rfl : i = 0 ∨ i = 1 ∨ i = 2 := by omega
        · rfl
        · rfl
        · rfl
      exact ⟨fun _ => .inl ⟨hg, by omega⟩, fun _ => hz⟩
    · rw [behind, List.getElem?_append_right (by omega), List.getElem?_drop]
      rw [show b.length + min j data.length + ((newMarker b data).take (j - data.length)).length +
        (i - ((newMarker b data).take (j - data.length)).length) =
          b.length + min j data.length + i by omega]
      refine ⟨.inr, fun hor => hor.resolve_left fun ⟨hg, hlt⟩ => hs ?_⟩
      rw [hm, if_pos hg]; omega
  have hnil : behind b data j = [] ↔ b.length + min j data.length = b.maxLength := by
    rw [← List.length_eq_zero_iff, behind, List.length_append, List.length_drop, hm]
    split_ifs <;> omega
  rw [reader, before_eq_nil_iff, hnil, zeros3, replicate_prefix_iff, ZerosBehind]
  constructor
  · rintro (h0 | h3)
    · exact .inl h0
    · exact .inr fun i hi => (hget i hi).mp (h3 i hi)
  · rintro (h0 | h3)
    · exact .inl h0
    · exact .inr fun i hi => (hget i hi).mpr (h3 i hi)

/-- **After one store the reader recovers no record**: it runs over what is left of the old marker. -/
theorem not_recovers_one {b : PtrBuffer} (h : Committed b) {data : Bytes} (hne : data ≠ [])
    (hnul : (0 : Byte) ∉ data) (hf : b.length + data.length ≤ b.maxLength) :
    ¬ Recovers b.content data 1 (crashed b data 1) := by
  have hpos := List.length_pos_iff.mpr hne
  have hmem := h.mem
  obtain ⟨y, hy⟩ := h.marked
  have hlen := congrArg List.length hy
  simp only [List.length_append, length_marker, List.length_drop] at hlen
  have hcr : b.parray[b.length + 3]? = some 0x0D := by
    rw [← List.getElem?_drop, ← hy]; rfl
  rw [recovers_iff_stops h hf 1 hnul, reader_behind_iff h hf 1, ZerosBehind,
    show min 1 data.length = 1 by omega]
  rintro (h0 | h3)
  · omega
  · rcases h3 2 (by decide) with ⟨-, hlt⟩ | hz
    · omega
    · exact absurd (hcr.symm.trans hz) (by decide)

/-- A buffer after one append. -/
theorem exists_committed :
    ∃ p lb, Reachable utc p ∧ p.mlog.sgLogBuff = some lb ∧ lb.buff.length = 2 ∧
      lb.buff.maxLength = 150 * 1024 ∧ reader lb.buff.parray = lb.content ∧
      marker <+: lb.buff.parray.drop lb.buff.length := by
  obtain ⟨p, hp, -, -⟩ := fresh_open utc ⟨ascii "d", by decide⟩ ⟨ascii "n", by decide⟩
  obtain ⟨lb, h, h0⟩ := hp.session
  have hl0 := h.good.content_eq_nil_iff.mp h0
  have hrec : formatRecord textA.bytes = [0x61, 0x0A] := by decide
  obtain ⟨p', hs, he, hc⟩ := append_effect h utc .ok textA (by decide) (by omega)
  rw [hrec] at he hc
  have hpar := parray_append h.good [0x61, 0x0A] (by simp) (by rw [h.cap, hl0]; decide)
  rw [h0, List.nil_append] at hc hpar
  have hl : (lb.write [0x61, 0x0A]).2.buff.length = 2 := by
    rw [← he.live.good.length_content]; exact congrArg List.length hc
  refine ⟨p', _, ?_, he.live.buff, hl, he.live.cap, ?_, ?_⟩
  · obtain ⟨share, files, statics, hr⟩ := hp.reachable
    exact ⟨share, files, statics, hr.tail trivial hs⟩
  · rw [hpar, hc, reader, (firstAt_content (c := [0x61, 0x0A]) _ (by decide)).before_eq (by simp),
      List.take_left]
  · rw [hpar, hl]
    exact List.prefix_append _ _

/-- **A crash in the middle of an append.** In every reachable state whose buffer the reader reads
rightly, for every next record without NUL bytes that fits and every prefix of the stores of `Write`:
the reader recovers the committed records and a prefix of the new one, and no other byte, if and only
if zeros stand directly behind the stored bytes. -/
theorem recovers_iff {lc : Libc} {p : Proc} (hp : Reachable lc p) {lb : LogBuffer}
    (hb : p.mlog.sgLogBuff = some lb) (hr : reader lb.buff.parray = lb.content)
    (hm : marker <+: lb.buff.parray.drop lb.buff.length) {data : Bytes} (hnul : (0 : Byte) ∉ data)
    (hf : lb.buff.length + data.length ≤ lb.buff.maxLength) (j : ℕ) :
    Recovers lb.content data j (crashed lb.buff data j) ↔ ZerosBehind lb.buff data j := by
  have h := committed_of_reachable hp hb hr hm
  rw [recovers_iff_stops h hf j hnul, reader_behind_iff h hf j]

theorem recovers_iff_whole_marker :
    ∃ p lb, Reachable utc p ∧ p.mlog.sgLogBuff = some lb ∧ 0 < lb.buff.length ∧
      Recovers lb.content (ascii "b\n") 5 (crashed lb.buff (ascii "b\n") 5) := by
  obtain ⟨p, lb, hp, hb, hl, hcap, hr, hm⟩ := exists_committed
  have hlen : (ascii "b\n").length = 2 := rfl
  refine ⟨p, lb, hp, hb, by omega, (recovers_iff hp hb hr hm (show (0 : Byte) ∉ ascii "b\n" by decide)
    (by rw [hl, hlen, hcap]; decide) 5).mpr (.inr fun i hi => .inl ⟨?_, ?_⟩)⟩
  · rw [hl, hlen, hcap]; decide
  · rw [hlen]; omega

/-- After the first store of the record `"b\n"` the reader runs over the rest of the old marker. -/
theorem not_recovers_after_one_store :
    ∃ p lb, Reachable utc p ∧ p.mlog.sgLogBuff = some lb ∧ 0 < lb.buff.length ∧
      reader lb.buff.parray = lb.content ∧ marker <+: lb.buff.parray.drop lb.buff.length ∧
      lb.buff.length + (ascii "b\n").length + 4 < lb.buff.maxLength ∧
      ¬ Recovers lb.content (ascii "b\n") 1 (crashed lb.buff (ascii "b\n") 1) := by
  obtain ⟨p, lb, hp, hb, hl, hcap, hr, hm⟩ := exists_committed
  have hlen : (ascii "b\n").length = 2 := rfl
  refine ⟨p, lb, hp, hb, by omega, hr, hm, by rw [hl, hlen, hcap]; decide, ?_⟩
  exact not_recovers_one (committed_of_reachable hp hb hr hm) (by decide) (by decide)
    (by rw [hl, hlen, hcap]; decide)

end MTAppenderFile.Loglib.Crash
