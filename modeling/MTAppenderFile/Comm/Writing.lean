import MTAppenderFile.Comm.Ptr

/-! # Positional writes

A positional `Write` of a `PtrBuffer` puts the end marker behind the bytes it has written, and asks only
whether the content as a whole leaves room for it. In front of the end of the content the marker is written
over content. The rest of the content is kept exactly if there is no room for the marker, or if what it
overwrites are its own bytes (`content_writeAt_iff`); a write that reaches the end of the content overwrites
nothing. -/

namespace MTAppenderFile.Comm.Ptr.PtrBuffer

open MTAppenderFile.Lib.Block
open MTAppenderFile.Comm.CTypes

/-- The content bytes behind those of a write, at most four of them. -/
def following (b : PtrBuffer) (data : Bytes) (p : ℕ) : Bytes :=
  (b.content.drop (p + data.length)).take 4

section WriteAt

variable {b : PtrBuffer} (h : b.Sized) (hm : b.parray.length = b.maxLength) (h4 : 4 ≤ b.maxLength)
  {p : ℕ} (hp : p ≤ b.length) (data : Bytes)

include h hm h4 hp

theorem content_writeAt :
    (b.writeAt data p).content =
      (overwrite b.parray p (b.stored data p)).take (max b.length (p + b.room data p)) := by
  rw [h.writeAt_eq hp data hm h4, content]

/-- Without room for the marker only the data is written. -/
theorem content_writeAt_of_full (hg : b.maxLength ≤ max b.length (p + b.room data p) + 4) :
    (b.writeAt data p).content = overwrite b.content p (data.take (b.room data p)) := by
  have hle := h.le
  have hfit := h.add_room_le hp data
  have hd : (data.take (b.room data p)).length = b.room data p :=
    List.length_take_of_le (b.room_le data p)
  have hst : b.stored data p = data.take (b.room data p) ++ [] := by
    rw [stored, if_neg (by omega)]
  rw [content_writeAt h hm h4 hp data, hst, content]
  have := (take_overwrite_append_eq_iff (m := b.parray) (l := data.take (b.room data p)) (r := [])
    hp (by rw [hd, hm]; simpa using hfit)).mpr (by simp)
  rwa [hd] at this

theorem content_writeAt_iff_of_room (hg : max b.length (p + b.room data p) + 4 < b.maxLength) :
    (b.writeAt data p).content = overwrite b.content p (data.take (b.room data p)) ↔
      b.following data p <+: marker := by
  have hroom : b.room data p = data.length := by
    have := Nat.le_max_right b.length (p + b.room data p)
    unfold room at *; omega
  have hd : (data.take (b.room data p)).length = b.room data p :=
    List.length_take_of_le (b.room_le data p)
  have hst : b.stored data p = data.take (b.room data p) ++ marker := by
    rw [stored, if_pos hg]
  have hfit : p + (data.take (b.room data p)).length + marker.length ≤ b.parray.length := by
    have := Nat.le_max_right b.length (p + b.room data p)
    rw [hd, hm, length_marker]; omega
  have hiff := take_overwrite_append_eq_iff (n := b.length) hp hfit
  rw [hd, length_marker] at hiff
  rw [content_writeAt h hm h4 hp data, hst, following, ← hroom]
  exact hiff

/-- **What a positional write keeps.** The content after it is the old content with the data that fits in
place of the bytes at `p`, and the cursor stays, exactly if the content ends less than five bytes below the
capacity, or the up to four content bytes behind the data are those of the marker. -/
theorem content_writeAt_iff :
    ((b.writeAt data p).content =
        overwrite b.content p (data.take (min data.length (b.maxLength - p))) ∧
      (b.writeAt data p).pos = b.pos) ↔
    b.maxLength ≤ b.length + 4 ∨ b.following data p <+: marker := by
  have hle := h.le
  have hpos : (b.writeAt data p).pos = b.pos := rfl
  rw [and_iff_left hpos]
  change (b.writeAt data p).content = overwrite b.content p (data.take (b.room data p)) ↔ _
  by_cases hg : max b.length (p + b.room data p) + 4 < b.maxLength
  · have := Nat.le_max_left b.length (p + b.room data p)
    rw [content_writeAt_iff_of_room h hm h4 hp data hg]
    constructor
    · exact .inr
    · rintro (hf | hb)
      · omega
      · exact hb
  · -- no marker: either the content is long, or the write goes past its end
    refine iff_of_true (content_writeAt_of_full h hm h4 hp data (by omega)) ?_
    by_cases hf : b.maxLength ≤ b.length + 4
    · exact .inl hf
    · have hend : b.content.length ≤ p + data.length := by
        have hc : b.content.length ≤ b.length := List.length_take_le _ _
        have := b.room_le data p
        omega
      rw [following, List.drop_eq_nil_of_le hend]
      exact .inr List.nil_prefix

end WriteAt

/-- Eight bytes of content with room for eight more. -/
def letters : PtrBuffer := ofPtr (ascii "abcdefgh" ++ List.replicate 8 0) 8 16

/-- A write at the end of the content. -/
theorem content_writeAt_iff_letters :
    letters.Sized ∧ ((letters.writeAt (ascii "X") 8).content =
        overwrite letters.content 8 ((ascii "X").take (min 1 (16 - 8))) ∧
      (letters.writeAt (ascii "X") 8).pos = letters.pos) := by
  have h : letters.Sized := ⟨by decide, by decide⟩
  exact ⟨h, (content_writeAt_iff h (by decide) (by decide) (p := 8) (by decide) (ascii "X")).mpr
    (.inr (by decide))⟩

/-- **A write in the middle destroys content**: one byte at `2` overwrites the four bytes behind it. -/
theorem writeAt_destroys :
    letters.pos ≤ letters.length ∧ letters.length ≤ letters.maxLength ∧ 4 ≤ letters.maxLength ∧
      letters.content = ascii "abcdefgh" ∧
      (letters.writeAt (ascii "X") 2).content = ascii "abX" ++ marker ++ ascii "h" ∧
      (letters.writeAt (ascii "X") 2).content ≠
        overwrite letters.content 2 ((ascii "X").take (min 1 (16 - 2))) := by
  decide

end MTAppenderFile.Comm.Ptr.PtrBuffer
