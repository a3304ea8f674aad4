import GraphBufferPool.Config
import Mathlib

/-! # Files and the synchronous I/O backend

A file is its length and its bytes. `pread`, `pwrite` and `ftruncate` are the system calls; the
functions of `RWSysCall` are built from them as in `io_backend.h`, including the unsigned
comparison that decides whether a whole-page write is cut back to the recorded size.
-/

namespace Gbp

/-- The bytes of a buffer or of a memory frame, by offset. -/
abbrev Bytes := ℕ → UInt8

/-- `memcpy` of `n` bytes from `src + srcAt` to `dst + dstAt`. -/
def memcpy (dst : Bytes) (dstAt : ℕ) (src : Bytes) (srcAt n : ℕ) : Bytes :=
  fun i => if dstAt ≤ i ∧ i < dstAt + n then src (srcAt + (i - dstAt)) else dst i

/-- A file of the operating system. Positions past the end read as zero once the file grows. -/
structure DiskFile where
  length : ℕ
  byte : Bytes
  byte_past : ∀ i, length ≤ i → byte i = 0

namespace DiskFile

/-- `::pwrite` of `size` bytes of `data` at `offset`. -/
def pwrite (file : DiskFile) (data : Bytes) (size offset : ℕ) : DiskFile where
  length := if size = 0 then file.length else max file.length (offset + size)
  byte i := if offset ≤ i ∧ i < offset + size then data (i - offset) else file.byte i
  byte_past := by
    intro i past
    split_ifs at past with none
    · rw [if_neg (by omega)]
      exact file.byte_past i past
    · rw [if_neg (by omega)]
      exact file.byte_past i (by omega)

/-- `::ftruncate`. -/
def ftruncate (file : DiskFile) (length : ℕ) : DiskFile where
  length := length
  byte i := if i < length then file.byte i else 0
  byte_past := by
    intro i past
    rw [if_neg (by omega)]

/-- The number of bytes `::pread` transfers. -/
def preadCount (file : DiskFile) (size offset : ℕ) : ℕ := min size (file.length - offset)

/-- The buffer after `::pread`; the rest of it is untouched. -/
def pread (file : DiskFile) (data : Bytes) (size offset : ℕ) : Bytes :=
  fun i => if i < file.preadCount size offset then file.byte (offset + i) else data i

end DiskFile

namespace RWSysCall

/-- `RWSysCall::Write` of a buffer. `recorded` is `file_size_inBytes_`; the comparison is on
64-bit unsigned values. -/
def write (recorded : ℕ) (file : DiskFile) (offset : ℕ) (data : Bytes) (size : ℕ) : DiskFile :=
  let written := file.pwrite data size offset
  if (recorded + (2 ^ 64 - offset % 2 ^ 64)) % 2 ^ 64 < size then written.ftruncate recorded
  else written

/-- `RWSysCall::Read` into a buffer: a short read is filled up with zeros. -/
def read (file : DiskFile) (offset : ℕ) (data : Bytes) (size : ℕ) : Bytes :=
  fun i => if i < size then
      if i < file.preadCount size offset then file.pread data size offset i else 0
    else data i

/-- A page written below the recorded size of an exactly recorded file changes its in-file bytes
and nothing else. -/
theorem write_byte {recorded : ℕ} {file : DiskFile} (exact : file.length = recorded)
    {offset : ℕ} (small : recorded < 2 ^ 64) (inside : offset < recorded) (data : Bytes)
    (size i : ℕ) : (write recorded file offset data size).byte i =
      if offset ≤ i ∧ i < offset + size ∧ i < recorded then data (i - offset) else file.byte i := by
  have difference : (recorded + (2 ^ 64 - offset % 2 ^ 64)) % 2 ^ 64 = recorded - offset := by
    rw [Nat.mod_eq_of_lt (show offset < 2 ^ 64 by omega)]
    omega
  simp only [write, difference]
  split_ifs with cut within within
  · simp only [DiskFile.ftruncate, DiskFile.pwrite]
    rw [if_pos within.2.2, if_pos ⟨within.1, within.2.1⟩]
  · simp only [DiskFile.ftruncate, DiskFile.pwrite]
    split_ifs with below here
    · exact absurd ⟨here.1, here.2, below⟩ within
    · rfl
    · exact (file.byte_past i (by omega)).symm
  · simp only [DiskFile.pwrite]
    rw [if_pos ⟨within.1, within.2.1⟩]
  · simp only [DiskFile.pwrite]
    rw [if_neg (by omega)]

/-- A write to an exactly recorded file keeps its length exactly when it starts in the file or at its
end: behind it the unsigned difference wraps around. -/
theorem write_length_iff {recorded : ℕ} {file : DiskFile} (exact : file.length = recorded)
    {offset size : ℕ} (small : recorded < 2 ^ 64) (bound : offset + size ≤ 2 ^ 64) (positive : 0 < size)
    (data : Bytes) : (write recorded file offset data size).length = recorded ↔ offset ≤ recorded := by
  have offset_lt : offset % 2 ^ 64 = offset := Nat.mod_eq_of_lt (by omega)
  simp only [write, offset_lt]
  constructor
  · intro same
    by_contra past
    rw [if_neg (by omega)] at same
    simp only [DiskFile.pwrite, if_neg (Nat.pos_iff_ne_zero.mp positive)] at same
    omega
  · intro inside
    have difference : (recorded + (2 ^ 64 - offset)) % 2 ^ 64 = recorded - offset := by omega
    rw [difference]
    split_ifs with cut
    · rfl
    · simp only [DiskFile.pwrite, if_neg (Nat.pos_iff_ne_zero.mp positive)]
      omega

/-- A read delivers the bytes of its range: what lies past the end of the file reads as zero, and a
short read is filled up with zeros. -/
theorem read_byte (file : DiskFile) (offset : ℕ) (data : Bytes) {size i : ℕ} (inside : i < size) :
    read file offset data size i = file.byte (offset + i) := by
  simp only [read, DiskFile.pread, if_pos inside]
  by_cases transferred : i < file.preadCount size offset
  · simp only [if_pos transferred]
  · simp only [if_neg transferred]
    simp only [DiskFile.preadCount] at transferred
    exact (file.byte_past _ (by omega)).symm

/-- A write stores its data, leaves the other bytes alone, and may cut the file back to its recorded
size. -/
theorem write_byte_or (recorded : ℕ) (file : DiskFile) (offset : ℕ) (data : Bytes) (size i : ℕ) :
    (write recorded file offset data size).byte i =
        (if offset ≤ i ∧ i < offset + size then data (i - offset) else file.byte i) ∨
      recorded ≤ i ∧ (write recorded file offset data size).byte i = 0 := by
  by_cases cut : (recorded + (2 ^ 64 - offset % 2 ^ 64)) % 2 ^ 64 < size
  · simp only [write, if_pos cut, DiskFile.ftruncate]
    rcases Nat.lt_or_ge i recorded with below | past
    · rw [if_pos below]
      exact Or.inl rfl
    · exact Or.inr ⟨past, if_neg (Nat.not_lt.mpr past)⟩
  · simp only [write, if_neg cut]
    exact Or.inl rfl

end RWSysCall

end Gbp
