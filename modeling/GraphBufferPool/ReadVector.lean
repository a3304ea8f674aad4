import GraphBufferPool.Disk
import GraphBufferPool.Lib.Scatter

/-! # The vectored read

`RWSysCall::Read` into an array of buffers calls `preadv` once for every 512 of them, and passes each
call the same offset. So it reads consecutive bytes only into the first 512 buffers.
-/

namespace Gbp

open Scatter

/-- `iovec`: a buffer and its length. -/
structure IoVec where
  base : Bytes
  len : ℕ

/-- `::preadv`: the buffers after it, filled in order with the bytes of the file from `offset`. -/
def DiskFile.preadv (file : DiskFile) (vecs : List IoVec) (offset : ℕ) : List Bytes :=
  scatter IoVec.len (fun vec start => file.pread vec.base vec.len start) vecs offset

namespace RWSysCall

/-- `iovec_max`. -/
abbrev iovecMax : ℕ := 512

/-- The loop of `Read` over the buffers behind the first `iovec_max`. -/
def readRest (file : DiskFile) (offset : ℕ) (vecs : List IoVec) : List Bytes :=
  if _more : vecs.length > 0 then
    let sizeCur := min vecs.length iovecMax
    file.preadv (vecs.take sizeCur) offset ++ readRest file offset (vecs.drop sizeCur)
  else []
termination_by vecs.length
decreasing_by
  rw [List.length_drop, iovecMax]
  omega

/-- `RWSysCall::Read` of an array of buffers. -/
def readVector (file : DiskFile) (offset : ℕ) (vecs : List IoVec) : List Bytes :=
  let first := file.preadv (vecs.take (min vecs.length iovecMax)) offset
  if vecs.length > iovecMax then first ++ readRest file offset (vecs.drop iovecMax) else first

/-- `RWSysCall::Read` of each buffer, at `offset` and the lengths of the buffers before it. -/
def readEach (file : DiskFile) (offset : ℕ) (vecs : List IoVec) : List Bytes :=
  scatter IoVec.len (fun vec start => read file start vec.base vec.len) vecs offset

/-- The length of the file that the buffers take up. -/
abbrev span (vecs : List IoVec) : ℕ := extent IoVec.len vecs

/-- Behind the first `iovec_max` buffers, the part of the file for every `iovec_max` buffers is what
there is at the offset of the first one. -/
def Repeats (file : DiskFile) (offset : ℕ) (vecs : List IoVec) : Prop :=
  ∀ round, ∀ j < span ((vecs.drop (round * iovecMax)).take iovecMax),
    file.byte (offset + span (vecs.take (round * iovecMax)) + j) = file.byte (offset + j)

variable {file : DiskFile} {offset : ℕ} {vecs : List IoVec}

theorem span_nil : span [] = 0 := rfl

/-- A read within the file needs no zeros. -/
theorem pread_eq_read (vec : IoVec) (start : ℕ) (inside : start + vec.len ≤ file.length) :
    file.pread vec.base vec.len start = read file start vec.base vec.len := by
  have all : file.preadCount vec.len start = vec.len := min_eq_left (by omega)
  funext i
  simp only [read, DiskFile.pread, all]
  split_ifs <;> rfl

theorem preadv_eq_readEach (inside : offset + span vecs ≤ file.length) :
    file.preadv vecs offset = readEach file offset vecs := scatter_congr pread_eq_read vecs offset inside

/-- Two reads into a buffer agree when the file has the same bytes at both offsets. -/
theorem read_eq_iff (vec : IoVec) (start other : ℕ) :
    read file start vec.base vec.len = read file other vec.base vec.len ↔
      ∀ j < vec.len, file.byte (start + j) = file.byte (other + j) := by
  constructor
  · intro same j inside
    rw [← read_byte file start vec.base inside, same, read_byte file other vec.base inside]
  · intro same
    funext j
    by_cases inside : j < vec.len
    · rw [read_byte file start vec.base inside, read_byte file other vec.base inside, same j inside]
    · simp only [read, if_neg inside]

theorem readEach_take_drop (count : ℕ) : readEach file offset vecs =
    readEach file offset (vecs.take count) ++ readEach file (offset + span (vecs.take count)) (vecs.drop count) := by
  rw [readEach, readEach, readEach, ← scatter_append, List.take_append_drop]

theorem readRest_nil : readRest file offset [] = [] := by
  rw [readRest]
  exact dif_neg (Nat.lt_irrefl 0)

/-- One call of `preadv`, and the loop behind it. -/
theorem readRest_round (vecs : List IoVec) : readRest file offset vecs =
    file.preadv (vecs.take iovecMax) offset ++ readRest file offset (vecs.drop iovecMax) := by
  rw [readRest]
  split_ifs with more
  · dsimp only
    rw [min_comm, ← List.take_eq_take_min, ← List.drop_eq_drop_min]
  · obtain rfl : vecs = [] := List.length_eq_zero_iff.mp (by omega)
    rw [List.take_nil, List.drop_nil, readRest_nil]
    rfl

/-- The call before the loop is the first of its rounds. -/
theorem readVector_eq_readRest (vecs : List IoVec) : readVector file offset vecs = readRest file offset vecs := by
  rw [readRest_round, readVector, min_comm, ← List.take_eq_take_min]
  split_ifs with more
  · rfl
  · rw [List.drop_eq_nil_of_le (Nat.not_lt.mp more), readRest_nil, List.append_nil]

/-- A later round of all the buffers is a round of the buffers behind the first ones. -/
theorem round_succ (vecs : List IoVec) (round : ℕ) :
    vecs.drop ((round + 1) * iovecMax) = (vecs.drop iovecMax).drop (round * iovecMax) ∧
      span (vecs.take ((round + 1) * iovecMax)) =
        span (vecs.take iovecMax) + span ((vecs.drop iovecMax).take (round * iovecMax)) := by
  rw [Nat.succ_mul, Nat.add_comm (round * iovecMax), List.drop_drop, List.take_add, span, extent_append]
  exact ⟨rfl, rfl⟩

/-- The rounds of the loop, each from `offset`, against the reads of each buffer from a position behind it. -/
theorem readRest_eq_iff {start : ℕ} (behind : offset ≤ start) (inside : start + span vecs ≤ file.length) :
    readRest file offset vecs = readEach file start vecs ↔
      ∀ round, ∀ j < span ((vecs.drop (round * iovecMax)).take iovecMax),
        file.byte (start + span (vecs.take (round * iovecMax)) + j) = file.byte (offset + j) := by
  -- on the number of buffers; a round takes the first of them off and moves `start` behind them
  induction counted : vecs.length using Nat.strong_induction_on generalizing vecs start with
  | _ count ih =>
    by_cases none : vecs = []
    · subst none
      rw [readRest_nil]
      refine iff_of_true rfl fun round j impossible => ?_
      rw [List.drop_nil, List.take_nil] at impossible
      exact absurd impossible (Nat.not_lt_zero j)
    have some : 0 < vecs.length := List.length_pos_iff.mpr none
    have split : span (vecs.take iovecMax) + span (vecs.drop iovecMax) = span vecs := by
      rw [span, span, ← extent_append, List.take_append_drop]
    have fewer : (vecs.drop iovecMax).length < count := by
      rw [List.length_drop, iovecMax]
      omega
    have rest := @ih _ fewer (vecs.drop iovecMax) (start + span (vecs.take iovecMax)) (by omega) (by omega) rfl
    have first : file.preadv (vecs.take iovecMax) offset = readEach file offset (vecs.take iovecMax) :=
      preadv_eq_readEach (by omega)
    have here := scatter_eq_iff (@read_eq_iff file) (vecs.take iovecMax) offset start
    have lengths : (readEach file offset (vecs.take iovecMax)).length =
        (readEach file start (vecs.take iovecMax)).length := by
      rw [readEach, readEach, length_scatter, length_scatter]
    rw [readRest_round, readEach_take_drop iovecMax, first]
    constructor
    · intro same round
      obtain ⟨front, back⟩ := List.append_inj same lengths
      cases round with
      | zero =>
        intro j below
        rw [Nat.zero_mul, List.drop_zero] at below
        rw [Nat.zero_mul, List.take_zero, span_nil]
        exact (here.mp front j below).symm
      | succ round =>
        rw [(round_succ vecs round).1, (round_succ vecs round).2, ← add_assoc]
        exact rest.mp back round
    · intro repeats
      have front := repeats 0
      rw [Nat.zero_mul, List.drop_zero, List.take_zero, span_nil] at front
      rw [readEach, here.mpr fun j below => (front j below).symm]
      congr 1
      refine rest.mpr fun round => ?_
      have later := repeats (round + 1)
      rw [(round_succ vecs round).1, (round_succ vecs round).2, ← add_assoc] at later
      exact later

/-- The array of buffers is filled like each buffer by itself if and only if the file repeats itself
for every 512 buffers behind the first ones. -/
theorem read_vector_iff (inside : offset + span vecs ≤ file.length) :
    readVector file offset vecs = readEach file offset vecs ↔ Repeats file offset vecs := by
  rw [readVector_eq_readRest, readRest_eq_iff le_rfl inside, Repeats]

/-- A file of one byte value. -/
def sevens : DiskFile where
  length := 1000
  byte i := if i < 1000 then 7 else 0
  byte_past _ past := if_neg (Nat.not_lt.mpr past)

/-- Two calls of `preadv` for 600 buffers of a byte each. -/
theorem read_vector_twoCalls : readVector sevens 10 (List.replicate 600 ⟨fun _ => 0, 1⟩) =
    readEach sevens 10 (List.replicate 600 ⟨fun _ => 0, 1⟩) := by
  have total (n : ℕ) : span (List.replicate n ⟨fun _ => 0, 1⟩) = n := by simp [span, extent]
  refine (read_vector_iff ?_).mpr fun round j below => ?_
  · rw [total]
    decide
  · rw [List.drop_replicate, List.take_replicate, total] at below
    rw [List.take_replicate, total]
    have first : 10 + j < 1000 := by omega
    have later : 10 + min (round * iovecMax) 600 + j < 1000 := by omega
    exact (if_pos later).trans (if_pos first).symm

/-- A file of the numbers from 0 to 255. -/
def counting : DiskFile where
  length := 256
  byte i := if i < 256 then UInt8.ofNat i else 0
  byte_past _ past := if_neg (Nat.not_lt.mpr past)

/-- 512 buffers that are empty, but for the first one, and another one of a byte. -/
def oneMore : List IoVec := ⟨fun _ => 0, 1⟩ :: List.replicate 511 ⟨fun _ => 0, 0⟩ ++ [⟨fun _ => 0, 1⟩]

/-- The byte of the buffer behind 512 others is the one at the start. -/
theorem not_read_vector_each : ¬ ∀ (file : DiskFile) (offset : ℕ) (vecs : List IoVec),
    offset + span vecs ≤ file.length → readVector file offset vecs = readEach file offset vecs := by
  intro claimed
  have total : span oneMore = 2 := by decide +kernel
  have inside : 0 + span oneMore ≤ counting.length := by
    rw [total]
    decide
  have same := claimed counting 0 oneMore inside
  rw [readVector_eq_readRest, readRest_eq_iff le_rfl inside] at same
  have second := same 1 0 (by decide +kernel)
  have before : span (oneMore.take (1 * iovecMax)) = 1 := by decide +kernel
  rw [before] at second
  exact absurd second (by decide)

end RWSysCall

end Gbp
