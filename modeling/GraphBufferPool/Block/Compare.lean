import GraphBufferPool.Block.Copy
import GraphBufferPool.Disk
import GraphBufferPool.Lib.Lexicographic

/-! # Comparing two blocks

`Compare(const BufferBlockImp9&)` and `Compare_inner`, with the pairs of addresses that `strncmp`
reads. The pages of the right block are compared one after the other at a running offset into the left
block; nothing stops that offset at the end of the left block, where the unsigned size that is left
wraps around. `Overrun` is when a page of the right block starts behind the last byte of the left
block and within the left block's last page.
-/

namespace Gbp

open Lexicographic

/-- `::strncmp`: the difference of the first two bytes that differ, within `n` bytes and up to a NUL
byte, and the pairs of addresses read. -/
def strncmp (mem : Bytes) : ℕ → ℕ → ℕ → ℤ × List (ℕ × ℕ)
  | _, _, 0 => (0, [])
  | s1, s2, n + 1 =>
    if mem s1 ≠ mem s2 then ((mem s1).toNat - (mem s2).toNat, [(s1, s2)])
    else if mem s1 = 0 then (0, [(s1, s2)])
    else
      let (ret, reads) := strncmp mem (s1 + 1) (s2 + 1) n
      (ret, (s1, s2) :: reads)

/-- Subtraction of `size_t`. -/
def subSize (a b : ℕ) : ℕ := (a + (2 ^ 64 - b % 2 ^ 64)) % 2 ^ 64

theorem subSize_of_le {a b : ℕ} (small : a < 2 ^ 64) (le : b ≤ a) : subSize a b = a - b := by
  unfold subSize
  omega

theorem subSize_of_lt {a b : ℕ} (small : b < 2 ^ 64) (lt : a < b) : subSize a b = 2 ^ 64 - (b - a) := by
  unfold subSize
  omega

variable {mem : Bytes}

/-- Without NUL bytes, `strncmp` compares `n` bytes. -/
theorem strncmp_verdict {f g : ℕ → ℕ} {s1 s2 start n : ℕ} (left : ∀ i < n, (mem (s1 + i)).toNat = f (start + i))
    (right : ∀ i < n, (mem (s2 + i)).toNat = g (start + i)) (nonzero : ∀ i < n, f (start + i) ≠ 0) :
    Verdict f g start (start + n) (strncmp mem s1 s2 n).1 := by
  induction n generalizing s1 s2 start with
  | zero => exact .nil (Nat.le_refl start)
  | succ n ih =>
    have here := left 0 (Nat.succ_pos n)
    have there := right 0 (Nat.succ_pos n)
    have positive := nonzero 0 (Nat.succ_pos n)
    simp only [Nat.add_zero] at here there positive
    rw [strncmp]
    split_ifs with differ nul
    · refine .differ start (Nat.le_refl start) (by omega) (fun i low high => absurd high (by omega)) ?_
      rw [here, there]
      rcases Nat.lt_trichotomy (f start) (g start) with less | same | greater
      · exact Or.inl ⟨by omega, less⟩
      · rw [← here, ← there] at same
        exact absurd (UInt8.toNat_inj.mp same) differ
      · exact Or.inr ⟨by omega, greater⟩
    · rw [nul] at here
      exact absurd here.symm positive
    · rw [not_not] at differ
      have agree : f start = g start := by rw [← here, ← there, differ]
      have first : Verdict f g start (start + 1) 0 := .same fun i low high => by
        obtain rfl : i = start := by omega
        exact agree
      have shift (s i : ℕ) : s + 1 + i = s + (i + 1) := by omega
      have rest := @ih (s1 + 1) (s2 + 1) (start + 1) (fun i small => by rw [shift, shift, left _ (by omega)])
        (fun i small => by rw [shift, shift, right _ (by omega)])
        (fun i small => by rw [shift]; exact nonzero _ (by omega))
      rw [shift] at rest
      exact first.append rest (Nat.le_succ start)

theorem strncmp_reads {s1 s2 n : ℕ} {read : ℕ × ℕ} (member : read ∈ (strncmp mem s1 s2 n).2) :
    ∃ i < n, read = (s1 + i, s2 + i) := by
  induction n generalizing s1 s2 with
  | zero => exact absurd member List.not_mem_nil
  | succ n ih =>
    rw [strncmp] at member
    split_ifs at member with differ nul
    · exact ⟨0, Nat.succ_pos n, List.mem_singleton.mp member⟩
    · exact ⟨0, Nat.succ_pos n, List.mem_singleton.mp member⟩
    · rcases List.mem_cons.mp member with rfl | later
      · exact ⟨0, Nat.succ_pos n, rfl⟩
      · obtain ⟨i, inside, rfl⟩ := ih later
        exact ⟨i + 1, by omega, by rw [Prod.mk.injEq]; omega⟩

/-- The first bytes are read. -/
theorem mem_strncmp {s1 s2 n : ℕ} (positive : 0 < n) : (s1, s2) ∈ (strncmp mem s1 s2 n).2 := by
  obtain ⟨n, rfl⟩ := Nat.exists_eq_add_one_of_ne_zero positive.ne'
  rw [strncmp]
  split_ifs <;> exact List.mem_cons_self

namespace BufferBlock

/-- The first loop of `Compare_inner`: the pages from the one it stops at, and `offset_t`. -/
def passPages : List ℕ → ℕ → List ℕ × ℕ
  | [], offset => ([], offset)
  | data :: rest, offset =>
    if offset ≥ locInpage data then passPages rest (offset - locInpage data) else (data :: rest, offset)

/-- The second loop of `Compare_inner`. -/
def innerFrom (mem : Bytes) (right : ℕ) : List ℕ → ℕ → ℕ → ℕ → ℤ × List (ℕ × ℕ)
  | [], _, _, _ => (0, [])
  | data :: rest, offset, sizeLeft, sizeCum =>
    let sliceLen := if locInpage (data + offset) < sizeLeft then locInpage (data + offset) else sizeLeft
    let (ret, reads) := strncmp mem (data + offset) (right + sizeCum) sliceLen
    if ret ≠ 0 then (ret, reads)
    else
      let (ret', reads') := innerFrom mem right rest 0 (sizeLeft - sliceLen) (sizeCum + sliceLen)
      (ret', reads ++ reads')

/-- `Compare_inner`, of a `string_view` of `rightSize` bytes at `right`. -/
def compareInner (mem : Bytes) (block : BufferBlock) (right rightSize offset : ℕ) :
    Except Stop (ℤ × List (ℕ × ℕ)) :=
  let sizeLeft := min (subSize block.size offset) rightSize
  if block.pageNum > 1 then do
    let (pages, offset) := passPages (← block.datas) offset
    return innerFrom mem right pages offset sizeLeft 0
  else .ok (strncmp mem (block.dataPtr + offset) right sizeLeft)

/-- The loop of `Compare` over the pages of the right block. -/
def compareFrom (mem : Bytes) (block : BufferBlock) (rightSize : ℕ) :
    List ℕ → ℕ → Except Stop (ℤ × List (ℕ × ℕ))
  | [], _ => .ok (0, [])
  | data :: rest, lenRight => do
    let len := min (locInpage data) (subSize rightSize lenRight)
    let (ret, reads) ← block.compareInner mem data len lenRight
    if ret ≠ 0 then return (ret, reads)
    let (ret', reads') ← compareFrom mem block rightSize rest (lenRight + len)
    return (ret', reads ++ reads')

/-- `Compare(const BufferBlockImp9&)`: the value it returns, and the addresses it reads in the left and
in the right block. -/
def compare (mem : Bytes) (block right : BufferBlock) : Except Stop (ℤ × List (ℕ × ℕ)) := do
  let (ret, reads) ←
    if block.pageNum > 1 ∧ right.pageNum > 1 then do
      block.compareFrom mem right.size (← right.datas) 0
    else if right.pageNum < 2 then block.compareInner mem right.dataPtr right.size 0
    else do
      let (ret, reads) ← right.compareInner mem block.dataPtr block.size 0
      pure (-ret, reads.map Prod.swap)
  return (if ret = 0 then
    if block.size ≠ right.size then ((block.size : ℤ) - right.size).bmod (2 ^ 32) else ret
  else ret, reads)

/-- The byte of a block, as an unsigned number. -/
def content (mem : Bytes) (block : BufferBlock) (i : ℕ) : ℕ := (mem (block.address i)).toNat

/-- Each pointer reads a byte of its block. -/
def Within (left right : BufferBlock) (read : ℕ × ℕ) : Prop :=
  (∃ i < left.size, read.1 = left.address i) ∧ ∃ i < right.size, read.2 = right.address i

/-- A result that orders the bytes of the blocks, for which only bytes of the blocks were read. -/
structure Compared (mem : Bytes) (left right : BufferBlock) (ret : ℤ) (reads : List (ℕ × ℕ)) : Prop where
  orders : Orders ret (values (left.content mem) left.size) (values (right.content mem) right.size)
  within : ∀ read ∈ reads, Within left right read

/-- A block of less than 2 GiB without NUL bytes, whose pages are pages of memory of their own. -/
structure Comparable (mem : Bytes) (block : BufferBlock) : Prop extends block.Whole where
  small : block.size < 2 ^ 31
  nonzero : ∀ i < block.size, mem (block.address i) ≠ 0
  apart : (block.pageDatas.map (· / pageSize)).Nodup

/-- The left block is a prefix of the right one, and a page of the right block starts behind the last
byte of the left block and within the left block's last page. -/
def Overrun (mem : Bytes) (left right : BufferBlock) : Prop :=
  2 ≤ left.pageNum ∧ 2 ≤ right.pageNum ∧ (∀ i < left.size, left.content mem i = right.content mem i) ∧
    ∃ k < right.pageNum, left.size < capacity (right.pageDatas.take k) ∧
      capacity (right.pageDatas.take k) < capacity left.pageDatas

variable {block left right : BufferBlock}

/-- The pages that end at or before `offset` are passed. -/
theorem passPages_append (before : List ℕ) {data : ℕ} (after : List ℕ) {offset : ℕ}
    (inside : offset < locInpage data) :
    passPages (before ++ data :: after) (capacity before + offset) = (data :: after, offset) := by
  induction before with
  | nil => rw [capacity_nil, Nat.zero_add, List.nil_append, passPages, if_neg (by omega)]
  | cons first before ih =>
    rw [List.cons_append, passPages, capacity_cons, if_pos (by omega), Nat.add_assoc,
      Nat.add_sub_cancel_left, ih]

/-- Behind the last page nothing is left to compare. -/
theorem passPages_past {pages : List ℕ} {offset : ℕ} (past : capacity pages ≤ offset) :
    (passPages pages offset).1 = [] := by
  induction pages generalizing offset with
  | nil => rfl
  | cons data rest ih =>
    rw [capacity_cons] at past
    rw [passPages, if_pos (by omega)]
    exact ih (by omega)

theorem sliceLen_eq {data offset n : ℕ} (inside : offset < locInpage data) :
    (if locInpage (data + offset) < n then locInpage (data + offset) else n) =
      min (locInpage data - offset) n := by
  rw [locInpage_add inside]
  split_ifs <;> omega

/-- The second loop compares `n` bytes of the pages, from `offset` in the first of them. -/
theorem innerFrom_verdict {f g : ℕ → ℕ} {pages : List ℕ} {base offset n cum start : ℕ}
    (first : ∀ data ∈ pages.head?, offset < locInpage data) (fits : n = 0 ∨ offset + n ≤ capacity pages)
    (here : ∀ i < n, (mem (locate pages (offset + i))).toNat = f (start + i))
    (there : ∀ i < n, (mem (base + cum + i)).toNat = g (start + i)) (nonzero : ∀ i < n, f (start + i) ≠ 0) :
    Verdict f g start (start + n) (innerFrom mem base pages offset n cum).1 := by
  induction pages generalizing offset n cum start with
  | nil =>
    obtain rfl : n = 0 := by
      rw [capacity_nil] at fits
      omega
    exact .nil (Nat.le_refl start)
  | cons data rest ih =>
    have reached := first data rfl
    rw [capacity_cons] at fits
    rw [innerFrom, sliceLen_eq reached]
    set len := min (locInpage data - offset) n with len_eq
    have len_le : len ≤ n := min_le_right ..
    have slice : Verdict f g start (start + len) (strncmp mem (data + offset) (base + cum) len).1 := by
      refine strncmp_verdict (fun i small => ?_) (fun i small => there i (by omega))
        fun i small => nonzero i (by omega)
      rw [← here i (by omega), locate, if_pos (by omega), Nat.add_assoc]
    dsimp only
    by_cases same : (strncmp mem (data + offset) (base + cum) len).1 = 0
    · rw [if_neg (not_not.mpr same)]
      rw [same] at slice
      have later := @ih 0 (n - len) (cum + len) (start + len) (fun page _ => locInpage_pos page) (by omega)
        (fun i small => by
          rw [Nat.add_assoc, ← here _ (by omega), locate, if_neg (by omega)]
          congr 3
          omega)
        (fun i small => by
          rw [Nat.add_assoc start, ← there _ (by omega)]
          congr 2
          omega)
        (fun i small => by
          rw [Nat.add_assoc]
          exact nonzero _ (by omega))
      rw [Nat.add_assoc, Nat.add_sub_cancel' len_le] at later
      exact slice.append later (Nat.le_add_right ..)
    · rw [if_pos same]
      exact slice.widen same (by omega)

theorem innerFrom_reads {pages : List ℕ} {base offset n cum : ℕ} {read : ℕ × ℕ}
    (first : ∀ data ∈ pages.head?, offset < locInpage data)
    (member : read ∈ (innerFrom mem base pages offset n cum).2) :
    ∃ i < n, read = (locate pages (offset + i), base + cum + i) := by
  induction pages generalizing offset n cum with
  | nil => exact absurd member List.not_mem_nil
  | cons data rest ih =>
    have reached := first data rfl
    rw [innerFrom, sliceLen_eq reached] at member
    set len := min (locInpage data - offset) n with len_eq
    have slice (member : read ∈ (strncmp mem (data + offset) (base + cum) len).2) :
        ∃ i < n, read = (locate (data :: rest) (offset + i), base + cum + i) := by
      obtain ⟨i, small, rfl⟩ := strncmp_reads member
      exact ⟨i, by omega, by rw [locate, if_pos (by omega), Nat.add_assoc]⟩
    dsimp only at member
    by_cases same : (strncmp mem (data + offset) (base + cum) len).1 = 0
    · rw [if_neg (not_not.mpr same)] at member
      rcases List.mem_append.mp member with early | late
      · exact slice early
      · obtain ⟨i, small, rfl⟩ := ih (fun page _ => locInpage_pos page) late
        refine ⟨len + i, by omega, ?_⟩
        rw [locate, if_neg (by omega), Prod.mk.injEq]
        refine ⟨?_, by omega⟩
        congr 1
        omega
    · rw [if_pos same] at member
      exact slice member

/-- The first bytes of the first page are read. -/
theorem mem_innerFrom {data base offset n : ℕ} (rest : List ℕ) (inside : offset < locInpage data)
    (positive : 0 < n) : (data + offset, base) ∈ (innerFrom mem base (data :: rest) offset n 0).2 := by
  rw [innerFrom, sliceLen_eq inside]
  set len := min (locInpage data - offset) n with len_eq
  have read : (data + offset, base) ∈ (strncmp mem (data + offset) base len).2 := mem_strncmp (by omega)
  dsimp only [Nat.add_zero]
  split_ifs
  · exact read
  · exact List.mem_append_left _ read

theorem compareInner_eq (complete : none ∉ block.slots) (base n offset : ℕ) :
    block.compareInner mem base n offset = .ok (if block.pageNum < 2 then
      strncmp mem (block.dataPtr + offset) base (min (subSize block.size offset) n)
    else innerFrom mem base (passPages block.pageDatas offset).1 (passPages block.pageDatas offset).2
      (min (subSize block.size offset) n) 0) := by
  simp only [compareInner, datas_eq complete, ok_bind]
  by_cases single : block.pageNum < 2
  · rw [if_neg (by omega), if_pos single]
  · rw [if_pos (by omega), if_neg single]
    rfl

/-- From an offset within the left block, the bytes that both sides have are compared. -/
theorem Whole.compareInner (whole : left.Whole) (small : left.size < 2 ^ 64)
    (nonzero : ∀ i < left.size, mem (left.address i) ≠ 0) {g : ℕ → ℕ} {base n offset : ℕ}
    (inside : offset ≤ left.size) (there : ∀ i < n, (mem (base + i)).toNat = g (offset + i)) :
    ∃ ret reads, left.compareInner mem base n offset = .ok (ret, reads) ∧
      Verdict (left.content mem) g offset (offset + min (left.size - offset) n) ret ∧
      ∀ read ∈ reads, ∃ i < min (left.size - offset) n, read = (left.address (offset + i), base + i) := by
  have positive (i : ℕ) (below : i < min (left.size - offset) n) : left.content mem (offset + i) ≠ 0 :=
    fun zero => nonzero (offset + i) (by omega) (UInt8.toNat_inj.mp zero)
  have there (i : ℕ) (below : i < min (left.size - offset) n) := there i (by omega)
  rw [compareInner_eq whole.complete, subSize_of_le small inside]
  set len := min (left.size - offset) n with len_eq
  by_cases single : left.pageNum < 2
  · rw [if_pos single]
    have place (i : ℕ) : left.address (offset + i) = left.dataPtr + offset + i := by
      rw [address, if_pos single, Nat.add_assoc]
    refine ⟨_, _, rfl, strncmp_verdict (fun i _ => by rw [content, place]) there positive,
      fun read member => ?_⟩
    obtain ⟨i, below, rfl⟩ := strncmp_reads member
    exact ⟨i, below, by rw [place]⟩
  · rw [if_neg single]
    have enough := whole.enough (Nat.not_lt.mp single)
    rcases Nat.lt_or_ge offset (capacity left.pageDatas) with within | past
    · obtain ⟨before, data, after, offset', split, place, reached⟩ := exists_page within
      have skipped := passPages_append before after reached
      rw [← split, ← place] at skipped
      have place (i : ℕ) : left.address (offset + i) = locate (data :: after) (offset' + i) := by
        rw [address, if_neg single, split, place, Nat.add_assoc, locate_append]
      have first : ∀ page ∈ (data :: after).head?, offset' < locInpage page := by
        rintro _ ⟨⟩
        exact reached
      rw [split, capacity_append] at enough
      rw [skipped]
      refine ⟨_, _, rfl, innerFrom_verdict first (Or.inr (by omega)) (fun i _ => by rw [content, place])
        there positive, fun read member => ?_⟩
      obtain ⟨i, below, rfl⟩ := innerFrom_reads first member
      exact ⟨i, below, by rw [place, Nat.add_zero]⟩
    · obtain none : len = 0 := by omega
      rw [passPages_past past, none]
      exact ⟨_, _, rfl, .nil (Nat.le_refl offset), fun read member => absurd member List.not_mem_nil⟩

/-- Behind the last page nothing is read. -/
theorem Whole.compareInner_past (whole : left.Whole) (many : 2 ≤ left.pageNum) {base n offset : ℕ}
    (past : capacity left.pageDatas ≤ offset) : left.compareInner mem base n offset = .ok (0, []) := by
  rw [compareInner_eq whole.complete, if_neg (Nat.not_lt.mpr many), passPages_past past]
  rfl

/-- Behind the last byte but within the last page, the size that is left wraps around and the page is
read. -/
theorem Whole.compareInner_slack (whole : left.Whole) (many : 2 ≤ left.pageNum) {base n offset : ℕ}
    (small : offset < 2 ^ 64) (past : left.size < offset) (slack : offset < capacity left.pageDatas)
    (positive : 0 < n) : ∃ ret reads, left.compareInner mem base n offset = .ok (ret, reads) ∧
      (locate left.pageDatas offset, base) ∈ reads := by
  obtain ⟨before, data, after, offset', split, place, reached⟩ := exists_page slack
  have skipped := passPages_append before after reached
  rw [← split, ← place] at skipped
  have target : locate left.pageDatas offset = data + offset' := by
    rw [split, place, locate_append, locate, if_pos reached]
  rw [compareInner_eq whole.complete, if_neg (Nat.not_lt.mpr many), skipped, subSize_of_lt small past, target]
  exact ⟨_, _, rfl, mem_innerFrom after reached (by omega)⟩

/-- Every page of a block holds some of its bytes. -/
theorem Whole.reached (whole : block.Whole) (many : 2 ≤ block.pageNum) {before rest : List ℕ} {data : ℕ}
    (split : block.pageDatas = before ++ data :: rest) : capacity before < block.size := by
  have tight := whole.tight many
  rw [split, List.dropLast_append_of_ne_nil (List.cons_ne_nil data rest), capacity_append] at tight
  exact (Nat.le_add_right ..).trans_lt tight

theorem address_page (many : 2 ≤ block.pageNum) {before rest : List ℕ} {data i : ℕ}
    (split : block.pageDatas = before ++ data :: rest) (inside : i < locInpage data) :
    block.address (capacity before + i) = data + i := by
  rw [address, if_neg (Nat.not_lt.mpr many), split, locate_append, locate, if_pos inside]

/-- A page of the right block that starts within the left block is compared. -/
theorem Comparable.compareInner_inside (left_ok : left.Comparable mem) (right_many : 2 ≤ right.pageNum)
    {before rest : List ℕ} {data : ℕ} (split : right.pageDatas = before ++ data :: rest)
    (inside : capacity before ≤ left.size) :
    ∃ ret reads, left.compareInner mem data (min (locInpage data) (right.size - capacity before))
        (capacity before) = .ok (ret, reads) ∧
      Verdict (left.content mem) (right.content mem) (capacity before)
        (min (capacity before + min (locInpage data) (right.size - capacity before)) left.size) ret ∧
      ∀ read ∈ reads, Within left right read := by
  set start := capacity before with start_eq
  set len := min (locInpage data) (right.size - start) with len_eq
  have place (i : ℕ) (below : i < len) : right.address (start + i) = data + i :=
    address_page right_many split (by omega)
  obtain ⟨ret, reads, ran, verdict, read_at⟩ :=
    @Whole.compareInner _ _ left_ok.toWhole (by linarith [left_ok.small]) left_ok.nonzero
      (right.content mem) data len start inside fun i below => by rw [content, place i below]
  rw [show start + min (left.size - start) len = min (start + len) left.size by omega] at verdict
  refine ⟨ret, reads, ran, verdict, fun read member => ?_⟩
  obtain ⟨i, below, rfl⟩ := read_at read member
  exact ⟨⟨start + i, by omega, rfl⟩, start + i, by omega, (place i (by omega)).symm⟩

/-- Without overrun, every page of the right block is compared. -/
theorem Comparable.compareInner_page (left_ok : left.Comparable mem) (right_ok : right.Comparable mem)
    (left_many : 2 ≤ left.pageNum) (right_many : 2 ≤ right.pageNum) (clear : ¬ Overrun mem left right)
    {before rest : List ℕ} {data : ℕ} (split : right.pageDatas = before ++ data :: rest)
    (agree : ∀ i < min (capacity before) left.size, left.content mem i = right.content mem i) :
    ∃ ret reads, left.compareInner mem data (min (locInpage data) (right.size - capacity before))
        (capacity before) = .ok (ret, reads) ∧
      Verdict (left.content mem) (right.content mem) (min (capacity before) left.size)
        (min (capacity before + min (locInpage data) (right.size - capacity before)) left.size) ret ∧
      ∀ read ∈ reads, Within left right read := by
  rcases Nat.lt_or_ge left.size (capacity before) with passed | inside
  · -- The left block has ended and is a prefix, so its last page has ended as well.
    have past : capacity left.pageDatas ≤ capacity before := by
      by_contra slack
      have short : before.length < right.pageNum := by
        rw [← length_pageDatas right_ok.complete, split, List.length_append, List.length_cons]
        omega
      have taken : right.pageDatas.take before.length = before := by
        rw [split, List.take_left]
      refine clear ⟨left_many, right_many, fun i below => agree i (by omega), before.length, short, ?_⟩
      rw [taken]
      omega
    refine ⟨0, [], left_ok.compareInner_past left_many past, .nil (by omega), fun read member => ?_⟩
    exact absurd member List.not_mem_nil
  · rw [min_eq_left inside]
    exact left_ok.compareInner_inside right_many split inside

/-- The loop over the pages of the right block compares the bytes that both blocks have. -/
theorem Comparable.compareFrom (left_ok : left.Comparable mem) (right_ok : right.Comparable mem)
    (left_many : 2 ≤ left.pageNum) (right_many : 2 ≤ right.pageNum) (clear : ¬ Overrun mem left right)
    {before rest : List ℕ} (split : right.pageDatas = before ++ rest) {lenRight : ℕ}
    (len_eq : lenRight = min (capacity before) right.size)
    (agree : ∀ i < min lenRight left.size, left.content mem i = right.content mem i) :
    ∃ ret reads, left.compareFrom mem right.size rest lenRight = .ok (ret, reads) ∧
      Verdict (left.content mem) (right.content mem) (min lenRight left.size) (min left.size right.size) ret ∧
      ∀ read ∈ reads, Within left right read := by
  have right_small := right_ok.small
  induction rest generalizing before lenRight with
  | nil =>
    have enough := right_ok.enough right_many
    rw [split, List.append_nil] at enough
    exact ⟨0, [], rfl, .nil (by omega), fun read member => absurd member List.not_mem_nil⟩
  | cons data rest ih =>
    have reached := right_ok.reached right_many split
    rw [min_eq_left reached.le] at len_eq
    subst len_eq
    obtain ⟨ret, reads, ran, verdict, within⟩ :=
      left_ok.compareInner_page right_ok left_many right_many clear split agree
    have wrap : subSize right.size (capacity before) = right.size - capacity before :=
      subSize_of_le (by omega) reached.le
    rw [BufferBlock.compareFrom, wrap]
    dsimp only
    rw [ran, ok_bind]
    set len := min (locInpage data) (right.size - capacity before) with len_eq
    dsimp only
    by_cases same : ret = 0
    · subst same
      have agree' (i : ℕ) (below : i < min (capacity before + len) left.size) :
          left.content mem i = right.content mem i := by
        rcases Nat.lt_or_ge i (min (capacity before) left.size) with early | late
        · exact agree i early
        · exact verdict.agree i late below
      obtain ⟨ret, reads', later, verdict', within'⟩ := @ih (before ++ [data]) (by simpa using split)
        (capacity before + len) (by rw [capacity_append, capacity_cons, capacity_nil]; omega) agree'
      rw [if_neg (not_not.mpr rfl), later]
      refine ⟨ret, reads ++ reads', rfl, verdict.append verdict' (by omega), fun read member => ?_⟩
      rcases List.mem_append.mp member with early | late
      · exact within read early
      · exact within' read late
    · rw [if_pos same]
      exact ⟨ret, reads, rfl, verdict.widen same (by omega), within⟩

/-- Pages of memory of their own have no byte in common. -/
theorem locate_div {pages : List ℕ} {i : ℕ} (inside : i < capacity pages) :
    locate pages i / pageSize ∈ pages.map (· / pageSize) := by
  induction pages generalizing i with
  | nil => exact absurd inside (Nat.not_lt_zero i)
  | cons data rest ih =>
    rw [locate]
    split_ifs with here
    · have same : (data + i) / pageSize = data / pageSize := by
        simp only [locInpage, pageSize] at *
        omega
      rw [same]
      exact List.mem_cons_self
    · rw [capacity_cons] at inside
      exact List.mem_cons_of_mem _ (ih (by omega))

theorem locate_injective {pages : List ℕ} (apart : (pages.map (· / pageSize)).Nodup) {i j : ℕ}
    (left : i < capacity pages) (right : j < capacity pages) (same : locate pages i = locate pages j) :
    i = j := by
  induction pages generalizing i j with
  | nil => exact absurd left (Nat.not_lt_zero i)
  | cons data rest ih =>
    rw [List.map_cons, List.nodup_cons] at apart
    rw [capacity_cons] at left right
    have never {i j : ℕ} (here : i < locInpage data) (there : j < capacity rest) :
        data + i ≠ locate rest j := by
      intro same
      have page := locate_div there
      have this_page : (data + i) / pageSize = data / pageSize := by
        simp only [locInpage, pageSize] at *
        omega
      rw [← same, this_page] at page
      exact apart.1 page
    rw [locate, locate] at same
    split_ifs at same with first second second
    · omega
    · exact absurd same (never first (by omega))
    · exact absurd same.symm (never second (by omega))
    · have := ih apart.2 (by omega) (by omega) same
      omega

/-- A page of the right block that starts behind the left block's last byte and in its last page is
compared with a byte that the left block does not have. -/
theorem Comparable.overrun_page (left_ok : left.Comparable mem) (right_ok : right.Comparable mem)
    (left_many : 2 ≤ left.pageNum) (right_many : 2 ≤ right.pageNum) {before rest : List ℕ} {data : ℕ}
    (split : right.pageDatas = before ++ data :: rest) (past : left.size < capacity before)
    (slack : capacity before < capacity left.pageDatas) {ret : ℤ} {reads : List (ℕ × ℕ)}
    (ran : left.compareFrom mem right.size (data :: rest) (capacity before) = .ok (ret, reads)) :
    ∃ read ∈ reads, ∀ i < left.size, read.1 ≠ left.address i := by
  have right_small := right_ok.small
  have reached := right_ok.reached right_many split
  have wrap : subSize right.size (capacity before) = right.size - capacity before :=
    subSize_of_le (by omega) reached.le
  have positive : 0 < min (locInpage data) (right.size - capacity before) :=
    lt_min (locInpage_pos data) (Nat.sub_pos_of_lt reached)
  obtain ⟨first, early, inner, member⟩ :=
    @Whole.compareInner_slack mem _ left_ok.toWhole left_many data _ _ (by omega) past slack positive
  have foreign : ∀ i < left.size, locate left.pageDatas (capacity before) ≠ left.address i := by
    intro i below same
    rw [address, if_neg (Nat.not_lt.mpr left_many)] at same
    have := locate_injective left_ok.apart slack (by omega) same
    omega
  rw [BufferBlock.compareFrom, wrap] at ran
  dsimp only at ran
  rw [inner, ok_bind] at ran
  dsimp only at ran
  split_ifs at ran with differ
  · cases ran
    exact ⟨_, member, foreign⟩
  · obtain ⟨later, _, ran⟩ := bind_eq_ok.mp ran
    cases ran
    exact ⟨_, List.mem_append_left _ member, foreign⟩

/-- The pages before that one agree, so the loop reaches it. -/
theorem Comparable.overrun_reads (left_ok : left.Comparable mem) (right_ok : right.Comparable mem)
    (left_many : 2 ≤ left.pageNum) (right_many : 2 ≤ right.pageNum)
    (agree : ∀ i < left.size, left.content mem i = right.content mem i) {before taken rest : List ℕ}
    {data : ℕ} (split : right.pageDatas = before ++ (taken ++ data :: rest))
    (past : left.size < capacity (before ++ taken))
    (slack : capacity (before ++ taken) < capacity left.pageDatas) {ret : ℤ} {reads : List (ℕ × ℕ)}
    (ran : left.compareFrom mem right.size (taken ++ data :: rest) (capacity before) = .ok (ret, reads)) :
    ∃ read ∈ reads, ∀ i < left.size, read.1 ≠ left.address i := by
  induction taken generalizing before ret reads with
  | nil =>
    rw [List.append_nil] at past slack
    exact left_ok.overrun_page right_ok left_many right_many split past slack ran
  | cons page taken ih =>
    rcases Nat.lt_or_ge left.size (capacity before) with passed | inside
    · rw [capacity_append] at slack
      exact left_ok.overrun_page right_ok left_many right_many split passed (by omega) ran
    · have right_small := right_ok.small
      have reached := @Whole.reached _ right_ok.toWhole right_many (before ++ page :: taken) rest data
        (by simpa using split)
      rw [capacity_append, capacity_cons] at reached
      obtain ⟨first, early, inner, verdict, _⟩ := left_ok.compareInner_inside right_many split inside
      obtain rfl := verdict.eq_zero fun i _ below => agree i (by omega)
      have wrap : subSize right.size (capacity before) = right.size - capacity before :=
        subSize_of_le (by omega) (by omega)
      rw [List.cons_append, BufferBlock.compareFrom, wrap] at ran
      dsimp only at ran
      rw [inner, ok_bind, min_eq_left (by omega)] at ran
      dsimp only at ran
      rw [if_neg (not_not.mpr rfl)] at ran
      obtain ⟨⟨ret', late⟩, later, ran⟩ := bind_eq_ok.mp ran
      cases ran
      obtain ⟨read, member, foreign⟩ := @ih (before ++ [page]) (by simpa using split)
        (by simpa using past) (by simpa using slack) _ _ (by simpa using later)
      exact ⟨read, List.mem_append_right _ member, foreign⟩

/-- The difference of the sizes is an `int`. -/
theorem size_diff (left_small : left.size < 2 ^ 31) (right_small : right.size < 2 ^ 31) (ret : ℤ) :
    (if ret = 0 then
      if left.size ≠ right.size then ((left.size : ℤ) - right.size).bmod (2 ^ 32) else ret
    else ret) = if ret = 0 then (left.size : ℤ) - right.size else ret := by
  rw [Int.bmod_def]
  split_ifs <;> omega

/-- The last step of `Compare`, after the bytes that both blocks have. -/
theorem Comparable.compared (left_ok : left.Comparable mem) (right_ok : right.Comparable mem) {ret : ℤ}
    {reads : List (ℕ × ℕ)} (verdict : Verdict (left.content mem) (right.content mem) 0
      (min left.size right.size) ret) (within : ∀ read ∈ reads, Within left right read) :
    Compared mem left right (if ret = 0 then
      if left.size ≠ right.size then ((left.size : ℤ) - right.size).bmod (2 ^ 32) else ret
    else ret) reads := by
  rw [size_diff left_ok.small right_ok.small]
  exact ⟨verdict.orders rfl, within⟩

/-- A block without several pages is one string for `Compare_inner` of the other. -/
theorem Comparable.compareInner_single (left_ok : left.Comparable mem) (single : right.pageNum < 2) :
    ∃ ret reads, left.compareInner mem right.dataPtr right.size 0 = .ok (ret, reads) ∧
      Verdict (left.content mem) (right.content mem) 0 (min left.size right.size) ret ∧
      ∀ read ∈ reads, Within left right read := by
  have place (i : ℕ) : right.address i = right.dataPtr + i := by rw [address, if_pos single]
  obtain ⟨ret, reads, ran, verdict, read_at⟩ :=
    @Whole.compareInner _ _ left_ok.toWhole (by linarith [left_ok.small]) left_ok.nonzero
      (right.content mem) right.dataPtr right.size 0 (Nat.zero_le _)
      fun i below => by rw [content, Nat.zero_add, place i]
  rw [Nat.zero_add, Nat.sub_zero] at verdict
  refine ⟨ret, reads, ran, verdict, fun read member => ?_⟩
  obtain ⟨i, below, rfl⟩ := read_at read member
  exact ⟨⟨0 + i, by omega, rfl⟩, i, by omega, (place i).symm⟩

/-- `Compare` returns the lexicographic order of the bytes of two blocks, from reading only bytes of
the blocks, unless a page of the right block starts in the left block's slack. -/
theorem compare_lexicographic_iff (left_ok : left.Comparable mem) (right_ok : right.Comparable mem) :
    (∃ ret reads, left.compare mem right = .ok (ret, reads) ∧ Compared mem left right ret reads) ↔
      ¬ Overrun mem left right := by
  unfold compare
  constructor
  · rintro ⟨ret, reads, ran, compared⟩ ⟨left_many, right_many, agree, k, inside, past, slack⟩
    rw [if_pos ⟨left_many, right_many⟩, datas_eq right_ok.complete, ok_bind] at ran
    obtain ⟨⟨ret', reads'⟩, looped, ran⟩ := bind_eq_ok.mp ran
    cases ran
    rw [← length_pageDatas right_ok.complete] at inside
    have split := (List.take_append_drop k right.pageDatas).symm
    rw [List.drop_eq_getElem_cons inside] at split
    rw [split, ← capacity_nil] at looped
    obtain ⟨read, member, foreign⟩ := @Comparable.overrun_reads _ _ _ left_ok right_ok left_many right_many
      agree [] _ _ _ split past slack _ _ looped
    obtain ⟨⟨i, below, same⟩, _⟩ := compared.within read member
    exact foreign i below same
  · intro clear
    by_cases both : left.pageNum > 1 ∧ right.pageNum > 1
    · obtain ⟨ret, reads, ran, verdict, within⟩ := @Comparable.compareFrom _ _ _ left_ok right_ok both.1
        both.2 clear [] right.pageDatas rfl 0 (Nat.zero_min _).symm fun i below => absurd below (by omega)
      rw [if_pos both, datas_eq right_ok.complete, ok_bind, ran]
      rw [Nat.zero_min] at verdict
      exact ⟨_, reads, rfl, left_ok.compared right_ok verdict within⟩
    · rw [if_neg both]
      by_cases single : right.pageNum < 2
      · obtain ⟨ret, reads, ran, verdict, within⟩ := left_ok.compareInner_single single
        rw [if_pos single, ran]
        exact ⟨_, reads, rfl, left_ok.compared right_ok verdict within⟩
      · obtain ⟨ret, reads, ran, verdict, within⟩ :=
          @Comparable.compareInner_single _ _ left right_ok (by omega)
        rw [if_neg single, ran]
        rw [min_comm] at verdict
        refine ⟨_, _, rfl, left_ok.compared right_ok verdict.swap fun read member => ?_⟩
        obtain ⟨pair, kept, rfl⟩ := List.mem_map.mp member
        exact (within pair kept).symm

/-- Both orders of two blocks compare the opposite way. -/
theorem Compared.antisymm {ret ret' : ℤ} {reads reads' : List (ℕ × ℕ)}
    (compared : Compared mem left right ret reads) (back : Compared mem right left ret' reads') :
    ret'.sign = -ret.sign := by
  rw [back.orders.sign_eq compared.orders.neg, Int.sign_neg]

/-- The sign depends on the bytes of the blocks only, not on their layout or on the rest of memory. -/
theorem Compared.sign_eq {mem' : Bytes} {left' right' : BufferBlock} {ret ret' : ℤ}
    {reads reads' : List (ℕ × ℕ)} (compared : Compared mem left right ret reads)
    (other : Compared mem' left' right' ret' reads')
    (left_same : values (left.content mem) left.size = values (left'.content mem') left'.size)
    (right_same : values (right.content mem) right.size = values (right'.content mem') right'.size) :
    ret.sign = ret'.sign := by
  have orders := other.orders
  rw [← left_same, ← right_same] at orders
  exact compared.orders.sign_eq orders

/-- Two bytes, the last of a page and the first of the next one. -/
def twoBytes : BufferBlock := ⟨2, 0, [some ⟨8191, ⟨0, 0⟩, false⟩, some ⟨8192, ⟨0, 1⟩, false⟩]⟩

/-- 97 bytes, all but the last of them in the first page. -/
def manyBytes : BufferBlock := ⟨97, 0, [some ⟨44960, ⟨0, 2⟩, false⟩, some ⟨45056, ⟨0, 3⟩, false⟩]⟩

/-- A memory of ones, but for a byte behind the second of `twoBytes`. -/
def oddSlack : Bytes := fun i => if i = 8287 then 5 else 1

theorem oddSlack_ne_zero (i : ℕ) : oddSlack i ≠ 0 := by
  unfold oddSlack
  split_ifs <;> decide

theorem twoBytes_comparable : twoBytes.Comparable oddSlack where
  complete := by decide
  aligned := by decide
  enough := by decide
  tight := by decide
  small := by decide
  nonzero i _ := oddSlack_ne_zero _
  apart := by decide

theorem manyBytes_comparable : manyBytes.Comparable oddSlack where
  complete := by decide
  aligned := by decide
  enough := by decide
  tight := by decide
  small := by decide
  nonzero i _ := oddSlack_ne_zero _
  apart := by decide

theorem compare_lexicographic_manyBytes : ∃ ret reads,
    manyBytes.compare oddSlack twoBytes = .ok (ret, reads) ∧
      Compared oddSlack manyBytes twoBytes ret reads := by
  apply (compare_lexicographic_iff manyBytes_comparable twoBytes_comparable).mpr
  rintro ⟨_, _, _, k, inside, past, _⟩
  have bound : ∀ k < 2, capacity (twoBytes.pageDatas.take k) ≤ 97 := by decide
  exact absurd (bound k inside) (Nat.not_le.mpr past)

/-- `twoBytes` is a proper prefix of `manyBytes`, but `Compare` reads the byte behind it and finds it
greater. -/
theorem compare_not_lexicographic : ∃ ret reads,
    twoBytes.compare oddSlack manyBytes = .ok (ret, reads) ∧ ¬ ret < 0 ∧
      values (twoBytes.content oddSlack) twoBytes.size < values (manyBytes.content oddSlack) manyBytes.size ∧
      ¬ Compared oddSlack twoBytes manyBytes ret reads := by
  have less : values (twoBytes.content oddSlack) twoBytes.size <
      values (manyBytes.content oddSlack) manyBytes.size :=
    values_lt_of_longer (by decide) (by decide)
  have positive : ¬ (4 : ℤ) < 0 := by decide
  refine ⟨4, [(8191, 44960), (8192, 44961), (8287, 45056)], by decide +kernel, positive, less, ?_⟩
  intro compared
  exact positive (compared.orders.less.mpr less)

end BufferBlock

end Gbp
