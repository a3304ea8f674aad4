import GraphBufferPool.Block.CopyRange

/-! # The deep copy of a block

`Copy(const BufferBlockImp9&)`, which flattens the pages of a block into one buffer of its own. The
buffer is memory that `LBMalloc` returned, so no byte of the source lies in it.
-/

namespace Gbp.BufferBlock

/-- The loop of `Copy(const BufferBlockImp9&)`; it goes through all pages. -/
def deepSlices : List ℕ → ℕ → ℕ → List Slice
  | [], _, _ => []
  | data :: rest, sizeNew, sizeOld =>
    let sliceLen := if locInpage data < sizeOld then locInpage data else sizeOld
    ⟨sizeNew, data, sliceLen⟩ :: deepSlices rest (sizeNew + sliceLen) (sizeOld - sliceLen)

/-- The memory after the calls of `memcpy` into the buffer at `buffer`. -/
def store (buffer : ℕ) (slices : List Slice) (mem : Bytes) : Bytes :=
  slices.foldl (fun mem slice => memcpy mem (buffer + slice.dst) mem slice.src slice.len) mem

/-- `Copy(const BufferBlockImp9&)`, where `LBMalloc` returns `buffer`: the new block, and the memory. -/
def deepCopy (mem : Bytes) (rhs : BufferBlock) (buffer : ℕ) : Except Stop (BufferBlock × Bytes) :=
  let ret := ofBuffer rhs.size buffer
  if rhs.pageNum < 2 then .ok (ret, memcpy mem buffer mem rhs.dataPtr rhs.size)
  else do
    return (ret, store buffer (deepSlices (← rhs.datas) 0 rhs.size) mem)

variable {mem : Bytes} {rhs : BufferBlock}

theorem tiles_deepSlices (pages : List ℕ) (start : ℕ) {size : ℕ} (fits : size ≤ capacity pages) :
    Tiles (fun i => locate pages (i - start)) (deepSlices pages start size) start (start + size) := by
  induction pages generalizing start size with
  | nil =>
    obtain rfl : size = 0 := by simpa using fits
    rfl
  | cons data rest ih =>
    rw [capacity_cons] at fits
    have len : (if locInpage data < size then locInpage data else size) = min (locInpage data) size := by
      split_ifs <;> omega
    rw [deepSlices, len]
    set n := min (locInpage data) size with n_eq
    have later := @ih (start + n) (size - n) (by omega)
    rw [show start + n + (size - n) = start + size by omega] at later
    refine ⟨rfl, fun j below => ?_, later.congr fun i low high => ?_⟩
    · dsimp only at below ⊢
      rw [Nat.add_sub_cancel_left, locate, if_pos (by omega)]
    · change start + n ≤ i at low
      rw [locate, if_neg (by omega)]
      congr 1
      omega

/-- Copies into a buffer that holds none of the source bytes. -/
theorem Tiles.store {address : ℕ → ℕ} {slices : List Slice} {start stop buffer : ℕ}
    (tiles : Tiles address slices start stop)
    (apart : ∀ i, start ≤ i → i < stop → ∀ j < stop, address i ≠ buffer + j) (mem : Bytes) :
    (∀ i, start ≤ i → i < stop → store buffer slices mem (buffer + i) = mem (address i)) ∧
      ∀ a, (∀ i, start ≤ i → i < stop → a ≠ buffer + i) → store buffer slices mem a = mem a := by
  induction slices generalizing start mem with
  | nil =>
    obtain rfl : start = stop := tiles
    exact ⟨fun i low high => absurd high (by omega), fun _ _ => rfl⟩
  | cons slice rest ih =>
    obtain ⟨rfl, source, later⟩ := tiles
    have bound := later.le
    obtain ⟨copied, kept⟩ := ih later (fun i low high => apart i (by omega) high)
      (memcpy mem (buffer + slice.dst) mem slice.src slice.len)
    constructor
    · intro i low high
      change BufferBlock.store buffer rest (memcpy mem (buffer + slice.dst) mem slice.src slice.len) _ = _
      rcases Nat.lt_or_ge i (slice.dst + slice.len) with here | past
      · rw [kept _ (fun k above _ => by omega), memcpy, if_pos (by omega)]
        have place := source (i - slice.dst) (by omega)
        rw [Nat.add_sub_cancel' low] at place
        rw [← place]
        congr 1
        omega
      · have elsewhere := apart i low high
        rw [copied i past high, memcpy, if_neg]
        rintro ⟨above, below⟩
        exact elsewhere (address i - buffer) (by omega) (by omega)
    · intro a outside
      change BufferBlock.store buffer rest (memcpy mem (buffer + slice.dst) mem slice.src slice.len) a = _
      rw [kept a fun i low high => outside i (by omega) high, memcpy, if_neg]
      rintro ⟨above, below⟩
      exact outside (a - buffer) (by omega) (by omega) (by omega)

/-- The deep copy of a block: a block of the same size without pages, whose bytes are those of the
source and lie in a buffer of its own. -/
structure DeepCopied (mem : Bytes) (rhs : BufferBlock) (buffer : ℕ) (ret : BufferBlock) (mem' : Bytes) :
    Prop where
  size : ret.size = rhs.size
  unpinned : ret.pages = 0 ∧ ret.releases = .ok []
  own : ∀ i < rhs.size, ret.address i = buffer + i
  bytes : ∀ i < rhs.size, mem' (ret.address i) = mem (rhs.address i)
  frame : ∀ a, (∀ i < rhs.size, a ≠ buffer + i) → mem' a = mem a

/-- `Copy(const BufferBlockImp9&)` preserves the content, also after every byte of memory but those of
the new block has changed, and leaves the source as it is. -/
theorem deep_copy_preserves (whole : rhs.Whole) {buffer : ℕ}
    (fresh : ∀ i < rhs.size, ∀ j < rhs.size, rhs.address i ≠ buffer + j) :
    ∃ ret mem', rhs.deepCopy mem buffer = .ok (ret, mem') ∧ DeepCopied mem rhs buffer ret mem' ∧
      (∀ i < rhs.size, mem' (rhs.address i) = mem (rhs.address i)) ∧
      ∀ mem'' : Bytes, (∀ i < rhs.size, mem'' (buffer + i) = mem' (buffer + i)) →
        ∀ i < ret.size, mem'' (ret.address i) = mem (rhs.address i) := by
  have own (i : ℕ) : (ofBuffer rhs.size buffer).address i = buffer + i := if_pos Nat.two_pos
  have released : (ofBuffer rhs.size buffer).releases = .ok [] := by
    unfold releases
    split_ifs <;> rfl
  obtain ⟨mem', ran, copied, kept⟩ : ∃ mem', rhs.deepCopy mem buffer = .ok (ofBuffer rhs.size buffer, mem') ∧
      (∀ i < rhs.size, mem' (buffer + i) = mem (rhs.address i)) ∧
        ∀ a, (∀ i < rhs.size, a ≠ buffer + i) → mem' a = mem a := by
    unfold deepCopy
    by_cases single : rhs.pageNum < 2
    · refine ⟨_, if_pos single, fun i below => ?_, fun a outside => ?_⟩
      · rw [memcpy, if_pos (by omega), Nat.add_sub_cancel_left, address, if_pos single]
      · rw [memcpy, if_neg]
        rintro ⟨above, below⟩
        exact outside (a - buffer) (by omega) (by omega)
    · have place (i : ℕ) : rhs.address i = locate rhs.pageDatas i := if_neg single
      have tiles := tiles_deepSlices rhs.pageDatas 0 (whole.enough (Nat.not_lt.mp single))
      rw [Nat.zero_add] at tiles
      obtain ⟨copied, kept⟩ := tiles.store
        (fun i _ below j inside => by rw [Nat.sub_zero, ← place]; exact fresh i below j inside) mem
      refine ⟨_, by rw [if_neg single, datas_eq whole.complete]; rfl, fun i below => ?_, fun a outside => ?_⟩
      · rw [copied i (Nat.zero_le i) below, Nat.sub_zero, place]
      · exact kept a fun i _ below => outside i below
  refine ⟨_, mem', ran, ⟨rfl, ⟨pages_ofBuffer .., released⟩, fun i _ => own i, fun i below => ?_, kept⟩,
    fun i below => kept _ (fresh i below), fun mem'' same i below => ?_⟩
  · rw [own, copied i below]
  · rw [own, same i below, copied i below]

theorem deep_copy_apartPages : ∃ ret mem', apartPages.deepCopy UInt8.ofNat 20480 = .ok (ret, mem') ∧
    DeepCopied UInt8.ofNat apartPages 20480 ret mem' := by
  have place (i : ℕ) (below : i < apartPages.size) : apartPages.address i < 20480 := by
    have first : locInpage 4096 = 4096 := by decide
    have size : apartPages.size = 6000 := rfl
    rw [show apartPages.address i = locate [4096, 12288] i from if_neg (by decide), locate, locate, locate, first]
    split_ifs <;> omega
  obtain ⟨ret, mem', ran, copied, _⟩ := @deep_copy_preserves UInt8.ofNat _ apartPages_whole _
    fun i below j _ => ((place i below).trans_le (Nat.le_add_right 20480 j)).ne
  exact ⟨ret, mem', ran, copied⟩

end Gbp.BufferBlock
