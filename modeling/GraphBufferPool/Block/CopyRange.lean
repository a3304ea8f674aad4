import GraphBufferPool.Block.Copy
import GraphBufferPool.Disk

/-! # Copying a part of a block into a buffer

When `Copy(char*, size_t, size_t)` fills the buffer with the bytes of the block behind an offset.
-/

namespace Gbp

namespace BufferBlock

/-- The buffer after the calls of `memcpy`. -/
def fill (mem buf : Bytes) (slices : List Slice) : Bytes :=
  slices.foldl (fun buf slice => memcpy buf slice.dst mem slice.src slice.len) buf

/-- Consecutive copies fill their part of the buffer. -/
theorem Tiles.fill {address : ℕ → ℕ} {slices : List Slice} {start stop : ℕ}
    (tiles : Tiles address slices start stop) (mem buf : Bytes) (i : ℕ) :
    fill mem buf slices i = if start ≤ i ∧ i < stop then mem (address i) else buf i := by
  induction slices generalizing start buf with
  | nil =>
    obtain rfl : start = stop := tiles
    exact (if_neg (by omega)).symm
  | cons slice rest ih =>
    obtain ⟨rfl, source, later⟩ := tiles
    have bound := later.le
    change BufferBlock.fill mem (memcpy buf slice.dst mem slice.src slice.len) rest i = _
    rw [ih later, memcpy]
    by_cases past : slice.dst + slice.len ≤ i ∧ i < stop
    · rw [if_pos past, if_pos (by omega)]
    · rw [if_neg past]
      by_cases here : slice.dst ≤ i ∧ i < slice.dst + slice.len
      · rw [if_pos here, if_pos (by omega), source _ (by omega), Nat.add_sub_cancel' here.1]
      · rw [if_neg here, if_neg (by omega)]

/-- The addresses that the copies read. -/
theorem Tiles.read {address : ℕ → ℕ} {slices : List Slice} {start stop : ℕ}
    (tiles : Tiles address slices start stop) {slice : Slice} (member : slice ∈ slices) {j : ℕ}
    (inside : j < slice.len) : ∃ i, start ≤ i ∧ i < stop ∧ slice.src + j = address i := by
  induction slices generalizing start with
  | nil => exact absurd member List.not_mem_nil
  | cons first rest ih =>
    obtain ⟨rfl, source, later⟩ := tiles
    have bound := later.le
    rcases List.mem_cons.mp member with rfl | member
    · exact ⟨slice.dst + j, Nat.le_add_right .., by omega, source j inside⟩
    · obtain ⟨i, low, high, same⟩ := ih later member
      exact ⟨i, by omega, high, same⟩

/-- `Copy(buf, n, loc)` puts the bytes of the block from `loc` on at the start of the buffer, as many as
both have, and nothing else, reads only bytes of the block and returns their number. -/
def CopiesRange (block : BufferBlock) (n loc : ℕ) : Prop :=
  ∃ ret slices, block.copy n loc = .ok (ret, slices) ∧ ret = min n (block.size - loc) ∧
    (∀ mem buf i, fill mem buf slices i =
      if i < min n (block.size - loc) then mem (block.address (loc + i)) else buf i) ∧
    ∀ slice ∈ slices, ∀ j < slice.len, ∃ i < block.size, slice.src + j = block.address i

/-- The search of `Copy` ends at the page of the byte before `loc`. The `n` bytes end in that page; or
they start the next page and lie in memory behind that page, at most one page of them unless that
page is a whole one. -/
def Behind (block : BufferBlock) (n loc : ℕ) : Prop :=
  ∃ before data after offset, block.pageDatas = before ++ data :: after ∧ loc = capacity before + offset ∧
    0 < offset ∧ offset ≤ locInpage data ∧
    (offset + n ≤ locInpage data ∨ offset = locInpage data ∧ (n ≤ pageSize ∨ data % pageSize = 0) ∧
      ∀ j < n, block.address (loc + j) = data + offset + j)

/-- When `Copy` is right: the range does not pass the end of the block, or starts with it; and the block
has fewer than two pages, the range is empty or starts the block, or it lies behind the byte before it. -/
def Copyable (block : BufferBlock) (n loc : ℕ) : Prop :=
  (loc + n ≤ block.size ∨ loc = 0) ∧ (block.pageNum < 2 ∨ n = 0 ∨ loc = 0 ∨ block.Behind n loc)

variable {block : BufferBlock}

/-- The copies of a part of a block. -/
def rangeSlices (block : BufferBlock) (n loc : ℕ) : List Slice :=
  if block.pageNum < 2 then [⟨0, block.dataPtr + loc, n⟩]
  else slicesFrom (skipPages block.pageDatas loc).1 (skipPages block.pageDatas loc).2 0 n

theorem copy_eq_rangeSlices (complete : none ∉ block.slots) (n loc : ℕ) :
    block.copy n loc = .ok (if n + loc > block.size then block.size else n,
      block.rangeSlices (if n + loc > block.size then block.size else n) loc) := by
  simp only [copy, datas_eq complete, ok_bind, rangeSlices]
  split_ifs <;> rfl

/-- Copies that fill the buffer from the right bytes, whatever these are, read them from their addresses. -/
theorem tiles_of_fill {address : ℕ → ℕ} {slices : List Slice} {n : ℕ}
    (filled : ∀ mem buf i, fill mem buf slices i = if i < n then mem (address i) else buf i)
    {address' : ℕ → ℕ} {stop : ℕ} (tiles : Tiles address' slices 0 stop) (bound : stop ≤ n) :
    Tiles address slices 0 n := by
  obtain rfl : stop = n := by
    by_contra short
    have here := filled (fun _ => 1) (fun _ => 0) stop
    rw [tiles.fill, if_neg (by omega), if_pos (by omega)] at here
    exact absurd here (by decide)
  apply tiles.congr
  intro i _ below
  have here := filled (fun a => if a = address i then 1 else 0) (fun _ => 0) i
  rw [tiles.fill, if_pos ⟨Nat.zero_le i, below⟩, if_pos below, if_pos rfl] at here
  by_contra apart
  rw [if_neg apart] at here
  exact absurd here (by decide)

/-- `Copy` is right where its copies read the addresses of the bytes. -/
theorem copiesRange_iff_tiles (complete : none ∉ block.slots) {n loc : ℕ} (inside : loc < block.size) :
    block.CopiesRange n loc ↔ (loc + n ≤ block.size ∨ loc = 0) ∧
      Tiles (fun i => block.address (loc + i)) (block.rangeSlices (min n (block.size - loc)) loc) 0
        (min n (block.size - loc)) := by
  have copied := copy_eq_rangeSlices complete n loc
  constructor
  · rintro ⟨ret, slices, ran, count, filled, _⟩
    rw [copied] at ran
    cases ran
    have within : loc + n ≤ block.size ∨ loc = 0 := by
      split_ifs at count <;> omega
    refine ⟨within, ?_⟩
    rw [count] at filled
    by_cases single : block.pageNum < 2
    · have tiles : Tiles (fun i => block.dataPtr + loc + i)
          (block.rangeSlices (min n (block.size - loc)) loc) 0 (min n (block.size - loc)) := by
        rw [rangeSlices, if_pos single]
        refine ⟨rfl, fun j _ => ?_, Nat.zero_add _⟩
        rw [Nat.zero_add]
      exact tiles_of_fill filled tiles le_rfl
    · obtain ⟨address', stop, tiles, bound, _⟩ := exists_tiles (skipPages block.pageDatas loc).1
        (skipPages block.pageDatas loc).2 0 (min n (block.size - loc))
      rw [Nat.zero_add] at bound
      have slices_eq : block.rangeSlices (min n (block.size - loc)) loc =
          slicesFrom (skipPages block.pageDatas loc).1 (skipPages block.pageDatas loc).2 0
            (min n (block.size - loc)) := if_neg single
      rw [← slices_eq] at tiles
      exact tiles_of_fill filled tiles bound
  · rintro ⟨within, tiles⟩
    have count : (if n + loc > block.size then block.size else n) = min n (block.size - loc) := by
      split_ifs <;> omega
    rw [count] at copied
    refine ⟨_, _, copied, rfl, fun mem buf i => ?_, fun slice member j below => ?_⟩
    · rw [tiles.fill]
      simp only [Nat.zero_le, true_and]
    · obtain ⟨i, _, high, same⟩ := tiles.read member below
      exact ⟨loc + i, by omega, same⟩

/-- Whole pages that are copied at an offset of one page lie behind one another. -/
theorem tiles_aligned_iff {data : ℕ} {rest : List ℕ} {n : ℕ}
    (aligned : ∀ page ∈ data :: rest, page % pageSize = 0) (fits : n ≤ capacity rest) (start : ℕ) :
    Tiles (fun i => locate rest (i - start)) (slicesFrom (data :: rest) pageSize start n) start (start + n) ↔
      ∀ j < n, locate rest j = data + pageSize + j := by
  induction rest generalizing data n start with
  | nil =>
    obtain rfl : n = 0 := by simpa using fits
    refine iff_of_true ?_ nofun
    rw [slicesFrom_single [] (Nat.zero_le _)]
    exact ⟨rfl, nofun, rfl⟩
  | cons next rest ih =>
    have end_mod : (data + pageSize) % pageSize = 0 := by
      rw [Nat.add_mod_right]
      exact aligned data List.mem_cons_self
    have whole_next : locInpage next = pageSize :=
      locInpage_of_mod (aligned next (List.mem_cons_of_mem _ List.mem_cons_self))
    have len := locInpage_of_mod end_mod
    rw [capacity_cons, whole_next] at fits
    rcases Nat.lt_or_ge pageSize n with crosses | ends
    · rw [slicesFrom_cons _ (by omega), len]
      have later := @ih next (n - pageSize) (fun page member => aligned page (List.mem_cons_of_mem _ member))
        (by omega) (start + pageSize)
      rw [show start + pageSize + (n - pageSize) = start + n by omega] at later
      have shift : Tiles (fun i => locate (next :: rest) (i - start))
          (slicesFrom (next :: rest) pageSize (start + pageSize) (n - pageSize)) (start + pageSize)
            (start + n) ↔ ∀ j < n - pageSize, locate rest j = next + pageSize + j := by
        rw [← later]
        have same (i : ℕ) (low : start + pageSize ≤ i) :
            locate (next :: rest) (i - start) = locate rest (i - (start + pageSize)) := by
          rw [locate, if_neg (by omega), whole_next, Nat.sub_sub]
        exact ⟨fun tiles => tiles.congr fun i low _ => same i low,
          fun tiles => tiles.congr fun i low _ => (same i low).symm⟩
      constructor
      · rintro ⟨_, bytes, tiles⟩ j below
        have joined : next = data + pageSize := by
          have first := bytes 0 (show 0 < pageSize by decide)
          dsimp only at first
          rw [Nat.add_zero, Nat.add_zero, Nat.sub_self, locate, if_pos (locInpage_pos next)] at first
          omega
        rw [locate]
        split_ifs with here
        · rw [joined]
        · rw [shift.mp tiles _ (by omega)]
          omega
      · intro contiguous
        have joined : next = data + pageSize := by
          have first := contiguous 0 (by omega)
          rwa [locate, if_pos (locInpage_pos next), Nat.add_zero, Nat.add_zero] at first
        refine ⟨rfl, fun j below => ?_, shift.mpr fun j below => ?_⟩
        · dsimp only at below ⊢
          rw [Nat.add_sub_cancel_left, contiguous j (by omega)]
        · have here := contiguous (pageSize + j) (by omega)
          rw [locate, if_neg (by omega), whole_next, Nat.add_sub_cancel_left] at here
          omega
    · rw [slicesFrom_single _ (by omega)]
      constructor
      · rintro ⟨_, bytes, _⟩ j below
        have here := bytes j below
        dsimp only at here
        rw [Nat.add_sub_cancel_left] at here
        exact here.symm
      · intro contiguous
        refine ⟨rfl, fun j below => ?_, rfl⟩
        dsimp only at below ⊢
        rw [Nat.add_sub_cancel_left, contiguous j below]

/-- A range behind a byte of the block is copied right where it lies behind that byte. -/
theorem Whole.tiles_iff_behind (whole : block.Whole) (many : 2 ≤ block.pageNum) {n loc : ℕ}
    (positive : 0 < n) (later : 0 < loc) (inside : loc + n ≤ block.size) :
    Tiles (fun i => block.address (loc + i)) (block.rangeSlices n loc) 0 n ↔ block.Behind n loc := by
  have enough := whole.enough many
  have several : ¬ block.pageNum < 2 := Nat.not_lt.mpr many
  have slices {before after : List ℕ} {data offset : ℕ} (split : block.pageDatas = before ++ data :: after)
      (place : loc = capacity before + offset) (positive : 0 < offset) (reached : offset ≤ locInpage data) :
      block.rangeSlices n loc = slicesFrom (data :: after) offset 0 n := by
    rw [rangeSlices, if_neg several, split, place, skipPages_append before after positive reached]
  have bytes {before after : List ℕ} {data offset : ℕ} (split : block.pageDatas = before ++ data :: after)
      (place : loc = capacity before + offset) (j : ℕ) :
      block.address (loc + j) = locate (data :: after) (offset + j) := by
    rw [address, if_neg several, split, place, Nat.add_assoc, locate_append]
  have aligned {before after : List ℕ} {data : ℕ} (split : block.pageDatas = before ++ data :: after) :
      ∀ page ∈ after, page % pageSize = 0 := by
    intro page member
    apply whole.aligned page
    rw [split]
    cases before with
    | nil => exact member
    | cons first before => exact List.mem_append_right _ (List.mem_cons_of_mem _ member)
  have boundary (data : ℕ) : (data + locInpage data) % pageSize = 0 := by
    simp only [locInpage, pageSize]
    omega
  constructor
  · intro tiles
    -- The page of the byte before the range, at whose end the search may stop.
    obtain ⟨before, data, after, offset, split, place, reached⟩ :=
      @exists_page block.pageDatas (loc - 1) (by omega)
    obtain ⟨offset, rfl⟩ : ∃ k, offset + 1 = k := ⟨_, rfl⟩
    have place : loc = capacity before + (offset + 1) := by omega
    refine ⟨before, data, after, offset + 1, split, place, Nat.succ_pos _, reached, ?_⟩
    rw [slices split place (Nat.succ_pos _) reached] at tiles
    have bytes := bytes split place
    rw [split, capacity_append, capacity_cons] at enough
    rcases Nat.lt_or_ge (locInpage data) (offset + 1 + n) with crosses | ends
    · have more : after ≠ [] := by
        rintro rfl
        rw [capacity_nil] at enough
        omega
      obtain ⟨next, after, rfl⟩ := List.exists_cons_of_ne_nil more
      have next_mod := aligned split next List.mem_cons_self
      have whole_next : locInpage next = pageSize := locInpage_of_mod next_mod
      have next_pos := locInpage_pos next
      rcases Nat.lt_or_ge (offset + 1) (locInpage data) with short | last
      · -- The next page is read from an offset.
        have len := locInpage_add short
        rw [slicesFrom_cons _ (by omega), len] at tiles
        have wrong := (tiles.2.2.head (by omega)).2
        rw [bytes, locate, if_neg (by omega), locate, if_pos (by omega)] at wrong
        omega
      · obtain last : offset + 1 = locInpage data := Nat.le_antisymm reached last
        have len : locInpage (data + (offset + 1)) = pageSize := by
          rw [last]
          exact locInpage_of_mod (boundary data)
        have past (j : ℕ) : block.address (loc + j) = locate (next :: after) j := by
          rw [bytes, locate, if_neg (by omega), last, Nat.add_sub_cancel_left]
        refine Or.inr ⟨last, ?_⟩
        rcases Nat.lt_or_ge pageSize n with long | short
        · have all := tiles
          rw [slicesFrom_cons _ (by omega), len] at tiles
          have more : after ≠ [] := by
            rintro rfl
            rw [capacity_cons, capacity_nil] at enough
            omega
          obtain ⟨third, after, rfl⟩ := List.exists_cons_of_ne_nil more
          have third_mod := aligned split third (by simp)
          have start := (tiles.2.2.head (Nat.sub_pos_of_lt long)).2
          rw [past, Nat.zero_add, locate, if_neg (by omega), whole_next, Nat.sub_self, locate,
            if_pos (locInpage_pos third)] at start
          have page_le := locInpage_le data
          have whole_data : offset + 1 = pageSize ∧ data % pageSize = 0 := by
            simp only [locInpage, pageSize] at *
            omega
          have chain := @tiles_aligned_iff data (next :: third :: after) n (by
            intro page member
            rcases List.mem_cons.mp member with rfl | member
            · exact whole_data.2
            · exact aligned split page member) (by omega) 0
          rw [Nat.zero_add, ← whole_data.1] at chain
          have contiguous := chain.mp (all.congr fun i _ _ => by rw [past, Nat.sub_zero])
          exact ⟨Or.inr whole_data.2, fun j below => by rw [past, contiguous j below]⟩
        · rw [slicesFrom_single _ (by omega)] at tiles
          refine ⟨Or.inl short, fun j below => ?_⟩
          have here := tiles.2.1 j below
          dsimp only at here
          rw [Nat.zero_add] at here
          exact here.symm
    · exact Or.inl ends
  · rintro ⟨before, data, after, offset, split, place, ahead, reached, ends | ⟨last, small, contiguous⟩⟩
    · rw [slices split place ahead reached, slicesFrom_single _ (by rw [locInpage_add (by omega)]; omega)]
      refine ⟨rfl, fun j below => ?_, Nat.zero_add n⟩
      dsimp only at below ⊢
      rw [Nat.zero_add, bytes split place, locate, if_pos (by omega), Nat.add_assoc]
    · subst last
      rw [slices split place ahead reached]
      rcases Nat.lt_or_ge pageSize n with crosses | short
      · have whole_data : data % pageSize = 0 := small.resolve_left (Nat.not_le.mpr crosses)
        have len := locInpage_of_mod whole_data
        rw [len] at contiguous place ⊢
        rw [split, capacity_append, capacity_cons, len] at enough
        have chain := @tiles_aligned_iff data after n (by
          intro page member
          rcases List.mem_cons.mp member with rfl | member
          · exact whole_data
          · exact aligned split page member) (by omega) 0
        rw [Nat.zero_add] at chain
        have same (i : ℕ) : block.address (loc + i) = locate after (i - 0) := by
          rw [bytes split place, locate, len, if_neg (Nat.not_lt.mpr (Nat.le_add_right ..)),
            Nat.add_sub_cancel_left, Nat.sub_zero]
        refine (chain.mpr fun j below => ?_).congr fun i _ _ => (same i).symm
        rw [← contiguous j below, same, Nat.sub_zero]
      · rw [slicesFrom_single _ (by rw [locInpage_of_mod (boundary data)]; exact short)]
        refine ⟨rfl, fun j below => ?_, Nat.zero_add n⟩
        dsimp only at below ⊢
        rw [Nat.zero_add, contiguous j below]

/-- `Copy(buf, n, loc)` is right exactly for the ranges that it can copy. -/
theorem copies_range_iff (whole : block.Whole) {n loc : ℕ} (inside : loc < block.size) :
    block.CopiesRange n loc ↔ block.Copyable n loc := by
  rw [copiesRange_iff_tiles whole.complete inside]
  apply and_congr_right
  intro within
  by_cases single : block.pageNum < 2
  · refine iff_of_true ?_ (Or.inl single)
    rw [rangeSlices, if_pos single]
    refine ⟨rfl, fun j _ => ?_, Nat.zero_add _⟩
    dsimp only
    rw [address, if_pos single, Nat.zero_add, Nat.add_assoc]
  · rcases Nat.eq_zero_or_pos n with rfl | positive
    · refine iff_of_true ?_ (Or.inr (Or.inl rfl))
      rw [Nat.zero_min, rangeSlices, if_neg single]
      cases (skipPages block.pageDatas loc).1 with
      | nil => rfl
      | cons data rest =>
        rw [slicesFrom_single rest (Nat.zero_le _)]
        exact ⟨rfl, fun j below => absurd below (Nat.not_lt_zero j), rfl⟩
    · rcases Nat.eq_zero_or_pos loc with rfl | later
      · refine iff_of_true ?_ (Or.inr (Or.inr (Or.inl rfl)))
        have enough := whole.enough (Nat.not_lt.mp single)
        have start : skipPages block.pageDatas 0 = (block.pageDatas, 0) := by
          cases block.pageDatas with
          | nil => rfl
          | cons data rest => exact if_neg (Nat.not_lt_zero _)
        have tiles := @tiles_slicesFrom block.pageDatas 0 (min n (block.size - 0)) (by omega)
        rw [Nat.zero_add] at tiles
        rw [rangeSlices, if_neg single, start]
        apply tiles.congr
        intro i _ _
        rw [address, if_neg single, Nat.zero_add, Nat.sub_zero]
      · have count : min n (block.size - loc) = n := by omega
        rw [count, whole.tiles_iff_behind (Nat.not_lt.mp single) positive later (by omega)]
        refine ⟨fun behind => Or.inr (Or.inr (Or.inr behind)), ?_⟩
        rintro (few | none | first | behind)
        · exact absurd few single
        · omega
        · omega
        · exact behind

/-- 6000 bytes of two whole pages that lie apart in memory. -/
def apartPages : BufferBlock := ⟨6000, 0, [some ⟨4096, ⟨0, 1⟩, false⟩, some ⟨12288, ⟨0, 3⟩, false⟩]⟩

theorem apartPages_whole : apartPages.Whole where
  complete := by decide
  aligned := by decide
  enough := by decide
  tight := by decide

/-- From the start `Copy` crosses into the second page. -/
theorem copies_range_apartPages : apartPages.CopiesRange 6000 0 :=
  (copies_range_iff apartPages_whole (by decide)).mpr ⟨Or.inl (by decide), Or.inr (Or.inr (Or.inl rfl))⟩

/-- At the start of the second page, `Copy` reads behind the first one. -/
theorem copies_range_not : ¬ apartPages.CopiesRange 1000 4096 := by
  rintro ⟨ret, slices, ran, _, _, reads⟩
  have value : apartPages.copy 1000 4096 = .ok (1000, [⟨0, 8192, 1000⟩]) := by decide +kernel
  rw [value] at ran
  cases ran
  obtain ⟨i, below, same⟩ := reads _ List.mem_cons_self 0 (by decide)
  have place : apartPages.address i = locate [4096, 12288] i := if_neg (by decide)
  have first : locInpage 4096 = 4096 := by decide
  have second : locInpage 12288 = 4096 := by decide
  rw [place, locate, locate, locate, first, second] at same
  have size : apartPages.size = 6000 := rfl
  dsimp only at same
  split_ifs at same <;> omega

end BufferBlock

end Gbp
