import GraphBufferPool.Block.BufferBlock

/-! # Copying bytes out of a block

`Copy(char*, size_t, size_t)` as the list of its `memcpy` calls. It searches the first page with a
strict comparison and keeps the offset of that page for the pages after it, so which addresses it
reads depends on how the requested bytes meet the page boundaries of the block; `Fits` is when they
are the addresses of the requested bytes.
-/

namespace Gbp

/-- One `memcpy`: the offset in the destination, the source address and the length. -/
structure Slice where
  dst : ℕ
  src : ℕ
  len : ℕ
deriving DecidableEq, Repr

/-- `PAGE_SIZE_MEMORY - data % PAGE_SIZE_MEMORY`: the bytes from an address to the end of its page. -/
def locInpage (data : ℕ) : ℕ := pageSize - data % pageSize

theorem locInpage_pos (data : ℕ) : 0 < locInpage data :=
  Nat.sub_pos_of_lt (Nat.mod_lt _ (by decide))

theorem locInpage_le (data : ℕ) : locInpage data ≤ pageSize := Nat.sub_le ..

theorem locInpage_of_mod {data : ℕ} (aligned : data % pageSize = 0) : locInpage data = pageSize := by
  rw [locInpage, aligned, Nat.sub_zero]

namespace BufferBlock

/-- `datas_.data`, of a block with fewer than two pages. -/
def dataPtr (block : BufferBlock) : ℕ :=
  match block.slots with
  | [some page] => page.data
  | _ => block.data

/-- `datas_.datas`. -/
def datas (block : BufferBlock) : Except Stop (List ℕ) :=
  block.slots.mapM fun
    | some page => .ok page.data
    | none => .error .badIndex

/-- The first loop of `Copy`: the pages from the one it stops at, and `offset_t`. -/
def skipPages : List ℕ → ℕ → List ℕ × ℕ
  | [], offset => ([], offset)
  | data :: rest, offset =>
    if offset > locInpage data then skipPages rest (offset - locInpage data) else (data :: rest, offset)

/-- The second loop of `Copy`. -/
def slicesFrom : List ℕ → ℕ → ℕ → ℕ → List Slice
  | [], _, _, _ => []
  | data :: rest, offset, sizeNew, sizeOld =>
    let sliceLen := if locInpage (data + offset) < sizeOld then locInpage (data + offset) else sizeOld
    ⟨sizeNew, data + offset, sliceLen⟩ ::
      if sizeOld - sliceLen = 0 then []
      else slicesFrom rest offset (sizeNew + sliceLen) (sizeOld - sliceLen)

/-- `Copy(char*, size_t, size_t)`: the value it returns, and its calls of `memcpy`. -/
def copy (block : BufferBlock) (bufSize offset : ℕ) : Except Stop (ℕ × List Slice) :=
  let ret := if bufSize + offset > block.size then block.size else bufSize
  if block.pageNum < 2 then .ok (ret, [⟨0, block.dataPtr + offset, ret⟩])
  else do
    let (pages, offset) := skipPages (← block.datas) offset
    return (ret, slicesFrom pages offset 0 ret)

/-- The address of a byte of consecutive pieces of pages. -/
def locate : List ℕ → ℕ → ℕ
  | [], i => i
  | data :: rest, i => if i < locInpage data then data + i else locate rest (i - locInpage data)

/-- The bytes that pieces of pages hold. -/
def capacity (pages : List ℕ) : ℕ := (pages.map locInpage).sum

@[simp] theorem capacity_nil : capacity [] = 0 := rfl

@[simp] theorem capacity_cons (data : ℕ) (rest : List ℕ) :
    capacity (data :: rest) = locInpage data + capacity rest := rfl

@[simp] theorem capacity_append (before after : List ℕ) :
    capacity (before ++ after) = capacity before + capacity after := by
  simp [capacity]

theorem locate_append (before after : List ℕ) (i : ℕ) :
    locate (before ++ after) (capacity before + i) = locate after i := by
  induction before generalizing i with
  | nil => simp
  | cons data before ih =>
    rw [List.cons_append, locate, capacity_cons, if_neg (by omega), Nat.add_assoc, Nat.add_sub_cancel_left,
      ih]

/-- A byte of the pages is in one of them. -/
theorem exists_page {pages : List ℕ} {i : ℕ} (inside : i < capacity pages) : ∃ before data after offset,
    pages = before ++ data :: after ∧ i = capacity before + offset ∧ offset < locInpage data := by
  induction pages generalizing i with
  | nil => exact absurd inside (Nat.not_lt_zero i)
  | cons data rest ih =>
    rcases Nat.lt_or_ge i (locInpage data) with here | later
    · exact ⟨[], data, rest, i, rfl, by rw [capacity_nil, Nat.zero_add], here⟩
    · rw [capacity_cons] at inside
      obtain ⟨before, page, after, offset, split, place, reached⟩ := @ih (i - locInpage data) (by omega)
      exact ⟨data :: before, page, after, offset, by rw [split]; rfl, by rw [capacity_cons]; omega, reached⟩

theorem locInpage_add {data offset : ℕ} (inside : offset < locInpage data) :
    locInpage (data + offset) = locInpage data - offset := by
  simp only [locInpage, pageSize] at *
  omega

/-- The pages before the one that holds the byte before `offset` are skipped. -/
theorem skipPages_append (before : List ℕ) {data : ℕ} (after : List ℕ) {offset : ℕ} (positive : 0 < offset)
    (inside : offset ≤ locInpage data) :
    skipPages (before ++ data :: after) (capacity before + offset) = (data :: after, offset) := by
  induction before with
  | nil =>
    rw [capacity_nil, Nat.zero_add, List.nil_append, skipPages, if_neg (by omega)]
  | cons first before ih =>
    rw [List.cons_append, skipPages, capacity_cons, if_pos (by omega), Nat.add_assoc,
      Nat.add_sub_cancel_left, ih]

/-- Consecutive copies fill `[start, stop)` of the destination, each byte from its address. -/
def Tiles (address : ℕ → ℕ) : List Slice → ℕ → ℕ → Prop
  | [], start, stop => start = stop
  | slice :: rest, start, stop => slice.dst = start ∧
      (∀ j < slice.len, slice.src + j = address (start + j)) ∧ Tiles address rest (start + slice.len) stop

theorem Tiles.le {address : ℕ → ℕ} {slices : List Slice} {start stop : ℕ}
    (tiles : Tiles address slices start stop) : start ≤ stop := by
  induction slices generalizing start with
  | nil => exact Nat.le_of_eq tiles
  | cons slice rest ih => exact (Nat.le_add_right ..).trans (ih tiles.2.2)

theorem Tiles.congr {address address' : ℕ → ℕ} {slices : List Slice} {start stop : ℕ}
    (tiles : Tiles address slices start stop)
    (same : ∀ i, start ≤ i → i < stop → address i = address' i) : Tiles address' slices start stop := by
  induction slices generalizing start with
  | nil => exact tiles
  | cons slice rest ih =>
    obtain ⟨here, bytes, later⟩ := tiles
    have bound := later.le
    refine ⟨here, fun j small => ?_, ih later fun i low high => same i (by omega) high⟩
    rw [bytes j small, same _ (by omega) (by omega)]

/-- A slice that ends in its page is a single copy. -/
theorem slicesFrom_single {data offset sizeNew sizeOld : ℕ} (rest : List ℕ)
    (fits : sizeOld ≤ locInpage (data + offset)) :
    slicesFrom (data :: rest) offset sizeNew sizeOld = [⟨sizeNew, data + offset, sizeOld⟩] := by
  simp only [slicesFrom, if_neg (Nat.not_lt.mpr fits), Nat.sub_self, if_true]

/-- A slice that does not end in its page goes on with the next page. -/
theorem slicesFrom_cons {data offset sizeNew sizeOld : ℕ} (rest : List ℕ)
    (crosses : locInpage (data + offset) < sizeOld) :
    slicesFrom (data :: rest) offset sizeNew sizeOld =
      ⟨sizeNew, data + offset, locInpage (data + offset)⟩ ::
        slicesFrom rest offset (sizeNew + locInpage (data + offset))
          (sizeOld - locInpage (data + offset)) := by
  simp only [slicesFrom, if_pos crosses]
  rw [if_neg (by omega)]

/-- From the start of a block the copies are right. -/
theorem tiles_slicesFrom (pages : List ℕ) (start : ℕ) {size : ℕ} (fits : size ≤ capacity pages) :
    Tiles (fun i => locate pages (i - start)) (slicesFrom pages 0 start size) start (start + size) := by
  induction pages generalizing start size with
  | nil =>
    obtain rfl : size = 0 := by simpa using fits
    rfl
  | cons data rest ih =>
    rcases Nat.lt_or_ge (locInpage data) size with crosses | ends
    · rw [slicesFrom_cons rest crosses]
      have fits : size - locInpage data ≤ capacity rest := by
        rw [capacity_cons] at fits
        omega
      have later := ih (start + locInpage data) fits
      rw [show start + locInpage data + (size - locInpage data) = start + size by omega] at later
      refine ⟨rfl, fun j small => ?_, later.congr fun i low high => ?_⟩
      · change data + j = locate (data :: rest) (start + j - start)
        rw [locate, Nat.add_sub_cancel_left, if_pos (show j < locInpage data from small)]
      · change start + locInpage data ≤ i at low
        rw [locate, if_neg (by omega), Nat.sub_sub]
    · rw [slicesFrom_single rest ends]
      refine ⟨rfl, fun j small => ?_, rfl⟩
      change data + j = locate (data :: rest) (start + j - start)
      rw [locate, Nat.add_sub_cancel_left, if_pos (lt_of_lt_of_le small ends)]

/-- The addresses of the inserted pages. -/
def pageDatas (block : BufferBlock) : List ℕ := block.slots.reduceOption.map BlockPage.data

/-- The address of a byte of a block. -/
def address (block : BufferBlock) (i : ℕ) : ℕ :=
  if block.pageNum < 2 then block.dataPtr + i else locate block.pageDatas i

/-- A block as the calls that fetch blocks fill it: every page inserted, all but the first from its
start, and no page more than the bytes need. -/
structure Whole (block : BufferBlock) : Prop where
  complete : none ∉ block.slots
  aligned : ∀ data ∈ block.pageDatas.tail, data % pageSize = 0
  enough : 2 ≤ block.pageNum → block.size ≤ capacity block.pageDatas
  tight : 2 ≤ block.pageNum → capacity block.pageDatas.dropLast < block.size

/-- Each page of the block lies in memory where the page before it ends. -/
def Adjacent (pages : List ℕ) : Prop := pages.IsChain fun data next => next = data + locInpage data

/-- `Copy` reads the right bytes for a destination that starts at this offset in its page: the block
has fewer than two pages, or two that the first page of the destination reaches into, or pages that
are adjacent in memory and meet the page boundaries of the destination. -/
def Fits (block : BufferBlock) (fpageOffset : ℕ) : Prop :=
  block.pageNum < 2 ∨ ∃ first rest, block.pageDatas = first :: rest ∧
    (rest.length = 1 ∧ fpageOffset < first % pageSize ∨
      fpageOffset = first % pageSize ∧ Adjacent (first :: rest))

variable {block : BufferBlock}

theorem datas_eq (complete : none ∉ block.slots) : block.datas = .ok block.pageDatas := by
  unfold datas pageDatas
  generalize block.slots = slots at complete
  induction slots with
  | nil => rfl
  | cons slot slots ih =>
    have rest := ih fun member => complete (List.mem_cons_of_mem _ member)
    cases slot with
    | none => exact absurd List.mem_cons_self complete
    | some page =>
      rw [List.mapM_cons, rest]
      rfl

theorem length_pageDatas (complete : none ∉ block.slots) : block.pageDatas.length = block.pageNum := by
  unfold pageDatas pageNum
  generalize block.slots = slots at complete
  induction slots with
  | nil => rfl
  | cons slot slots ih =>
    have rest := ih fun member => complete (List.mem_cons_of_mem _ member)
    cases slot with
    | none => exact absurd List.mem_cons_self complete
    | some page => simpa [List.reduceOption] using rest

/-- `Copy` of a part of a block. -/
theorem copy_eq {n offset : ℕ} (inside : offset + n ≤ block.size) (complete : none ∉ block.slots) :
    block.copy n offset = .ok (n, if block.pageNum < 2 then [⟨0, block.dataPtr + offset, n⟩]
      else slicesFrom (skipPages block.pageDatas offset).1 (skipPages block.pageDatas offset).2 0 n) := by
  have ret : (if n + offset > block.size then block.size else n) = n := if_neg (by omega)
  simp only [copy, ret, datas_eq complete, ok_bind]
  split_ifs <;> rfl

/-- Pages that are adjacent in memory are one run of bytes. -/
theorem Adjacent.locate {data : ℕ} {rest : List ℕ} (adjacent : Adjacent (data :: rest)) {i : ℕ}
    (inside : i < capacity (data :: rest)) : locate (data :: rest) i = data + i := by
  induction rest generalizing data i with
  | nil =>
    rw [BufferBlock.locate]
    split_ifs with here
    · rfl
    · simp at inside
      omega
  | cons next rest ih =>
    obtain ⟨joined, adjacent⟩ := List.isChain_cons_cons.mp adjacent
    rw [BufferBlock.locate]
    split_ifs with here
    · rfl
    · rw [capacity_cons] at inside
      rw [ih adjacent (by omega), joined]
      omega

/-- In adjacent pages `Copy` starts at the right address, be it that of the end of a page. -/
theorem Adjacent.skipPages {data offset : ℕ} {rest : List ℕ} (adjacent : Adjacent (data :: rest))
    (inside : offset ≤ capacity (data :: rest)) : ∃ page after offset',
      skipPages (data :: rest) offset = (page :: after, offset') ∧ page + offset' = data + offset := by
  induction rest generalizing data offset with
  | nil =>
    rw [capacity_cons, capacity_nil] at inside
    exact ⟨data, [], offset, by rw [BufferBlock.skipPages, if_neg (by omega)], rfl⟩
  | cons next rest ih =>
    obtain ⟨joined, adjacent⟩ := List.isChain_cons_cons.mp adjacent
    rw [BufferBlock.skipPages]
    split_ifs with past
    · rw [capacity_cons] at inside
      obtain ⟨page, after, offset', skipped, same⟩ := @ih _ (offset - locInpage data) adjacent (by omega)
      exact ⟨page, after, offset', skipped, by omega⟩
    · exact ⟨data, next :: rest, offset, rfl, rfl⟩

/-- Where the block fits, each piece of a destination is copied from the addresses of its bytes. -/
theorem Whole.tiles (whole : block.Whole) {fileOffset done n : ℕ} (fits : block.Fits (fileOffset % pageSize))
    (inside : done + n ≤ block.size) (start : done = 0 ∨ (fileOffset + done) % pageSize = 0)
    (page : (fileOffset + done) % pageSize + n ≤ pageSize) (positive : 0 < n) : ∃ slices,
      block.copy n done = .ok (n, slices) ∧ Tiles (fun i => block.address (done + i)) slices 0 n := by
  refine ⟨_, copy_eq inside whole.complete, ?_⟩
  unfold address
  rcases Nat.lt_or_ge block.pageNum 2 with few | many
  · simp only [if_pos few]
    refine ⟨rfl, fun j _ => ?_, Nat.zero_add n⟩
    change block.dataPtr + done + j = block.dataPtr + (done + (0 + j))
    omega
  simp only [if_neg (Nat.not_lt.mpr many)]
  have enough := whole.enough many
  obtain ⟨first, rest, pages⟩ : ∃ first rest, block.pageDatas = first :: rest := by
    apply List.exists_cons_of_length_pos
    rw [length_pageDatas whole.complete]
    omega
  have aligned := whole.aligned
  rw [pages] at enough aligned ⊢
  rcases Nat.eq_zero_or_pos done with rfl | later
  · -- The first piece starts at the first page, where nothing is skipped.
    rw [skipPages, if_neg (by omega)]
    have tiles := tiles_slicesFrom (first :: rest) 0 (inside.trans enough)
    rw [Nat.zero_add, Nat.zero_add] at tiles
    exact tiles.congr fun i _ _ => by rw [Nat.zero_add, Nat.sub_zero]
  have boundary : (fileOffset + done) % pageSize = 0 := start.resolve_left later.ne'
  obtain few | ⟨_, _, same, reached⟩ := fits
  · exact absurd few (Nat.not_lt.mpr many)
  cases pages.symm.trans same
  rcases reached with ⟨one, before⟩ | ⟨same, adjacent⟩
  · -- The second piece starts inside the second page, and ends there.
    obtain ⟨next, rfl⟩ := List.length_eq_one_iff.mp one
    have whole_next : locInpage next = pageSize := locInpage_of_mod (aligned next (by simp))
    have next_mod := aligned next (by simp)
    simp only [capacity_cons, capacity_nil, whole_next] at enough
    have offset_lt : done - locInpage first < pageSize := by
      simp only [locInpage, pageSize] at *
      omega
    have rest_next : locInpage (next + (done - locInpage first)) = pageSize - (done - locInpage first) := by
      rw [locInpage, Nat.add_mod, next_mod, Nat.zero_add, Nat.mod_mod, Nat.mod_eq_of_lt offset_lt]
    have past : locInpage first < done := by
      simp only [locInpage, pageSize] at *
      omega
    have skipped := @skipPages_append [first] next [] _ (Nat.sub_pos_of_lt past)
      (offset_lt.le.trans_eq whole_next.symm)
    rw [capacity_cons, capacity_nil, Nat.add_zero, Nat.add_sub_cancel' past.le] at skipped
    rw [List.singleton_append] at skipped
    have ends : n ≤ locInpage (next + (done - locInpage first)) := by
      rw [rest_next]
      omega
    rw [skipped, slicesFrom_single [] ends]
    refine ⟨rfl, fun j small => ?_, Nat.zero_add n⟩
    change j < n at small
    change next + (done - locInpage first) + j = locate [first, next] (done + (0 + j))
    rw [locate, if_neg (by omega), locate, if_pos (by rw [whole_next]; omega)]
    omega
  · -- The piece starts where a page of the destination does, and so does its source.
    obtain ⟨data, after, offset, skipped, address⟩ := @Adjacent.skipPages _ done _ adjacent (by omega)
    rw [skipped]
    have aligned : (data + offset) % pageSize = 0 := by
      rw [address]
      simp only [pageSize] at *
      omega
    have ends : n ≤ locInpage (data + offset) := by
      rw [locInpage_of_mod aligned]
      omega
    rw [slicesFrom_single after ends]
    refine ⟨rfl, fun j small => ?_, Nat.zero_add n⟩
    change j < n at small
    change data + offset + j = locate (first :: rest) (done + (0 + j))
    rw [adjacent.locate (by omega), address]
    omega

section misfit

/-- The first of the copies. -/
theorem Tiles.head {address : ℕ → ℕ} {data offset start size stop : ℕ} {rest : List ℕ}
    (tiles : Tiles address (slicesFrom (data :: rest) offset start size) start stop) (positive : 0 < size) :
    start < stop ∧ address start = data + offset := by
  obtain ⟨_, bytes, later⟩ := tiles
  have len_pos : 0 < if locInpage (data + offset) < size then locInpage (data + offset) else size := by
    split_ifs
    · exact locInpage_pos _
    · exact positive
  exact ⟨(Nat.lt_add_of_pos_right len_pos).trans_le later.le, (bytes 0 len_pos).symm⟩

/-- The copies of `Copy` fill consecutive bytes, whatever addresses they read. -/
theorem exists_tiles (pages : List ℕ) (offset start size : ℕ) : ∃ address stop,
    Tiles address (slicesFrom pages offset start size) start stop ∧ stop ≤ start + size ∧
      ∀ i, start ≤ i → i < stop → ∃ data ∈ pages, data ≤ address i := by
  induction pages generalizing start size with
  | nil => exact ⟨id, start, rfl, Nat.le_add_right .., fun i low high => absurd low (by omega)⟩
  | cons data rest ih =>
    have near (n i : ℕ) (low : start ≤ i) (high : i < n) : ∃ page ∈ data :: rest,
        page ≤ data + offset + (i - start) :=
      ⟨data, List.mem_cons_self, by omega⟩
    rcases Nat.lt_or_ge (locInpage (data + offset)) size with crosses | ends
    · rw [slicesFrom_cons rest crosses]
      set len := locInpage (data + offset)
      obtain ⟨address, stop, tiles, bound, within⟩ := ih (start + len) (size - len)
      refine ⟨fun i => if i < start + len then data + offset + (i - start) else address i, stop,
        ⟨rfl, fun j small => ?_, tiles.congr fun i low _ => ?_⟩, by omega, fun i low high => ?_⟩
      · change j < len at small
        change data + offset + j = if start + j < start + len then data + offset + (start + j - start)
          else address (start + j)
        rw [if_pos (by omega), Nat.add_sub_cancel_left]
      · change start + len ≤ i at low
        rw [if_neg (by omega)]
      · dsimp only
        split_ifs with here
        · exact near _ i low high
        · obtain ⟨page, member, below⟩ := within i (by omega) high
          exact ⟨page, List.mem_cons_of_mem _ member, below⟩
    · rw [slicesFrom_single rest ends]
      refine ⟨fun i => data + offset + (i - start), start + size, ⟨rfl, fun j _ => ?_, rfl⟩, le_rfl,
        near _⟩
      change data + offset + j = data + offset + (start + j - start)
      rw [Nat.add_sub_cancel_left]

/-- Somewhere a page is not where the one before it ends. -/
theorem exists_break {pages : List ℕ} (broken : ¬ Adjacent pages) : ∃ before data next after,
    pages = before ++ data :: next :: after ∧ next ≠ data + locInpage data := by
  induction pages with
  | nil => exact absurd List.isChain_nil broken
  | cons data rest ih =>
    cases rest with
    | nil => exact absurd (List.isChain_singleton data) broken
    | cons next after =>
      by_cases joined : next = data + locInpage data
      · have later : ¬ Adjacent (next :: after) := fun adjacent =>
          broken (List.isChain_cons_cons.mpr ⟨joined, adjacent⟩)
        obtain ⟨before, data', next', after', split, apart⟩ := ih later
        exact ⟨data :: before, data', next', after', by rw [split]; rfl, apart⟩
      · exact ⟨[], data, next, after, rfl, joined⟩

theorem capacity_of_aligned {pages : List ℕ} (aligned : ∀ data ∈ pages, data % pageSize = 0) :
    capacity pages = pages.length * pageSize := by
  induction pages with
  | nil => simp
  | cons data rest ih =>
    rw [capacity_cons, ih fun page member => aligned page (List.mem_cons_of_mem _ member),
      locInpage_of_mod (aligned data List.mem_cons_self), List.length_cons, Nat.succ_mul, Nat.add_comm]

/-- A byte of a piece is in one of the pages. -/
theorem exists_locate {pages : List ℕ} {i : ℕ} (inside : i < capacity pages) :
    ∃ data ∈ pages, data ≤ locate pages i := by
  induction pages generalizing i with
  | nil => exact absurd inside (Nat.not_lt_zero i)
  | cons data rest ih =>
    rw [locate]
    split_ifs with here
    · exact ⟨data, List.mem_cons_self, Nat.le_add_right ..⟩
    · rw [capacity_cons] at inside
      obtain ⟨page, member, below⟩ := @ih (i - locInpage data) (by omega)
      exact ⟨page, List.mem_cons_of_mem _ member, below⟩

theorem Whole.exists_address (whole : block.Whole) (many : 2 ≤ block.pageNum) {i : ℕ} (inside : i < block.size) :
    ∃ data ∈ block.pageDatas, data ≤ block.address i := by
  rw [address, if_neg (Nat.not_lt.mpr many)]
  exact exists_locate (inside.trans_le (whole.enough many))

/-- Within the bytes of the pages, the search stops at one of them. -/
theorem exists_skipPages {pages : List ℕ} (some : pages ≠ []) {offset : ℕ} (inside : offset ≤ capacity pages) :
    ∃ before data after offset', pages = before ++ data :: after ∧
      skipPages pages offset = (data :: after, offset') := by
  induction pages generalizing offset with
  | nil => exact absurd rfl some
  | cons data rest ih =>
    rw [skipPages]
    split_ifs with past
    · rw [capacity_cons] at inside
      have more : rest ≠ [] := by
        rintro rfl
        rw [capacity_nil] at inside
        omega
      obtain ⟨before, page, after, offset', split, skipped⟩ :=
        @ih more (offset - locInpage data) (by omega)
      exact ⟨data :: before, page, after, offset', by rw [split]; rfl, skipped⟩
    · exact ⟨[], data, rest, offset, rfl, rfl⟩

/-- Whatever `Copy` reads, it is in memory behind the start of some page of the block. -/
theorem Whole.exists_copy (whole : block.Whole) (many : 2 ≤ block.pageNum) {done n : ℕ} (positive : 0 < n)
    (inside : done + n ≤ block.size) : ∃ slices address stop, block.copy n done = .ok (n, slices) ∧
      Tiles address slices 0 stop ∧ 0 < stop ∧ stop ≤ n ∧
        ∀ i < stop, ∃ data ∈ block.pageDatas, data ≤ address i := by
  have some : block.pageDatas ≠ [] := by
    apply List.ne_nil_of_length_pos
    rw [length_pageDatas whole.complete]
    omega
  have enough := whole.enough many
  obtain ⟨before, data, after, offset, split, skipped⟩ :=
    @exists_skipPages _ some done (by omega)
  have copied := copy_eq inside whole.complete
  rw [if_neg (Nat.not_lt.mpr many), skipped] at copied
  obtain ⟨address, stop, tiles, total, near⟩ := exists_tiles (data :: after) offset 0 n
  rw [Nat.zero_add] at total
  refine ⟨_, address, stop, copied, tiles, (tiles.head positive).1, total, fun i small => ?_⟩
  obtain ⟨page, member, below⟩ := near i (Nat.zero_le i) small
  exact ⟨page, by rw [split]; exact List.mem_append_right _ member, below⟩

/-- A piece of the destination of which `Copy` fills some byte from another address. -/
structure Misplaced (block : BufferBlock) (fileOffset : ℕ) where
  done : ℕ
  inside : done < block.size
  boundary : (fileOffset + done) % pageSize = 0
  slices : List Slice
  copy : block.copy (min pageSize (block.size - done)) done =
    .ok (min pageSize (block.size - done), slices)
  address : ℕ → ℕ
  stop : ℕ
  tiles : Tiles address slices 0 stop
  bound : stop ≤ min pageSize (block.size - done)
  near : ∀ i < stop, ∃ data ∈ block.pageDatas, data ≤ address i
  byte : ℕ
  filled : byte < stop
  wrong : address byte ≠ block.address (done + byte)

/-- A piece whose source starts in the page `data`, `offset` bytes from its first byte in the block. -/
theorem Whole.misplaced_of (whole : block.Whole) (many : 2 ≤ block.pageNum) {fileOffset data offset : ℕ}
    {before after : List ℕ} (split : block.pageDatas = before ++ data :: after) (positive : 0 < offset)
    (reached : offset ≤ locInpage data) (inside : capacity before + offset < block.size)
    (boundary : (fileOffset + (capacity before + offset)) % pageSize = 0)
    (wrong : ∀ address stop, Tiles address (slicesFrom (data :: after) offset 0
        (min pageSize (block.size - (capacity before + offset)))) 0 stop →
      ∃ byte < stop, address byte ≠ locate (data :: after) (offset + byte)) :
    Nonempty (block.Misplaced fileOffset) := by
  set done := capacity before + offset with done_eq
  set n := min pageSize (block.size - done) with n_eq
  have bound : n ≤ block.size - done := min_le_right ..
  obtain ⟨address, stop, tiles, total, near⟩ := exists_tiles (data :: after) offset 0 n
  obtain ⟨byte, filled, apart⟩ := wrong address stop tiles
  have copied := @copy_eq block n done (by omega) whole.complete
  rw [if_neg (Nat.not_lt.mpr many), split, done_eq, skipPages_append before after positive reached] at copied
  refine ⟨⟨done, inside, boundary, _, copied, address, stop, tiles, ?_, fun i small => ?_, byte, filled, ?_⟩⟩
  · rwa [Nat.zero_add] at total
  · obtain ⟨page, member, below⟩ := near i (Nat.zero_le i) small
    exact ⟨page, by rw [split]; exact List.mem_append_right _ member, below⟩
  · rw [BufferBlock.address, if_neg (Nat.not_lt.mpr many), split, done_eq, Nat.add_assoc, locate_append]
    exact apart

/-- A piece that goes on with another page reads that page from an offset. -/
theorem Whole.misplaced_of_crosses (whole : block.Whole) (many : 2 ≤ block.pageNum)
    {fileOffset data next offset : ℕ} {before after : List ℕ}
    (split : block.pageDatas = before ++ data :: next :: after) (positive : 0 < offset)
    (reached : offset < locInpage data)
    (crosses : capacity before + locInpage data < block.size)
    (boundary : (fileOffset + (capacity before + offset)) % pageSize = 0) :
    Nonempty (block.Misplaced fileOffset) := by
  have left : locInpage (data + offset) = locInpage data - offset := by
    simp only [locInpage, pageSize] at *
    omega
  have small := locInpage_le data
  apply whole.misplaced_of many split positive reached.le (by omega) boundary
  intro address stop tiles
  rw [slicesFrom_cons _ (by omega)] at tiles
  obtain ⟨filled, source⟩ := tiles.2.2.head (by omega)
  refine ⟨_, filled, ?_⟩
  rw [source, Nat.zero_add, left, Nat.add_sub_cancel' reached.le, locate, if_neg (lt_irrefl _), Nat.sub_self,
    locate, if_pos (locInpage_pos next)]
  omega

/-- Where the block does not fit, some byte is copied from another address. -/
theorem Whole.misplaced (whole : block.Whole) {fileOffset : ℕ}
    (misfit : ¬ block.Fits (fileOffset % pageSize)) : Nonempty (block.Misplaced fileOffset) := by
  simp only [Fits, not_or, Nat.not_lt, not_exists, not_and] at misfit
  obtain ⟨many, reached⟩ := misfit
  obtain ⟨first, rest, pages⟩ : ∃ first rest, block.pageDatas = first :: rest := by
    apply List.exists_cons_of_length_pos
    rw [length_pageDatas whole.complete]
    omega
  have count : rest.length + 1 = block.pageNum := by
    rw [← length_pageDatas whole.complete, pages, List.length_cons]
  have aligned := whole.aligned
  have tight := whole.tight many
  obtain ⟨few, apart⟩ := reached first rest pages
  rw [pages] at aligned tight
  rcases Nat.lt_trichotomy (fileOffset % pageSize) (first % pageSize) with lower | same | higher
  · -- The second piece starts inside the second page and reaches into the third.
    obtain ⟨next, rest, rfl⟩ := List.exists_cons_of_length_pos (show 0 < rest.length by omega)
    rw [List.length_cons] at count few
    obtain ⟨third, after, rfl⟩ := List.exists_cons_of_length_pos (show 0 < rest.length by omega)
    have whole_next : locInpage next = pageSize := locInpage_of_mod (aligned next List.mem_cons_self)
    simp only [List.dropLast_cons_cons, capacity_cons] at tight
    have first_mod := Nat.mod_lt first (show 0 < pageSize by decide)
    refine @misplaced_of_crosses _ whole many _ next third (first % pageSize - fileOffset % pageSize)
      [first] after pages (Nat.sub_pos_of_lt lower) (by omega) ?_ ?_
    · rw [capacity_cons, capacity_nil]
      omega
    · simp only [capacity_cons, capacity_nil, locInpage, pageSize] at *
      omega
  · -- Every piece starts where a page of the block does.
    obtain ⟨before, data, next, after, split, apart⟩ := exists_break (apart same)
    have next_mod : next % pageSize = 0 := by
      apply aligned
      cases before with
      | nil =>
        cases split
        exact List.mem_cons_self
      | cons page before =>
        cases split
        simp
    have boundary : (fileOffset + (capacity before + locInpage data)) % pageSize = 0 := by
      cases before with
      | nil =>
        cases split
        simp only [capacity_nil, locInpage, pageSize] at *
        omega
      | cons page before =>
        cases split
        have whole_before := capacity_of_aligned fun page member => aligned page (List.mem_append_left _ member)
        have whole_data := locInpage_of_mod (aligned data (by simp))
        rw [capacity_cons, whole_before, whole_data]
        simp only [locInpage, pageSize] at *
        omega
    rw [split, List.dropLast_append_of_ne_nil (by nofun), List.dropLast_cons_cons, capacity_append,
      capacity_cons] at tight
    refine whole.misplaced_of many (pages.trans split) (locInpage_pos data) le_rfl (by omega) boundary
      fun address stop tiles => ?_
    obtain ⟨filled, source⟩ := tiles.head (by simp only [pageSize]; omega)
    refine ⟨0, filled, ?_⟩
    rw [source, Nat.add_zero, locate, if_neg (lt_irrefl _), Nat.sub_self, locate,
      if_pos (locInpage_pos next)]
    exact fun same => apart same.symm
  · -- The second piece starts inside the first page.
    obtain ⟨next, after, rfl⟩ := List.exists_cons_of_length_pos (show 0 < rest.length by omega)
    simp only [List.dropLast_cons_cons, capacity_cons] at tight
    have offset_lt := Nat.mod_lt fileOffset (show 0 < pageSize by decide)
    refine @misplaced_of_crosses _ whole many _ first next (pageSize - fileOffset % pageSize) [] after
      pages (Nat.sub_pos_of_lt offset_lt) ?_ ?_ ?_
    · simp only [locInpage, pageSize] at *
      omega
    · rw [capacity_nil]
      omega
    · simp only [capacity_nil, pageSize] at *
      omega

end misfit

end BufferBlock

end Gbp
