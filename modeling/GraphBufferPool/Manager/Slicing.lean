import GraphBufferPool.Manager.BlockSync

/-! # The pieces of a range

`GetBlock` and both overloads of `SetBlock` cut a range of a file into pieces of its pages, and
`GetBlockSync` computes how many pages there are. A run of the loop is a straight line of visits, one
for each piece, whatever a visit does; the pieces are the pages of the range in order and make up the
range.
-/

namespace Gbp

/-- A piece of a page. -/
structure Piece where
  fpageId : ℕ
  pageOffset : ℕ
  length : ℕ
deriving DecidableEq, Repr

/-- The offsets in the file of its bytes. -/
def Piece.span (piece : Piece) : List ℕ := List.range' (piece.fpageId * pageSize + piece.pageOffset) piece.length

/-- The pieces of the pages of `[offset, offset + size)`. -/
structure CoversExactly (offset size : ℕ) (pieces : List Piece) : Prop where
  pages : pieces.map Piece.fpageId = List.range' (offset / pageSize) pieces.length
  nonempty : ∀ piece ∈ pieces, 0 < piece.length
  within : ∀ piece ∈ pieces, piece.pageOffset + piece.length ≤ pageSize
  total : pieces.flatMap Piece.span = List.range' offset size

section visits

variable {σ : Type} {body : ℕ → ℕ → ℕ → ℕ → ℕ → σ → Except Stop (ℕ × σ)} {offset size done : ℕ}

/-- The visits of the pieces, one after the other. -/
def visitPieces (body : ℕ → ℕ → ℕ → ℕ → ℕ → σ → Except Stop (ℕ × σ)) :
    ℕ → List Piece → ℕ → ℕ → σ → Except Stop σ
  | _, [], _, _, s => .ok s
  | fuel, piece :: pieces, left, done, s => do
    let result ← body (fuel - 1) piece.fpageId piece.pageOffset left done s
    visitPieces body (fuel - 1) pieces (left - piece.length) (done + piece.length) result.2

/-- A body that returns the length `SetObject` and `GetObject` compute. -/
def Sized (size : ℕ) (body : ℕ → ℕ → ℕ → ℕ → ℕ → σ → Except Stop (ℕ × σ)) : Prop :=
  ∀ fuel fpageId pageOffset left done s result, pageOffset < pageSize → done + left = size →
    body fuel fpageId pageOffset left done s = .ok result → result.1 = objectSize pageOffset left

theorem coversExactly_nil (offset : ℕ) : CoversExactly offset 0 [] :=
  ⟨rfl, by simp, by simp, rfl⟩

/-- The first piece of a range, and the pieces of the rest. -/
theorem CoversExactly.cons {pieces : List Piece} (positive : 0 < size)
    (rest : CoversExactly (offset + objectSize (offset % pageSize) size)
      (size - objectSize (offset % pageSize) size) pieces) :
    CoversExactly offset size
      (⟨offset / pageSize, offset % pageSize, objectSize (offset % pageSize) size⟩ :: pieces) := by
  have inPage : offset % pageSize < pageSize := Nat.mod_lt _ (by decide)
  have some := objectSize_pos inPage positive
  have fits := objectSize_le (offset % pageSize) size
  have ends := @objectSize_add_le _ size inPage
  have next := @objectSize_end _ size inPage
  set n := objectSize (offset % pageSize) size
  have split : offset / pageSize * pageSize + offset % pageSize = offset := Nat.div_add_mod' offset pageSize
  refine ⟨?_, ?_, ?_, ?_⟩
  · rw [List.map_cons, List.length_cons, List.range'_succ, rest.pages]
    cases pieces with
    | nil => rfl
    | cons piece pieces =>
      have later : n < size := by
        refine Nat.lt_of_le_of_ne fits fun all => ?_
        have empty := rest.total
        rw [all, Nat.sub_self, List.range'_zero, List.flatMap_eq_nil_iff] at empty
        have bytes := empty piece (List.mem_cons_self ..)
        rw [Piece.span, List.range'_eq_nil_iff] at bytes
        have := rest.nonempty piece (List.mem_cons_self ..)
        omega
      have full := next.resolve_left (Nat.ne_of_lt later)
      have page : (offset + n) / pageSize = offset / pageSize + 1 := by
        unfold pageSize at *
        omega
      rw [page]
  · intro piece member
    obtain rfl | member := List.mem_cons.mp member
    · exact some
    · exact rest.nonempty piece member
  · intro piece member
    obtain rfl | member := List.mem_cons.mp member
    · exact ends
    · exact rest.within piece member
  · rw [List.flatMap_cons, rest.total, Piece.span, split, List.range'_append_1, Nat.add_sub_cancel' fits]

/-- The number of pages of a range. -/
def pageCount (offset size : ℕ) : ℕ := if size = 0 then 0 else (offset + size - 1) / pageSize - offset / pageSize + 1

/-- `num_page` counts the pages of the range. -/
theorem pageNum_eq (positive : 0 < size) : FileBlock.pageNum ⟨offset, size⟩ = pageCount offset size := by
  have inPage : offset % pageSize < pageSize := Nat.mod_lt _ (by decide)
  unfold FileBlock.pageNum pageCount ceil pageSize at *
  dsimp only
  split_ifs <;> omega

theorem pageCount_cons (positive : 0 < size) :
    pageCount offset size = pageCount (offset + objectSize (offset % pageSize) size)
      (size - objectSize (offset % pageSize) size) + 1 := by
  have inPage : offset % pageSize < pageSize := Nat.mod_lt _ (by decide)
  have some := objectSize_pos inPage positive
  have fits := objectSize_le (offset % pageSize) size
  have ends := @objectSize_add_le _ size inPage
  have next := @objectSize_end _ size inPage
  generalize objectSize (offset % pageSize) size = n at *
  unfold pageCount pageSize at *
  split_ifs <;> omega

/-- The loop visits the pieces of its range. -/
theorem exists_pieces (total : ℕ) (left : ℕ) : ∀ offset, offset + left ≤ fpageIdRange * pageSize →
    ∃ pieces, CoversExactly offset left pieces ∧ pieces.length = pageCount offset left ∧
      ∀ {σ : Type} {body : ℕ → ℕ → ℕ → ℕ → ℕ → σ → Except Stop (ℕ × σ)}, Sized total body →
        ∀ {fuel done fpageId pageOffset}, pieces.length < fuel → done + left = total →
          (0 < left → fpageId = offset / pageSize ∧ pageOffset = offset % pageSize) → ∀ s,
          blockLoop body fuel fpageId pageOffset left done s = visitPieces body fuel pieces left done s := by
  induction left using Nat.strong_induction_on with
  | _ left ih =>
  intro offset bound
  rcases Nat.eq_zero_or_pos left with rfl | positive
  · refine ⟨[], coversExactly_nil offset, rfl, ?_⟩
    intro σ body sized fuel done fpageId pageOffset enough here at_ s
    obtain ⟨fuel, rfl⟩ := Nat.exists_eq_succ_of_ne_zero (Nat.pos_iff_ne_zero.mp enough)
    rfl
  · have inPage : offset % pageSize < pageSize := Nat.mod_lt _ (by decide)
    have some := objectSize_pos inPage positive
    have fits := objectSize_le (offset % pageSize) left
    have next := @objectSize_end _ left inPage
    obtain ⟨pieces, cover, count, visits⟩ := ih (left - objectSize (offset % pageSize) left) (by omega)
      (offset + objectSize (offset % pageSize) left) (by omega)
    refine ⟨_, cover.cons positive, by rw [List.length_cons, count, pageCount_cons positive], ?_⟩
    intro σ body sized fuel done fpageId pageOffset enough here at_ s
    rw [List.length_cons] at enough
    obtain ⟨fuel, rfl⟩ := Nat.exists_eq_succ_of_ne_zero (Nat.pos_iff_ne_zero.mp (Nat.zero_lt_of_lt enough))
    obtain ⟨rfl, rfl⟩ := at_ positive
    rw [blockLoop, if_neg (Nat.pos_iff_ne_zero.mp positive), visitPieces, Nat.succ_sub_one]
    cases visited : body fuel (offset / pageSize) (offset % pageSize) left done s with
    | error stop => rfl
    | ok result =>
      obtain ⟨n, after⟩ := result
      obtain rfl : n = objectSize (offset % pageSize) left := sized _ _ _ _ _ _ _ inPage here visited
      refine visits sized (by omega) (by omega) (fun later => ?_) after
      have full := next.resolve_left (by omega)
      unfold pageSize fpageIdRange at *
      omega

end visits

namespace BufferPoolManager

variable {R : Type} [Replacer R]

theorem sized_getBlockBody (size fd : ℕ) : Sized size (@getBlockBody R _ fd) := by
  rintro fuel fpageId pageOffset left done ⟨buf, mgr⟩ result - - ran
  obtain ⟨⟨m, fetched⟩, -, ran⟩ := bind_eq_ok.mp ran
  cases ran
  rfl

theorem sized_setBlockBody (size : ℕ) (buf : Bytes) (fd : ℕ) (flush : Bool) :
    Sized size (@setBlockBody R _ buf fd flush) := by
  rintro fuel fpageId pageOffset left done mgr result - - ran
  obtain ⟨⟨m, fetched⟩, -, ran⟩ := bind_eq_ok.mp ran
  cases flush
  · cases ran
    rfl
  · obtain ⟨⟨flushed, saved⟩, -, ran⟩ := bind_eq_ok.mp ran
    obtain ⟨-, -, ran⟩ := bind_eq_ok.mp ran
    cases ran
    rfl

/-- `Copy` returns the length it is given as long as the block is long enough. -/
theorem copy_length {block : BufferBlock} {bufSize offset n : ℕ} {slices : List Slice}
    (enough : bufSize + offset ≤ block.size) (copied : block.copy bufSize offset = .ok (n, slices)) :
    n = bufSize := by
  unfold BufferBlock.copy at copied
  rw [if_neg (Nat.not_lt.mpr enough)] at copied
  split_ifs at copied
  · cases copied
    rfl
  · obtain ⟨pages, -, copied⟩ := bind_eq_ok.mp copied
    cases copied
    rfl

theorem sized_setBlockOfBody {size : ℕ} (heap : Bytes) (buf : BufferBlock) (fd : ℕ) (flush : Bool)
    (holds : size ≤ buf.size) : Sized size (@setBlockOfBody R _ heap buf fd flush) := by
  rintro fuel fpageId pageOffset left done mgr result inPage here ran
  obtain ⟨⟨m, fetched⟩, -, ran⟩ := bind_eq_ok.mp ran
  obtain ⟨⟨n, slices⟩, copied, ran⟩ := bind_eq_ok.mp ran
  have piece : (if pageSize - pageOffset > left then left else pageSize - pageOffset) =
      objectSize pageOffset left := by
    unfold objectSize
    split_ifs <;> omega
  rw [piece] at copied
  have fits := objectSize_le pageOffset left
  have length : n = objectSize pageOffset left := copy_length (by omega) copied
  cases flush
  · cases ran
    exact length
  · obtain ⟨⟨flushed, saved⟩, -, ran⟩ := bind_eq_ok.mp ran
    obtain ⟨-, -, ran⟩ := bind_eq_ok.mp ran
    cases ran
    exact length

/-- The loops of `GetBlock` and `SetBlock` are the visits of these pieces. -/
structure SlicedInto (R : Type) [Replacer R] (offset size : ℕ) (pieces : List Piece) : Prop where
  getBlock : ∀ (fuel : ℕ) (buf : Bytes) (fd : ℕ) (mgr : BufferPoolManager R), pieces.length < fuel →
    mgr.getBlock fuel buf offset size fd =
      visitPieces (getBlockBody fd) fuel pieces size 0 (buf, mgr)
  setBlock : ∀ (fuel : ℕ) (buf : Bytes) (fd : ℕ) (flush : Bool) (mgr : BufferPoolManager R),
    pieces.length < fuel → mgr.setBlock fuel buf offset size fd flush =
      visitPieces (setBlockBody buf fd flush) fuel pieces size 0 mgr
  setBlockOf : ∀ (fuel : ℕ) (heap : Bytes) (buf : BufferBlock) (fd : ℕ) (flush : Bool)
    (mgr : BufferPoolManager R), buf.size = size → pieces.length < fuel →
      mgr.setBlockOf fuel heap buf offset size fd flush =
        visitPieces (setBlockOfBody heap buf fd flush) fuel pieces size 0 mgr

/-- The page count of a range, and the pieces its loops visit. -/
theorem page_slicing_exact {offset size : ℕ} (positive : 0 < size) (bound : offset + size < 2 ^ 44) :
    FileBlock.pageNum ⟨offset, size⟩ = (offset + size - 1) / 4096 - offset / 4096 + 1 ∧
      ∃ pieces, pieces.length = FileBlock.pageNum ⟨offset, size⟩ ∧ CoversExactly offset size pieces ∧
        SlicedInto R offset size pieces := by
  have inside : offset + size ≤ fpageIdRange * pageSize := bound.le
  have start : fpageIdOf offset = offset / pageSize := by
    unfold fpageIdOf pageSize fpageIdRange at *
    omega
  have count : pageCount offset size = (offset + size - 1) / 4096 - offset / 4096 + 1 :=
    if_neg (Nat.pos_iff_ne_zero.mp positive)
  obtain ⟨pieces, cover, length, visits⟩ := exists_pieces size size offset inside
  refine ⟨(pageNum_eq positive).trans count, pieces, length.trans (pageNum_eq positive).symm, cover, ?_, ?_, ?_⟩
  · intro fuel buf fd mgr enough
    exact visits (sized_getBlockBody size fd) enough (Nat.zero_add size) (fun _ => ⟨start, rfl⟩) (buf, mgr)
  · intro fuel buf fd flush mgr enough
    exact visits (sized_setBlockBody size buf fd flush) enough (Nat.zero_add size) (fun _ => ⟨start, rfl⟩) mgr
  · intro fuel heap buf fd flush mgr same enough
    exact visits (sized_setBlockOfBody heap buf fd flush same.ge) enough (Nat.zero_add size)
      (fun _ => ⟨start, rfl⟩) mgr

/-- A range that begins in page 0 and ends in page 2. -/
theorem page_slicing_exact_threePages :
    FileBlock.pageNum ⟨4000, 5000⟩ = (4000 + 5000 - 1) / 4096 - 4000 / 4096 + 1 ∧
      ∃ pieces, pieces.length = FileBlock.pageNum ⟨4000, 5000⟩ ∧ CoversExactly 4000 5000 pieces ∧
        SlicedInto SieveReplacer_v3 4000 5000 pieces :=
  page_slicing_exact (by decide) (by decide)

end BufferPoolManager

end Gbp
