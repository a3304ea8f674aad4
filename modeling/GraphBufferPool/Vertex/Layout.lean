import GraphBufferPool.Block.FileBlock
import GraphBufferPool.Pool.PageTable

/-! # Where items lie in a file

An `mmap_array` lays its items out so that none crosses a page. `get` returns the pages of a range of
items and `Decode` finds an item in them again; `FixedLengthColumnFamily` puts the columns of a row
side by side in one item. Everything is in offsets of the file: pages are aligned in memory, so
an address and the offset it holds agree modulo the page size.
-/

namespace Gbp

/-- `OBJ_NUM_PERPAGE`. -/
def objNumPerPage (size : ℕ) : ℕ := pageSize / size % 2 ^ 16

/-- `file_offset` of the item `idx`. -/
def fileOffset (size idx : ℕ) : ℕ :=
  idx / objNumPerPage size * pageSize + idx % objNumPerPage size * size

namespace FileBlock

/-- `Decode<OBJ_Type>(idx)`, with `size` for `sizeof(OBJ_Type)`. -/
def decode (block : FileBlock) (size idx : ℕ) : ℕ :=
  if block.pageNum < 2 then block.datas 0 + idx * size
  else if idx = 0 then block.datas 0
  else
    let objNumCurpage := (pageSize - block.datas 0 % pageSize) / size
    if objNumCurpage > idx then block.datas 0 + idx * size
    else
      let idx := idx - objNumCurpage
      let pageId := idx / (pageSize / size) + 1
      block.datas pageId + idx % (pageSize / size) * size

end FileBlock

/-- `get(idx, len)` of an array of items of that size. -/
def getItems (size idx len : ℕ) : FileBlock :=
  let offset := fileOffset size idx
  let restFirstPage := pageSize - offset % pageSize
  if restFirstPage / size > len then ⟨offset, size * len⟩
  else
    let len := len - restFirstPage / size
    ⟨offset, restFirstPage + (len / objNumPerPage size * pageSize + len % objNumPerPage size * size)⟩

section items

variable {size idx len k : ℕ}

theorem objNumPerPage_eq (size : ℕ) : objNumPerPage size = pageSize / size :=
  Nat.mod_eq_of_lt ((Nat.div_le_self ..).trans_lt (by decide))

theorem objNumPerPage_pos (positive : 0 < size) (fits : size ≤ pageSize) : 0 < objNumPerPage size := by
  rw [objNumPerPage_eq]
  exact Nat.div_pos fits positive

/-- The items of a page fit in it. -/
theorem objNumPerPage_mul_le (size : ℕ) : objNumPerPage size * size ≤ pageSize := by
  rw [objNumPerPage_eq]
  exact Nat.div_mul_le_self ..

/-- Where an item lies in its page. -/
theorem mod_mul_add_le (positive : 0 < size) (fits : size ≤ pageSize) (idx : ℕ) :
    idx % objNumPerPage size * size + size ≤ pageSize := by
  have inside := Nat.mod_lt idx (objNumPerPage_pos positive fits)
  have room := Nat.mul_le_mul_right size (Nat.succ_le_of_lt inside)
  rw [Nat.succ_mul] at room
  exact room.trans (objNumPerPage_mul_le size)

theorem fileOffset_div (positive : 0 < size) (fits : size ≤ pageSize) (idx : ℕ) :
    fileOffset size idx / pageSize = idx / objNumPerPage size := by
  have inside := mod_mul_add_le positive fits idx
  rw [fileOffset, Nat.add_comm, Nat.add_mul_div_right _ _ (by decide), Nat.div_eq_of_lt (by omega),
    Nat.zero_add]

theorem fileOffset_mod (positive : 0 < size) (fits : size ≤ pageSize) (idx : ℕ) :
    fileOffset size idx % pageSize = idx % objNumPerPage size * size := by
  have inside := mod_mul_add_le positive fits idx
  rw [fileOffset, Nat.add_comm, Nat.add_mul_mod_self_right, Nat.mod_eq_of_lt (by omega)]

/-- Different items do not overlap. -/
theorem fileOffset_add_le (positive : 0 < size) (fits : size ≤ pageSize) {idx idx' : ℕ}
    (before : idx < idx') : fileOffset size idx + size ≤ fileOffset size idx' := by
  have inside := mod_mul_add_le positive fits idx
  have count := objNumPerPage_pos positive fits
  rcases Nat.lt_or_ge (idx / objNumPerPage size) (idx' / objNumPerPage size) with page | same
  · have next := Nat.mul_le_mul_right pageSize (Nat.succ_le_of_lt page)
    rw [Nat.succ_mul] at next
    have low := Nat.zero_le (idx' % objNumPerPage size * size)
    rw [fileOffset, fileOffset]
    linarith
  · have equal := le_antisymm same (Nat.div_le_div_right before.le)
    have split := Nat.div_add_mod idx (objNumPerPage size)
    have split' := Nat.div_add_mod idx' (objNumPerPage size)
    rw [equal] at split'
    have place : idx % objNumPerPage size < idx' % objNumPerPage size := by omega
    have next := Nat.mul_le_mul_right size (Nat.succ_le_of_lt place)
    rw [Nat.succ_mul] at next
    rw [fileOffset, fileOffset, equal]
    linarith

theorem fileOffset_injective (positive : 0 < size) (fits : size ≤ pageSize) :
    Function.Injective (fileOffset size) := by
  intro idx idx' same
  rcases Nat.lt_trichotomy idx idx' with before | rfl | after
  · have := fileOffset_add_le positive fits before
    omega
  · rfl
  · have := fileOffset_add_le positive fits after
    omega

/-- The items from `idx` on that lie in its page. -/
theorem restFirstPage_div (positive : 0 < size) (fits : size ≤ pageSize) (idx : ℕ) :
    (pageSize - fileOffset size idx % pageSize) / size = objNumPerPage size - idx % objNumPerPage size := by
  rw [fileOffset_mod positive fits, Nat.mul_comm, Nat.sub_mul_div, ← objNumPerPage_eq]

/-- The item `k` places later in the same page. -/
theorem fileOffset_add_same (inside : idx % objNumPerPage size + k < objNumPerPage size) :
    fileOffset size (idx + k) = fileOffset size idx + k * size := by
  have split := Nat.div_add_mod idx (objNumPerPage size)
  have place : (idx + k) / objNumPerPage size = idx / objNumPerPage size ∧
      (idx + k) % objNumPerPage size = idx % objNumPerPage size + k := by
    apply (Nat.div_mod_unique (by omega)).mpr
    exact ⟨by omega, inside⟩
  rw [fileOffset, fileOffset, place.1, place.2, Nat.add_mul]
  omega

/-- An item in a later page. -/
theorem fileOffset_add_later (positive : 0 < size) (fits : size ≤ pageSize)
    (past : objNumPerPage size - idx % objNumPerPage size ≤ k) :
    fileOffset size (idx + k) =
      (idx / objNumPerPage size + ((k - (objNumPerPage size - idx % objNumPerPage size)) /
        objNumPerPage size + 1)) * pageSize +
      (k - (objNumPerPage size - idx % objNumPerPage size)) % objNumPerPage size * size := by
  have count := objNumPerPage_pos positive fits
  have inside := Nat.mod_lt idx count
  have split := Nat.div_add_mod idx (objNumPerPage size)
  obtain ⟨more, rfl⟩ : ∃ more, k = objNumPerPage size - idx % objNumPerPage size + more :=
    ⟨k - (objNumPerPage size - idx % objNumPerPage size), by omega⟩
  have whole : idx + (objNumPerPage size - idx % objNumPerPage size + more) =
      objNumPerPage size * (idx / objNumPerPage size + 1) + more := by
    rw [Nat.mul_succ]
    omega
  rw [whole, Nat.add_sub_cancel_left, fileOffset, Nat.mul_add_div count, Nat.mul_add_mod, Nat.add_assoc,
    Nat.add_comm 1]

/-- In the first page `Decode` counts from the start of the block. -/
theorem FileBlock.decode_first {block : FileBlock} (here : block.size ≤ pageSize - block.offset % pageSize ∨
    k < (pageSize - block.offset % pageSize) / size) : block.decode size k = block.offset + k * size := by
  unfold decode
  by_cases one : block.pageNum < 2
  · exact if_pos one
  · rw [if_neg one]
    have early := here.resolve_left fun single => one ((pageNum_lt_two_iff block).mpr single)
    by_cases first : k = 0
    · rw [if_pos first, first, Nat.zero_mul]
      rfl
    · rw [if_neg first]
      exact if_pos early

/-- After it, `Decode` counts pages. -/
theorem FileBlock.decode_later {block : FileBlock} (crosses : pageSize - block.offset % pageSize < block.size)
    (positive : 0 < (pageSize - block.offset % pageSize) / size)
    (later : (pageSize - block.offset % pageSize) / size ≤ k) : block.decode size k =
      (block.offset / pageSize + ((k - (pageSize - block.offset % pageSize) / size) / (pageSize / size) + 1)) *
        pageSize + (k - (pageSize - block.offset % pageSize) / size) % (pageSize / size) * size := by
  have many : ¬ block.pageNum < 2 := fun one =>
    Nat.not_lt.mpr ((pageNum_lt_two_iff block).mp one) crosses
  unfold decode
  rw [if_neg many, if_neg (by omega)]
  exact if_neg (Nat.not_lt.mpr later)

/-- `Decode` finds the items that `get` was asked for. -/
theorem decode_getItems (positive : 0 < size) (fits : size ≤ pageSize) (inside : k < len) :
    (getItems size idx len).decode size k = fileOffset size (idx + k) := by
  have place := Nat.mod_lt idx (objNumPerPage_pos positive fits)
  have offset : (getItems size idx len).offset = fileOffset size idx := by
    simp only [getItems]
    split_ifs <;> rfl
  have rest := restFirstPage_div positive fits idx
  rcases Nat.lt_or_ge k (objNumPerPage size - idx % objNumPerPage size) with early | later
  · rw [FileBlock.decode_first (Or.inr (by rw [offset, rest]; exact early)), offset,
      fileOffset_add_same (by omega)]
  · have crosses : pageSize - fileOffset size idx % pageSize < (getItems size idx len).size := by
      simp only [getItems]
      rw [rest, if_neg (by omega)]
      have more : 0 < len - (objNumPerPage size - idx % objNumPerPage size) := by omega
      have split := Nat.div_add_mod (len - (objNumPerPage size - idx % objNumPerPage size)) (objNumPerPage size)
      apply Nat.lt_add_of_pos_right
      rcases Nat.eq_zero_or_pos ((len - (objNumPerPage size - idx % objNumPerPage size)) /
          objNumPerPage size) with none | some
      · rw [none, Nat.mul_zero, Nat.zero_add] at split
        rw [none, Nat.zero_mul, Nat.zero_add, split]
        exact Nat.mul_pos more positive
      · exact Nat.add_pos_left (Nat.mul_pos some (by decide)) _
    rw [← offset] at crosses
    rw [FileBlock.decode_later crosses (by rw [offset, rest]; omega) (by rw [offset, rest]; exact later), offset,
      rest, fileOffset_div positive fits, fileOffset_add_later positive fits later, ← objNumPerPage_eq]

end items

/-- `EdgeType`. -/
inductive EdgeType
  | int32
  | date
  | none
  | empty
deriving DecidableEq, Repr

/-- `sizeof(MutableNbr<EDATA_T>)`: a neighbor, a timestamp and the data. -/
def EdgeType.size : EdgeType → ℕ
  | int32 => 12
  | date => 16
  | none | empty => 8

/-- The types of `ColumnType` that `Init` lays out. -/
inductive ColumnType
  | int32
  | date
  | int64
  | dynamicString
  | dynamicEdgeList (edge : EdgeType)
deriving DecidableEq, Repr

/-- What `Init` pushes to `column_lengths`. -/
def ColumnType.length : ColumnType → ℕ
  | int32 => 4
  | date | int64 | dynamicString => 8
  | dynamicEdgeList _ => 24

/-- `offsets_[columnId]`. -/
def columnOffset (columns : List ColumnType) (columnId : ℕ) : ℕ :=
  ((columns.take columnId).map ColumnType.length).sum

/-- `offsets_.back()`, the item size of `property_buffer_`. -/
def rowSize (columns : List ColumnType) : ℕ := (columns.map ColumnType.length).sum

/-- A column family. With a row larger than a page `Resize` would divide by `OBJ_NUM_PERPAGE`, which is 0. -/
structure Family where
  columns : List ColumnType
  fits : rowSize columns ≤ pageSize

/-- `get_partial`: the offset of the block it returns, which has to lie in one page. The difference is one of
`size_t`. -/
def getPartial (size idx offsetInItem lenInByte : ℕ) : Except Stop ℕ := do
  let restFirstPage := pageSize - fileOffset size idx % pageSize
  check (decide ((restFirstPage + 2 ^ 64 - offsetInItem) % 2 ^ 64 ≥ lenInByte))
  return fileOffset size idx + offsetInItem

/-- `FixedLengthColumnFamily::getColumn`. -/
def Family.getColumn (family : Family) (rowId columnId : ℕ) : Except Stop ℕ :=
  match family.columns[columnId]? with
  | none => .error .badIndex
  | some type => getPartial (rowSize family.columns) rowId (columnOffset family.columns columnId) type.length

/-- Where a column of a row lies. -/
def Family.place (family : Family) (rowId columnId : ℕ) : ℕ :=
  fileOffset (rowSize family.columns) rowId + columnOffset family.columns columnId

section columns

variable {columns : List ColumnType} {type type' : ColumnType} {j j' row row' : ℕ}

theorem ColumnType.length_pos (type : ColumnType) : 0 < type.length := by
  cases type <;> simp [length]

theorem EdgeType.size_pos (edge : EdgeType) : 0 < edge.size := by
  cases edge <;> decide

theorem EdgeType.size_le (edge : EdgeType) : edge.size ≤ pageSize := by
  cases edge <;> decide

/-- A column ends before every later one starts. -/
theorem columnOffset_add_le (here : columns[j]? = some type) (before : j < j') :
    columnOffset columns j + type.length ≤ columnOffset columns j' := by
  obtain ⟨inside, rfl⟩ := List.getElem?_eq_some_iff.mp here
  have next : columnOffset columns (j + 1) = columnOffset columns j + columns[j].length := by
    rw [columnOffset, columnOffset, List.take_succ_eq_append_getElem inside, List.map_append, List.sum_append]
    simp
  obtain ⟨more, rfl⟩ := Nat.exists_eq_add_of_le (Nat.succ_le_of_lt before)
  have split : columnOffset columns (j + 1 + more) = columnOffset columns (j + 1) +
      (((columns.drop (j + 1)).take more).map ColumnType.length).sum := by
    rw [columnOffset, List.take_add, List.map_append, List.sum_append]
    rfl
  rw [split, next]
  exact Nat.le_add_right ..

theorem columnOffset_le_rowSize (here : columns[j]? = some type) :
    columnOffset columns j + type.length ≤ rowSize columns := by
  obtain ⟨inside, _⟩ := List.getElem?_eq_some_iff.mp here
  have last := columnOffset_add_le here inside
  rwa [columnOffset, columnOffset, List.take_length] at last

theorem rowSize_pos (here : columns[j]? = some type) : 0 < rowSize columns := by
  have := columnOffset_le_rowSize here
  have := type.length_pos
  omega

/-- A part that ends in the page of its item is found. -/
theorem getPartial_eq {size idx offset len : ℕ}
    (inside : offset + len ≤ pageSize - fileOffset size idx % pageSize) :
    getPartial size idx offset len = .ok (fileOffset size idx + offset) := by
  have small : pageSize - fileOffset size idx % pageSize ≤ pageSize := Nat.sub_le ..
  unfold getPartial
  generalize pageSize - fileOffset size idx % pageSize = rest at inside small
  have enough : (rest + 2 ^ 64 - offset) % 2 ^ 64 ≥ len := by
    simp only [pageSize] at small
    omega
  dsimp only
  rw [decide_eq_true enough]
  rfl

/-- `getColumn` of a column of the family returns its place. -/
theorem Family.getColumn_eq {family : Family} (here : family.columns[j]? = some type) (row : ℕ) :
    family.getColumn row j = .ok (family.place row j) := by
  have inside := columnOffset_le_rowSize here
  have positive := rowSize_pos here
  have room := mod_mul_add_le positive family.fits row
  simp only [getColumn, here]
  apply getPartial_eq
  rw [fileOffset_mod positive family.fits]
  omega

/-- Two columns, or one column of two rows, do not overlap. -/
theorem Family.place_disjoint {family : Family} (here : family.columns[j]? = some type)
    (there : family.columns[j']? = some type') (apart : (row, j) ≠ (row', j')) :
    family.place row j + type.length ≤ family.place row' j' ∨
      family.place row' j' + type'.length ≤ family.place row j := by
  have positive := rowSize_pos here
  have inside := columnOffset_le_rowSize here
  have inside' := columnOffset_le_rowSize there
  unfold place
  rcases Nat.lt_trichotomy row row' with before | rfl | after
  · have := fileOffset_add_le positive family.fits before
    omega
  · rcases Nat.lt_trichotomy j j' with first | rfl | second
    · have := columnOffset_add_le here first
      omega
    · exact absurd rfl apart
    · have := columnOffset_add_le there second
      omega
  · have := fileOffset_add_le positive family.fits after
    omega

theorem Family.place_ne {family : Family} (here : family.columns[j]? = some type)
    (there : family.columns[j']? = some type') (apart : (row, j) ≠ (row', j')) :
    family.place row j ≠ family.place row' j' := by
  have := family.place_disjoint here there apart
  have := type.length_pos
  have := type'.length_pos
  omega

end columns

end Gbp
