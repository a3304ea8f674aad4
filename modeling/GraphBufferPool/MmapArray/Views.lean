import GraphBufferPool.MmapArray.MmapArray
import GraphBufferPool.Vertex.Layout

/-! # What an `mmap_array` shows

The calls to the manager that `get`, `get_partial`, `set_partial` and `resize` make, computed from the
fields of the array as they stand. `swap` leaves the item size, the items of a page and the mode where
they are, and takes the handle away from its argument; so two arrays do not show each other's
items after it, and a move-constructed array has no item size.
-/

namespace Gbp

/-- Why a member function has no result: it reads a field that is not there, divides by `OBJ_NUM_PERPAGE`
where that is zero, or fails an assertion. -/
inductive Fault
  | uninitialised
  | divideByZero
  | assertion
deriving DecidableEq, Repr

/-- A block operation, or the new size of a file; `nothing` for a block of no bytes. -/
inductive Request
  | nothing
  | getBlockSync (offset size fd : ℕ)
  | setBlock (data : List UInt8) (offset fd : ℕ)
  | resize (fd newSize : ℕ)
deriving DecidableEq, Repr

/-- `GetBlockSync` returns an empty block before it looks at the handle. -/
def Request.read (offset size fd : ℕ) : Request := if size = 0 then .nothing else .getBlockSync offset size fd

namespace MmapArray

/-- The items of a page, as a divisor, and the size of an item. -/
def layout (array : MmapArray) : Except Fault (ℕ × ℕ) :=
  match array.objNumPerPage, array.itemSize with
  | some objNumPerPage, some itemSize =>
    if objNumPerPage = 0 then .error .divideByZero else .ok (objNumPerPage, itemSize)
  | _, _ => .error .uninitialised

/-- `file_offset`, a `size_t`. -/
def offsetOf (objNumPerPage itemSize idx : ℕ) : ℕ :=
  (idx / objNumPerPage * pageSize + idx % objNumPerPage * itemSize) % 2 ^ 64

/-- `get`; sizes and offsets are `size_t`. -/
def get (array : MmapArray) (idx len : ℕ) : Except Fault Request := do
  let (objNumPerPage, itemSize) ← array.layout
  let fileOffset := offsetOf objNumPerPage itemSize idx
  let restFirstPage := pageSize - fileOffset % pageSize
  if restFirstPage > len * itemSize % 2 ^ 64 then return .read fileOffset (itemSize * len % 2 ^ 64) array.fdGbp
  let len := len - restFirstPage / itemSize
  let bufSize := (restFirstPage + (len / objNumPerPage * pageSize + len % objNumPerPage * itemSize)) % 2 ^ 64
  return .read fileOffset bufSize array.fdGbp

/-- `get_partial`; the difference and the sum are those of `size_t`. -/
def getPartial (array : MmapArray) (idx offsetInItem lenInByte : ℕ) : Except Fault Request := do
  let (objNumPerPage, itemSize) ← array.layout
  let fileOffset := offsetOf objNumPerPage itemSize idx
  let restFirstPage := pageSize - fileOffset % pageSize
  if (restFirstPage + 2 ^ 64 - offsetInItem) % 2 ^ 64 ≥ lenInByte then
    return .read ((fileOffset + offsetInItem) % 2 ^ 64) lenInByte array.fdGbp
  throw .assertion

/-- `set_partial`. -/
def setPartial (array : MmapArray) (idx offsetInItem : ℕ) (val : List UInt8) : Except Fault Request := do
  let (objNumPerPage, itemSize) ← array.layout
  return .setBlock val ((offsetOf objNumPerPage itemSize idx + offsetInItem) % 2 ^ 64) array.fdGbp

/-- `get_size_in_byte` of an array of `size` items, a `size_t`. -/
def sizeInByte (array : MmapArray) (size : ℕ) : Except Fault ℕ := do
  let (objNumPerPage, itemSize) ← array.layout
  return (size % objNumPerPage * itemSize + size / objNumPerPage * pageSize) % 2 ^ 64

/-- `get_size_in_byte`. -/
def getSizeInByte (array : MmapArray) : Except Fault ℕ := array.sizeInByte array.size

/-- `resize`: the array after it, and the call to the manager, which asserts that `ftruncate` takes the size as an
`off_t`. -/
def resize (array : MmapArray) (size : ℕ) : Except Fault (MmapArray × Request) := do
  if array.fdGbp = noFile then throw .assertion
  if size = array.size then return (array, .nothing)
  if array.readOnly then
    if size < array.size then return ({ array with size := size }, .nothing)
    return (array, .nothing)
  let fileSize ← array.sizeInByte size
  if 2 ^ 63 ≤ fileSize then throw .assertion
  return ({ array with size := size }, .resize array.fdGbp fileSize)

/-- `mmap_array(mmap_array&&)`. -/
def moved (rhs : MmapArray) : MmapArray := (new.swap rhs).1

/-- Two arrays that no caller can tell apart by their sizes and items. -/
structure SameView (array other : MmapArray) : Prop where
  size : array.size = other.size
  get : ∀ idx len, array.get idx len = other.get idx len
  getPartial : ∀ idx offsetInItem lenInByte,
    array.getPartial idx offsetInItem lenInByte = other.getPartial idx offsetInItem lenInByte
  setPartial : ∀ idx offsetInItem val, array.setPartial idx offsetInItem val = other.setPartial idx offsetInItem val
  resize : ∀ n, (array.resize n).map (fun after => (after.1.size, after.2)) =
    (other.resize n).map fun after => (after.1.size, after.2)
  getSizeInByte : array.getSizeInByte = other.getSizeInByte

/-- After `swap` each array shows what the other one did. -/
def SwapsViews (array rhs : MmapArray) : Prop :=
  SameView (array.swap rhs).1 rhs ∧ SameView (array.swap rhs).2 array

/-- An array that `open` has set up on a file. -/
structure IsOpen (array : MmapArray) : Prop where
  handle : array.fdGbp ≠ invalidFileHandle ∧ array.fdGbp ≠ noFile
  layout : ∃ itemSize, 0 < itemSize ∧ array.itemSize = some itemSize ∧
    array.objNumPerPage = some (pageSize / itemSize % 2 ^ 16)

/-- An item of the array is not larger than a page. -/
def ItemFits (array : MmapArray) : Prop := ∀ itemSize, array.itemSize = some itemSize → itemSize ≤ pageSize

variable {array other rhs : MmapArray}

/-- `open` of a file that is there or is created, while the handles are below `INVALID_FILE_HANDLE`. -/
theorem open_isOpen (array : MmapArray) (log : FileLog) (few : log.opened < invalidFileHandle) (filename : String)
    {readOnly : Bool} {file : Option ℕ} (there : ¬ (readOnly = true ∧ file = none)) {itemSize : ℕ}
    (positive : 0 < itemSize) (chunkSize : ℕ) :
    IsOpen (array.open log filename readOnly file itemSize chunkSize).1 := by
  have opened (array : MmapArray) : (array.close log).2.opened = log.opened := by
    unfold close
    split_ifs <;> rfl
  have kept (array : MmapArray) : (array.close log).1.itemSize = array.itemSize ∧
      (array.close log).1.objNumPerPage = array.objNumPerPage := by
    unfold close
    split_ifs <;> exact ⟨rfl, rfl⟩
  simp only [MmapArray.open, reset, if_neg there, FileLog.openFile]
  refine ⟨?_, itemSize, positive, (kept _).1, (kept _).2⟩
  dsimp only
  rw [opened, Nat.mod_eq_of_lt (few.trans (by decide))]
  exact ⟨few.ne, (few.trans (by decide)).ne⟩

theorem layout_eq (isOpen : array.IsOpen) (fits : array.ItemFits) : ∃ itemSize, 0 < itemSize ∧ itemSize ≤ pageSize ∧
    array.itemSize = some itemSize ∧ array.layout = .ok (pageSize / itemSize, itemSize) := by
  obtain ⟨itemSize, positive, item, perPage⟩ := isOpen.layout
  have small := fits itemSize item
  have some : 0 < pageSize / itemSize := Nat.div_pos small positive
  have narrow : pageSize / itemSize < 2 ^ 16 := (Nat.div_le_self _ _).trans_lt (by decide)
  refine ⟨itemSize, positive, small, item, ?_⟩
  rw [Nat.mod_eq_of_lt narrow] at perPage
  simp only [layout, perPage, item, if_neg (Nat.pos_iff_ne_zero.mp some)]

/-- A block is fetched with the handle of the array. -/
theorem get_handle {idx len offset size fd : ℕ} (asked : array.get idx len = .ok (.getBlockSync offset size fd)) :
    fd = array.fdGbp := by
  unfold get at asked
  cases known : array.layout with
  | error fault =>
    rw [known] at asked
    cases asked
  | ok layout =>
    simp only [known, bind, Except.bind, pure, Except.pure, Request.read] at asked
    split_ifs at asked <;> cases asked <;> rfl

theorem offsetOf_eq {itemSize idx : ℕ} (small : fileOffset itemSize idx < 2 ^ 64) :
    offsetOf (pageSize / itemSize) itemSize idx = fileOffset itemSize idx := by
  rw [fileOffset, objNumPerPage_eq] at small ⊢
  exact Nat.mod_eq_of_lt small

/-- One item of an array lies in one page. -/
theorem get_one {itemSize idx : ℕ} (positive : 0 < itemSize) (fits : itemSize ≤ pageSize)
    (known : array.layout = .ok (pageSize / itemSize, itemSize)) (small : fileOffset itemSize idx < 2 ^ 64) :
    array.get idx 1 = .ok (.getBlockSync (fileOffset itemSize idx) itemSize array.fdGbp) := by
  have nonempty : itemSize ≠ 0 := Nat.pos_iff_ne_zero.mp positive
  have narrow : itemSize % 2 ^ 64 = itemSize := Nat.mod_eq_of_lt (fits.trans_lt (by decide))
  have offset := offsetOf_eq small
  have room := mod_mul_add_le positive fits idx
  rw [← fileOffset_mod positive fits] at room
  simp only [get, known, bind, Except.bind, pure, Except.pure, offset, one_mul, mul_one, narrow]
  split_ifs with smaller
  · rw [Request.read, if_neg nonempty]
  · have last : pageSize - fileOffset itemSize idx % pageSize = itemSize :=
      le_antisymm (Nat.not_lt.mp smaller) (Nat.le_sub_of_add_le' room)
    simp only [last, Nat.div_self positive, Nat.sub_self, Nat.zero_div, Nat.zero_mod, Nat.zero_mul, Nat.add_zero, narrow]
    rw [Request.read, if_neg nonempty]

/-- A part of an item is set in its page. -/
theorem setPartial_eq {itemSize idx offsetInItem : ℕ} {val : List UInt8}
    (known : array.layout = .ok (pageSize / itemSize, itemSize)) (small : fileOffset itemSize idx + itemSize < 2 ^ 64)
    (within : offsetInItem + val.length ≤ itemSize) : array.setPartial idx offsetInItem val =
      .ok (.setBlock val (fileOffset itemSize idx + offsetInItem) array.fdGbp) := by
  have offset := offsetOf_eq ((Nat.le_add_right ..).trans_lt small)
  simp only [setPartial, known, bind, Except.bind, offset]
  rw [Nat.mod_eq_of_lt (by omega)]
  rfl

/-- The first item of an array. -/
theorem get_zero_one {itemSize : ℕ} (positive : 0 < itemSize) (fits : itemSize ≤ pageSize)
    (known : array.layout = .ok (pageSize / itemSize, itemSize)) :
    array.get 0 1 = .ok (.getBlockSync 0 itemSize array.fdGbp) := by
  have start : fileOffset itemSize 0 = 0 := by rw [fileOffset, Nat.zero_div, Nat.zero_mod, Nat.zero_mul, Nat.zero_mul]
  rw [get_one positive fits known (by rw [start]; decide), start]

/-- Arrays with the same handle, size, mode and layout show the same. -/
theorem SameView.of_fields (handle : array.fdGbp = other.fdGbp) (size : array.size = other.size)
    (mode : array.readOnly = other.readOnly) (layout : array.layout = other.layout) : SameView array other where
  size := size
  get idx len := by simp only [MmapArray.get, layout, handle]
  getPartial idx offsetInItem lenInByte := by simp only [MmapArray.getPartial, layout, handle]
  setPartial idx offsetInItem val := by simp only [MmapArray.setPartial, layout, handle]
  resize n := by
    simp only [MmapArray.resize, sizeInByte, layout, handle, size, mode]
    cases other.layout <;> split_ifs <;>
      simp [Except.map, bind, Except.bind, pure, Except.pure, size, throw, throwThe, MonadExceptOf.throw]
    split_ifs <;> rfl
  getSizeInByte := by simp only [MmapArray.getSizeInByte, sizeInByte, layout, size]

/-- One item more is refused without an error in a read-only array, and only there. -/
theorem resize_succ_iff (isOpen : array.IsOpen) (fits : array.ItemFits) : array.readOnly = true ↔
    (array.resize (array.size + 1)).map (fun after => (after.1.size, after.2)) = .ok (array.size, .nothing) := by
  obtain ⟨itemSize, -, -, -, known⟩ := layout_eq isOpen fits
  simp only [resize, if_neg isOpen.handle.2, if_neg (Nat.succ_ne_self array.size), sizeInByte, known]
  cases array.readOnly with
  | true => simp [Except.map, pure, Except.pure]
  | false =>
    refine iff_of_false Bool.false_ne_true fun same => ?_
    simp only [bind, Except.bind, pure, Except.pure, Bool.false_eq_true, if_false] at same
    split_ifs at same
    · cases same
    · exact Nat.succ_ne_self _ (Prod.mk.inj (Except.ok.inj same)).1

/-- The array takes over the view of the argument of `swap` if they have the same item size and mode. -/
theorem swap_view_iff (isOpen : array.IsOpen) (fits : array.ItemFits) (rhsOpen : rhs.IsOpen) (rhsFits : rhs.ItemFits) :
    SameView (array.swap rhs).1 rhs ↔ array.itemSize = rhs.itemSize ∧ array.readOnly = rhs.readOnly := by
  obtain ⟨itemSize, positive, small, item, known⟩ := layout_eq isOpen fits
  obtain ⟨rhsSize, rhsPositive, rhsSmall, rhsItem, rhsKnown⟩ := layout_eq rhsOpen rhsFits
  have swapped : (array.swap rhs).1.layout = .ok (pageSize / itemSize, itemSize) := known
  constructor
  · intro same
    have first := same.get 0 1
    rw [get_zero_one positive small swapped, get_zero_one rhsPositive rhsSmall rhsKnown] at first
    have swappedOpen : (array.swap rhs).1.IsOpen := ⟨rhsOpen.handle, isOpen.layout⟩
    constructor
    · cases first
      rw [item, rhsItem]
    · have mode := resize_succ_iff swappedOpen fits
      change array.readOnly = true ↔ ((array.swap rhs).1.resize (rhs.size + 1)).map _ = .ok (rhs.size, _) at mode
      rw [same.resize, ← resize_succ_iff rhsOpen rhsFits] at mode
      exact Bool.eq_iff_iff.mpr mode
  · rintro ⟨sameItem, sameMode⟩
    refine SameView.of_fields rfl rfl sameMode ?_
    rw [swapped, rhsKnown]
    have : itemSize = rhsSize := by simpa [item, rhsItem] using sameItem
    rw [this]

/-- The argument of `swap` never takes over the view of the array. -/
theorem not_swap_arg_view (isOpen : array.IsOpen) (fits : array.ItemFits) :
    ¬ SameView (array.swap rhs).2 array := by
  intro same
  obtain ⟨itemSize, positive, small, -, known⟩ := layout_eq isOpen fits
  have first := same.get 0 1
  rw [get_zero_one positive small known] at first
  exact isOpen.handle.1 (get_handle first)

/-- A move-constructed array has no items of a known size. -/
theorem not_moved_view (isOpen : array.IsOpen) : ¬ SameView array.moved array := by
  intro same
  have first : (.error .uninitialised : Except Fault Request) = array.get 0 1 := same.get 0 1
  obtain ⟨itemSize, -, item, perPage⟩ := isOpen.layout
  simp only [get, layout, item, perPage] at first
  split_ifs at first with none
  · cases first
  · simp only [bind, Except.bind, pure, Except.pure] at first
    split_ifs at first

/-- A move-constructed array never shows what its source did, and neither does the argument of `swap`; the
array itself shows what the argument did if they have the same item size and mode. -/
theorem move_swap_views (isOpen : array.IsOpen) (rhsOpen : rhs.IsOpen) :
    ¬ SameView array.moved array ∧ (array.ItemFits → ¬ SwapsViews array rhs ∧
      (rhs.ItemFits →
        (SameView (array.swap rhs).1 rhs ↔ array.itemSize = rhs.itemSize ∧ array.readOnly = rhs.readOnly))) :=
  ⟨not_moved_view isOpen, fun fits => ⟨fun swapped => not_swap_arg_view isOpen fits swapped.2,
    fun rhsFits => swap_view_iff isOpen fits rhsOpen rhsFits⟩⟩

/-- Arrays of items of 8 and 16 bytes, of files of two pages. -/
def ofEight : MmapArray := (new.open ⟨0, []⟩ "a" false (some (2 * pageSize)) 8 4096).1

@[inherit_doc ofEight]
def ofSixteen : MmapArray := (new.open ⟨1, [.openFile 0]⟩ "b" true (some (2 * pageSize)) 16 4096).1

theorem move_swap_views_files : ofEight.IsOpen ∧ ofSixteen.IsOpen ∧ ¬ SameView ofEight.moved ofEight ∧
    ¬ SwapsViews ofEight ofSixteen ∧ (SameView (ofEight.swap ofSixteen).1 ofSixteen ↔
      ofEight.itemSize = ofSixteen.itemSize ∧ ofEight.readOnly = ofSixteen.readOnly) := by
  have isOpen : ofEight.IsOpen := open_isOpen new ⟨0, []⟩ (by decide) "a" (by decide) (by decide) 4096
  have rhsOpen : ofSixteen.IsOpen := open_isOpen new ⟨1, [.openFile 0]⟩ (by decide) "b" (by decide) (by decide) 4096
  have fits : ofEight.ItemFits := by
    rintro itemSize ⟨⟩
    decide
  have rhsFits : ofSixteen.ItemFits := by
    rintro itemSize ⟨⟩
    decide
  obtain ⟨moved, swapped⟩ := move_swap_views isOpen rhsOpen
  exact ⟨isOpen, rhsOpen, moved, (swapped fits).1, (swapped fits).2 rhsFits⟩

/-- The array of 8-byte items gets a file of 16-byte ones. -/
theorem not_swap_or_move_keeps : ¬ ∀ array rhs : MmapArray, array.IsOpen → rhs.IsOpen →
    SwapsViews array rhs ∧ SameView array.moved array := by
  intro claimed
  have isOpen : ofEight.IsOpen := open_isOpen new ⟨0, []⟩ (by decide) "a" (by decide) (by decide) 4096
  have rhsOpen : ofSixteen.IsOpen := open_isOpen new ⟨1, [.openFile 0]⟩ (by decide) "b" (by decide) (by decide) 4096
  have first := (claimed ofEight ofSixteen isOpen rhsOpen).1.1.get 0 1
  exact absurd first (by decide)

end MmapArray

end Gbp
