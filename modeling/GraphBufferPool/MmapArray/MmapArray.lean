import GraphBufferPool.Config

/-! # The file handle of an `mmap_array`

What the constructors, `open`, `close`, `reset` and `swap` of `mmap_array` do to its fields, and the calls
they make to the manager. `fd_gbp_` is a 32-bit integer; `INVALID_FILE_HANDLE` is the largest
16-bit one, and a read-only `open` of a missing file stores -1.
-/

namespace Gbp

/-- `INVALID_FILE_HANDLE`. -/
abbrev invalidFileHandle : ℕ := 2 ^ 16 - 1

/-- The value of `fd_gbp_` after `fd_gbp_ = -1`. -/
abbrev noFile : ℕ := 2 ^ 32 - 1

/-- A call to the manager with a handle: returned by `OpenFile`, used in a block operation, or passed to
`CloseFile`. -/
inductive FileCall
  | openFile (fd : ℕ)
  | use (fd : ℕ)
  | closeFile (fd : ℕ)
deriving DecidableEq, Repr

/-- The files opened so far, and the calls to the manager, the latest first. -/
structure FileLog where
  opened : ℕ
  calls : List FileCall

namespace FileLog

/-- `OpenFile`: the handle is the number of earlier calls. -/
def openFile (log : FileLog) : ℕ × FileLog :=
  let fd := log.opened % 2 ^ 32
  (fd, ⟨log.opened + 1, .openFile fd :: log.calls⟩)

/-- `CloseFile`. -/
def closeFile (log : FileLog) (fd : ℕ) : FileLog := { log with calls := .closeFile fd :: log.calls }

/-- A block operation. -/
def use (log : FileLog) (fd : ℕ) : FileLog := { log with calls := .use fd :: log.calls }

end FileLog

/-- `mmap_array`; `chunk_size_`, `item_size_` and `OBJ_NUM_PERPAGE` are not there before `open` sets them. -/
structure MmapArray where
  fdGbp : ℕ
  filename : String
  size : ℕ
  readOnly : Bool
  chunkSize : Option ℕ
  itemSize : Option ℕ
  objNumPerPage : Option ℕ
deriving DecidableEq, Repr

namespace MmapArray

/-- The constructor. -/
def new : MmapArray := ⟨invalidFileHandle, "", 0, true, none, none, none⟩

/-- `close`. -/
def close (array : MmapArray) (log : FileLog) : MmapArray × FileLog :=
  if array.fdGbp ≠ invalidFileHandle then
    ({ array with fdGbp := invalidFileHandle }, log.closeFile array.fdGbp)
  else (array, log)

/-- `reset`. -/
def reset (array : MmapArray) (log : FileLog) : MmapArray × FileLog :=
  let (array, log) := close { array with filename := "" } log
  ({ array with readOnly := true }, log)

/-- The elements in a file of `fileSize` bytes. -/
def sizeOf (fileSize objNumPerPage itemSize : ℕ) : ℕ :=
  fileSize / pageSize * objNumPerPage + fileSize % pageSize / itemSize

/-- `open`. The file has a size where it exists; opened for writing it is created. -/
def «open» (array : MmapArray) (log : FileLog) (filename : String) (readOnly : Bool) (file : Option ℕ)
    (itemSize chunkSize : ℕ) : MmapArray × FileLog :=
  let objNumPerPage := pageSize / itemSize % 2 ^ 16
  let (array, log) := reset { array with
    chunkSize := some chunkSize
    itemSize := some itemSize
    objNumPerPage := some objNumPerPage } log
  let array := { array with filename := filename, readOnly := readOnly }
  if readOnly = true ∧ file = none then ({ array with fdGbp := noFile, size := 0 }, log)
  else
    let (fd, log) := log.openFile
    ({ array with fdGbp := fd, size := sizeOf (file.getD 0) objNumPerPage itemSize }, log)

/-- `swap` of two arrays: the array and `rhs` after it. -/
def swap (array rhs : MmapArray) : MmapArray × MmapArray :=
  ({ array with
      filename := rhs.filename
      fdGbp := rhs.fdGbp
      size := rhs.size
      chunkSize := rhs.chunkSize },
    { rhs with
      filename := array.filename
      fdGbp := invalidFileHandle
      size := array.size
      chunkSize := array.chunkSize })

/-- `swap` of an array with itself. -/
def swapSelf (array : MmapArray) : MmapArray := { array with fdGbp := invalidFileHandle }

/-- A handle in the field, as opposed to the two values that stand for none. -/
def handle? (array : MmapArray) : Option ℕ :=
  if array.fdGbp = invalidFileHandle ∨ array.fdGbp = noFile then none else some array.fdGbp

end MmapArray

end Gbp
