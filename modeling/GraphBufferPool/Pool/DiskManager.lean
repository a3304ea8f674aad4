import GraphBufferPool.Disk
import GraphBufferPool.Pool.PageTable

/-! # Files by handle

`DiskManager` keeps one entry for each handle it ever returned. A file is named by its handle:
different handles are different files of the operating system.
-/

namespace Gbp

/-- `fd_oss_[fd]` and `file_size_inBytes_[fd]`, with the file behind the handle. -/
structure FileEntry where
  file : DiskFile
  valid : Bool
  sizeInBytes : ℕ
  sizeInBytes_lt : sizeInBytes < 2 ^ 64

/-- A file that the operating system can hold. -/
abbrev OsFile := { file : DiskFile // file.length < 2 ^ 64 }

/-- `DiskManager`. -/
structure DiskManager where
  files : List FileEntry

namespace DiskManager

/-- `OpenFile`; the handle is the number of earlier calls. -/
def openFile (disk : DiskManager) (file : OsFile) : ℕ × DiskManager :=
  (disk.files.length, ⟨disk.files ++ [⟨file.1, true, file.1.length, file.2⟩]⟩)

/-- `ValidFD`. -/
def validFD (disk : DiskManager) (fd : ℕ) : Bool := (disk.files[fd]?).any FileEntry.valid

/-- `CloseFile`. -/
def closeFile (disk : DiskManager) (fd : ℕ) : DiskManager :=
  ⟨disk.files.modify fd fun entry => { entry with valid := false }⟩

/-- `GetFileSizeFast`. -/
def getFileSizeFast (disk : DiskManager) (fd : ℕ) : ℕ := ((disk.files[fd]?).map FileEntry.sizeInBytes).getD 0

/-- The files once `ftruncate` has set the size of one. -/
def withSize (disk : DiskManager) (fd newSize : ℕ) (bound : newSize < 2 ^ 64) : DiskManager :=
  ⟨disk.files.modify fd fun entry => { entry with
    file := entry.file.ftruncate newSize
    sizeInBytes := newSize
    sizeInBytes_lt := bound }⟩

/-- `Resize`. It asserts that `ftruncate` succeeds, which needs an open file and a size that is not negative as an
`off_t`. -/
def resize (disk : DiskManager) (fd newSize : ℕ) (bound : newSize < 2 ^ 64) : Except Stop DiskManager := do
  check (disk.validFD fd && decide (newSize < 2 ^ 63))
  return disk.withSize fd newSize bound

/-- `RWSysCall::Write` of one page to a handle. -/
def write (disk : DiskManager) (fd offset : ℕ) (data : Bytes) : Except Stop DiskManager :=
  match disk.files[fd]? with
  | some entry =>
    if entry.valid then
      .ok ⟨disk.files.set fd { entry with
        file := RWSysCall.write entry.sizeInBytes entry.file offset data pageSize }⟩
    else .error .badHandle
  | none => .error .badHandle

/-- `RWSysCall::Read` of one page from a handle. -/
def read (disk : DiskManager) (fd offset : ℕ) (data : Bytes) : Except Stop Bytes :=
  match disk.files[fd]? with
  | some entry =>
    if entry.valid then .ok (RWSysCall.read entry.file offset data pageSize) else .error .badHandle
  | none => .error .badHandle

/-- The file behind a handle. -/
def file (disk : DiskManager) (fd : ℕ) : DiskFile :=
  ((disk.files[fd]?).map FileEntry.file).getD ⟨0, fun _ => 0, fun _ _ => rfl⟩

/-- The byte at a position of the file behind a handle. -/
def byte (disk : DiskManager) (fd position : ℕ) : UInt8 := (disk.file fd).byte position

/-- The same handles, open or closed, with the same recorded sizes. -/
structure SameHandles (disk disk' : DiskManager) : Prop where
  length : disk'.files.length = disk.files.length
  valid : ∀ fd, disk'.validFD fd = disk.validFD fd
  size : ∀ fd, disk'.getFileSizeFast fd = disk.getFileSizeFast fd

theorem SameHandles.refl (disk : DiskManager) : SameHandles disk disk :=
  ⟨rfl, fun _ => rfl, fun _ => rfl⟩

theorem SameHandles.trans {first second third : DiskManager} (before : SameHandles first second)
    (after : SameHandles second third) : SameHandles first third :=
  ⟨after.length.trans before.length, fun fd => (after.valid fd).trans (before.valid fd),
    fun fd => (after.size fd).trans (before.size fd)⟩

variable {disk : DiskManager} {fd : ℕ}

@[simp] theorem openFile_length (file : OsFile) :
    (disk.openFile file).2.files.length = disk.files.length + 1 := by
  simp [openFile]

private theorem openFile_entry (file : OsFile) (fd : ℕ) : (disk.openFile file).2.files[fd]? =
    if fd = disk.files.length then some ⟨file.1, true, file.1.length, file.2⟩ else disk.files[fd]? := by
  rcases Nat.lt_trichotomy fd disk.files.length with inside | rfl | past
  · simp [openFile, List.getElem?_append_left inside, inside.ne]
  · simp [openFile]
  · rw [if_neg past.ne', List.getElem?_eq_none past.le]
    exact List.getElem?_eq_none (by rw [openFile_length]; exact past)

theorem openFile_file (file : OsFile) (fd : ℕ) : (disk.openFile file).2.file fd =
    if fd = disk.files.length then file.1 else disk.file fd := by
  rw [DiskManager.file, openFile_entry]
  split_ifs <;> rfl

theorem openFile_validFD (file : OsFile) (fd : ℕ) : (disk.openFile file).2.validFD fd =
    if fd = disk.files.length then true else disk.validFD fd := by
  rw [validFD, openFile_entry]
  split_ifs <;> rfl

theorem openFile_size (file : OsFile) (fd : ℕ) : (disk.openFile file).2.getFileSizeFast fd =
    if fd = disk.files.length then file.1.length else disk.getFileSizeFast fd := by
  rw [getFileSizeFast, openFile_entry]
  split_ifs <;> rfl

private theorem exists_entry (valid : disk.validFD fd = true) :
    ∃ entry, disk.files[fd]? = some entry ∧ entry.valid = true := by
  unfold validFD at valid
  cases here : disk.files[fd]? with
  | none => simp [here] at valid
  | some entry => exact ⟨entry, rfl, by simpa [here] using valid⟩

/-- Only handles that were returned are open. -/
theorem lt_of_validFD (valid : disk.validFD fd = true) : fd < disk.files.length := by
  obtain ⟨entry, here, _⟩ := exists_entry valid
  exact (List.getElem?_eq_some_iff.mp here).1

theorem getFileSizeFast_lt (disk : DiskManager) (fd : ℕ) : disk.getFileSizeFast fd < 2 ^ 64 := by
  unfold getFileSizeFast
  cases disk.files[fd]? with
  | none => exact Nat.two_pow_pos 64
  | some entry => exact entry.sizeInBytes_lt

section resize
variable (newSize : ℕ) (bound : newSize < 2 ^ 64)

/-- `Resize` of an open file to a size that is an `off_t`. -/
theorem resize_eq (opened : disk.validFD fd = true) (small : newSize < 2 ^ 63) :
    disk.resize fd newSize bound = .ok (disk.withSize fd newSize bound) := by
  rw [resize, opened, decide_eq_true small]
  rfl

/-- Where `Resize` returns, it had such an argument. -/
theorem resize_eq_ok {disk' : DiskManager} : disk.resize fd newSize bound = .ok disk' ↔
    disk.validFD fd = true ∧ newSize < 2 ^ 63 ∧ disk' = disk.withSize fd newSize bound := by
  by_cases fits : disk.validFD fd = true ∧ newSize < 2 ^ 63
  · rw [resize_eq newSize bound fits.1 fits.2]
    exact ⟨fun same => ⟨fits.1, fits.2, (Except.ok.inj same).symm⟩, fun ⟨_, _, same⟩ => same ▸ rfl⟩
  · refine iff_of_false (fun ran => ?_) fun both => fits ⟨both.1, both.2.1⟩
    have refused : (disk.validFD fd && decide (newSize < 2 ^ 63)) = false := by simpa using fits
    rw [resize, refused] at ran
    cases ran

@[simp] theorem withSize_length : (disk.withSize fd newSize bound).files.length = disk.files.length := by
  simp [withSize]

@[simp] theorem withSize_validFD (other : ℕ) :
    (disk.withSize fd newSize bound).validFD other = disk.validFD other := by
  simp only [withSize, validFD, List.getElem?_modify]
  split_ifs with same
  · subst same
    cases disk.files[fd]? <;> rfl
  · simp

theorem withSize_size (opened : disk.validFD fd = true) (other : ℕ) :
    (disk.withSize fd newSize bound).getFileSizeFast other =
      if other = fd then newSize else disk.getFileSizeFast other := by
  obtain ⟨entry, here, _⟩ := exists_entry opened
  simp only [withSize, getFileSizeFast, List.getElem?_modify]
  by_cases same : other = fd
  · subst same
    simp [here]
  · simp [same, Ne.symm same]

theorem withSize_file (opened : disk.validFD fd = true) (other : ℕ) :
    (disk.withSize fd newSize bound).file other =
      if other = fd then (disk.file fd).ftruncate newSize else disk.file other := by
  obtain ⟨entry, here, _⟩ := exists_entry opened
  simp only [withSize, DiskManager.file, List.getElem?_modify]
  by_cases same : other = fd
  · subst same
    simp [here]
  · simp [same, Ne.symm same]

end resize

/-- A write to an open file changes that file and nothing else. -/
theorem exists_write (valid : disk.validFD fd = true) (offset : ℕ) (data : Bytes) :
    ∃ disk', disk.write fd offset data = .ok disk' ∧ SameHandles disk disk' ∧
      ∀ fd', disk'.file fd' =
        if fd' = fd then
          RWSysCall.write (disk.getFileSizeFast fd) (disk.file fd) offset data pageSize
        else disk.file fd' := by
  obtain ⟨entry, here, open_⟩ := exists_entry valid
  have bound : fd < disk.files.length := (List.getElem?_eq_some_iff.mp here).1
  have entries (fd' : ℕ) (new : FileEntry) : (disk.files.set fd new)[fd']? =
      if fd' = fd then some new else disk.files[fd']? := by
    by_cases same : fd' = fd
    · subst same
      rw [if_pos rfl, List.getElem?_set_self bound]
    · rw [if_neg same, List.getElem?_set_ne (Ne.symm same)]
  refine ⟨_, by simp only [write, here, open_, if_true]; rfl, ⟨?_, ?_, ?_⟩, ?_⟩
  · simp
  · intro fd'
    simp only [validFD, entries]
    split_ifs with same
    · simp [same, here, open_]
    · rfl
  · intro fd'
    simp only [getFileSizeFast, entries]
    split_ifs with same
    · simp [same, here]
    · rfl
  · intro fd'
    simp only [file, entries]
    split_ifs with same
    · simp [getFileSizeFast, here]
    · rfl

/-- A read of an open file delivers the bytes of the page. -/
theorem exists_read (valid : disk.validFD fd = true) (offset : ℕ) (data : Bytes) :
    ∃ bytes, disk.read fd offset data = .ok bytes ∧
      ∀ i < pageSize, bytes i = disk.byte fd (offset + i) := by
  obtain ⟨entry, here, open_⟩ := exists_entry valid
  refine ⟨_, by simp only [read, here, open_, if_true]; rfl, fun i small => ?_⟩
  rw [RWSysCall.read_byte entry.file offset data small]
  simp [byte, file, here]

end DiskManager

end Gbp
