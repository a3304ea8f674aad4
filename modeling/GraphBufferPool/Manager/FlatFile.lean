import GraphBufferPool.Lib.Reach
import GraphBufferPool.Manager.Blocks
import GraphBufferPool.Manager.Files

/-! # The files as flat byte arrays

A run of the manager next to the bytes that plain arrays would hold: `GetBlock` returns those bytes
after any number of evictions and reloads, and every call returns. A `Resize` truncates the arrays;
the manager follows as long as no cached page holds a byte behind the new end.
-/

namespace Gbp.BufferPoolManager

open Function LawfulReplacer BufferPool DiskManager Fuel Machine

variable {R : Type} [Replacer R]

/-- The frames that a mapping can name: the two largest values of its 31 bits are reserved. -/
abbrev maxPoolSize : ℕ := 2 ^ 31 - 2

/-- The pages of an opened file that fall to one pool are no more than a mapping can be filled with. -/
def MappingFits (part : Partitioner) (length : ℕ) : Prop :=
  ceil (ceil length pageSize % fpageIdRange) part.numPartitions ≤ PageTable.maxSlots

instance (part : Partitioner) (length : ℕ) : Decidable (MappingFits part length) :=
  inferInstanceAs (Decidable (_ ≤ _))

/-- A manager with at least one frame for each pool and its first file open, and the bytes of that
file. -/
inductive FlatStart : BufferPoolManager R × Content → Prop
  | init (part : Partitioner) {poolSize : ℕ} (frames : 0 < poolSize) (named : poolSize ≤ maxPoolSize)
      (memory : ℕ → ℕ → Bytes) (file : OsFile) (fits : MappingFits part file.1.length) :
      FlatStart (.init part poolSize memory file, opened (fun _ _ => 0) 0 file.1)

/-- No cached page of the file holds other bytes than zeros at or behind position `size`. -/
def NoStale (mgr : BufferPoolManager R) (fd size : ℕ) : Prop :=
  ∀ page : Page, page.fd = fd → page.fpageId < fpageIdRange → ∀ m,
    (mgr.pools (mgr.poolOf page)).pageTable.word? page = some (.frame m) →
      ∀ j < pageSize, size ≤ page.position j → mgr.frame page m j = 0

/-- The calls on open files, next to what they do to the flat arrays. `May` says which calls of
`Resize` occur. -/
inductive FlatStep (May : BufferPoolManager R → ℕ → ℕ → Prop) :
    BufferPoolManager R × Content → BufferPoolManager R × Content → Prop
  | openFile {mgr mgr' : BufferPoolManager R} {content : Content} {fd : ℕ} (file : OsFile)
      (fits : MappingFits mgr.partitioner file.1.length) (ran : mgr.openFile file = .ok (fd, mgr')) :
      FlatStep May (mgr, content) (mgr', opened content fd file.1)
  | getBlock {mgr mgr' : BufferPoolManager R} {content : Content} {fd fileOffset blockSize : ℕ}
      {buf buf' : Bytes} (range : InRange mgr fd fileOffset blockSize)
      (ran : Returns (fun fuel => mgr.getBlock fuel buf fileOffset blockSize fd) (buf', mgr')) :
      FlatStep May (mgr, content) (mgr', content)
  | setBlock {mgr mgr' : BufferPoolManager R} {content : Content} {fd fileOffset blockSize : ℕ}
      {buf : Bytes} (range : InRange mgr fd fileOffset blockSize)
      (ran : Returns (fun fuel => mgr.setBlock fuel buf fileOffset blockSize fd false) mgr') :
      FlatStep May (mgr, content) (mgr', splice content fd fileOffset buf blockSize)
  | loadFile {mgr mgr' : BufferPoolManager R} {content : Content} {fd : ℕ} {loaded : Bool}
      (range : InRange mgr fd 0 0) (ran : Returns (fun fuel => mgr.loadFile fuel fd) (loaded, mgr')) :
      FlatStep May (mgr, content) (mgr', content)
  | resize {mgr mgr' : BufferPoolManager R} {content : Content} {fd newSize : ℕ}
      (bound : newSize < 2 ^ 64) (valid : mgr.disk.validFD fd = true) (may : May mgr fd newSize)
      (ran : mgr.resize fd newSize bound = .ok mgr') :
      FlatStep May (mgr, content) (mgr', truncated content fd newSize)

/-- The runs of files of fixed size. -/
abbrev FixedRun (state : BufferPoolManager R × Content) : Prop :=
  Reach FlatStart (FlatStep fun _ _ _ => False) state

/-- The runs with every `Resize`. -/
abbrev ResizeRun (state : BufferPoolManager R × Content) : Prop :=
  Reach FlatStart (FlatStep fun _ _ _ => True) state

/-- A `Resize` to a size that `ftruncate` and the mappings can take, and that shrinks a file only where no cached
page holds a byte behind the new end. -/
structure CleanResize (mgr : BufferPoolManager R) (fd newSize : ℕ) : Prop where
  small : newSize < 2 ^ 63
  fits : PagesFit mgr newSize
  clean : newSize < mgr.disk.getFileSizeFast fd → NoStale mgr fd newSize

/-- The runs with such calls of `Resize` only. -/
abbrev CleanRun (state : BufferPoolManager R × Content) : Prop := Reach FlatStart (FlatStep CleanResize) state

variable [LawfulReplacer R]

/-- The manager is between calls, with no pin left, and holds the bytes of the flat arrays. -/
structure Flat (state : BufferPoolManager R × Content) : Prop where
  frames : 0 < state.1.poolSize
  named : state.1.poolSize ≤ maxPoolSize
  sound : ∃ place, Sound (fun _ _ => True) state.2 state.1 place (fun _ => []) ∧ AllQuiet state.1 place

variable {mgr mgr' : BufferPoolManager R} {content : Content} {place : ℕ → ℕ → Place}

omit [Replacer R] [LawfulReplacer R] in
theorem spare_of_no_pins (frames : 0 < mgr.poolSize) : Spare mgr fun _ => [] :=
  fun _ _ => ⟨frames, fun _ => by simp [Room]⟩

theorem Sound.loadFile {K : ℕ → ℕ → Prop} {pins : ℕ → List (Page × ℕ)} {fd : ℕ}
    (sound : Sound K content mgr place pins) (quiet : AllQuiet mgr place) (spare : Spare mgr pins)
    (range : InRange mgr fd 0 0) : ∃ mgr' place',
      Returns (fun fuel => mgr.loadFile fuel fd) (true, mgr') ∧ Sound K content mgr' place' pins ∧
      AllQuiet mgr' place' ∧ SameShape mgr mgr' := by
  have visit (fpageId : ℕ) (below : fpageId < ceil (mgr.disk.getFileSizeFast fd) pageSize)
      (mgr' : BufferPoolManager R)
      (before : ∃ place', Sound K content mgr' place' pins ∧ AllQuiet mgr' place' ∧ SameShape mgr mgr') :
      ∃ mgr'', Returns (fun fuel => mgr'.fetchPageSync fuel ⟨fd, fpageId % fpageIdRange⟩ >>= fun fetched =>
          return fetched.2.decRefCount ⟨fd, fpageId % fpageIdRange⟩ fetched.1 false) mgr'' ∧
        ∃ place', Sound K content mgr'' place' pins ∧ AllQuiet mgr'' place' ∧ SameShape mgr mgr'' := by
    obtain ⟨place', sound', quiet', shape⟩ := before
    have start := (lt_ceil_iff (by decide)).mp below
    have inFile : InFile mgr ⟨fd, fpageId % fpageIdRange⟩ := by
      refine ⟨range.handle, range.valid, range.small, ?_⟩
      exact (Nat.mul_le_mul_right pageSize (Nat.mod_le ..)).trans_lt start
    obtain ⟨m, fetched, place'', fetch, _, quiet'', shape', sound''⟩ :=
      sound'.fetch quiet' (shape.spare spare) (shape.inFile inFile)
    rw [← shape'.poolOf] at sound''
    exact ⟨_, fetch.bind .const, place'', sound''.release, quiet'',
      (shape.trans shape').trans ⟨rfl, rfl, .refl _⟩⟩
  obtain ⟨mgr', ran, place', after⟩ := Returns.foldlM_range _ visit ⟨place, sound, quiet, .refl mgr⟩
  exact ⟨mgr', place', ran.bind .const, after⟩

/-- Where a `Resize` cuts no byte off a cached page, no frame holds bytes behind the new end. -/
theorem Sound.clear {K : ℕ → ℕ → Prop} {fd newSize : ℕ} {pins : ℕ → List (Page × ℕ)}
    (sound : Sound K content mgr place pins)
    (noStale : newSize < mgr.disk.getFileSizeFast fd → NoStale mgr fd newSize) :
    Clear K mgr place fd newSize := by
  intro i inside m page here same j small past known
  rcases Nat.lt_or_ge newSize (mgr.disk.getFileSizeFast fd) with shrinks | grows
  · have owns := (sound.inv i inside).owned m page (Or.inl here)
    have pool : mgr.poolOf page = i := by
      rw [← sound.poolId i inside, poolOf, ← sound.partitioner i inside]
      exact owns.partition
    subst pool
    exact noStale shrinks page same owns.fpageId m ((sound.inv _ inside).word?_resident here) j small past
  · subst same
    have held := (sound.coherent i inside).frame m page here j small known
    exact held.trans ((sound.coherent i inside).tail page.fd _ known (grows.trans past))

theorem FlatStart.flat {state : BufferPoolManager R × Content} (start : FlatStart state) : Flat state := by
  cases start with
  | @init part poolSize frames named memory file _ =>
    refine ⟨frames, named, _, (opens_init part poolSize memory file).sound (blank_sound part poolSize memory), ?_⟩
    exact fun i _ => startPlace_quiet poolSize

theorem FlatStep.flat {May : BufferPoolManager R → ℕ → ℕ → Prop}
    (clean : ∀ mgr fd newSize, May mgr fd newSize → newSize < mgr.disk.getFileSizeFast fd →
      NoStale mgr fd newSize) {state state' : BufferPoolManager R × Content} (before : Flat state)
    (step : FlatStep May state state') : Flat state' := by
  obtain ⟨frames, named, place, sound, quiet⟩ := before
  have spare := spare_of_no_pins frames
  cases step with
  | openFile file _ ran =>
    obtain ⟨_, returned, opens⟩ := exists_openFile _ file
    cases returned.symm.trans ran
    refine ⟨opens.poolSize ▸ frames, opens.poolSize ▸ named, place, opens.sound sound, ?_⟩
    rw [AllQuiet, opens.partitioner]
    exact quiet
  | getBlock range ran =>
    obtain ⟨_, _, place', returned, sound', quiet', shape, _⟩ := sound.getBlock quiet spare range _
    cases returned.unique ran
    exact ⟨shape.poolSize ▸ frames, shape.poolSize ▸ named, place', sound', quiet'⟩
  | setBlock range ran =>
    obtain ⟨_, place', returned, sound', quiet', shape⟩ := sound.setBlock quiet spare range _
    cases returned.unique ran
    exact ⟨shape.poolSize ▸ frames, shape.poolSize ▸ named, place', sound'.mono fun _ _ => Or.inl, quiet'⟩
  | loadFile range ran =>
    obtain ⟨_, place', returned, sound', quiet', shape⟩ := sound.loadFile quiet spare range
    cases returned.unique ran
    exact ⟨shape.poolSize ▸ frames, shape.poolSize ▸ named, place', sound', quiet'⟩
  | resize bound valid may ran =>
    obtain ⟨_, _, resizes⟩ := resize_returned ran
    refine ⟨resizes.poolSize ▸ frames, resizes.poolSize ▸ named, place,
      resizes.sound valid sound (sound.clear (clean _ _ _ may)), ?_⟩
    rw [AllQuiet, resizes.partitioner]
    exact quiet

/-- What a caller may rely on between two calls. -/
structure ActsAsFlat (mgr : BufferPoolManager R) (content : Content) : Prop where
  getBlock : ∀ fd fileOffset blockSize buf, InRange mgr fd fileOffset blockSize → ∃ buf' mgr',
    Returns (fun fuel => mgr.getBlock fuel buf fileOffset blockSize fd) (buf', mgr') ∧
      (∀ i < blockSize, buf' i = content fd (fileOffset + i)) ∧ ∀ i, blockSize ≤ i → buf' i = buf i
  setBlock : ∀ fd fileOffset blockSize buf, InRange mgr fd fileOffset blockSize → ∃ mgr',
    Returns (fun fuel => mgr.setBlock fuel buf fileOffset blockSize fd false) mgr'
  loadFile : ∀ fd, InRange mgr fd 0 0 → ∃ mgr', Returns (fun fuel => mgr.loadFile fuel fd) (true, mgr')

theorem Flat.acts (flat : Flat (mgr, content)) : ActsAsFlat mgr content := by
  obtain ⟨frames, _, place, sound, quiet⟩ := flat
  have spare := spare_of_no_pins frames
  refine ⟨?_, ?_, ?_⟩
  · intro fd fileOffset blockSize buf range
    obtain ⟨buf', mgr', _, ran, _, _, _, read, rest⟩ := sound.getBlock quiet spare range buf
    exact ⟨buf', mgr', ran, fun i small => read i small trivial, rest⟩
  · intro fd fileOffset blockSize buf range
    obtain ⟨mgr', _, ran, _⟩ := sound.setBlock quiet spare range buf
    exact ⟨mgr', ran⟩
  · intro fd range
    obtain ⟨mgr', _, ran, _⟩ := sound.loadFile quiet spare range
    exact ⟨mgr', ran⟩

/-- The mapping words of the pages of open files are what their 31 bits decode to. -/
def WordsDecode (mgr : BufferPoolManager R) : Prop :=
  ∀ page word, InFile mgr page → (mgr.pools (mgr.poolOf page)).pageTable.word? page = some word →
    MapWord.decode word.encode = word

/-- A mapping names only frames of its pool, all of which have numbers below the reserved ones. -/
theorem Flat.wordsDecode (flat : Flat (mgr, content)) : WordsDecode mgr := by
  obtain ⟨_, named, place, sound, _⟩ := flat
  intro page word inFile here
  apply MapWord.decode_encode
  rintro m rfl
  have inside := mgr.poolOf_lt page
  have resident : place (mgr.poolOf page) m = .resident page :=
    ((sound.inv _ inside).mapped page (sound.owns inFile) m).mp here
  have frame : m < (mgr.pools (mgr.poolOf page)).poolSize := by
    by_contra past
    have absent := ((sound.inv _ inside).absent m).mpr (Nat.le_of_not_lt past)
    rw [resident] at absent
    cases absent
  rw [sound.poolSize _ inside] at frame
  exact frame.trans_le named

/-- A file with one page more than there are page ids, and a byte that is not zero in it. -/
def wideFile : OsFile :=
  ⟨{  length := 2 ^ 44 + 4096
      byte := fun i => if i = 2 ^ 44 then 1 else 0
      byte_past := fun i past => if_neg (by omega) }, by decide⟩

section stale

variable {fd newSize : ℕ}

/-- `GetBlock` of one byte of a resident page copies it from the frame. -/
theorem getBlock_resident {page : Page} {m j : ℕ} {place : ℕ → Place} {pins : List (Page × ℕ)}
    (inv : BufferPool.Inv (mgr.pool (mgr.poolOf page)) place pins) (here : place m = .resident page)
    (id : page.fpageId < fpageIdRange) (small : j < pageSize) (buf : Bytes) :
    ∃ buf' mgr', Returns (fun fuel => mgr.getBlock fuel buf (page.position j) 1 page.fd) (buf', mgr') ∧
      buf' 0 = mgr.frame page m j := by
  obtain ⟨r, _, pinned, _⟩ := inv.exists_pin here
  have fpageId : fpageIdOf (page.position j) = page.fpageId := by
    rw [fpageIdOf, Page.position_div small, Nat.mod_eq_of_lt id]
  have offset : page.position j % pageSize = j := by
    rw [Page.position, Nat.mul_add_mod_self_right, Nat.mod_eq_of_lt small]
  have size : objectSize j 1 = 1 := by
    unfold objectSize
    rw [if_neg (by omega)]
  set pinnedMgr := mgr.setPool (mgr.poolOf page) ((mgr.pool (mgr.poolOf page)).withPin m r)
  have frame : pinnedMgr.frame page m = mgr.frame page m := by
    simp only [pinnedMgr, BufferPoolManager.frame, setPool, BufferPoolManager.poolOf, update_self]
    rfl
  refine ⟨memcpy buf 0 (mgr.frame page m) j 1, pinnedMgr.decRefCount page m false,
    ⟨2, fun fuel enough => ?_⟩, by simp [memcpy]⟩
  obtain ⟨fuel, rfl⟩ : ∃ rest, fuel = rest + 2 := ⟨fuel - 2, by omega⟩
  have fetch (fuel : ℕ) : mgr.fetchPageSync fuel ⟨page.fd, page.fpageId⟩ = .ok (m, pinnedMgr) := by
    simp only [BufferPoolManager.fetchPageSync, BufferPool.fetchPageSync]
    rw [show (⟨page.fd, page.fpageId⟩ : Page) = page from rfl, pinned]
    rfl
  simp only [BufferPoolManager.getBlock, blockLoop, getBlockBody, fpageId, offset, fetch, ok_bind, size]
  rw [← frame]
  rfl

omit [Replacer R] [LawfulReplacer R] in
/-- `Resize` moves no page and stores no byte. -/
theorem Resizes.frame {bound : newSize < 2 ^ 64} (resizes : Resizes mgr fd newSize bound mgr')
    (page : Page) (m : ℕ) :
    mgr'.poolOf page = mgr.poolOf page ∧ mgr'.frame page m = mgr.frame page m := by
  have same : mgr'.poolOf page = mgr.poolOf page := by
    rw [BufferPoolManager.poolOf, resizes.partitioner]
    rfl
  obtain ⟨_, _, _, _, _, pools⟩ := resizes.pools (mgr.poolOf page) (mgr.poolOf_lt page)
  refine ⟨same, ?_⟩
  rw [BufferPoolManager.frame, same, pools]
  rfl

/-- A cached byte behind the new end comes back when the file grows again. -/
theorem Sound.stale_read (sound : Sound (fun _ _ => True) content mgr place fun _ => [])
    (handle : fd < 2 ^ 13) (valid : mgr.disk.validFD fd = true) (bound : newSize < 2 ^ 64)
    (takes : ∀ size, size = newSize ∨ size = mgr.disk.getFileSizeFast fd → size < 2 ^ 63 ∧ PagesFit mgr size)
    (stale : ¬ NoStale mgr fd newSize) : ∃ mgr₁ mgr₂ position,
      mgr.resize fd newSize bound = .ok mgr₁ ∧
      mgr₁.resize fd (mgr.disk.getFileSizeFast fd) (mgr.disk.getFileSizeFast_lt fd) = .ok mgr₂ ∧
      newSize ≤ position ∧ position < mgr.disk.getFileSizeFast fd ∧
      ∀ buf, ∃ buf' mgr₃,
        Returns (fun fuel => mgr₂.getBlock fuel buf position 1 fd) (buf', mgr₃) ∧ buf' 0 ≠ 0 := by
  simp only [NoStale, not_forall] at stale
  obtain ⟨page, rfl, id, m, word, j, small, past, nonzero⟩ := stale
  have inside := mgr.poolOf_lt page
  have owns : (mgr.pool (mgr.poolOf page)).Owns page := by
    refine ⟨?_, id, handle, valid, ?_⟩
    · change (mgr.pools _).pageTable.partitioner.getPartitionId _ = (mgr.pools _).poolId
      rw [sound.partitioner _ inside, sound.poolId _ inside]
      rfl
    · exact fun none => Option.some_ne_none _ (word.symm.trans none)
  have here : place (mgr.poolOf page) m = .resident page :=
    ((sound.inv _ inside).mapped page owns m).mp word
  have before : page.position j < mgr.disk.getFileSizeFast page.fd := by
    by_contra behind
    apply nonzero
    rw [sound.frame_byte here small trivial]
    exact (sound.coherent _ inside).tail page.fd _ trivial (Nat.le_of_not_lt behind)
  -- The other files stay coherent, so the pools keep their invariant through both calls.
  have clear (mgr : BufferPoolManager R) (size : ℕ) : Clear (fun fd _ => fd ≠ page.fd) mgr place page.fd size :=
    fun _ _ _ _ _ _ _ _ _ elsewhere => absurd rfl elsewhere
  have sound : Sound (fun fd _ => fd ≠ page.fd) content mgr place fun _ => [] := sound.mono fun _ _ _ => trivial
  obtain ⟨small₁, fits₁⟩ := takes _ (Or.inl rfl)
  obtain ⟨mgr₁, ran₁⟩ := exists_resize sound.toCovers bound valid small₁ fits₁
  obtain ⟨_, _, shrinks⟩ := resize_returned ran₁
  have sound₁ := shrinks.sound valid sound (clear mgr newSize)
  have valid₁ : mgr₁.disk.validFD page.fd = true := by
    rw [shrinks.disk, withSize_validFD]
    exact valid
  obtain ⟨small₂, fits₂⟩ := takes _ (Or.inr rfl)
  rw [PagesFit, ← shrinks.partitioner] at fits₂
  obtain ⟨mgr₂, ran₂⟩ := exists_resize sound₁.toCovers (mgr.disk.getFileSizeFast_lt page.fd) valid₁ small₂ fits₂
  obtain ⟨_, _, grows⟩ := resize_returned ran₂
  have sound₂ := grows.sound valid₁ sound₁ (clear mgr₁ _)
  obtain ⟨pool₁, frame₁⟩ := shrinks.frame page m
  obtain ⟨pool₂, frame₂⟩ := grows.frame page m
  refine ⟨mgr₁, mgr₂, page.position j, ran₁, ran₂, past, before, fun buf => ?_⟩
  have inv := sound₂.inv _ (mgr₂.poolOf_lt page)
  rw [← pool₁, ← pool₂] at here
  obtain ⟨buf', mgr₃, ran, copied⟩ := getBlock_resident inv here id small buf
  refine ⟨buf', mgr₃, ran, ?_⟩
  rw [copied, frame₂, frame₁]
  exact nonzero

end stale

end Gbp.BufferPoolManager
