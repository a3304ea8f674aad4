import GraphBufferPool.Manager.Invariant

/-! # `GetBlock` and `SetBlock`

The loop over the pages of a range, and from it what the calls return: `GetBlock` the bytes written
so far, `SetBlock` a manager for the bytes with the range replaced. Both return whenever every pool
has a frame that no pin holds.
-/

namespace Gbp

open Fuel

section loop

variable {σ : Type} {body : ℕ → ℕ → ℕ → ℕ → ℕ → σ → Except Stop (ℕ × σ)} {fileOffset blockSize : ℕ}

theorem objectSize_pos {pageOffset size : ℕ} (offset : pageOffset < pageSize) (positive : 0 < size) :
    0 < objectSize pageOffset size := by
  unfold objectSize
  split_ifs <;> omega

theorem objectSize_le (pageOffset size : ℕ) : objectSize pageOffset size ≤ size := by
  unfold objectSize
  split_ifs <;> omega

/-- A piece ends in its page. -/
theorem objectSize_add_le {pageOffset size : ℕ} (offset : pageOffset < pageSize) :
    pageOffset + objectSize pageOffset size ≤ pageSize := by
  unfold objectSize
  split_ifs <;> omega

/-- After a piece, the loop is at the end of the range or at the start of a page. -/
theorem objectSize_end {pageOffset size : ℕ} (offset : pageOffset < pageSize) :
    objectSize pageOffset size = size ∨ pageOffset + objectSize pageOffset size = pageSize := by
  unfold objectSize
  split_ifs
  · exact Or.inr (by omega)
  · exact Or.inl rfl

theorem objectSize_next {fileOffset done blockSize : ℕ} (left : done < blockSize) :
    (fileOffset + (done + objectSize ((fileOffset + done) % pageSize) (blockSize - done))) % pageSize = 0 ∨
      done + objectSize ((fileOffset + done) % pageSize) (blockSize - done) = blockSize := by
  have offset : (fileOffset + done) % pageSize < pageSize := Nat.mod_lt _ (by decide)
  rcases @objectSize_end _ (blockSize - done) offset with last | full
  · exact Or.inr (by omega)
  · refine Or.inl ?_
    have pages := Nat.div_add_mod (fileOffset + done) pageSize
    have next : fileOffset + (done + objectSize ((fileOffset + done) % pageSize) (blockSize - done)) =
        pageSize * ((fileOffset + done) / pageSize + 1) := by
      rw [Nat.mul_succ]
      omega
    rw [next, Nat.mul_mod_right]

/-- A piece that begins before a page boundary does not cross it. -/
theorem objectSize_boundary {fileOffset done boundary blockSize : ℕ} (before : done < boundary)
    (aligned : (fileOffset + boundary) % pageSize = 0) :
    done + objectSize ((fileOffset + done) % pageSize) (blockSize - done) ≤ boundary := by
  have fits := @objectSize_add_le _ (blockSize - done) (Nat.mod_lt (fileOffset + done) (by decide))
  generalize objectSize ((fileOffset + done) % pageSize) (blockSize - done) = n at *
  unfold pageSize at *
  omega

/-- The loop rule: an invariant of the bytes done that every page keeps holds when the loop ends. -/
theorem blockLoop_returns (I : ℕ → σ → Prop) (bound : fileOffset + blockSize ≤ fpageIdRange * pageSize)
    (visit : ∀ done < blockSize, ∀ s, I done s → ∃ s',
      Returns (fun fuel => body fuel ((fileOffset + done) / pageSize) ((fileOffset + done) % pageSize)
        (blockSize - done) done s)
        (objectSize ((fileOffset + done) % pageSize) (blockSize - done), s') ∧
      I (done + objectSize ((fileOffset + done) % pageSize) (blockSize - done)) s')
    {s : σ} (start : I 0 s) : ∃ s', Returns (fun fuel => blockLoop body fuel (fpageIdOf fileOffset)
      (fileOffset % pageSize) blockSize 0 s) s' ∧ I blockSize s' := by
  -- The loop at `done` bytes, wherever it has come to.
  have rest (left : ℕ) : ∀ done fpageId pageOffset, done + left = blockSize → (0 < left →
      fpageId = (fileOffset + done) / pageSize ∧ pageOffset = (fileOffset + done) % pageSize) →
      ∀ s, I done s → ∃ s', Returns (fun fuel => blockLoop body fuel fpageId pageOffset left done s) s' ∧
        I blockSize s' := by
    induction left using Nat.strong_induction_on with
    | _ left ih =>
    intro done fpageId pageOffset total at_ s here
    rcases Nat.eq_zero_or_pos left with rfl | positive
    · obtain rfl : done = blockSize := by omega
      refine ⟨s, (@Returns.shift _ _ 1 _ (fun _ => .ok s) _ fun fuel => ?_).mpr .const, here⟩
      simp [blockLoop]
    · obtain ⟨rfl, rfl⟩ := at_ positive
      obtain rfl : left = blockSize - done := by omega
      obtain ⟨s', ran, here'⟩ := visit done (by omega) s here
      set n := objectSize ((fileOffset + done) % pageSize) (blockSize - done) with n_eq
      have offset : (fileOffset + done) % pageSize < pageSize := Nat.mod_lt _ (by decide)
      have small : n ≤ blockSize - done := objectSize_le ..
      have nonzero : 0 < n := objectSize_pos offset positive
      have ends := @objectSize_end _ (blockSize - done) offset
      rw [← n_eq] at ends
      obtain ⟨s'', returned, final⟩ := ih (blockSize - done - n) (by omega) (done + n)
        (((fileOffset + done) / pageSize + 1) % fpageIdRange) 0 (by omega) (fun later => by
          have reached := ends.resolve_left (by omega)
          unfold pageSize fpageIdRange at *
          omega) s' here'
      refine ⟨s'', (@Returns.shift _ _ 1 _ (fun fuel => body fuel ((fileOffset + done) / pageSize)
        ((fileOffset + done) % pageSize) (blockSize - done) done s >>= fun result =>
          blockLoop body fuel (((fileOffset + done) / pageSize + 1) % fpageIdRange) 0
            (blockSize - done - result.1) (done + result.1) result.2) _ fun fuel => ?_).mpr
              (ran.bind returned), final⟩
      simp only [blockLoop, if_neg (Nat.pos_iff_ne_zero.mp positive)]
  refine rest blockSize 0 _ _ (Nat.zero_add _) (fun positive => ⟨?_, rfl⟩) s start
  unfold fpageIdOf
  rw [Nat.add_zero, Nat.mod_eq_of_lt]
  unfold pageSize fpageIdRange at *
  omega

/-- Two bodies that agree wherever an invariant of the bytes done holds make the same loop. -/
theorem blockLoop_congr {body' : ℕ → ℕ → ℕ → ℕ → ℕ → σ → Except Stop (ℕ × σ)} (I : ℕ → σ → Prop)
    (bound : fileOffset + blockSize ≤ fpageIdRange * pageSize)
    (visit : ∀ done < blockSize, ∀ s, I done s → ∀ fuel,
      body fuel ((fileOffset + done) / pageSize) ((fileOffset + done) % pageSize) (blockSize - done) done s =
        body' fuel ((fileOffset + done) / pageSize) ((fileOffset + done) % pageSize) (blockSize - done) done s ∧
      ∀ n s', body fuel ((fileOffset + done) / pageSize) ((fileOffset + done) % pageSize)
          (blockSize - done) done s = .ok (n, s') →
        n = objectSize ((fileOffset + done) % pageSize) (blockSize - done) ∧ I (done + n) s')
    {s : σ} (start : I 0 s) (fuel : ℕ) :
    blockLoop body fuel (fpageIdOf fileOffset) (fileOffset % pageSize) blockSize 0 s =
      blockLoop body' fuel (fpageIdOf fileOffset) (fileOffset % pageSize) blockSize 0 s := by
  have rest : ∀ left done fpageId pageOffset, done + left = blockSize → (0 < left →
      fpageId = (fileOffset + done) / pageSize ∧ pageOffset = (fileOffset + done) % pageSize) →
      ∀ s, I done s → blockLoop body fuel fpageId pageOffset left done s =
        blockLoop body' fuel fpageId pageOffset left done s := by
    induction fuel with
    | zero => exact fun _ _ _ _ _ _ _ _ => rfl
    | succ fuel ih =>
      intro left done fpageId pageOffset total at_ s here
      simp only [blockLoop]
      split_ifs with empty
      · rfl
      obtain ⟨rfl, rfl⟩ := at_ (Nat.pos_of_ne_zero empty)
      obtain rfl : left = blockSize - done := by omega
      obtain ⟨same, next⟩ := visit done (by omega) s here fuel
      rw [← same]
      cases visited : body fuel ((fileOffset + done) / pageSize) ((fileOffset + done) % pageSize)
          (blockSize - done) done s with
      | error stop => rfl
      | ok result =>
        obtain ⟨n, s'⟩ := result
        obtain ⟨rfl, here'⟩ := next n s' visited
        have small := objectSize_le ((fileOffset + done) % pageSize) (blockSize - done)
        refine ih _ _ _ _ (by omega) (fun later => ?_) s' here'
        have reached := (@objectSize_next fileOffset done blockSize (by omega)).resolve_right (by omega)
        have nonzero := objectSize_pos (Nat.mod_lt (fileOffset + done) (show 0 < pageSize by decide))
          (show 0 < blockSize - done by omega)
        have ends := @objectSize_add_le _ (blockSize - done)
          (Nat.mod_lt (fileOffset + done) (show 0 < pageSize by decide))
        generalize objectSize ((fileOffset + done) % pageSize) (blockSize - done) = n at *
        unfold pageSize fpageIdRange at *
        omega
  refine rest blockSize 0 _ _ (Nat.zero_add _) (fun positive => ⟨?_, rfl⟩) s start
  unfold fpageIdOf
  rw [Nat.add_zero, Nat.mod_eq_of_lt]
  unfold pageSize fpageIdRange at *
  omega

/-- More fuel never changes the result of a loop whose visits it does not change. -/
theorem blockLoop_stable (visits : ∀ fpageId fpageOffset left done s,
      Stable fun fuel => body fuel fpageId fpageOffset left done s) (fpageId fpageOffset left done : ℕ)
    (s : σ) : Stable fun fuel => blockLoop body fuel fpageId fpageOffset left done s := by
  intro fuel
  induction fuel generalizing fpageId fpageOffset left done s with
  | zero => nofun
  | succ fuel ih =>
    intro result ran
    simp only [blockLoop] at ran ⊢
    split_ifs at ran ⊢
    · exact ran
    · obtain ⟨_, visited, rest⟩ := bind_eq_ok.mp ran
      exact bind_eq_ok.mpr ⟨_, visits _ _ _ _ _ _ _ visited, ih _ _ _ _ _ _ rest⟩

end loop

namespace BufferPoolManager

section stable

variable {R : Type} [Replacer R]

theorem fetchPageSync_stable (page : Page) (mgr : BufferPoolManager R) :
    Stable fun fuel => mgr.fetchPageSync fuel page :=
  .bind (BufferPool.fetchPageSync_stable page _) fun _ => .const _

theorem getBlock_stable (buf : Bytes) (fileOffset blockSize fd : ℕ) (mgr : BufferPoolManager R) :
    Stable fun fuel => mgr.getBlock fuel buf fileOffset blockSize fd := by
  refine blockLoop_stable (fun _ _ _ _ _ => ?_) _ _ _ _ _
  exact .bind (fetchPageSync_stable _ _) fun _ => .const _

theorem setBlock_stable (buf : Bytes) (fileOffset blockSize fd : ℕ) (flush : Bool)
    (mgr : BufferPoolManager R) :
    Stable fun fuel => mgr.setBlock fuel buf fileOffset blockSize fd flush := by
  refine blockLoop_stable (fun _ _ _ _ _ => ?_) _ _ _ _ _
  exact .bind (fetchPageSync_stable _ _) fun _ => .const _

end stable

open Function LawfulReplacer BufferPool DiskManager

variable {R : Type} [Replacer R] [LawfulReplacer R] {K : ℕ → ℕ → Prop} {content : Content}
  {mgr mgr' : BufferPoolManager R} {place : ℕ → ℕ → Place} {pins : ℕ → List (Page × ℕ)}
  {fd fileOffset blockSize : ℕ}

/-- The ranges a caller may ask for: inside an open file. -/
structure InRange (mgr : BufferPoolManager R) (fd fileOffset blockSize : ℕ) : Prop where
  handle : fd < 2 ^ 13
  valid : mgr.disk.validFD fd = true
  small : mgr.disk.getFileSizeFast fd ≤ maxFileSize
  inside : fileOffset + blockSize ≤ mgr.disk.getFileSizeFast fd

omit [Replacer R] [LawfulReplacer R] in
theorem InRange.bound (range : InRange mgr fd fileOffset blockSize) :
    fileOffset + blockSize ≤ fpageIdRange * pageSize :=
  (range.inside.trans range.small).trans (Nat.mul_le_mul_right _ (Nat.sub_le ..))

omit [Replacer R] [LawfulReplacer R] in
theorem InRange.page (range : InRange mgr fd fileOffset blockSize) {done : ℕ} (left : done < blockSize) :
    InFile mgr ⟨fd, (fileOffset + done) / pageSize⟩ where
  handle := range.handle
  valid := range.valid
  small := range.small
  inside := by
    have inside := range.inside
    have start := Nat.div_mul_le_self (fileOffset + done) pageSize
    dsimp only
    omega

omit [Replacer R] [LawfulReplacer R] in
theorem SameShape.inRange (same : SameShape mgr mgr') (range : InRange mgr fd fileOffset blockSize) :
    InRange mgr' fd fileOffset blockSize where
  handle := range.handle
  valid := (same.handles.valid _).trans range.valid
  small := (same.handles.size _).trans_le range.small
  inside := range.inside.trans_eq (same.handles.size _).symm

/-- The position of a byte of a piece, from the start of its page and from the start of the range. -/
theorem position_piece (fd start i : ℕ) :
    (⟨fd, start / pageSize⟩ : Page).position (start % pageSize + i) = start + i := by
  have split := Nat.div_add_mod' start pageSize
  simp only [Page.position]
  omega

theorem position_add_mod (fd start i : ℕ) :
    (⟨fd, start / pageSize⟩ : Page).position i + start % pageSize = start + i := by
  rw [Page.position, Nat.add_right_comm, Nat.div_add_mod']

/-- What `GetBlock` has done after `done` bytes. -/
def Reads (K : ℕ → ℕ → Prop) (content : Content) (mgr : BufferPoolManager R)
    (pins : ℕ → List (Page × ℕ)) (fd fileOffset : ℕ) (buf : Bytes) (done : ℕ)
    (s : Bytes × BufferPoolManager R) : Prop :=
  ∃ place, Sound K content s.2 place pins ∧ AllQuiet s.2 place ∧ SameShape mgr s.2 ∧
    (∀ i < done, K fd (fileOffset + i) → s.1 i = content fd (fileOffset + i)) ∧
    ∀ i, done ≤ i → s.1 i = buf i

theorem Reads.step (spare : Spare mgr pins) (range : InRange mgr fd fileOffset blockSize) {buf : Bytes}
    (done : ℕ) (left : done < blockSize) (s : Bytes × BufferPoolManager R)
    (before : Reads K content mgr pins fd fileOffset buf done s) :
    ∃ s', Returns (fun fuel => getBlockBody fd fuel ((fileOffset + done) / pageSize)
        ((fileOffset + done) % pageSize) (blockSize - done) done s)
        (objectSize ((fileOffset + done) % pageSize) (blockSize - done), s') ∧
      Reads K content mgr pins fd fileOffset buf
        (done + objectSize ((fileOffset + done) % pageSize) (blockSize - done)) s' := by
  obtain ⟨buf', mgr'⟩ := s
  obtain ⟨place', sound', quiet', shape, copied, kept⟩ := before
  set page : Page := ⟨fd, (fileOffset + done) / pageSize⟩ with page_eq
  set n := objectSize ((fileOffset + done) % pageSize) (blockSize - done) with n_eq
  have offset : (fileOffset + done) % pageSize < pageSize := Nat.mod_lt _ (by decide)
  have ends := @objectSize_add_le _ (blockSize - done) offset
  obtain ⟨m, fetched, place'', ran, here, quiet'', shape', sound''⟩ :=
    sound'.fetch quiet' (shape.spare spare) (shape.inFile (range.page left))
  rw [← shape'.poolOf] at here sound''
  refine ⟨(memcpy buf' done (fetched.frame page m) ((fileOffset + done) % pageSize) n,
    fetched.decRefCount page m false), ran.bind .const, place'', sound''.release, quiet'',
      (shape.trans shape').trans ⟨rfl, rfl, .refl _⟩, ?_, ?_⟩
  · intro i small known
    by_cases now : done ≤ i
    · have same : page.position ((fileOffset + done) % pageSize + (i - done)) = fileOffset + i := by
        rw [page_eq, position_piece]
        omega
      simp only [memcpy, if_pos (show done ≤ i ∧ i < done + n from ⟨now, small⟩)]
      rw [sound''.frame_byte here (by omega) (by rw [same]; exact known), same]
    · simp only [memcpy, if_neg (show ¬ (done ≤ i ∧ i < done + n) by omega)]
      exact copied i (by omega) known
  · intro i past
    simp only [memcpy, if_neg (show ¬ (done ≤ i ∧ i < done + n) by omega)]
    exact kept i (by omega)

/-- `GetBlock` returns the bytes of its range and changes none. -/
theorem Sound.getBlock (sound : Sound K content mgr place pins) (quiet : AllQuiet mgr place)
    (spare : Spare mgr pins) (range : InRange mgr fd fileOffset blockSize) (buf : Bytes) :
    ∃ buf' mgr' place',
      Returns (fun fuel => BufferPoolManager.getBlock fuel buf fileOffset blockSize fd mgr) (buf', mgr') ∧
      Sound K content mgr' place' pins ∧ AllQuiet mgr' place' ∧ SameShape mgr mgr' ∧
      (∀ i < blockSize, K fd (fileOffset + i) → buf' i = content fd (fileOffset + i)) ∧
      ∀ i, blockSize ≤ i → buf' i = buf i := by
  have start : Reads K content mgr pins fd fileOffset buf 0 (buf, mgr) :=
    ⟨place, sound, quiet, .refl _, nofun, fun _ _ => rfl⟩
  obtain ⟨⟨buf', mgr'⟩, ran, place', done⟩ :=
    blockLoop_returns _ range.bound (Reads.step spare range) start
  exact ⟨buf', mgr', place', ran, done⟩

/-- The bytes after a write of `n` bytes of `buf` to a range. -/
def splice (content : Content) (fd fileOffset : ℕ) (buf : Bytes) (n : ℕ) : Content :=
  fun fd' i => if fd' = fd ∧ fileOffset ≤ i ∧ i < fileOffset + n then buf (i - fileOffset)
    else content fd' i

theorem splice_zero (content : Content) (fd fileOffset : ℕ) (buf : Bytes) :
    splice content fd fileOffset buf 0 = content := by
  funext fd' i
  simp only [splice]
  rw [if_neg (by omega)]

/-- Only the bytes of the range are read. -/
theorem splice_congr {fd fileOffset n : ℕ} {buf buf' : Bytes} (same : ∀ i < n, buf i = buf' i) :
    splice content fd fileOffset buf n = splice content fd fileOffset buf' n := by
  funext fd' i
  simp only [splice]
  split_ifs with inside
  · exact same _ (by omega)
  · rfl

/-- The positions whose bytes are known after a write to a range: those of the range too. -/
def spliceKnown (K : ℕ → ℕ → Prop) (fd fileOffset n : ℕ) : ℕ → ℕ → Prop :=
  fun fd' i => K fd' i ∨ fd' = fd ∧ fileOffset ≤ i ∧ i < fileOffset + n

theorem spliceKnown_append {fd fd' fileOffset done n i : ℕ}
    (known : spliceKnown K fd fileOffset (done + n) fd' i) :
    spliceKnown (spliceKnown K fd fileOffset done) fd (fileOffset + done) n fd' i := by
  rcases known with known | ⟨same, low, high⟩
  · exact Or.inl (Or.inl known)
  · rcases Nat.lt_or_ge i (fileOffset + done) with earlier | later
    · exact Or.inl (Or.inr ⟨same, low, earlier⟩)
    · exact Or.inr ⟨same, later, by omega⟩

omit [Replacer R] [LawfulReplacer R] in
/-- A write inside a file leaves the zeros behind its end. -/
theorem InRange.tail (range : InRange mgr fd fileOffset blockSize) {buf : Bytes} {n : ℕ}
    (within : n ≤ blockSize) (tail : mgr.disk.Tail K content) :
    mgr.disk.Tail (spliceKnown K fd fileOffset n) (splice content fd fileOffset buf n) := by
  intro fd' i known past
  have inside := range.inside
  have outside : ¬ (fd' = fd ∧ fileOffset ≤ i ∧ i < fileOffset + n) := by
    rintro ⟨rfl, _, _⟩
    omega
  simp only [splice]
  rw [if_neg outside, tail fd' i (known.resolve_right outside) past]

/-- Two writes, the second where the first ends, are one. -/
theorem splice_append (content : Content) (fd fileOffset : ℕ) (buf : Bytes) (done n : ℕ) :
    splice (splice content fd fileOffset buf done) fd (fileOffset + done) (fun i => buf (done + i)) n =
      splice content fd fileOffset buf (done + n) := by
  funext fd' i
  simp only [splice]
  by_cases here : fd' = fd
  · subst here
    simp only [true_and]
    by_cases later : fileOffset + done ≤ i ∧ i < fileOffset + done + n
    · rw [if_pos later, if_pos (by omega)]
      congr 1
      omega
    · rw [if_neg later]
      by_cases earlier : fileOffset ≤ i ∧ i < fileOffset + done
      · rw [if_pos earlier, if_pos (by omega)]
      · rw [if_neg earlier, if_neg (by omega)]
  · rw [if_neg (fun both => here both.1), if_neg (fun both => here both.1), if_neg (fun both => here both.1)]

/-- A store to a piece of the fetched page of position `start` changes the bytes of that piece. -/
theorem Sound.storePiece {m start n : ℕ} {bytes : Bytes}
    (sound : Sound K content mgr place (update pins (mgr.poolOf ⟨fd, start / pageSize⟩)
      ((⟨fd, start / pageSize⟩, m) :: pins (mgr.poolOf ⟨fd, start / pageSize⟩))))
    (here : place (mgr.poolOf ⟨fd, start / pageSize⟩) m = .resident ⟨fd, start / pageSize⟩)
    (range : InRange mgr fd start n) (fits : start % pageSize + n ≤ pageSize)
    (same : ∀ i, ¬ (start % pageSize ≤ i ∧ i < start % pageSize + n) →
      bytes i = mgr.frame ⟨fd, start / pageSize⟩ m i) :
    Sound (spliceKnown K fd start n) (splice content fd start (fun i => bytes (start % pageSize + i)) n)
      ((mgr.setFrame ⟨fd, start / pageSize⟩ m bytes).decRefCount ⟨fd, start / pageSize⟩ m true)
        place pins := by
  set page : Page := ⟨fd, start / pageSize⟩ with page_eq
  have first : page.position (start % pageSize) = start := position_piece fd start 0
  refine sound.store here ?_ ?_ ?_
  · intro fd' i outside
    have apart : ¬ (fd' = fd ∧ start ≤ i ∧ i < start + n) := by
      rintro ⟨rfl, low, high⟩
      refine outside ⟨rfl, ?_⟩
      have offset : page.position (start % pageSize + (i - start)) = i := by
        simp only [Page.position] at first ⊢
        omega
      rw [← offset]
      exact Page.position_div (by omega)
    exact ⟨fun known => known.resolve_right apart, if_neg apart⟩
  · intro i small known
    have position := position_add_mod fd start i
    rw [← page_eq] at position
    change bytes i = splice content fd start _ n fd (page.position i)
    simp only [splice, true_and]
    by_cases copied : start % pageSize ≤ i ∧ i < start % pageSize + n
    · rw [if_pos (by omega)]
      congr 1
      omega
    · have old : mgr.frame page m i = content fd (page.position i) :=
        sound.frame_byte here small (known.resolve_right (by omega))
      rw [if_neg (by omega), same i copied, old]
  · exact range.tail le_rfl (sound.coherent 0 mgr.partitioner.numPartitions_pos).tail

/-- What `SetBlock` without a flush has done after `done` bytes. -/
def Writes (K : ℕ → ℕ → Prop) (content : Content) (mgr : BufferPoolManager R)
    (pins : ℕ → List (Page × ℕ)) (fd fileOffset : ℕ) (buf : Bytes) (done : ℕ)
    (s : BufferPoolManager R) : Prop :=
  ∃ place, Sound (spliceKnown K fd fileOffset done) (splice content fd fileOffset buf done) s place pins ∧
    AllQuiet s place ∧ SameShape mgr s

omit [Replacer R] [LawfulReplacer R] in
/-- The rest of a range, and any piece of it. -/
theorem InRange.piece (range : InRange mgr fd fileOffset blockSize) {done n : ℕ}
    (within : done + n ≤ blockSize) : InRange mgr fd (fileOffset + done) n where
  handle := range.handle
  valid := range.valid
  small := range.small
  inside := by
    have inside := range.inside
    omega

/-- The next `n` bytes, stored to the fetched page. -/
theorem Writes.store {buf : Bytes} {done n m : ℕ} (range : InRange mgr fd fileOffset blockSize)
    (shape : SameShape mgr mgr')
    (sound : Sound (spliceKnown K fd fileOffset done) (splice content fd fileOffset buf done) mgr' place
      (update pins (mgr'.poolOf ⟨fd, (fileOffset + done) / pageSize⟩)
        ((⟨fd, (fileOffset + done) / pageSize⟩, m) ::
          pins (mgr'.poolOf ⟨fd, (fileOffset + done) / pageSize⟩))))
    (quiet : AllQuiet mgr' place)
    (here : place (mgr'.poolOf ⟨fd, (fileOffset + done) / pageSize⟩) m =
      .resident ⟨fd, (fileOffset + done) / pageSize⟩)
    (within : done + n ≤ blockSize) (ends : (fileOffset + done) % pageSize + n ≤ pageSize) :
    Writes K content mgr pins fd fileOffset buf (done + n)
      ((mgr'.setFrame ⟨fd, (fileOffset + done) / pageSize⟩ m
        (memcpy (mgr'.frame ⟨fd, (fileOffset + done) / pageSize⟩ m) ((fileOffset + done) % pageSize)
          buf done n)).decRefCount ⟨fd, (fileOffset + done) / pageSize⟩ m true) := by
  set page : Page := ⟨fd, (fileOffset + done) / pageSize⟩
  set offset := (fileOffset + done) % pageSize
  set bytes := memcpy (mgr'.frame page m) offset buf done n with bytes_eq
  have stored : Sound (spliceKnown (spliceKnown K fd fileOffset done) fd (fileOffset + done) n)
      (splice (splice content fd fileOffset buf done) fd (fileOffset + done)
        (fun i => bytes (offset + i)) n) ((mgr'.setFrame page m bytes).decRefCount page m true)
        place pins := by
    refine sound.storePiece here (shape.inRange (range.piece within)) ends fun i outside => ?_
    rw [bytes_eq]
    exact if_neg outside
  have copied : splice (splice content fd fileOffset buf done) fd (fileOffset + done)
      (fun i => bytes (offset + i)) n = splice content fd fileOffset buf (done + n) := by
    rw [← splice_append]
    refine splice_congr fun i small => ?_
    rw [bytes_eq]
    simp only [memcpy]
    rw [if_pos (by omega)]
    congr 1
    omega
  rw [copied] at stored
  exact ⟨place, stored.mono fun _ _ => spliceKnown_append, quiet, shape.trans ⟨rfl, rfl, .refl _⟩⟩

theorem Writes.step (spare : Spare mgr pins)
    (range : InRange mgr fd fileOffset blockSize) {buf : Bytes} (done : ℕ) (left : done < blockSize)
    (mgr' : BufferPoolManager R) (before : Writes K content mgr pins fd fileOffset buf done mgr') :
    ∃ mgr'', Returns (fun fuel => setBlockBody buf fd false fuel ((fileOffset + done) / pageSize)
        ((fileOffset + done) % pageSize) (blockSize - done) done mgr')
        (objectSize ((fileOffset + done) % pageSize) (blockSize - done), mgr'') ∧
      Writes K content mgr pins fd fileOffset buf
        (done + objectSize ((fileOffset + done) % pageSize) (blockSize - done)) mgr'' := by
  obtain ⟨place', sound', quiet', shape⟩ := before
  have fits : objectSize ((fileOffset + done) % pageSize) (blockSize - done) ≤ blockSize - done :=
    objectSize_le ..
  obtain ⟨m, fetched, place'', ran, here, quiet'', shape', sound''⟩ :=
    sound'.fetch quiet' (shape.spare spare) (shape.inFile (range.page left))
  rw [← shape'.poolOf] at here sound''
  exact ⟨_, ran.bind .const, Writes.store range (shape.trans shape') sound'' quiet'' here (by omega)
    (objectSize_add_le (Nat.mod_lt _ (by decide)))⟩

/-- `SetBlock(const char*, ...)` without a flush replaces the bytes of its range and no other. -/
theorem Sound.setBlock (sound : Sound K content mgr place pins) (quiet : AllQuiet mgr place)
    (spare : Spare mgr pins) (range : InRange mgr fd fileOffset blockSize) (buf : Bytes) :
    ∃ mgr' place',
      Returns (fun fuel => BufferPoolManager.setBlock fuel buf fileOffset blockSize fd false mgr) mgr' ∧
      Sound (spliceKnown K fd fileOffset blockSize) (splice content fd fileOffset buf blockSize)
        mgr' place' pins ∧ AllQuiet mgr' place' ∧ SameShape mgr mgr' := by
  have start : Writes K content mgr pins fd fileOffset buf 0 mgr :=
    ⟨place, by rw [splice_zero]; exact sound.mono fun _ _ known => known.resolve_right (by omega), quiet, .refl _⟩
  obtain ⟨mgr', ran, place', done⟩ :=
    blockLoop_returns _ range.bound (Writes.step spare range) start
  exact ⟨mgr', place', ran, done⟩

end BufferPoolManager

end Gbp
