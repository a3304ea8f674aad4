import GraphBufferPool.Pool.PageTable

/-! # Page-table entries as 64-bit words

`PTE` names a `uint64_t` through its bit-fields. Here the operations run on the word itself, with the
wrapping arithmetic and the masks of the source, and the decoded operations that the page table uses
are derived from them: each one changes the fields it is meant to change and no others.
-/

namespace Gbp

namespace PteWord

/-- `FromPacked`: the bit-fields of the word. -/
def view (word : BitVec 64) : PTE := PTE.unpack word.toNat

/-- `AsPacked`: the word of the bit-fields. -/
def ofPte (pte : PTE) : BitVec 64 := BitVec.ofNat 64 pte.pack

/-- `IncRefCount1`; of `old_packed` the tests read `busy`, `fpage_id_cur` and `fd_cur`. -/
def incRefCount1 (word : BitVec 64) (page : Page) : Bool × BitVec 64 :=
  let old := view word
  let word := word + 1
  if old.busy then (false, word)
  else if old.fpageIdCur ≠ page.fpageId ∨ old.fdCur ≠ page.fd then (false, word - 1)
  else (true, word)

/-- The operand `1 << 30` of `fetch_or`: an `int`, widened to the word. -/
def setMask : BitVec 64 := (1#32 <<< 30).signExtend 64

/-- The operand `~(((uint64_t) 1) << 30)` of `fetch_and`. -/
def clearMask : BitVec 64 := ~~~(1#64 <<< 30)

/-- `DecRefCount`, both overloads: the one without arguments passes false twice. -/
def decRefCount (word : BitVec 64) (isWrite writeToSsd : Bool) : BitVec 64 :=
  let word := if isWrite then word ||| setMask else word
  let word := if writeToSsd then word &&& clearMask else word
  word - 1

/-- `Lock`. -/
def lock (word : BitVec 64) : Bool × BitVec 64 :=
  match (view word).lock? with
  | some pte => (true, ofPte pte)
  | none => (false, word)

/-- `UnLock`. -/
def unLock (word : BitVec 64) : Bool × BitVec 64 :=
  match (view word).unLock? with
  | some pte => (true, ofPte pte)
  | none => (false, word)

/-- The dirty flag `DecRefCount` leaves. -/
def dirtyAfter (isWrite writeToSsd dirty : Bool) : Bool :=
  if writeToSsd then false else if isWrite then true else dirty

/-- When each operation succeeds, and what it may do to the fields of one word. -/
structure FieldIsolated (word : BitVec 64) : Prop where
  pinned_iff : ∀ page, (incRefCount1 word page).1 = true ↔ (view word).busy = false ∧ (view word).describes page
  pins : ∀ (room : (view word).refCount + 1 < 2 ^ 16) (page : Page),
    (incRefCount1 word page).1 = true →
      view (incRefCount1 word page).2 = (view word).setRefCount ((view word).refCount + 1) room
  refuses : ∀ page, (view word).busy = false → (incRefCount1 word page).1 = false →
    (incRefCount1 word page).2 = word
  refusesBusy : ∀ (room : (view word).refCount + 1 < 2 ^ 16) (page : Page),
    (view word).busy = true → (incRefCount1 word page).1 = false ∧
      view (incRefCount1 word page).2 = (view word).setRefCount ((view word).refCount + 1) room
  releases : ∀ isWrite writeToSsd, 0 < (view word).refCount →
    view (decRefCount word isWrite writeToSsd) =
      ((view word).setDirty (dirtyAfter isWrite writeToSsd (view word).dirty)).setRefCount
        ((view word).refCount - 1) (Nat.lt_of_le_of_lt (Nat.sub_le _ _) (view word).refCount_lt)
  locked_iff : (lock word).1 = true ↔
    ((view word).initialized = true → (view word).refCount = 0) ∧ (view word).busy = false
  locks : (lock word).1 = true → view (lock word).2 = { view word with busy := true }
  keepsUnlocked : (lock word).1 = false → (lock word).2 = word
  unlocked_iff : (unLock word).1 = true ↔ (view word).busy = true
  unlocks : (unLock word).1 = true → view (unLock word).2 =
    { view word with busy := false, refCount := 0, refCount_lt := PTE.refCount_zero_lt }
  keepsLocked : (unLock word).1 = false → (unLock word).2 = word

variable {word other : BitVec 64} {pte : PTE} {page : Page}

/-- The word holds nothing besides its fields. -/
theorem pack_view (word : BitVec 64) : (view word).pack = word.toNat := by
  have small := word.isLt
  have bit (n : ℕ) : (n % 2 == 1).toNat = n % 2 := by
    obtain even | odd := Nat.mod_two_eq_zero_or_one n
    · rw [even]; rfl
    · rw [odd]; rfl
  simp only [view, PTE.unpack, PTE.pack, bit]
  omega

@[simp] theorem ofPte_view (word : BitVec 64) : ofPte (view word) = word := by
  rw [ofPte, pack_view, BitVec.ofNat_toNat, BitVec.setWidth_eq]

@[simp] theorem view_ofPte (pte : PTE) : view (ofPte pte) = pte := by
  rw [view, ofPte, BitVec.toNat_ofNat, Nat.mod_eq_of_lt pte.pack_lt, PTE.unpack_pack]

theorem view_add_one (word : BitVec 64) : view (word + 1) = (view word).fetchAdd 1 := by
  rw [PTE.fetchAdd, pack_view, view, BitVec.toNat_add]
  rfl

theorem view_sub_one (word : BitVec 64) : view (word - 1) = (view word).fetchSub 1 := by
  rw [PTE.fetchSub, pack_view, view, BitVec.toNat_sub, Nat.add_comm]
  rfl

/-- A field depends on its own bits only. -/
private theorem field_congr (start width : ℕ)
    (same : ∀ i, start ≤ i → i < start + width → word.getLsbD i = other.getLsbD i) :
    word.toNat / 2 ^ start % 2 ^ width = other.toNat / 2 ^ start % 2 ^ width := by
  apply Nat.eq_of_testBit_eq
  intro i
  simp only [Nat.testBit_mod_two_pow, Nat.testBit_div_two_pow]
  by_cases inside : i < width
  · rw [decide_eq_true inside, Bool.true_and, Bool.true_and]
    exact same (i + start) (by omega) (by omega)
  · rw [decide_eq_false inside, Bool.false_and, Bool.false_and]

private theorem flag_eq (word : BitVec 64) (i : ℕ) :
    (word.toNat / 2 ^ i % 2 == 1) = word.getLsbD i := by
  rw [BitVec.getLsbD, Nat.testBit_eq_decide_div_mod_eq]
  rfl

/-- Bit 30 is the dirty flag, and no other field reads it. -/
theorem view_of_apart {value : Bool} (dirty : other.getLsbD 30 = value)
    (same : ∀ i, i ≠ 30 → other.getLsbD i = word.getLsbD i) :
    view other = (view word).setDirty value := by
  apply PTE.ext'
  · simpa [view, PTE.unpack, PTE.setDirty] using
      field_congr 0 16 fun i _ bound => same i (by omega)
  · exact field_congr 16 13 fun i _ bound => same i (by omega)
  · simp only [view, PTE.unpack, PTE.setDirty, flag_eq]
    exact same 29 (by decide)
  · simp only [view, PTE.unpack, PTE.setDirty, flag_eq]
    exact dirty
  · simp only [view, PTE.unpack, PTE.setDirty, flag_eq]
    exact same 31 (by decide)
  · exact field_congr 32 32 fun i low _ => same i (by omega)

theorem setMask_bit (i : ℕ) : setMask.getLsbD i = decide (i = 30) := by
  have value : setMask = BitVec.twoPow 64 30 := by decide
  rw [value, BitVec.getLsbD_twoPow]
  simp [eq_comm]

theorem clearMask_bit (i : ℕ) : clearMask.getLsbD i = (decide (i < 64) && !decide (i = 30)) := by
  have value : clearMask = ~~~BitVec.twoPow 64 30 := by decide
  rw [value, BitVec.getLsbD_not, BitVec.getLsbD_twoPow]
  simp [eq_comm]

theorem view_fetchOr (word : BitVec 64) : view (word ||| setMask) = (view word).setDirty true := by
  apply view_of_apart
  · rw [BitVec.getLsbD_or, setMask_bit, decide_eq_true rfl, Bool.or_true]
  · intro i apart
    rw [BitVec.getLsbD_or, setMask_bit, decide_eq_false apart, Bool.or_false]

theorem view_fetchAnd (word : BitVec 64) :
    view (word &&& clearMask) = (view word).setDirty false := by
  apply view_of_apart
  · rw [BitVec.getLsbD_and, clearMask_bit, decide_eq_true rfl, Bool.not_true, Bool.and_false,
      Bool.and_false]
  · intro i apart
    rw [BitVec.getLsbD_and, clearMask_bit, decide_eq_false apart, Bool.not_false, Bool.and_true]
    by_cases inside : i < 64
    · rw [decide_eq_true inside, Bool.and_true]
    · rw [BitVec.getLsbD_of_ge _ _ (by omega), Bool.false_and]

theorem view_decRefCount (word : BitVec 64) (isWrite writeToSsd : Bool) :
    view (decRefCount word isWrite writeToSsd) =
      ((view word).setDirty (dirtyAfter isWrite writeToSsd (view word).dirty)).fetchSub 1 := by
  rw [decRefCount, view_sub_one]
  congr 1
  cases writeToSsd
  · cases isWrite
    · rfl
    · exact view_fetchOr word
  · cases isWrite
    · exact view_fetchAnd word
    · change view ((word ||| setMask) &&& clearMask) = _
      rw [view_fetchAnd, view_fetchOr]
      rfl

/-- The three outcomes of `IncRefCount1`. -/
theorem incRefCount1_cases (word : BitVec 64) (page : Page) :
    (view word).busy = true ∧ incRefCount1 word page = (false, word + 1) ∨
      (view word).busy = false ∧ (view word).describes page ∧
        incRefCount1 word page = (true, word + 1) ∨
      (view word).busy = false ∧ ¬ (view word).describes page ∧
        incRefCount1 word page = (false, word) := by
  by_cases busy : (view word).busy = true
  · exact Or.inl ⟨busy, if_pos busy⟩
  · have free : (view word).busy = false := by simpa using busy
    by_cases named : (view word).describes page
    · refine Or.inr (Or.inl ⟨free, named, (if_neg busy).trans (if_neg ?_)⟩)
      rintro (different | different)
      · exact different named.1
      · exact different named.2
    · have differs : (view word).fpageIdCur ≠ page.fpageId ∨ (view word).fdCur ≠ page.fd := by
        by_contra same
        rw [not_or, not_not, not_not] at same
        exact named same
      have back : word + 1 - 1 = word := BitVec.add_sub_cancel word 1
      refine Or.inr (Or.inr ⟨free, named, ((if_neg busy).trans (if_pos differs)).trans ?_⟩)
      rw [back]

/-- The page table's `incRefCount1` is the operation on the word of the entry. -/
theorem incRefCount1_view (pt : PageTable) (m : ℕ) (page : Page) :
    pt.incRefCount1 m page = ((incRefCount1 (ofPte (pt.ptes m)) page).1,
      pt.setPte m (view (incRefCount1 (ofPte (pt.ptes m)) page).2)) := by
  have back (pte : PTE) : (pte.fetchAdd 1).fetchSub 1 = pte := by
    have undone : view (ofPte pte + 1 - 1) = pte := by
      rw [BitVec.add_sub_cancel, view_ofPte]
    rwa [view_sub_one, view_add_one, view_ofPte] at undone
  unfold PageTable.incRefCount1
  obtain ⟨busy, run⟩ | ⟨free, named, run⟩ | ⟨free, named, run⟩ :=
      incRefCount1_cases (ofPte (pt.ptes m)) page
  · rw [view_ofPte] at busy
    simp only [run, view_add_one, view_ofPte, busy, if_true]
  · rw [view_ofPte] at free named
    simp only [run, view_add_one, view_ofPte, free, Bool.false_eq_true, if_false, if_pos named]
  · rw [view_ofPte] at free named
    simp only [run, view_ofPte, free, Bool.false_eq_true, if_false, if_neg named, back]

/-- The page table's `decRefCount` is the operation on the word of the entry. -/
theorem decRefCount_view (pt : PageTable) (m : ℕ) (isWrite : Bool) :
    pt.decRefCount m isWrite =
      pt.setPte m (view (decRefCount (ofPte (pt.ptes m)) isWrite false)) := by
  rw [view_decRefCount, view_ofPte]
  cases isWrite <;> rfl

theorem lock_view (word : BitVec 64) :
    ((view word).lock? = none ∧ lock word = (false, word)) ∨
      ∃ pte, (view word).lock? = some pte ∧ lock word = (true, ofPte pte) := by
  unfold lock
  cases (view word).lock? with
  | none => exact Or.inl ⟨rfl, rfl⟩
  | some pte => exact Or.inr ⟨pte, rfl, rfl⟩

theorem unLock_view (word : BitVec 64) :
    ((view word).unLock? = none ∧ unLock word = (false, word)) ∨
      ∃ pte, (view word).unLock? = some pte ∧ unLock word = (true, ofPte pte) := by
  unfold unLock
  cases (view word).unLock? with
  | none => exact Or.inl ⟨rfl, rfl⟩
  | some pte => exact Or.inr ⟨pte, rfl, rfl⟩

theorem fieldIsolated (word : BitVec 64) : FieldIsolated word where
  pinned_iff page := by
    obtain ⟨busy, run⟩ | ⟨free, named, run⟩ | ⟨free, named, run⟩ := incRefCount1_cases word page
    · rw [run, busy]
      simp
    · rw [run]
      exact iff_of_true rfl ⟨free, named⟩
    · rw [run]
      exact iff_of_false (by simp) fun both => named both.2
  pins room page pinned := by
    obtain ⟨_, run⟩ | ⟨_, _, run⟩ | ⟨_, _, run⟩ := incRefCount1_cases word page
    · rw [run] at pinned
      cases pinned
    · rw [run, view_add_one, PTE.fetchAdd_one _ room]
    · rw [run] at pinned
      cases pinned
  refuses page free refused := by
    obtain ⟨busy, _⟩ | ⟨_, _, run⟩ | ⟨_, _, run⟩ := incRefCount1_cases word page
    · rw [busy] at free
      cases free
    · rw [run] at refused
      cases refused
    · rw [run]
  refusesBusy room page busy := by
    obtain ⟨_, run⟩ | ⟨free, _, _⟩ | ⟨free, _, _⟩ := incRefCount1_cases word page
    · rw [run]
      exact ⟨rfl, by rw [view_add_one, PTE.fetchAdd_one _ room]⟩
    · rw [busy] at free
      cases free
    · rw [busy] at free
      cases free
  releases isWrite writeToSsd positive := by
    rw [view_decRefCount, PTE.fetchSub_one ((view word).setDirty
      (dirtyAfter isWrite writeToSsd (view word).dirty)) positive]
    rfl
  locked_iff := by
    obtain ⟨refused, run⟩ | ⟨pte, taken, run⟩ := lock_view word
    · rw [run]
      refine iff_of_false (by simp) fun free => ?_
      rw [PTE.lock?, if_neg] at refused
      · cases refused
      · rintro (⟨held, initialized⟩ | busy)
        · exact held (free.1 initialized)
        · exact Bool.false_ne_true (free.2.symm.trans busy)
    · rw [run]
      obtain ⟨unpinned, free, -⟩ := PTE.lock?_eq_some taken
      exact iff_of_true rfl ⟨unpinned, free⟩
  locks locked := by
    obtain ⟨_, run⟩ | ⟨pte, taken, run⟩ := lock_view word
    · rw [run] at locked
      cases locked
    · rw [run, view_ofPte]
      exact (PTE.lock?_eq_some taken).2.2
  keepsUnlocked refused := by
    obtain ⟨_, run⟩ | ⟨pte, taken, run⟩ := lock_view word
    · rw [run]
    · rw [run] at refused
      cases refused
  unlocked_iff := by
    obtain ⟨refused, run⟩ | ⟨pte, freed, run⟩ := unLock_view word
    · rw [run]
      refine iff_of_false (by simp) fun busy => ?_
      rw [PTE.unLock?, if_neg (by rw [busy]; decide)] at refused
      cases refused
    · rw [run]
      exact iff_of_true rfl (PTE.unLock?_eq_some freed).1
  unlocks unlocked := by
    obtain ⟨_, run⟩ | ⟨pte, freed, run⟩ := unLock_view word
    · rw [run] at unlocked
      cases unlocked
    · rw [run, view_ofPte]
      exact (PTE.unLock?_eq_some freed).2
  keepsLocked refused := by
    obtain ⟨_, run⟩ | ⟨pte, freed, run⟩ := unLock_view word
    · rw [run]
    · rw [run] at refused
      cases refused

/-- Every operation on a page-table entry stays within the fields it is meant for, and the bit-field
view and the word determine each other. -/
theorem pte_words_isolated :
    (∀ word, FieldIsolated word) ∧ (∀ pte, view (ofPte pte) = pte) ∧
      ∀ word, ofPte (view word) = word :=
  ⟨fieldIsolated, view_ofPte, ofPte_view⟩

end PteWord

end Gbp
