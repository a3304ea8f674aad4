import GraphBufferPool.Config
import Mathlib

/-! # The two atomic words: page-table entries and mapping slots

A `PTE` is a 64-bit word with bit-fields; `PTE.pack` and `PTE.unpack` fix its layout, so that
`fetch_add` and `fetch_sub` act on the packed word and carry out of the reference count exactly as
the hardware does. A mapping slot is the decoded view of a 31-bit frame number with two reserved
values. The single-word operations below are shared by the sequential page table and by the
interleaving model.
-/

namespace Gbp

/-- `PageTableInner::PTE`. The bounds are the bit-field widths. -/
structure PTE where
  refCount : ℕ
  fdCur : ℕ
  initialized : Bool
  dirty : Bool
  busy : Bool
  fpageIdCur : ℕ
  refCount_lt : refCount < 2 ^ 16
  fdCur_lt : fdCur < 2 ^ 13
  fpageIdCur_lt : fpageIdCur < 2 ^ 32
deriving DecidableEq

namespace PTE

/-- `PackedPTECacheLine::EMPTY_PTE`. -/
def empty : PTE where
  refCount := 0
  fdCur := 2 ^ 13 - 1
  initialized := false
  dirty := false
  busy := false
  fpageIdCur := 2 ^ 32 - 1
  refCount_lt := by decide
  fdCur_lt := by decide
  fpageIdCur_lt := by decide

instance : Inhabited PTE := ⟨empty⟩

/-- `AsPacked`: the fields from the least significant bit upwards. -/
def pack (pte : PTE) : ℕ :=
  pte.refCount + 2 ^ 16 * pte.fdCur + 2 ^ 29 * pte.initialized.toNat + 2 ^ 30 * pte.dirty.toNat +
    2 ^ 31 * pte.busy.toNat + 2 ^ 32 * pte.fpageIdCur

/-- `FromPacked`. -/
def unpack (word : ℕ) : PTE where
  refCount := word % 2 ^ 16
  fdCur := word / 2 ^ 16 % 2 ^ 13
  initialized := word / 2 ^ 29 % 2 == 1
  dirty := word / 2 ^ 30 % 2 == 1
  busy := word / 2 ^ 31 % 2 == 1
  fpageIdCur := word / 2 ^ 32 % 2 ^ 32
  refCount_lt := Nat.mod_lt _ (by decide)
  fdCur_lt := Nat.mod_lt _ (by decide)
  fpageIdCur_lt := Nat.mod_lt _ (by decide)

/-- `fetch_add` on the packed word. -/
def fetchAdd (pte : PTE) (n : ℕ) : PTE := unpack ((pte.pack + n) % 2 ^ 64)

/-- `fetch_sub` on the packed word. -/
def fetchSub (pte : PTE) (n : ℕ) : PTE := unpack ((pte.pack + (2 ^ 64 - n)) % 2 ^ 64)

/-- The word with another reference count. -/
def setRefCount (pte : PTE) (count : ℕ) (bound : count < 2 ^ 16) : PTE :=
  { pte with refCount := count, refCount_lt := bound }

theorem refCount_zero_lt : 0 < 2 ^ 16 := Nat.two_pow_pos 16

section setRefCount
variable (pte : PTE) (count : ℕ) (bound : count < 2 ^ 16)

@[simp] theorem setRefCount_refCount : (pte.setRefCount count bound).refCount = count := rfl
@[simp] theorem setRefCount_fdCur : (pte.setRefCount count bound).fdCur = pte.fdCur := rfl
@[simp] theorem setRefCount_initialized :
    (pte.setRefCount count bound).initialized = pte.initialized := rfl
@[simp] theorem setRefCount_dirty : (pte.setRefCount count bound).dirty = pte.dirty := rfl
@[simp] theorem setRefCount_busy : (pte.setRefCount count bound).busy = pte.busy := rfl
@[simp] theorem setRefCount_fpageIdCur :
    (pte.setRefCount count bound).fpageIdCur = pte.fpageIdCur := rfl

end setRefCount

theorem ext' {p q : PTE} (refCount : p.refCount = q.refCount) (fdCur : p.fdCur = q.fdCur)
    (initialized : p.initialized = q.initialized) (dirty : p.dirty = q.dirty)
    (busy : p.busy = q.busy) (fpageIdCur : p.fpageIdCur = q.fpageIdCur) : p = q := by
  cases p
  cases q
  simp only at refCount fdCur initialized dirty busy fpageIdCur
  subst refCount fdCur initialized dirty busy fpageIdCur
  rfl

theorem pack_lt (pte : PTE) : pte.pack < 2 ^ 64 := by
  have := pte.refCount_lt
  have := pte.fdCur_lt
  have := pte.fpageIdCur_lt
  have := pte.initialized.toNat_le
  have := pte.dirty.toNat_le
  have := pte.busy.toNat_le
  unfold pack
  omega

private theorem bit_of_toNat (flag : Bool) {n : ℕ} (value : n = flag.toNat) :
    (n == 1) = flag := by
  subst value
  cases flag <;> rfl

/-- Packing loses nothing. -/
theorem unpack_pack (pte : PTE) : unpack pte.pack = pte := by
  have := pte.refCount_lt
  have := pte.fdCur_lt
  have := pte.fpageIdCur_lt
  have := pte.initialized.toNat_le
  have := pte.dirty.toNat_le
  have := pte.busy.toNat_le
  apply ext'
  · simp only [unpack, pack]; omega
  · simp only [unpack, pack]; omega
  · exact bit_of_toNat _ (by simp only [pack]; omega)
  · exact bit_of_toNat _ (by simp only [pack]; omega)
  · exact bit_of_toNat _ (by simp only [pack]; omega)
  · simp only [unpack, pack]; omega

theorem pack_setRefCount (pte : PTE) (count : ℕ) (bound : count < 2 ^ 16) :
    (pte.setRefCount count bound).pack + pte.refCount = pte.pack + count := by
  simp only [pack, setRefCount]
  omega

/-- Below the width of the count, an increment touches no other field. -/
theorem fetchAdd_one (pte : PTE) (bound : pte.refCount + 1 < 2 ^ 16) :
    pte.fetchAdd 1 = pte.setRefCount (pte.refCount + 1) bound := by
  have packed := pack_setRefCount pte (pte.refCount + 1) bound
  have small := (pte.setRefCount (pte.refCount + 1) bound).pack_lt
  rw [fetchAdd, show (pte.pack + 1) % 2 ^ 64 = (pte.setRefCount (pte.refCount + 1) bound).pack by
    omega, unpack_pack]

/-- The word after the increment of a full count: the carry went into the handle. -/
def carry (pte : PTE) (room : pte.fdCur + 1 < 2 ^ 13) : PTE :=
  { pte with
    refCount := 0
    refCount_lt := by decide
    fdCur := pte.fdCur + 1
    fdCur_lt := room }

/-- At the width of the count, an increment carries into the handle. -/
theorem fetchAdd_full (pte : PTE) (full : pte.refCount + 1 = 2 ^ 16)
    (room : pte.fdCur + 1 < 2 ^ 13) : pte.fetchAdd 1 = pte.carry room := by
  have packed : pte.pack + 1 = (pte.carry room).pack := by
    simp only [pack, carry]
    omega
  have small := (pte.carry room).pack_lt
  rw [fetchAdd, packed, Nat.mod_eq_of_lt small, unpack_pack]

/-- Above zero, a decrement touches no other field. -/
theorem fetchSub_one (pte : PTE) (positive : 0 < pte.refCount) :
    pte.fetchSub 1 = pte.setRefCount (pte.refCount - 1) (by have := pte.refCount_lt; omega) := by
  have bound : pte.refCount - 1 < 2 ^ 16 := by have := pte.refCount_lt; omega
  have packed := pack_setRefCount pte (pte.refCount - 1) bound
  have small := (pte.setRefCount (pte.refCount - 1) bound).pack_lt
  rw [fetchSub, show (pte.pack + (2 ^ 64 - 1)) % 2 ^ 64 =
    (pte.setRefCount (pte.refCount - 1) bound).pack by omega, unpack_pack]

/-- The identity test of `IncRefCount1`: both bit-fields equal the caller's values. -/
def describes (pte : PTE) (page : Page) : Prop :=
  pte.fpageIdCur = page.fpageId ∧ pte.fdCur = page.fd

instance (pte : PTE) (page : Page) : Decidable (pte.describes page) :=
  inferInstanceAs (Decidable (_ ∧ _))

/-- The page the bit-fields name, as `Victim` and the eviction read it back. -/
def page (pte : PTE) : Page := ⟨pte.fdCur, pte.fpageIdCur⟩

theorem describes_iff (pte : PTE) (page : Page) : pte.describes page ↔ pte.page = page := by
  cases page
  simp [describes, PTE.page, and_comm]

/-- One attempt of `Lock`: `none` where it returns false, else the word it exchanges in. -/
def lock? (pte : PTE) : Option PTE :=
  if (pte.refCount ≠ 0 ∧ pte.initialized = true) ∨ pte.busy = true then none
  else some { pte with busy := true }

/-- One attempt of `UnLock`: the stored word has a zero reference count. -/
def unLock? (pte : PTE) : Option PTE :=
  if pte.busy = false then none
  else some { pte with busy := false, refCount := 0, refCount_lt := by decide }

/-- `SetDirty`, and the `fetch_or` and `fetch_and` on bit 30 in `DecRefCount`. -/
def setDirty (pte : PTE) (value : Bool) : PTE := { pte with dirty := value }

/-- The word `tmp` that every load path stores: `fd_cur` keeps the low 13 bits of the handle and
`fpage_id_cur` the 32 bits of the page id. -/
def loaded (page : Page) : PTE where
  refCount := 1
  fdCur := page.fd % 2 ^ 13
  initialized := true
  dirty := false
  busy := false
  fpageIdCur := page.fpageId % 2 ^ 32
  refCount_lt := by decide
  fdCur_lt := Nat.mod_lt _ (by decide)
  fpageIdCur_lt := Nat.mod_lt _ (by decide)

theorem lock?_eq_some {pte new : PTE} (locked : pte.lock? = some new) :
    (pte.initialized = true → pte.refCount = 0) ∧ pte.busy = false ∧
      new = { pte with busy := true } := by
  unfold lock? at locked
  split_ifs at locked with refused
  obtain rfl := Option.some.inj locked
  refine ⟨?_, ?_, rfl⟩
  · intro initialized
    by_contra held
    exact refused (Or.inl ⟨held, initialized⟩)
  · simpa using fun busy => refused (Or.inr busy)

theorem unLock?_eq_some {pte new : PTE} (unlocked : pte.unLock? = some new) :
    pte.busy = true ∧
      new = { pte with busy := false, refCount := 0, refCount_lt := by decide } := by
  unfold unLock? at unlocked
  split_ifs at unlocked with free
  exact ⟨by simpa using free, (Option.some.inj unlocked).symm⟩

/-- A handle below the bit-field width survives the store. -/
theorem loaded_page {page : Page} (handle : page.fd < 2 ^ 13) (id : page.fpageId < 2 ^ 32) :
    (loaded page).page = page := by
  simp only [PTE.page, loaded, Nat.mod_eq_of_lt handle, Nat.mod_eq_of_lt id]

end PTE

/-- `PageMapping::Mapping`, decoded: `EMPTY_VALUE`, `BUSY_VALUE` or a frame number. -/
inductive MapWord
  | empty
  | busy
  | frame (m : ℕ)
deriving DecidableEq, Repr

namespace MapWord

/-- The 31-bit value of `mpage_id`. -/
def encode : MapWord → ℕ
  | empty => 2 ^ 31 - 1
  | busy => 2 ^ 31 - 2
  | frame m => m % 2 ^ 31

/-- Decoding compares with the two reserved values, as `FindMapping` does. -/
def decode (value : ℕ) : MapWord :=
  if value = 2 ^ 31 - 1 then empty else if value = 2 ^ 31 - 2 then busy else frame value

/-- Frame numbers below `BUSY_VALUE` are told apart from the reserved values and each other. -/
theorem decode_encode (word : MapWord) (bound : ∀ m, word = frame m → m < 2 ^ 31 - 2) :
    decode word.encode = word := by
  cases word with
  | empty => rfl
  | busy => rfl
  | frame m =>
    have small := bound m rfl
    simp only [encode, decode, Nat.mod_eq_of_lt (show m < 2 ^ 31 by omega)]
    rw [if_neg (by omega), if_neg (by omega)]

/-- One attempt of `LockMapping`: `none` where it returns false. -/
def lock? : MapWord → Option MapWord
  | busy => none
  | _ => some busy

/-- One attempt of `CreateMapping`. -/
def create? (value : MapWord) : MapWord → Option MapWord
  | busy => some value
  | _ => none

/-- One attempt of `DeleteMapping`. -/
def delete? : MapWord → Option MapWord
  | busy => some empty
  | _ => none

end MapWord

end Gbp
