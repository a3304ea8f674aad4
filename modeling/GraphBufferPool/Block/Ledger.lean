import GraphBufferPool.Lib.Holdings
import GraphBufferPool.Lib.Runs
import Mathlib

/-! # The buffers of blocks

`LBMalloc` and `LBFree` as a ledger, and the members of `BufferBlockImp9` that can point to a buffer.
A block frees its own buffer, or the arrays of addresses and of entries of its pages. The array of
marks is allocated with them and never freed, and neither is the buffer of a copy of no bytes.
-/

namespace Gbp

open Function Holdings

/-- A member of `AnyValue`: never set, in the pool or its page table, or a buffer, by the number of calls of
`LBMalloc` before the one that returned it. -/
inductive Word
  | unset
  | inPool
  | buffer (id : ℕ)
deriving DecidableEq, Repr

/-- The members of `BufferBlockImp9`. -/
structure BlockFields where
  datas : Word
  ptes : Word
  marks : Word
  size : ℕ
  pageNum : ℕ
deriving DecidableEq, Repr

namespace BlockFields

/-- `BufferBlockImp9()`. -/
def default : BlockFields := ⟨.unset, .unset, .unset, 0, 0⟩

/-- `BufferBlockImp9(size_t, size_t)`: three arrays for several pages; and the calls of `LBMalloc`. -/
def new (allocated size pageNum : ℕ) : BlockFields × ℕ :=
  if pageNum > 1 then
    (⟨.buffer allocated, .buffer (allocated + 1), .buffer (allocated + 2), size, pageNum⟩, allocated + 3)
  else (⟨.unset, .unset, .unset, size, pageNum⟩, allocated)

/-- `InsertPage`; with several pages it stores into the arrays. -/
def insertPage (block : BlockFields) : BlockFields :=
  if block.pageNum = 1 then { block with datas := .inPool, ptes := .inPool, marks := .inPool } else block

/-- `BufferBlockImp9(size_t)`. -/
def ofSize (allocated size : ℕ) : BlockFields × ℕ :=
  (⟨.buffer allocated, .unset, .unset, size, 0⟩, allocated + 1)

/-- The calls of `LBFree` in `free`. -/
def frees (block : BlockFields) : List Word :=
  if block.size ≠ 0 then
    if block.pageNum = 1 then []
    else if block.pageNum > 1 then [block.ptes, block.datas]
    else [block.datas]
  else []

/-- The members after `free`, and those of the source of `Move`. -/
def emptied (block : BlockFields) : BlockFields := { block with size := 0, pageNum := 0 }

/-- What a block will free. -/
def owned (block : BlockFields) : Multiset Word := block.frees

@[simp] theorem owned_emptied (block : BlockFields) : block.emptied.owned = 0 := rfl

@[simp] theorem owned_default : default.owned = 0 := rfl

end BlockFields

/-- What happens to a variable: its declaration, its initialisation with the result of a `GetBlock`
function or with a deep copy, the copy and move constructors and assignments, and its destruction. -/
inductive HeapOp (V : Type)
  | default (v : V)
  | getBlock (v : V) (size pageNum : ℕ)
  | copy (v src : V)
  | construct (v src : V)
  | assign (v src : V)
  | destroy (v : V)

/-- The variables alive, the number of calls of `LBMalloc` so far, and the arguments of those of `LBFree`. -/
structure Heap (V : Type) where
  block : V → BlockFields
  alive : Finset V
  allocated : ℕ
  freed : Multiset Word

namespace Heap

variable {V : Type} [DecidableEq V]

/-- No variable and no buffer. -/
def start : Heap V := ⟨fun _ => .default, ∅, 0, 0⟩

/-- The declaration of a variable, with the calls of `LBMalloc` after its constructor. -/
def declare (s : Heap V) (v : V) (block : BlockFields) (allocated : ℕ) : Heap V :=
  { s with block := update s.block v block, alive := insert v s.alive, allocated := allocated }

/-- `Move(src, dst)` of variables, which may be the same one. -/
def move (s : Heap V) (src dst : V) : Heap V :=
  let block := update s.block dst (s.block dst).emptied
  let block := update block dst (block src)
  let block := update block src (block src).emptied
  { s with block := block, freed := s.freed + (s.block dst).frees }

/-- The program after an operation. A variable is declared once and used while it is there, and the
`GetBlock` functions return blocks of at least one byte and one page. -/
def step (s : Heap V) : HeapOp V → Except Unit (Heap V)
  | .default v => if v ∈ s.alive then .error () else .ok (s.declare v .default s.allocated)
  | .getBlock v size pageNum =>
    if v ∈ s.alive ∨ size = 0 ∨ pageNum = 0 then .error ()
    else
      let (block, allocated) := BlockFields.new s.allocated size pageNum
      .ok (s.declare v block.insertPage allocated)
  | .copy v src =>
    if v ∈ s.alive ∨ src ∉ s.alive then .error ()
    else
      let (block, allocated) := BlockFields.ofSize s.allocated (s.block src).size
      .ok (s.declare v block allocated)
  | .construct v src =>
    if v ∈ s.alive ∨ src ∉ s.alive then .error ()
    else .ok ((s.declare v .default s.allocated).move src v)
  | .assign v src => if v ∉ s.alive ∨ src ∉ s.alive then .error () else .ok (s.move src v)
  | .destroy v =>
    if v ∉ s.alive then .error ()
    else .ok { s with
      block := update s.block v (s.block v).emptied
      alive := s.alive.erase v
      freed := s.freed + (s.block v).frees }

/-- What no block will ever free. -/
def leak (s : Heap V) : HeapOp V → Multiset Word
  | .getBlock _ _ pageNum => if pageNum > 1 then {.buffer (s.allocated + 2)} else 0
  | .copy _ src => if (s.block src).size = 0 then {.buffer s.allocated} else 0
  | _ => 0

/-- An operation that loses no buffer: a block that is fetched has one page, and one that is copied has
a byte. -/
def KeepsBuffers (s : Heap V) : HeapOp V → Prop
  | .getBlock _ _ pageNum => pageNum ≤ 1
  | .copy _ src => (s.block src).size ≠ 0
  | _ => True

/-- The buffers that `LBMalloc` returned. -/
def buffers (s : Heap V) : Multiset Word := (Multiset.range s.allocated).map .buffer

/-- Every buffer allocated was freed exactly once, and nothing else was freed. -/
def AllFreed (s : Heap V) : Prop :=
  (∀ id < s.allocated, s.freed.count (.buffer id) = 1) ∧ ∀ word ∈ s.freed, ∃ id < s.allocated, word = .buffer id

/-- Every buffer is freed, in a block that will free it, or lost. -/
def Balanced (lost : Multiset Word) (s : Heap V) : Prop :=
  s.buffers = s.freed + total BlockFields.owned s.block s.alive + lost

variable {s s' : Heap V} {v src : V} {lost : Multiset Word}

omit [DecidableEq V] in
theorem allFreed_iff : s.AllFreed ↔ s.freed = s.buffers := by
  have nodup : s.buffers.Nodup := (Multiset.nodup_range _).map fun _ _ => Word.buffer.inj
  have member (word : Word) : word ∈ s.buffers ↔ ∃ id < s.allocated, word = .buffer id := by
    rw [buffers, Multiset.mem_map]
    exact exists_congr fun id => and_congr Multiset.mem_range eq_comm
  constructor
  · rintro ⟨once, known⟩
    ext word
    by_cases here : word ∈ s.buffers
    · obtain ⟨id, below, rfl⟩ := (member word).mp here
      rw [once id below, Multiset.count_eq_one_of_mem nodup here]
    · rw [Multiset.count_eq_zero.mpr here, Multiset.count_eq_zero]
      exact fun freed => here ((member word).mpr (known word freed))
  · intro same
    rw [AllFreed, same]
    refine ⟨fun id below => Multiset.count_eq_one_of_mem nodup ((member _).mpr ⟨id, below, rfl⟩), fun word here => ?_⟩
    exact (member word).mp here

theorem Balanced.declare (balanced : s.Balanced lost) (fresh : v ∉ s.alive) {block : BlockFields}
    {allocated : ℕ} {leaked : Multiset Word}
    (new : ((Multiset.range allocated).map .buffer : Multiset Word) = s.buffers + block.owned + leaked) :
    (s.declare v block allocated).Balanced (lost + leaked) := by
  have held := @total_insert _ _ _ _ BlockFields.owned s.block s.alive v _ fresh block
  change ((Multiset.range allocated).map .buffer : Multiset Word) =
    s.freed + total BlockFields.owned (update s.block v block) (insert v s.alive) + _
  rw [new, held, balanced]
  abel

theorem Balanced.move (balanced : s.Balanced lost) (live : v ∈ s.alive) (source : src ∈ s.alive) :
    (s.move src v).Balanced lost := by
  have held := @total_move _ _ _ _ BlockFields.owned s.block s.alive src v _ live source
    (s.block v).emptied ((update (update s.block v (s.block v).emptied) v
      (update s.block v (s.block v).emptied src)) src).emptied rfl rfl
  change s.buffers = s.freed + (s.block v).owned + total BlockFields.owned (s.move src v).block s.alive + lost
  rw [balanced, ← held]
  simp only [Heap.move]
  abel

/-- What one operation does to the ledger. -/
theorem Balanced.step (balanced : s.Balanced lost) {op : HeapOp V} (ran : s.step op = .ok s') :
    s'.Balanced (lost + s.leak op) := by
  have same : ((Multiset.range s.allocated).map .buffer : Multiset Word) = s.buffers := rfl
  have one (n : ℕ) : ((Multiset.range (n + 1)).map .buffer : Multiset Word) =
      (Multiset.range n).map .buffer + {.buffer n} := by
    rw [Multiset.range_succ, Multiset.map_cons, ← Multiset.singleton_add, add_comm]
  cases op with
  | default v =>
    simp only [Heap.step] at ran
    split_ifs at ran with here
    cases ran
    exact balanced.declare here (by rw [same, BlockFields.owned_default]; simp [leak])
  | getBlock v size pageNum =>
    simp only [Heap.step] at ran
    split_ifs at ran with here
    cases ran
    obtain ⟨fresh, bytes, pages⟩ := by simpa only [not_or] using here
    apply balanced.declare fresh
    by_cases several : pageNum > 1
    · have single : pageNum ≠ 1 := by omega
      simp only [BlockFields.new, if_pos several, BlockFields.insertPage, if_neg single, BlockFields.owned,
        BlockFields.frees, leak, one, same]
      rw [if_pos bytes]
      simp only [← Multiset.cons_coe, Multiset.coe_nil, ← Multiset.singleton_add]
      abel
    · obtain rfl : pageNum = 1 := by omega
      simp [BlockFields.new, BlockFields.insertPage, BlockFields.owned, BlockFields.frees, leak, buffers]
  | copy v src =>
    simp only [Heap.step] at ran
    split_ifs at ran with here
    cases ran
    apply balanced.declare (not_or.mp here).1
    rw [BlockFields.ofSize, one, same]
    by_cases empty : (s.block src).size = 0
    · simp [BlockFields.owned, BlockFields.frees, leak, empty]
    · simp [BlockFields.owned, BlockFields.frees, leak, empty]
  | construct v src =>
    simp only [Heap.step] at ran
    split_ifs at ran with here
    cases ran
    obtain ⟨fresh, live⟩ := not_or.mp here
    have declared : (s.declare v .default s.allocated).Balanced (lost + 0) :=
      balanced.declare fresh (by rw [same, BlockFields.owned_default, add_zero, add_zero])
    exact declared.move (Finset.mem_insert_self ..) (Finset.mem_insert_of_mem (not_not.mp live))
  | assign v src =>
    simp only [Heap.step] at ran
    split_ifs at ran with here
    cases ran
    obtain ⟨live, source⟩ := not_or.mp here
    change (s.move src v).Balanced (lost + 0)
    rw [add_zero]
    exact balanced.move (not_not.mp live) (not_not.mp source)
  | destroy v =>
    simp only [Heap.step] at ran
    split_ifs at ran with here
    cases ran
    have held := @total_erase _ _ _ _ BlockFields.owned s.block s.alive v _ here (s.block v).emptied
    change s.buffers = s.freed + (s.block v).owned + total _ _ _ + (lost + 0)
    rw [balanced, ← held]
    abel

omit [DecidableEq V] in
theorem leak_eq_zero_iff {op : HeapOp V} : s.leak op = 0 ↔ s.KeepsBuffers op := by
  cases op with
  | getBlock v size pageNum =>
    simp only [leak, KeepsBuffers]
    split_ifs with several
    · exact iff_of_false (Multiset.singleton_ne_zero _) (Nat.not_le.mpr several)
    · exact iff_of_true rfl (Nat.not_lt.mp several)
  | copy v src =>
    simp only [leak, KeepsBuffers]
    split_ifs with empty
    · exact iff_of_false (Multiset.singleton_ne_zero _) (not_not.mpr empty)
    · exact iff_of_true rfl empty
  | default | construct | assign | destroy => exact iff_of_true rfl trivial

/-- In every run that destroys all variables in the end, the buffers are freed exactly once each if and
only if no block of several pages is fetched and no empty block is copied. -/
theorem buffers_freed_iff (ops : List (HeapOp V)) {s : Heap V} (ran : ops.foldlM step start = .ok s)
    (gone : s.alive = ∅) : s.AllFreed ↔ Runs.Each step KeepsBuffers start ops := by
  have balanced : (@start V).Balanced 0 := rfl
  have keeps : ∀ (s : Heap V) op s', s.Balanced 0 → s.step op = .ok s' →
      s.KeepsBuffers op ∧ s'.Balanced 0 ∨ ¬ s.KeepsBuffers op ∧ ∃ lost ≠ 0, s'.Balanced lost := by
    intro s op s' before moved
    have after := before.step moved
    rw [zero_add] at after
    by_cases kept : s.KeepsBuffers op
    · rw [leak_eq_zero_iff.mpr kept] at after
      exact Or.inl ⟨kept, after⟩
    · exact Or.inr ⟨kept, s.leak op, fun none => kept (leak_eq_zero_iff.mp none), after⟩
  have stays : ∀ (s : Heap V) op s', (∃ lost ≠ 0, s.Balanced lost) → s.step op = .ok s' →
      ∃ lost ≠ 0, s'.Balanced lost := by
    rintro s op s' ⟨lost, some, lossy⟩ moved
    refine ⟨lost + s.leak op, fun none => some ?_, lossy.step moved⟩
    exact (add_eq_zero.mp none).1
  have nothing (lost : Multiset Word) (final : s.Balanced lost) : s.buffers = s.freed + lost := by
    rw [final, total, gone, Finset.sum_empty, add_zero]
  rw [allFreed_iff]
  rcases Runs.final_good_or_bad keeps stays balanced ran with ⟨each, final⟩ | ⟨broken, lost, some, final⟩
  · refine iff_of_true ?_ each
    rw [nothing 0 final, add_zero]
  · refine iff_of_false (fun same => some ?_) broken
    have left := nothing lost final
    rw [← same] at left
    exact left_eq_add.mp left

/-- A page that is fetched, copied, and assigned over the copy. -/
def overwritten : List (HeapOp Bool) :=
  [.getBlock false 10 1, .copy true false, .assign true false, .destroy false, .destroy true]

theorem buffers_freed_overwritten : ∃ s : Heap Bool, overwritten.foldlM step start = .ok s ∧ s.alive = ∅ ∧
    (s.AllFreed ↔ Runs.Each step KeepsBuffers start overwritten) :=
  ⟨_, rfl, by decide, buffers_freed_iff overwritten rfl (by decide)⟩

/-- A block of two pages that is fetched and destroyed. -/
def twoPages : List (HeapOp Unit) := [.getBlock () 5000 2, .destroy ()]

/-- Its array of marks is never freed. -/
theorem not_buffers_freed : ¬ ∀ (ops : List (HeapOp Unit)) (s : Heap Unit),
    ops.foldlM step start = .ok s → s.alive = ∅ → s.AllFreed := by
  intro claimed
  have freed := claimed twoPages _ rfl (by decide)
  exact absurd (freed.1 2 (by decide)) (by decide)

end Heap

end Gbp
