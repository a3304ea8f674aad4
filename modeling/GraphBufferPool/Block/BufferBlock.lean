import GraphBufferPool.Pool.PageTable

/-! # Buffer blocks

`BufferBlockImp9`: a run of bytes in one page, in several pages or in a buffer of its own. A block
holds a reference to each of its pages, which `free` gives back, by `DecRefCount` on the entry or,
for a marked page, by `Erase` in the direct cache.
-/

namespace Gbp

/-- `PTE*`: the entry of a frame of a pool. -/
structure EntryId where
  pool : ℕ
  frame : ℕ
deriving DecidableEq, Repr

/-- The arguments of `InsertPage`: the address of the first byte, the entry and the mark. -/
structure BlockPage where
  data : ℕ
  pte : EntryId
  mark : Bool
deriving DecidableEq, Repr

/-- How the reference to a page is given back. -/
inductive Release
  | decRefCount (pte : EntryId)
  | erase (pte : EntryId)
deriving DecidableEq, Repr

def BlockPage.release (page : BlockPage) : Release :=
  if page.mark then .erase page.pte else .decRefCount page.pte

/-- `BufferBlockImp9`. `data` is the buffer of a block without pages; a slot is `none` until its page
is inserted. -/
structure BufferBlock where
  size : ℕ
  data : ℕ
  slots : List (Option BlockPage)
deriving DecidableEq, Repr

namespace BufferBlock

/-- `page_num_`. -/
def pageNum (block : BufferBlock) : ℕ := block.slots.length

/-- `BufferBlockImp9()`. -/
def empty : BufferBlock := ⟨0, 0, []⟩

/-- `BufferBlockImp9(size_t, size_t)`. -/
def new (size pageNum : ℕ) : BufferBlock := ⟨size, 0, List.replicate pageNum none⟩

/-- `BufferBlockImp9(size_t, char*)` and `BufferBlockImp9(size_t)`, with the buffer they allocate. -/
def ofBuffer (size data : ℕ) : BufferBlock := ⟨size, data, []⟩

/-- `InsertPage`; a block of one page ignores the index. -/
def insertPage (block : BufferBlock) (idx : ℕ) (page : BlockPage) : Except Stop BufferBlock :=
  if block.pageNum = 1 then .ok { block with slots := [some page] }
  else if idx < block.pageNum then .ok { block with slots := block.slots.set idx (some page) }
  else .error .badIndex

/-- What `free` releases, from the last page to the first; an empty slot holds no entry. -/
def releases (block : BufferBlock) : Except Stop (List Release) :=
  if block.size ≠ 0 then
    block.slots.reverse.mapM fun
      | some page => .ok page.release
      | none => .error .badIndex
  else .ok []

/-- The object after `size_ = 0; page_num_ = 0`. -/
def emptied (block : BufferBlock) : BufferBlock := { block with size := 0, slots := [] }

/-- `free`. -/
def free (block : BufferBlock) : Except Stop (List Release × BufferBlock) := do
  return (← block.releases, block.emptied)

/-- The pages that a block holds. -/
def pages (block : BufferBlock) : Multiset BlockPage := block.slots.reduceOption

@[simp] theorem pages_empty : empty.pages = 0 := rfl

@[simp] theorem pages_emptied (block : BufferBlock) : block.emptied.pages = 0 := rfl

@[simp] theorem pages_ofBuffer (size data : ℕ) : (ofBuffer size data).pages = 0 := rfl

@[simp] theorem pages_new (size pageNum : ℕ) : (new size pageNum).pages = 0 := by
  unfold pages new
  simp [List.reduceOption]

/-- A page inserted into an empty slot is added to the pages of the block. -/
theorem exists_insertPage {block : BufferBlock} {idx : ℕ} (page : BlockPage)
    (awaits : block.slots[idx]? = some none) : ∃ block', block.insertPage idx page = .ok block' ∧
      block'.size = block.size ∧ block'.pages = page ::ₘ block.pages := by
  obtain ⟨inside, here⟩ := List.getElem?_eq_some_iff.mp awaits
  unfold insertPage
  by_cases single : block.pageNum = 1
  · obtain ⟨slot, one⟩ := List.length_eq_one_iff.mp single
    obtain rfl : slot = none := by simpa [one] using here
    refine ⟨_, if_pos single, rfl, ?_⟩
    simp [pages, one, List.reduceOption]
  · rw [if_neg single, if_pos (show idx < block.pageNum from inside)]
    refine ⟨_, rfl, rfl, ?_⟩
    obtain ⟨before, after, split, _, stored⟩ := @List.exists_of_set _ _ (some page) _ inside
    rw [here] at split
    simp only [pages, stored]
    rw [split]
    simp [List.reduceOption]

/-- The releases of the slots are those of their pages, none of which is missing. -/
private theorem mapM_release {slots : List (Option BlockPage)} {released : List Release}
    (ran : (slots.mapM fun
      | some page => .ok page.release
      | none => .error .badIndex) = (.ok released : Except Stop (List Release))) :
    released = slots.reduceOption.map BlockPage.release := by
  induction slots generalizing released with
  | nil =>
    cases ran
    rfl
  | cons slot slots ih =>
    rw [List.mapM_cons] at ran
    obtain ⟨first, here, ran⟩ := bind_eq_ok.mp ran
    obtain ⟨rest, later, ran⟩ := bind_eq_ok.mp ran
    cases ran
    cases slot with
    | none => cases here
    | some page =>
      cases here
      rw [ih later]
      rfl

/-- `free` gives back a reference to each page. -/
theorem free_eq_ok {block freed : BufferBlock} {released : List Release}
    (ran : block.free = .ok (released, freed)) : freed = block.emptied ∧
      (block.size ≠ 0 → (released : Multiset Release) = block.pages.map BlockPage.release) ∧
      (block.size = 0 → released = []) := by
  obtain ⟨all, gave, ran⟩ := bind_eq_ok.mp ran
  cases ran
  refine ⟨rfl, fun nonzero => ?_, fun zero => ?_⟩
  · rw [releases, if_pos nonzero] at gave
    rw [mapM_release gave, pages, Multiset.map_coe, Multiset.coe_eq_coe]
    apply List.Perm.map _
    simp only [List.reduceOption, List.filterMap_reverse]
    exact List.reverse_perm _
  · rw [releases, if_neg (not_not.mpr zero)] at gave
    cases gave
    rfl

/-- `free` returns once every page is inserted. -/
theorem exists_free {block : BufferBlock} (complete : none ∉ block.slots) :
    ∃ released, block.free = .ok (released, block.emptied) := by
  have all (slots : List (Option BlockPage)) (complete : none ∉ slots) :
      ∃ released, (slots.mapM fun
        | some page => .ok page.release
        | none => .error .badIndex) = (.ok released : Except Stop (List Release)) := by
    induction slots with
    | nil => exact ⟨[], rfl⟩
    | cons slot slots ih =>
      obtain ⟨released, later⟩ := ih fun member => complete (List.mem_cons_of_mem _ member)
      cases slot with
      | none => exact absurd List.mem_cons_self complete
      | some page => exact ⟨page.release :: released, by rw [List.mapM_cons, later]; rfl⟩
  unfold free
  by_cases nonzero : block.size ≠ 0
  · obtain ⟨released, gave⟩ := all block.slots.reverse (by simpa using complete)
    exact ⟨released, by rw [releases, if_pos nonzero, gave]; rfl⟩
  · exact ⟨[], by rw [releases, if_neg nonzero]; rfl⟩

end BufferBlock

end Gbp
