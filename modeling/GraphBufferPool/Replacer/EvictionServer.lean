import GraphBufferPool.Replacer.TwoQueues

/-! # Requests of the eviction server

`EvictionServer::ProcessFunc` pushes what a batch `Victim` returns to the free list, where any fetch takes it from. It
looks at no frame itself. Neither does the batch `Victim` of `TwoQLRUReplacer`: it takes the frames at the
backs of the two lists, in whatever state their entries and their mappings are.
-/

namespace Gbp

/-- `async_eviction_request_type`, with the replacer and the free list behind its pointers. -/
structure EvictionRequest (R : Type) where
  replacer : R
  freeList : List ℕ
  pageNum : UInt32

/-- `EvictionServer::ProcessFunc`. -/
def processFunc {R : Type} [FullPolicy R] (fuel : ℕ) (req : EvictionRequest R) (pt : PageTable) :
    Except Stop (Bool × EvictionRequest R × PageTable) := do
  let (_, pages, replacer, pt) ← FullPolicy.victims fuel req.replacer pt [] req.pageNum.toNat
  let pageNum := req.pageNum - pages.length.toUInt32
  return (pageNum = 0, ⟨replacer, req.freeList ++ pages, pageNum⟩, pt)

namespace PageTable

/-- Frame `m` is not in use: it is neither pinned nor locked and has no bytes to write back, and no page is mapped to it
or waits for it. -/
structure Unused (pt : PageTable) (m : ℕ) : Prop where
  unpinned : (pt.ptes m).refCount = 0
  clean : (pt.ptes m).dirty = false
  free : (pt.ptes m).busy = false
  unmapped : ∀ page, pt.word? page ≠ some (.frame m)
  unlocked : pt.word? (pt.ptes m).page ≠ some .busy

/-- What a batch owes for frame `m`: nobody used the entry before it, and it has withdrawn the mapping. -/
structure Reclaimed (before after : PageTable) (m : ℕ) : Prop where
  unpinned : (before.ptes m).refCount = 0
  clean : (before.ptes m).dirty = false
  free : (before.ptes m).busy = false
  unmapped : ∀ page, after.word? page ≠ some (.frame m)
  unlocked : after.word? (before.ptes m).page ≠ some .busy

theorem reclaimed_self_iff {pt : PageTable} {m : ℕ} : Reclaimed pt pt m ↔ pt.Unused m :=
  ⟨fun reclaimed => ⟨reclaimed.unpinned, reclaimed.clean, reclaimed.free, reclaimed.unmapped, reclaimed.unlocked⟩,
    fun unused => ⟨unused.unpinned, unused.clean, unused.free, unused.unmapped, unused.unlocked⟩⟩

/-- A tracked frame of a pool in order is in use. -/
theorem InOrder.not_unused {pt : PageTable} {m : ℕ} (inOrder : pt.InOrder m) : ¬ pt.Unused m := fun unused =>
  inOrder.mapped.elim (unused.unmapped _) unused.unlocked

/-- A pool with one frame, which is in use. -/
def onePinned : PageTable where
  partitioner := ⟨0⟩
  mappings := [some [.frame 0]]
  ptes _ := PTE.loaded ⟨0, 0⟩

theorem onePinned_inOrder : onePinned.InOrder 0 := ⟨rfl, Or.inl rfl⟩

end PageTable

namespace Heap.TwoQLRUReplacer

/-- The frames from the back of the inactive list on, and behind them the ones of the active list. -/
def line (r : TwoQLRUReplacer) : List ℕ := NodeList.values r.inactiveList.reverse ++ NodeList.values r.activeList.reverse

/-- The batch `Victim` takes the first frames of the line. -/
theorem victims_eq (pageNum : ℕ) (r : TwoQLRUReplacer) (mpageIds : List ℕ) : ∃ r',
    r.victims pageNum mpageIds = (decide (pageNum ≤ r.line.length), mpageIds ++ r.line.take pageNum, r') ∧
      r'.line = r.line.drop pageNum := by
  induction pageNum generalizing r mpageIds with
  | zero => exact ⟨r, by simp [victims], rfl⟩
  | succ pageNum ih =>
    -- one round takes `m`, which is the first of the line
    have round {r₁ : TwoQLRUReplacer} {m : ℕ} (first : r.line = m :: r₁.line)
        (step : r.victims (pageNum + 1) mpageIds = r₁.victims pageNum (mpageIds ++ [m])) : ∃ r',
        r.victims (pageNum + 1) mpageIds =
          (decide (pageNum + 1 ≤ r.line.length), mpageIds ++ r.line.take (pageNum + 1), r') ∧
            r'.line = r.line.drop (pageNum + 1) := by
      obtain ⟨r', ran, rest⟩ := ih r₁ (mpageIds ++ [m])
      refine ⟨r', ?_, by rw [rest, first, List.drop_succ_cons]⟩
      rw [step, ran, first]
      simp
    rcases List.eq_nil_or_concat r.inactiveList with empty | ⟨rest, node, filled⟩
    · rcases List.eq_nil_or_concat r.activeList with none | ⟨rest, node, filled⟩
      · refine ⟨r, ?_, ?_⟩
        · simp [victims, line, empty, none, NodeList.values]
        · simp [line, empty, none, NodeList.values]
      · refine @round { r with activeList := rest, activeMap := Function.update r.activeMap node.2 Option.none } node.2 ?_ ?_
        · simp [line, empty, filled, NodeList.values]
        · simp [victims, empty, filled]
    · refine @round { r with inactiveList := rest, inactiveMap := Function.update r.inactiveMap node.2 none } node.2 ?_ ?_
      · simp [line, filled, NodeList.values]
      · simp [victims, filled]

variable (req : EvictionRequest TwoQLRUReplacer) (pt : PageTable)

/-- A request pushes the first frames of the line and changes no page table. -/
theorem processFunc_eq (fuel : ℕ) : ∃ result replacer pageNum, processFunc fuel req pt =
    .ok (result, ⟨replacer, req.freeList ++ req.replacer.line.take req.pageNum.toNat, pageNum⟩, pt) := by
  obtain ⟨replacer, ran, _⟩ := victims_eq req.pageNum.toNat req.replacer []
  rw [List.nil_append] at ran
  have batch : FullPolicy.victims fuel req.replacer pt [] req.pageNum.toNat =
      .ok (decide (req.pageNum.toNat ≤ req.replacer.line.length), req.replacer.line.take req.pageNum.toNat, replacer,
        pt) := by
    simp only [FullPolicy.victims, ran]
  let left := req.pageNum - (req.replacer.line.take req.pageNum.toNat).length.toUInt32
  refine ⟨decide (left = 0), replacer, left, ?_⟩
  rw [processFunc, batch, ok_bind]
  rfl

/-- A request pushes only frames that were reclaimed if and only if nobody used them anyway. In a pool whose tracked
frames are in order it must push none at all. -/
theorem processFunc_reclaims_iff : ∃ pages result replacer pageNum table,
    Fuel.Returns (fun fuel => processFunc fuel req pt) (result, ⟨replacer, req.freeList ++ pages, pageNum⟩, table) ∧
      ((∀ m ∈ pages, PageTable.Reclaimed pt table m) ↔ ∀ m ∈ req.replacer.line.take req.pageNum.toNat, pt.Unused m) ∧
      ((∀ m ∈ req.replacer.line, pt.InOrder m) →
        ((∀ m ∈ pages, PageTable.Reclaimed pt table m) ↔ req.pageNum = 0 ∨ req.replacer.line = [])) := by
  obtain ⟨result, replacer, pageNum, ran⟩ := processFunc_eq req pt 0
  refine ⟨_, result, replacer, pageNum, pt, ⟨0, fun _ _ => ran⟩, by simp only [PageTable.reclaimed_self_iff],
    fun inOrder => ?_⟩
  have none : (∀ m ∈ req.replacer.line.take req.pageNum.toNat, PageTable.Reclaimed pt pt m) ↔
      req.replacer.line.take req.pageNum.toNat = [] := by
    rw [List.eq_nil_iff_forall_not_mem]
    refine forall₂_congr fun m member => ?_
    rw [PageTable.reclaimed_self_iff]
    exact iff_of_false (inOrder m (List.mem_of_mem_take member)).not_unused id
  rw [none, List.take_eq_nil_iff, ← UInt32.toNat_inj, UInt32.toNat_zero]

/-- The pinned frame is pushed to the free list, with its page still mapped to it. -/
theorem processFunc_pushes_pinned : PageTable.onePinned.InOrder 0 ∧ (PageTable.onePinned.ptes 0).refCount = 1 ∧
    ∃ replacer, Fuel.Returns (fun fuel => processFunc fuel ⟨(new.insert 0).2, [], 1⟩ .onePinned)
      (true, ⟨replacer, [0], 0⟩, .onePinned) ∧ PageTable.onePinned.word? ⟨0, 0⟩ = some (.frame 0) ∧
        ¬ PageTable.Reclaimed .onePinned .onePinned 0 := by
  refine ⟨PageTable.onePinned_inOrder, rfl, { (new.insert 0).2 with
    inactiveList := []
    inactiveMap := Function.update (new.insert 0).2.inactiveMap 0 none }, ⟨0, fun _ _ => rfl⟩, rfl, fun reclaimed => ?_⟩
  exact PageTable.onePinned_inOrder.not_unused (PageTable.reclaimed_self_iff.mp reclaimed)

end Heap.TwoQLRUReplacer

end Gbp
