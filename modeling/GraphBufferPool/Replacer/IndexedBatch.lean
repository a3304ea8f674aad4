import GraphBufferPool.Replacer.IndexedRuns

/-! # The batch `Victim` of `SieveReplacer_v3`

It starts by comparing a variable that it has not set with `head_`. Its loop ends in a list of frames that it may not
take, but not in one that becomes empty while more frames are wanted.
-/

namespace Gbp.Indexed.SieveReplacer_v3

open PageTable (twoPages twoPages_consistent)

variable {capacity : ℕ} {r : SieveReplacer_v3} {tracked : List ℕ} {pt : PageTable}

/-- A list with a valid hand is that of some sequence. -/
theorem exists_simulates (wellFormed : r.list.WellFormed tracked) (hand : HandValid r) :
    ∃ a, Simulates r a ∧ a.list.nodes = tracked := by
  rcases hand with head | ⟨inside, -⟩
  · exact ⟨⟨⟨r.list.capacity, tracked, r.list.val⟩, .head⟩, ⟨⟨wellFormed, rfl, rfl, rfl⟩, head, nofun⟩, rfl⟩
  · refine ⟨⟨⟨r.list.capacity, tracked, r.list.val⟩, .node r.pointer⟩, ⟨⟨wellFormed, rfl, rfl, rfl⟩, rfl, ?_⟩, rfl⟩
    rintro i ⟨⟩
    exact inside

/-- What a batch has done: it took so many reusable frames at most, which are out of the list and of the mappings, and
the others are linked in their order with the hand among them. -/
structure BatchDone (tracked : List ℕ) (pt : PageTable) (pageNum : ℕ) (taken : List ℕ) (r' : SieveReplacer_v3)
    (pt' : PageTable) : Prop where
  count : taken.length ≤ pageNum
  nodup : taken.Nodup
  reusable : ∀ m ∈ taken, m ∈ tracked ∧ pt.Reusable m
  withdrawn : ∀ m ∈ taken, pt'.word? (pt.ptes m).page = some .empty
  listed : r'.list.IsList (tracked.filter (· ∉ taken))
  hand : HandValid r'

/-- The list does not run out of frames before the batch has what it wants. -/
def Stocked (pageNum capacity : ℕ) (tracked : List ℕ) (pt : PageTable) : Prop :=
  capacity = 0 ∨ pageNum ≤ tracked.length ∨ ∃ m ∈ tracked, ¬ pt.Reusable m

/-- Whatever the vector of frames holds, the batch `Victim` ends and has done what it should. -/
def BatchTotal (unset pageNum : ℕ) (r : SieveReplacer_v3) (tracked : List ℕ) (pt : PageTable) : Prop :=
  ∀ mpageIds, ∃ result taken r' pt', victims unset pageNum r pt mpageIds = .ok (result, mpageIds ++ taken, r', pt') ∧
    BatchDone tracked pt pageNum taken r' pt'

/-- A batch is total if and only if the unset variable stops it at once or the list does not run out of frames. -/
theorem batch_total_iff (wellFormed : r.list.WellFormed tracked) (hand : HandValid r)
    (inOrder : ∀ m ∈ tracked, pt.InOrder m) (unset pageNum : ℕ) : BatchTotal unset pageNum r tracked pt ↔
      unset = ListArray.head r.list.capacity ∨ Stocked pageNum r.list.capacity tracked pt := by
  by_cases stopped : unset = ListArray.head r.list.capacity
  · refine iff_of_true (fun mpageIds => ?_) (Or.inl stopped)
    refine ⟨false, [], r, pt, ?_, Nat.zero_le _, .nil, by simp, by simp, ?_, hand⟩
    · rw [victims, if_pos stopped, List.append_nil]
    · simpa using wellFormed.isList
  · obtain ⟨a, simulates, rfl⟩ := exists_simulates wellFormed hand
    have inside (m : ℕ) (linked : m ∈ a.list.nodes) : m < a.list.capacity := simulates.list.inside linked
    have ends := Gbp.SieveReplacer_v3.batchVictims_ends pageNum wellFormed.nodup inside
      (simulates.handValid_iff.mp hand) inOrder
    have same : Gbp.SieveReplacer_v3.Stocked pageNum a pt ↔ Stocked pageNum r.list.capacity a.list.nodes pt := by
      rw [simulates.list.size]
      rfl
    rw [or_iff_right stopped, ← same]
    have agree (mpageIds : List ℕ) := simulates.batchVictims pageNum pt mpageIds
    constructor
    · intro total
      obtain ⟨result, taken, r', pt', ran, -⟩ := total []
      rw [victims, if_neg stopped] at ran
      refine (ends []).elim And.left fun failed => ?_
      rw [((agree []).error_iff _).mpr failed.2] at ran
      cases ran
    · intro stocked mpageIds
      obtain ⟨-, result, taken, a', pt', moved, done, -⟩ := (ends mpageIds).resolve_right fun failed => failed.1 stocked
      obtain ⟨⟨result', all, r', table⟩, ran, sameResult, sameAll, simulates', left⟩ := (agree mpageIds).left moved
      obtain rfl : all = mpageIds ++ taken := sameAll
      obtain rfl : table = pt' := left
      refine ⟨result', taken, r', table, by rw [victims, if_neg stopped, ran], done.count, done.nodup, done.reusable,
        done.withdrawn, ?_, simulates'.handValid_iff.mpr done.hand⟩
      exact done.nodes ▸ simulates'.list.wellFormed.isList

theorem twoPages_inOrder : ∀ m ∈ [1, 0], twoPages.InOrder m := fun m linked =>
  ⟨twoPages_consistent.initialized m linked, twoPages_consistent.mapped m linked⟩

theorem twoInserted_wellFormed : twoInserted.list.WellFormed [1, 0] := by
  obtain ⟨a, follows⟩ := (twoInserted_reached False).follows (by decide) le_rfl False.elim
  exact follows.wellFormed

theorem batch_total_iff_twoPages : BatchTotal invalidIndex 2 twoInserted [1, 0] twoPages ↔
    invalidIndex = ListArray.head 2 ∨ Stocked 2 2 [1, 0] twoPages :=
  batch_total_iff twoInserted_wellFormed (Or.inl rfl) twoPages_inOrder invalidIndex 2

/-- A batch of three takes both frames and then starts at the sentinel. -/
theorem batch_of_three_throws : (∀ m ∈ [1, 0], twoPages.InOrder m) ∧ twoInserted.list.WellFormed [1, 0] ∧
    HandValid twoInserted ∧ victims invalidIndex 3 twoInserted twoPages [] = .error .badIndex ∧
      ¬ BatchTotal invalidIndex 3 twoInserted [1, 0] twoPages := by
  have threw : victims invalidIndex 3 twoInserted twoPages [] = .error .badIndex := rfl
  refine ⟨twoPages_inOrder, twoInserted_wellFormed, Or.inl rfl, threw, fun total => ?_⟩
  obtain ⟨result, taken, r', pt', ran, -⟩ := total []
  rw [threw] at ran
  cases ran

end Gbp.Indexed.SieveReplacer_v3
