import GraphBufferPool.Lib.Contract
import GraphBufferPool.Lib.Fuel
import GraphBufferPool.Replacer.Policy

/-! # The methods of a replacer

`Replacer<mpage_id_type>` with all the calls that change it, `Erase` and the `Victim` of several frames
included, and what the two kinds of search do in a pool whose tracked frames are in order: the
first frame that can be locked, or the first clean one.
-/

namespace Gbp

/-- A replacer with `Erase` and the batch `Victim`, which appends to a vector of frames. -/
class FullPolicy (R : Type) extends Policy R where
  erase : R → ℕ → Except Stop (Bool × R)
  victims : ℕ → R → PageTable → List ℕ → ℕ → Except Stop (Bool × List ℕ × R × PageTable)

/-- A call of a replacer. The two `Victim`s come with the page table behind `page_table_`. -/
inductive ReplacerCall
  | insert (value : ℕ)
  | promote (value : ℕ)
  | erase (value : ℕ)
  | victim (pt : PageTable)
  | victims (pt : PageTable) (mpageIds : List ℕ) (pageNum : ℕ)

/-- What a call leaves behind: its result, the frame or frames, and the page table. -/
inductive ReplacerAnswer
  | returned (result : Bool)
  | victim (taken : Option ℕ) (pt : PageTable)
  | victims (result : Bool) (mpageIds : List ℕ) (pt : PageTable)

section calls

variable {R : Type} [FullPolicy R]

/-- A call, with the fuel of its loops. -/
def callWith (fuel : ℕ) (r : R) : ReplacerCall → Except Stop (ReplacerAnswer × R)
  | .insert value => do
    let (result, r) ← Policy.insert r value
    return (.returned result, r)
  | .promote value => do
    let (result, r) ← Policy.promote r value
    return (.returned result, r)
  | .erase value => do
    let (result, r) ← FullPolicy.erase r value
    return (.returned result, r)
  | .victim pt => do
    let (taken, r, pt) ← Policy.victim fuel r pt
    return (.victim taken pt, r)
  | .victims pt mpageIds pageNum => do
    let (result, mpageIds, r, pt) ← FullPolicy.victims fuel r pt mpageIds pageNum
    return (.victims result mpageIds pt, r)

/-- A call returns, with an answer and the replacer after it. -/
def Answered (r : R) (call : ReplacerCall) (answer : ReplacerAnswer) (r' : R) : Prop :=
  Fuel.Returns (fun fuel => callWith fuel r call) (answer, r')

variable {r r' : R} {m : ℕ} {result : Bool} {pt pt' : PageTable}

theorem Answered.insert (ran : Policy.insert r m = .ok (result, r')) :
    Answered r (.insert m) (.returned result) r' :=
  ⟨0, fun _ _ => by simp only [callWith, ran]; rfl⟩

theorem Answered.promote (ran : Policy.promote r m = .ok (result, r')) :
    Answered r (.promote m) (.returned result) r' :=
  ⟨0, fun _ _ => by simp only [callWith, ran]; rfl⟩

theorem Answered.erase (ran : FullPolicy.erase r m = .ok (result, r')) :
    Answered r (.erase m) (.returned result) r' :=
  ⟨0, fun _ _ => by simp only [callWith, ran]; rfl⟩

theorem Answered.victim {taken : Option ℕ}
    (ran : Fuel.Returns (fun fuel => Policy.victim fuel r pt) (taken, r', pt')) :
    Answered r (.victim pt) (.victim taken pt') r' := by
  obtain ⟨n, ran⟩ := ran
  exact ⟨n, fun fuel enough => by simp only [callWith, ran fuel enough]; rfl⟩

theorem Answered.victims {mpageIds taken : List ℕ} {pageNum : ℕ}
    (ran : Fuel.Returns (fun fuel => FullPolicy.victims fuel r pt mpageIds pageNum) (result, taken, r', pt')) :
    Answered r (.victims pt mpageIds pageNum) (.victims result taken pt') r' := by
  obtain ⟨n, ran⟩ := ran
  exact ⟨n, fun fuel enough => by simp only [callWith, ran fuel enough]; rfl⟩

end calls

namespace PageTable

/-- The entry of the frame is initialized, and its page mapped to the frame or locked. -/
structure InOrder (pt : PageTable) (m : ℕ) : Prop where
  initialized : (pt.ptes m).initialized = true
  mapped : pt.word? (pt.ptes m).page = some (.frame m) ∨ pt.word? (pt.ptes m).page = some .busy

/-- A batch `Victim` may take frame `m`: it is evictable and its page clean. -/
def Reusable (pt : PageTable) (m : ℕ) : Prop := pt.Evictable m ∧ (pt.ptes m).dirty = false

instance (pt : PageTable) (m : ℕ) : Decidable (pt.Reusable m) := inferInstanceAs (Decidable (_ ∧ _))

/-- The table after a search: the page of the frame it found is locked. -/
def lockFound (pt : PageTable) : Option ℕ → PageTable
  | some m => pt.lockFrame (pt.ptes m).page m
  | none => pt

/-- The table after a batch `Victim` took frame `m`: its entry is locked and its page has no mapping. -/
def withdraw (pt : PageTable) (m : ℕ) : PageTable :=
  (pt.lockFrame (pt.ptes m).page m).setWord (pt.ptes m).page .empty

/-- A search through frames with a `test` that tries to lock them. -/
def searchWith (test : PageTable → ℕ → Except Stop (Bool × PageTable)) (pt : PageTable) :
    List ℕ → Except Stop (Option ℕ × PageTable)
  | [] => .ok (none, pt)
  | i :: rest => do
    let (taken, table) ← test pt i
    if taken then return (some i, table)
    else searchWith test table rest

/-- What the queue replacers do with a frame, where `LRUReplacer` passes the pinned ones without trying. -/
def tryVictim (skipsPinned : Bool) (pt : PageTable) (i : ℕ) : Except Stop (Bool × PageTable) :=
  if skipsPinned ∧ (pt.ptes i).refCount ≠ 0 then .ok (false, pt) else pt.lockVictim i

/-- What the batch `Victim`s do with a frame: they keep a dirty page. -/
def lockClean (pt : PageTable) (i : ℕ) : Except Stop (Bool × PageTable) := do
  let (locked, table) ← pt.lockMapping (pt.ptes i).page
  match locked with
  | some value =>
    if (table.ptes i).dirty = false ∧ (table.ptes i).refCount = 0 ∧ value ≠ .empty then return (true, table)
    else
      let (unlocked, table) ← table.unLockMapping (table.ptes i).page value
      check unlocked
      return (false, table)
  | none => return (false, table)

variable {pt : PageTable} {i m : ℕ} {xs : List ℕ}

theorem InOrder.refuses (inOrder : pt.InOrder m) (kept : ¬ pt.Evictable m) :
    pt.lockMapping (pt.ptes m).page = .ok (none, pt) := by
  rcases inOrder.mapped with here | busy
  · apply lockMapping_refused here
    have refused : (pt.ptes m).refCount ≠ 0 ∨ (pt.ptes m).busy = true := by
      by_contra neither
      obtain ⟨unpinned, free⟩ := not_or.mp neither
      exact kept ⟨here, by simpa using free, not_not.mp unpinned⟩
    simp only [PTE.lock?, inOrder.initialized, and_true]
    exact if_pos refused
  · exact lockMapping_busy busy

theorem InOrder.lockVictim (inOrder : pt.InOrder m) (kept : ¬ pt.Evictable m) : pt.lockVictim m = .ok (false, pt) := by
  rw [PageTable.lockVictim, inOrder.refuses kept, ok_bind]
  rfl

theorem InOrder.tryVictim (inOrder : pt.InOrder m) (skipsPinned : Bool) :
    pt.tryVictim skipsPinned m =
      .ok (decide (pt.Evictable m), if pt.Evictable m then pt.lockFrame (pt.ptes m).page m else pt) := by
  unfold PageTable.tryVictim
  by_cases evictable : pt.Evictable m
  · have unpinned : ¬ (skipsPinned ∧ (pt.ptes m).refCount ≠ 0) := fun both => both.2 evictable.2.2
    rw [if_neg unpinned, if_pos evictable, decide_eq_true evictable, evictable.lockVictim]
  · rw [if_neg evictable, decide_eq_false evictable]
    split_ifs
    · rfl
    · exact inOrder.lockVictim evictable

/-- A dirty page is locked and given back. -/
theorem InOrder.lockClean (inOrder : pt.InOrder m) :
    pt.lockClean m =
      .ok (decide (pt.Reusable m), if pt.Reusable m then pt.lockFrame (pt.ptes m).page m else pt) := by
  by_cases evictable : pt.Evictable m
  · have unchanged : ((pt.lockFrame (pt.ptes m).page m).ptes m).dirty = (pt.ptes m).dirty ∧
        ((pt.lockFrame (pt.ptes m).page m).ptes m).refCount = 0 ∧
          ((pt.lockFrame (pt.ptes m).page m).ptes m).page = (pt.ptes m).page := by
      simp [PageTable.lockFrame, PTE.page, evictable.2.2]
    rw [PageTable.lockClean, evictable.takes, ok_bind]
    dsimp only
    by_cases clean : (pt.ptes m).dirty = false
    · rw [if_pos ⟨unchanged.1.trans clean, unchanged.2.1, by simp⟩, if_pos ⟨evictable, clean⟩,
        decide_eq_true ⟨evictable, clean⟩]
      rfl
    · have dirty : ¬ pt.Reusable m := fun reusable => clean reusable.2
      rw [if_neg (fun all => clean (unchanged.1 ▸ all.1)), if_neg dirty, decide_eq_false dirty, unchanged.2.2,
        unLockMapping_lockFrame evictable.1 evictable.2.1 evictable.2.2 rfl]
      rfl
  · have kept : ¬ pt.Reusable m := fun reusable => evictable reusable.1
    rw [PageTable.lockClean, inOrder.refuses evictable, ok_bind, if_neg kept, decide_eq_false kept]
    rfl

theorem searchFrom_eq_searchWith (skipsPinned : Bool) (pt : PageTable) (xs : List ℕ) :
    pt.searchFrom skipsPinned xs = pt.searchWith (PageTable.tryVictim skipsPinned) xs := by
  induction xs generalizing pt with
  | nil => rfl
  | cons i rest ih =>
    rw [searchFrom, searchWith, PageTable.tryVictim]
    split_ifs
    · exact ih pt
    · simp only [ih]

/-- A search whose test is exact on the frames in order finds the first one that passes. -/
theorem searchWith_eq {test : PageTable → ℕ → Except Stop (Bool × PageTable)} {p : ℕ → Prop} [DecidablePred p]
    (exact : ∀ m ∈ xs, test pt m = .ok (decide (p m), if p m then pt.lockFrame (pt.ptes m).page m else pt)) :
    pt.searchWith test xs = .ok (xs.find? p, pt.lockFound (xs.find? p)) := by
  induction xs with
  | nil => rfl
  | cons i rest ih =>
    rw [searchWith, exact i (List.mem_cons_self ..), ok_bind, List.find?_cons]
    by_cases here : p i
    · simp only [here, decide_true, if_true]
      rfl
    · simp only [here, decide_false, if_false]
      exact ih fun m member => exact m (List.mem_cons_of_mem _ member)

/-- The frame that the search of a single `Victim` finds. -/
theorem searchFrom_eq (skipsPinned : Bool) (inOrder : ∀ m ∈ xs, pt.InOrder m) :
    pt.searchFrom skipsPinned xs = .ok (xs.find? pt.Evictable, pt.lockFound (xs.find? pt.Evictable)) := by
  rw [searchFrom_eq_searchWith]
  exact searchWith_eq fun m member => (inOrder m member).tryVictim skipsPinned

/-- The frame that the search of a batch `Victim` finds. -/
theorem searchClean_eq (inOrder : ∀ m ∈ xs, pt.InOrder m) : pt.searchWith PageTable.lockClean xs =
    .ok (xs.find? pt.Reusable, pt.lockFound (xs.find? pt.Reusable)) :=
  searchWith_eq fun m member => (inOrder m member).lockClean

/-- The mapping of a frame that was found is deleted. -/
theorem Evictable.delete (evictable : pt.Evictable m) :
    (pt.lockFrame (pt.ptes m).page m).deleteMapping ((pt.lockFrame (pt.ptes m).page m).ptes m).page =
      .ok (true, pt.withdraw m) := by
  have same : ((pt.lockFrame (pt.ptes m).page m).ptes m).page = (pt.ptes m).page := by
    simp [PageTable.lockFrame, PTE.page]
  have locked : (pt.lockFrame (pt.ptes m).page m).word? (pt.ptes m).page = some .busy :=
    setWord_word?_self evictable.1
  rw [same, deleteMapping_busy locked]
  rfl

/-- The other slots of the mappings stay as they are. -/
theorem withdraw_word? {page : Page} (apart : ¬ pt.SameSlot (pt.ptes m).page page) :
    (pt.withdraw m).word? page = pt.word? page := by
  have step (table : PageTable) (same : table.partitioner = pt.partitioner) (word : MapWord) :
      (table.setWord (pt.ptes m).page word).word? page = table.word? page :=
    setWord_word?_of_not (by simpa only [SameSlot, same] using apart)
  exact (step (pt.lockFrame (pt.ptes m).page m) rfl .empty).trans (step _ rfl .busy)

/-- No page is mapped where the page of the frame was. -/
theorem Evictable.withdraw_self (evictable : pt.Evictable m) :
    (pt.withdraw m).word? (pt.ptes m).page = some .empty := by
  have locked : (pt.lockFrame (pt.ptes m).page m).word? (pt.ptes m).page = some .busy :=
    setWord_word?_self evictable.1
  exact setWord_word?_self locked

/-- Empty slots stay so. -/
theorem Evictable.withdraw_empty {page : Page} (evictable : pt.Evictable m) (empty : pt.word? page = some .empty) :
    (pt.withdraw m).word? page = some .empty := by
  have apart : ¬ pt.SameSlot (pt.ptes m).page page := by
    intro same
    have shared : pt.word? (pt.ptes m).page = pt.word? page := by
      simp only [word?, same.1, same.2]
    rw [evictable.1, empty] at shared
    cases shared
  exact (withdraw_word? apart).trans empty

/-- A frame other than the one that is taken stays as it is. -/
theorem withdraw_other {k : ℕ} (evictable : pt.Evictable m) (inOrder : pt.InOrder k) (other : k ≠ m) :
    ((pt.withdraw m).ptes k) = pt.ptes k ∧ (pt.withdraw m).word? (pt.ptes k).page = pt.word? (pt.ptes k).page := by
  refine ⟨by simp [withdraw, lockFrame, other], ?_⟩
  -- frames whose pages share a slot would both be mapped by it
  have apart : ¬ pt.SameSlot (pt.ptes m).page (pt.ptes k).page := by
    intro same
    have shared : pt.word? (pt.ptes m).page = pt.word? (pt.ptes k).page := by
      simp only [word?, same.1, same.2]
    rw [evictable.1] at shared
    rcases inOrder.mapped with mine | busy
    · rw [mine] at shared
      exact other (by simpa using shared.symm)
    · rw [busy] at shared
      cases shared
  have step (table : PageTable) (same : table.partitioner = pt.partitioner) (word : MapWord) :
      (table.setWord (pt.ptes m).page word).word? (pt.ptes k).page = table.word? (pt.ptes k).page :=
    setWord_word?_of_not (by simpa only [SameSlot, same] using apart)
  exact (step (pt.lockFrame (pt.ptes m).page m) rfl .empty).trans (step _ rfl .busy)

theorem InOrder.withdraw {k : ℕ} (inOrder : pt.InOrder k) (evictable : pt.Evictable m) (other : k ≠ m) :
    (pt.withdraw m).InOrder k := by
  obtain ⟨entry, word⟩ := withdraw_other evictable inOrder other
  exact ⟨by rw [entry]; exact inOrder.initialized, by rw [entry, word]; exact inOrder.mapped⟩

theorem InOrder.reusable_withdraw {k : ℕ} (inOrder : pt.InOrder k) (evictable : pt.Evictable m) (other : k ≠ m) :
    (pt.withdraw m).Reusable k ↔ pt.Reusable k := by
  obtain ⟨entry, word⟩ := withdraw_other evictable inOrder other
  rw [Reusable, Reusable, Evictable, Evictable, entry, word]

end PageTable

end Gbp
