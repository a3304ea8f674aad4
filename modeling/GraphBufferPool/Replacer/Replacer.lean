import GraphBufferPool.Pool.PageTable

/-! # Replacers

`Replacer<mpage_id_type>` as the pools use it, and the contract a replacer meets towards a pool run
by one thread: `Victim` takes some tracked frame whose page is neither pinned nor locked, with its
mapping and its entry locked, and finds one wherever there is one.
-/

namespace Gbp

/-- `Replacer<mpage_id_type>`. `victim` reads and locks the page table behind `page_table_`; it
returns the frame where the method returns true. -/
class Replacer (R : Type) where
  new : ℕ → R
  insert : R → ℕ → Except Stop (Bool × R)
  promote : R → ℕ → Except Stop (Bool × R)
  victim : R → PageTable → Except Stop (Option ℕ × R × PageTable)
  clean : R → Bool × R

/-- `Victim` may take frame `m`: its page is resident in it, unpinned and unlocked. -/
def PageTable.Evictable (pt : PageTable) (m : ℕ) : Prop :=
  pt.word? (pt.ptes m).page = some (.frame m) ∧ (pt.ptes m).busy = false ∧ (pt.ptes m).refCount = 0

instance (pt : PageTable) (m : ℕ) : Decidable (pt.Evictable m) :=
  inferInstanceAs (Decidable (_ ∧ _ ∧ _))

/-- What a tracked frame looks like to `Victim`: resident, with a BUSY mapping, or of a
deregistered file. -/
inductive PageTable.Settled (pt : PageTable) (m : ℕ) : Prop
  | resident (here : pt.word? (pt.ptes m).page = some (.frame m)) (free : (pt.ptes m).busy = false)
      (initialized : (pt.ptes m).initialized = true)
  | locked (busy : pt.word? (pt.ptes m).page = some .busy)
  | orphan (gone : pt.word? (pt.ptes m).page = none)

/-- The answers a sweep gets at frame `m`: it takes the frame, its lock fails, or the file of its page
is deregistered. -/
inductive PageTable.Answers (pt : PageTable) (m : ℕ) : Prop
  | takes (evictable : pt.Evictable m)
  | refuses (kept : ¬ pt.Evictable m) (locked : pt.lockMapping (pt.ptes m).page = .ok (none, pt))
  | orphan (gone : pt.word? (pt.ptes m).page = none)

theorem PageTable.Settled.answers {pt : PageTable} {m : ℕ} (settled : pt.Settled m) :
    pt.Answers m := by
  cases settled with
  | resident here free initialized =>
    by_cases held : (pt.ptes m).refCount = 0
    · exact .takes ⟨here, free, held⟩
    · apply PageTable.Answers.refuses
      · exact fun evictable => held evictable.2.2
      · exact PageTable.lockMapping_pinned here held initialized
  | locked busy =>
    apply PageTable.Answers.refuses
    · intro evictable
      rw [evictable.1] at busy
      cases busy
    · exact PageTable.lockMapping_busy busy
  | orphan gone => exact .orphan gone

/-- A consistent pool: the entry of every tracked frame is initialized, its page is mapped to the
frame or locked, and no two of them hold one page. -/
structure PageTable.Consistent (pt : PageTable) (tracked : List ℕ) : Prop where
  initialized : ∀ m ∈ tracked, (pt.ptes m).initialized = true
  mapped : ∀ m ∈ tracked, pt.word? (pt.ptes m).page = some (.frame m) ∨
    pt.word? (pt.ptes m).page = some .busy
  distinct : ∀ m ∈ tracked, ∀ k ∈ tracked, (pt.ptes m).page = (pt.ptes k).page → m = k

/-- Two frames of a pool with one file, resident and unpinned. -/
def PageTable.twoPages : PageTable where
  partitioner := ⟨0⟩
  mappings := [some [.frame 0, .frame 1]]
  ptes m := (PTE.loaded ⟨0, m⟩).setRefCount 0 PTE.refCount_zero_lt

theorem PageTable.twoPages_consistent : twoPages.Consistent [1, 0] := ⟨by decide, by decide, by decide⟩

/-- In a consistent pool the lock of a tracked frame succeeds exactly where it is evictable. -/
theorem PageTable.Consistent.refuses {pt : PageTable} {tracked : List ℕ} {m : ℕ}
    (consistent : pt.Consistent tracked) (member : m ∈ tracked) (kept : ¬ pt.Evictable m) :
    pt.lockMapping (pt.ptes m).page = .ok (none, pt) := by
  rcases consistent.mapped m member with here | busy
  · apply PageTable.lockMapping_refused here
    have refused : (pt.ptes m).refCount ≠ 0 ∨ (pt.ptes m).busy = true := by
      by_contra neither
      obtain ⟨unpinned, free⟩ := not_or.mp neither
      exact kept ⟨here, by simpa using free, not_not.mp unpinned⟩
    simp only [PTE.lock?, consistent.initialized m member, and_true]
    exact if_pos refused
  · exact PageTable.lockMapping_busy busy

theorem PageTable.Evictable.takes {pt : PageTable} {m : ℕ} (evictable : pt.Evictable m) :
    pt.lockMapping (pt.ptes m).page = .ok (some (.frame m), pt.lockFrame (pt.ptes m).page m) :=
  PageTable.lockMapping_unpinned evictable.1 evictable.2.1 evictable.2.2

theorem PageTable.Consistent.answers {pt : PageTable} {tracked : List ℕ} {m : ℕ}
    (consistent : pt.Consistent tracked) (member : m ∈ tracked) : pt.Answers m := by
  by_cases evictable : pt.Evictable m
  · exact .takes evictable
  · exact .refuses evictable (consistent.refuses member evictable)

/-- What every `Victim` does with a frame it looks at: lock the mapping and the entry of its page, and
give them back where the frame turns out not to be evictable. -/
def PageTable.lockVictim (pt : PageTable) (i : ℕ) : Except Stop (Bool × PageTable) := do
  let (locked, table) ← pt.lockMapping (pt.ptes i).page
  match locked with
  | some value =>
    if (table.ptes i).refCount = 0 ∧ value ≠ .empty then return (true, table)
    else
      let (unlocked, table) ← table.unLockMapping (table.ptes i).page value
      check unlocked
      return (false, table)
  | none => return (false, table)

theorem PageTable.Evictable.lockVictim {pt : PageTable} {i : ℕ} (evictable : pt.Evictable i) :
    pt.lockVictim i = .ok (true, pt.lockFrame (pt.ptes i).page i) := by
  have unchanged : ((pt.lockFrame (pt.ptes i).page i).ptes i).refCount = 0 := by
    simp [PageTable.lockFrame, evictable.2.2]
  rw [PageTable.lockVictim, evictable.takes, ok_bind]
  dsimp only
  rw [if_pos ⟨unchanged, by simp⟩]
  rfl

theorem PageTable.Consistent.lockVictim {pt : PageTable} {tracked : List ℕ} {i : ℕ}
    (consistent : pt.Consistent tracked) (member : i ∈ tracked) (kept : ¬ pt.Evictable i) :
    pt.lockVictim i = .ok (false, pt) := by
  rw [PageTable.lockVictim, consistent.refuses member kept, ok_bind]
  rfl

/-- The contract of a replacer. `Calm` holds of every replacer object in use; `Ready` says that
`Victim` can start its search. -/
class LawfulReplacer (R : Type) [Replacer R] where
  frames : R → List ℕ
  capacity : R → ℕ
  Calm : R → Prop
  Ready : R → Prop
  frames_new : ∀ c, frames (Replacer.new c : R) = []
  capacity_new : ∀ c, capacity (Replacer.new c : R) = c
  ready_new : ∀ c, Ready (Replacer.new c : R)
  calm_of_ready : ∀ r, Ready r → Calm r
  ready_of_calm : ∀ r, Calm r → (∀ m < capacity r, m ∈ frames r) → Ready r
  nodup : ∀ r, Calm r → (frames r).Nodup
  insert_ok : ∀ r m, Calm r → m < capacity r → ∃ r', Replacer.insert r m = .ok (true, r') ∧
    capacity r' = capacity r ∧ (∀ k, k ∈ frames r' ↔ k = m ∨ k ∈ frames r) ∧ Calm r' ∧
      (Ready r → Ready r')
  promote_ok : ∀ r m, Calm r → m ∈ frames r → ∃ r', Replacer.promote r m = .ok (true, r') ∧
    capacity r' = capacity r ∧ (∀ k, k ∈ frames r' ↔ k ∈ frames r) ∧ Calm r' ∧ (Ready r → Ready r')
  clean_ok : ∀ r, Calm r → Calm (Replacer.clean r).2 ∧ frames (Replacer.clean r).2 = [] ∧
    capacity (Replacer.clean r).2 = capacity r
  victim_sound : ∀ r (pt : PageTable) m r' pt', Ready r → (∀ k ∈ frames r, pt.Settled k) →
    Replacer.victim r pt = .ok (some m, r', pt') → m ∈ frames r ∧ pt.Evictable m ∧
      pt' = pt.lockFrame (pt.ptes m).page m ∧ capacity r' = capacity r ∧
        (∀ k, k ∈ frames r' ↔ k ∈ frames r ∧ k ≠ m) ∧ Ready r'
  victim_complete : ∀ r (pt : PageTable), Ready r → (∀ k ∈ frames r, pt.Settled k) →
    (∀ k ∈ frames r, pt.word? (pt.ptes k).page ≠ none) → (∃ k ∈ frames r, pt.Evictable k) →
      ∃ m r' pt', Replacer.victim r pt = .ok (some m, r', pt')

end Gbp
