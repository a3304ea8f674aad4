import GraphBufferPool.Words
import GraphBufferPool.Partitioner
import Mathlib

/-! # The page table of a pool, run by one thread

`PageTable` and `PageMapping` as a single thread executes them: a compare-exchange succeeds at the
first attempt. An access through the null pointer of a deregistered file, or past the slots of a
mapping, stops the process, and so does a failed assertion.
-/

namespace Gbp

/-- Why a call did not return: a failed assertion, an access to a mapping that is not there, an
exception of `ListArray::getValue`, a node of a replacer that is not there, an operation on a closed
file, no memory for a vector, or the end of the fuel. -/
inductive Stop
  | assertion
  | nullMapping
  | badIndex
  | nullNode
  | badHandle
  | outOfMemory
  | outOfFuel
deriving DecidableEq, Repr

/-- `assert`. -/
def check (condition : Bool) : Except Stop Unit :=
  if condition then .ok () else .error .assertion

@[simp] theorem check_true : check true = .ok () := rfl

/-- A sequence of calls returned exactly when each of them did. -/
theorem bind_eq_ok {α β : Type} {x : Except Stop α} {f : α → Except Stop β} {b : β} :
    x >>= f = .ok b ↔ ∃ a, x = .ok a ∧ f a = .ok b := by
  cases x with
  | error stop => exact ⟨nofun, nofun⟩
  | ok a => exact ⟨fun ran => ⟨a, rfl, ran⟩, fun ⟨_, rfl, ran⟩ => ran⟩

theorem map_eq_ok {α β : Type} {x : Except Stop α} {f : α → β} {b : β} :
    x.map f = .ok b ↔ ∃ a, x = .ok a ∧ f a = b := by
  cases x with
  | error stop => exact ⟨nofun, nofun⟩
  | ok a => exact ⟨fun same => ⟨a, rfl, Except.ok.inj same⟩, fun ⟨_, rfl, same⟩ => congrArg _ same⟩

/-- A sequence of calls does not stop where none of them does. -/
theorem bind_ne_error {α β : Type} {x : Except Stop α} {f : α → Except Stop β} {stop : Stop}
    (first : x ≠ .error stop) (second : ∀ a, x = .ok a → f a ≠ .error stop) :
    x >>= f ≠ .error stop := by
  cases x with
  | error other => exact fun same => first (congrArg _ (Except.error.inj same))
  | ok a => exact second a rfl

@[simp] theorem ok_bind {α β : Type} (a : α) (f : α → Except Stop β) : (.ok a >>= f) = f a := rfl

@[simp] theorem error_bind {α β : Type} (stop : Stop) (f : α → Except Stop β) :
    (Except.error stop >>= f) = .error stop := rfl

/-- `PageTable`: one mapping for each registered file, null once it is deregistered, and the
entries of the frames. -/
structure PageTable where
  partitioner : Partitioner
  mappings : List (Option (List MapWord))
  ptes : ℕ → PTE

namespace PageTable

/-- The mapping word of a page. -/
def word? (pt : PageTable) (page : Page) : Option MapWord :=
  (pt.mappings[page.fd]?).join.bind fun mapping =>
    mapping[pt.partitioner.getFPageIdInPartition page.fpageId]?

/-- The number of slots of each mapping. -/
def shape (pt : PageTable) : List (Option ℕ) := pt.mappings.map (Option.map List.length)

/-- A load from `mappings_[fd]->mappings_[fpage_id_inpool]`. -/
def load (pt : PageTable) (page : Page) : Except Stop MapWord :=
  match pt.word? page with
  | some word => .ok word
  | none => .error .nullMapping

/-- A store to `mappings_[fd]->mappings_[fpage_id_inpool]`. -/
def setWord (pt : PageTable) (page : Page) (word : MapWord) : PageTable :=
  { pt with
    mappings := pt.mappings.modify page.fd (Option.map fun mapping =>
      mapping.set (pt.partitioner.getFPageIdInPartition page.fpageId) word) }

def setPte (pt : PageTable) (m : ℕ) (pte : PTE) : PageTable :=
  { pt with ptes := Function.update pt.ptes m pte }

/-- `RegisterFile`; the number of pages is narrowed to `fpage_id_type`. The constructor of the mapping fills it with
`PageMapping::Resize`, so this is the table for up to `maxSlots` pages in the pool. -/
def registerFile (pt : PageTable) (fileSizeInPage : ℕ) : PageTable :=
  { pt with
    mappings := pt.mappings ++
      [some (List.replicate (ceil (fileSizeInPage % fpageIdRange) pt.partitioner.numPartitions) .empty)] }

/-- `DeregisterFile`. -/
def deregisterFile (pt : PageTable) (fd : ℕ) : PageTable :=
  { pt with mappings := pt.mappings.set fd none }

/-- The slots that the signed 32-bit index of the loop in `PageMapping::Resize` can count. -/
abbrev maxSlots : ℕ := 2 ^ 31

/-- A mapping and new slots up to a number, which are empty. -/
def grownMapping (mapping : List MapWord) (newSize : ℕ) : List MapWord :=
  if newSize ≤ mapping.length then mapping
  else (List.range newSize).map fun i => (mapping[i]?).getD .empty

/-- `PageMapping::Resize`: a mapping never shrinks. With more slots than its index can count the loop leaves the new
array. -/
def resizeMapping (mapping : List MapWord) (newSize : ℕ) : Except Stop (List MapWord) :=
  if mapping.length < newSize ∧ maxSlots < newSize then .error .nullMapping
  else .ok (grownMapping mapping newSize)

/-- `ResizeFile`; the number of pages is narrowed to `fpage_id_type`. -/
def resizeFile (pt : PageTable) (fd newFileSizeInPage : ℕ) : Except Stop PageTable :=
  match (pt.mappings[fd]?).join with
  | some mapping => do
    let mapping ← resizeMapping mapping (newFileSizeInPage % fpageIdRange)
    return { pt with mappings := pt.mappings.set fd (some mapping) }
  | none => .error .nullMapping

/-- `CreateMapping`. -/
def createMapping (pt : PageTable) (page : Page) (value : MapWord) : Except Stop (Bool × PageTable) := do
  match MapWord.create? value (← pt.load page) with
  | some word => return (true, pt.setWord page word)
  | none => return (false, pt)

/-- `DeleteMapping`. -/
def deleteMapping (pt : PageTable) (page : Page) : Except Stop (Bool × PageTable) := do
  match (← pt.load page).delete? with
  | some word => return (true, pt.setWord page word)
  | none => return (false, pt)

/-- `LockMapping`: the word found where it returns true. Where it returns false its frame number
is 0, never `BUSY_VALUE`. -/
def lockMapping (pt : PageTable) (page : Page) : Except Stop (Option MapWord × PageTable) := do
  let word ← pt.load page
  match word.lock? with
  | none => return (none, pt)
  | some locked =>
    let pt := pt.setWord page locked
    match word with
    | .frame m =>
      match (pt.ptes m).lock? with
      | some pte => return (some word, pt.setPte m pte)
      | none =>
        let (created, pt) ← pt.createMapping page word
        check created
        return (none, pt)
    | _ => return (some word, pt)

/-- `UnLockMapping`. -/
def unLockMapping (pt : PageTable) (page : Page) (value : MapWord) : Except Stop (Bool × PageTable) :=
  match value with
  | .frame m =>
    if (pt.ptes m).fpageIdCur ≠ page.fpageId ∧ (pt.ptes m).fdCur = page.fd then .ok (false, pt)
    else
      match (pt.ptes m).unLock? with
      | some pte => (pt.setPte m pte).createMapping page value
      | none => .ok (false, pt)
  | _ => pt.createMapping page value

/-- `IncRefCount1` on the entry of frame `m`. -/
def incRefCount1 (pt : PageTable) (m : ℕ) (page : Page) : Bool × PageTable :=
  let old := pt.ptes m
  if old.busy then (false, pt.setPte m (old.fetchAdd 1))
  else if old.describes page then (true, pt.setPte m (old.fetchAdd 1))
  else (false, pt.setPte m ((old.fetchAdd 1).fetchSub 1))

/-- `DecRefCount`, with the argument `is_write`. -/
def decRefCount (pt : PageTable) (m : ℕ) (isWrite : Bool) : PageTable :=
  let pte := if isWrite then (pt.ptes m).setDirty true else pt.ptes m
  pt.setPte m (pte.fetchSub 1)

/-- The table after `LockMapping` took the mapping and the entry of a resident page. -/
def lockFrame (pt : PageTable) (page : Page) (m : ℕ) : PageTable :=
  (pt.setWord page .busy).setPte m { pt.ptes m with busy := true }

variable {pt : PageTable} {page other : Page} {m : ℕ}

@[simp] theorem setPte_word? (pte : PTE) : (pt.setPte m pte).word? page = pt.word? page := rfl

@[simp] theorem setPte_partitioner (pte : PTE) :
    (pt.setPte m pte).partitioner = pt.partitioner := rfl

@[simp] theorem setWord_partitioner (word : MapWord) :
    (pt.setWord page word).partitioner = pt.partitioner := rfl

@[simp] theorem setWord_ptes (word : MapWord) : (pt.setWord page word).ptes = pt.ptes := rfl

@[simp] theorem setPte_ptes (pte : PTE) :
    (pt.setPte m pte).ptes = Function.update pt.ptes m pte := rfl

@[simp] theorem setPte_mappings (pte : PTE) : (pt.setPte m pte).mappings = pt.mappings := rfl

/-- The page table raises no exception. -/
theorem load_ne_badIndex : pt.load page ≠ .error .badIndex := by
  unfold load
  split <;> simp

theorem createMapping_ne_badIndex (value : MapWord) :
    pt.createMapping page value ≠ .error .badIndex := by
  apply bind_ne_error load_ne_badIndex
  intro word _
  split <;> exact nofun

theorem lockMapping_ne_badIndex : pt.lockMapping page ≠ .error .badIndex := by
  apply bind_ne_error load_ne_badIndex
  intro word _
  dsimp only
  split
  · exact nofun
  · split
    · split
      · exact nofun
      · apply bind_ne_error (createMapping_ne_badIndex _)
        rintro ⟨created, table⟩ _
        cases created <;> exact nofun
    · exact nofun

theorem unLockMapping_ne_badIndex (value : MapWord) :
    pt.unLockMapping page value ≠ .error .badIndex := by
  unfold unLockMapping
  split
  · split_ifs
    · exact nofun
    · split
      · exact createMapping_ne_badIndex _
      · exact nofun
  · exact createMapping_ne_badIndex _

/-- A page has no slot where its mapping is null or too short. -/
theorem word?_eq_none_iff : pt.word? page = none ↔ ∀ n, pt.shape[page.fd]? = some (some n) →
    n ≤ pt.partitioner.getFPageIdInPartition page.fpageId := by
  unfold word? shape
  rw [List.getElem?_map]
  cases pt.mappings[page.fd]? with
  | none => simp
  | some mapping =>
    cases mapping with
    | none => simp
    | some slots => simp

@[simp] theorem setPte_shape (pte : PTE) : (pt.setPte m pte).shape = pt.shape := rfl

@[simp] theorem setWord_shape (word : MapWord) : (pt.setWord page word).shape = pt.shape := by
  apply List.ext_getElem?
  intro i
  simp only [shape, setWord, List.getElem?_map, List.getElem?_modify]
  split_ifs with here
  · subst here
    cases pt.mappings[page.fd]? with
    | none => rfl
    | some mapping =>
      cases mapping <;> simp
  · simp

/-- A table that kept every slot, and whose new slots are empty. -/
structure Extends (pt pt' : PageTable) : Prop where
  partitioner : pt'.partitioner = pt.partitioner
  ptes : pt'.ptes = pt.ptes
  gone : ∀ fd : ℕ, pt.shape[fd]? = some none → pt'.shape[fd]? = some none
  kept : ∀ page, pt.word? page ≠ none → pt'.word? page = pt.word? page
  added : ∀ page, pt.word? page = none → pt'.word? page = none ∨ pt'.word? page = some .empty

theorem extends_registerFile (pt : PageTable) (fileSizeInPage : ℕ) :
    pt.Extends (pt.registerFile fileSizeInPage) := by
  refine ⟨rfl, rfl, fun fd here => ?_, fun page registered => ?_, fun page none => ?_⟩
  · have inside := (List.getElem?_eq_some_iff.mp here).1
    rw [shape, List.length_map] at inside
    rwa [shape, registerFile, List.getElem?_map, List.getElem?_append_left inside, ← List.getElem?_map]
  · have inside : page.fd < pt.mappings.length := by
      refine Nat.lt_of_not_le fun past => registered ?_
      rw [word?, List.getElem?_eq_none past]
      rfl
    simp only [word?, registerFile, List.getElem?_append_left inside]
  · rcases Nat.lt_trichotomy page.fd pt.mappings.length with inside | new | past
    · left
      rw [← none]
      simp only [word?, registerFile, List.getElem?_append_left inside]
    · simp only [word?, registerFile, new, List.getElem?_concat_length, Option.join_some,
        Option.bind_some, List.getElem?_replicate]
      split_ifs
      · exact Or.inr rfl
      · exact Or.inl rfl
    · left
      have outside : (pt.registerFile fileSizeInPage).mappings.length ≤ page.fd := by
        rw [registerFile, List.length_append, List.length_singleton]
        exact past
      rw [word?, List.getElem?_eq_none outside]
      rfl

/-- Resizing keeps every slot and adds empty ones up to the new size. -/
theorem grownMapping_getElem? (mapping : List MapWord) (newSize i : ℕ) :
    (grownMapping mapping newSize)[i]? = if i < mapping.length then mapping[i]?
      else if i < newSize then some .empty else none := by
  unfold grownMapping
  by_cases keeps : newSize ≤ mapping.length
  · rw [if_pos keeps]
    by_cases inside : i < mapping.length
    · rw [if_pos inside]
    · rw [if_neg inside, if_neg (by omega), List.getElem?_eq_none (by omega)]
  · rw [if_neg keeps, List.getElem?_map]
    by_cases inside : i < mapping.length
    · simp [inside, show i < newSize by omega]
    · by_cases within : i < newSize
      · simp [inside, within]
      · simp [inside, within]

theorem grownMapping_length (mapping : List MapWord) (newSize : ℕ) :
    (grownMapping mapping newSize).length = max mapping.length newSize := by
  unfold grownMapping
  split_ifs with keeps
  · exact (max_eq_left keeps).symm
  · simp only [List.length_map, List.length_range]
    exact (max_eq_right (by omega)).symm

/-- `ResizeFile` of a registered file. -/
theorem resizeFile_eq {fd newSize : ℕ} {mapping : List MapWord} (here : pt.mappings[fd]? = some (some mapping))
    (slots : newSize % fpageIdRange ≤ maxSlots) : pt.resizeFile fd newSize =
      .ok { pt with mappings := pt.mappings.set fd (some (grownMapping mapping (newSize % fpageIdRange))) } := by
  simp only [resizeFile, here, Option.join_some, resizeMapping]
  rw [if_neg (fun past => Nat.not_lt.mpr slots past.2)]
  rfl

/-- What `ResizeFile` does where it returns. -/
theorem resizeFile_shape {fd newSize : ℕ} {pt' : PageTable} (ran : pt.resizeFile fd newSize = .ok pt') :
    ∃ mapping, pt.mappings[fd]? = some (some mapping) ∧
      pt' = { pt with mappings := pt.mappings.set fd (some (grownMapping mapping (newSize % fpageIdRange))) } := by
  unfold resizeFile resizeMapping at ran
  cases here : pt.mappings[fd]? with
  | none => simp [here] at ran
  | some entry =>
    cases entry with
    | none => simp [here] at ran
    | some mapping =>
      refine ⟨mapping, rfl, ?_⟩
      simp only [here, Option.join_some] at ran
      split_ifs at ran with past
      · simp at ran
      · exact (Except.ok.inj ran).symm

/-- A larger mapping for a registered file. -/
theorem extends_grownMapping {fd : ℕ} {mapping : List MapWord} (newSize : ℕ)
    (here : pt.mappings[fd]? = some (some mapping)) :
    pt.Extends { pt with mappings := pt.mappings.set fd (some (grownMapping mapping newSize)) } := by
  refine ⟨rfl, rfl, ?_, ?_, ?_⟩
  · intro other gone
    have apart : fd ≠ other := by
      rintro rfl
      simp [shape, here] at gone
    simpa only [shape, List.getElem?_map, List.getElem?_set_ne apart] using gone
  · intro page registered
    by_cases same : page.fd = fd
    · subst same
      have bound := (List.getElem?_eq_some_iff.mp here).1
      simp only [word?, here, Option.join_some, Option.bind_some, List.getElem?_set_self bound,
        grownMapping_getElem?] at registered ⊢
      rw [if_pos]
      by_contra past
      exact registered (List.getElem?_eq_none (by omega))
    · simp only [word?, List.getElem?_set_ne (Ne.symm same)]
  · intro page none
    by_cases same : page.fd = fd
    · subst same
      have bound := (List.getElem?_eq_some_iff.mp here).1
      simp only [word?, here, Option.join_some, Option.bind_some, List.getElem?_set_self bound,
        grownMapping_getElem?] at none ⊢
      rw [if_neg (by simpa using none)]
      split_ifs
      · exact Or.inr rfl
      · exact Or.inl rfl
    · left
      simpa only [word?, List.getElem?_set_ne (Ne.symm same)] using none

/-- Two pages share a slot when they have the same handle and local page id. -/
def SameSlot (pt : PageTable) (page other : Page) : Prop :=
  page.fd = other.fd ∧ pt.partitioner.getFPageIdInPartition page.fpageId =
    pt.partitioner.getFPageIdInPartition other.fpageId

/-- A store changes the word of its slot, where there is one, and no other. -/
theorem setWord_word? (word : MapWord) [Decidable (pt.SameSlot page other)] :
    (pt.setWord page word).word? other =
      if pt.SameSlot page other then (pt.word? other).map fun _ => word else pt.word? other := by
  by_cases sameFd : page.fd = other.fd
  · simp only [word?, setWord, SameSlot, List.getElem?_modify, sameFd, if_true, true_and]
    cases pt.mappings[other.fd]? with
    | none => simp
    | some mapping =>
      cases mapping with
      | none => simp
      | some slots =>
        by_cases sameSlot : pt.partitioner.getFPageIdInPartition page.fpageId =
            pt.partitioner.getFPageIdInPartition other.fpageId
        · simp only [sameSlot, Option.join_some, Option.bind_some, if_true]
          exact List.getElem?_set_self'
        · simp [sameSlot]
  · simp [word?, setWord, SameSlot, sameFd]

theorem setWord_word?_self {word old : MapWord} (here : pt.word? page = some old) :
    (pt.setWord page word).word? page = some word := by
  classical
  rw [setWord_word?, if_pos ⟨rfl, rfl⟩, here, Option.map_some]

theorem setWord_word?_of_not {word : MapWord} (apart : ¬ pt.SameSlot page other) :
    (pt.setWord page word).word? other = pt.word? other := by
  classical
  rw [setWord_word?, if_neg apart]

/-- A store makes and removes no slots. -/
@[simp] theorem setWord_word?_eq_none (word : MapWord) :
    (pt.setWord page word).word? other = none ↔ pt.word? other = none := by
  classical
  rw [setWord_word?]
  split_ifs <;> simp

theorem setWord_setWord (first second : MapWord) :
    (pt.setWord page first).setWord page second = pt.setWord page second := by
  simp only [setWord, List.modify_modify_eq, Function.comp_def, Option.map_map, List.set_set]

theorem setWord_self {word : MapWord} (here : pt.word? page = some word) :
    pt.setWord page word = pt := by
  obtain ⟨slots, found, inside⟩ := Option.bind_eq_some_iff.mp here
  have listed : pt.mappings[page.fd]? = some (some slots) := Option.join_eq_some_iff.mp found
  have unchanged : pt.mappings.modify page.fd (Option.map fun mapping =>
      mapping.set (pt.partitioner.getFPageIdInPartition page.fpageId) word) = pt.mappings := by
    apply List.ext_getElem?
    intro i
    rw [List.getElem?_modify]
    split_ifs with here
    · subst here
      have same : slots.set (pt.partitioner.getFPageIdInPartition page.fpageId) word = slots := by
        obtain ⟨bound, value⟩ := List.getElem?_eq_some_iff.mp inside
        rw [← value, List.set_getElem_self]
      simp [listed, same]
    · simp
  rw [setWord, unchanged]

theorem setPte_setPte (first second : PTE) :
    (pt.setPte m first).setPte m second = pt.setPte m second := by
  simp only [setPte, Function.update_idem]

theorem setPte_self : pt.setPte m (pt.ptes m) = pt := by
  rw [setPte, Function.update_eq_self]

theorem setPte_setWord (pte : PTE) (word : MapWord) :
    (pt.setPte m pte).setWord page word = (pt.setWord page word).setPte m pte := rfl

theorem load_eq {word : MapWord} (here : pt.word? page = some word) : pt.load page = .ok word := by
  rw [load, here]

/-- The end of a load: the mapping locked before becomes the frame. -/
theorem createMapping_busy {value : MapWord} (here : pt.word? page = some .busy) :
    pt.createMapping page value = .ok (true, pt.setWord page value) := by
  rw [createMapping, load_eq here]
  rfl

theorem deleteMapping_busy (here : pt.word? page = some .busy) :
    pt.deleteMapping page = .ok (true, pt.setWord page .empty) := by
  rw [deleteMapping, load_eq here]
  rfl

theorem lockMapping_none (here : pt.word? page = none) :
    pt.lockMapping page = .error .nullMapping := by
  rw [lockMapping, load, here]
  rfl

theorem lockMapping_busy (here : pt.word? page = some .busy) :
    pt.lockMapping page = .ok (none, pt) := by
  rw [lockMapping, load_eq here]
  rfl

theorem lockMapping_empty (here : pt.word? page = some .empty) :
    pt.lockMapping page = .ok (some .empty, pt.setWord page .busy) := by
  rw [lockMapping, load_eq here]
  rfl

/-- An unpinned resident page is locked together with its entry. -/
theorem lockMapping_unpinned (here : pt.word? page = some (.frame m))
    (free : (pt.ptes m).busy = false) (unpinned : (pt.ptes m).refCount = 0) :
    pt.lockMapping page = .ok (some (.frame m), pt.lockFrame page m) := by
  rw [lockMapping, load_eq here]
  simp [MapWord.lock?, PTE.lock?, free, unpinned, lockFrame]
  rfl

/-- The lock of an entry that refuses it fails and gives the mapping back. -/
theorem lockMapping_refused (here : pt.word? page = some (.frame m))
    (refused : (pt.ptes m).lock? = none) : pt.lockMapping page = .ok (none, pt) := by
  rw [lockMapping, load_eq here]
  simp only [MapWord.lock?, ok_bind, setWord_ptes, refused,
    createMapping_busy (setWord_word?_self here), setWord_setWord, setWord_self here]
  rfl

/-- The lock of a pinned page fails. -/
theorem lockMapping_pinned (here : pt.word? page = some (.frame m))
    (pinned : (pt.ptes m).refCount ≠ 0) (initialized : (pt.ptes m).initialized = true) :
    pt.lockMapping page = .ok (none, pt) := by
  apply lockMapping_refused here
  simp [PTE.lock?, pinned, initialized]

/-- Giving an unpinned page back restores the table. -/
theorem unLockMapping_lockFrame (here : pt.word? page = some (.frame m))
    (free : (pt.ptes m).busy = false) (unpinned : (pt.ptes m).refCount = 0)
    (describes : (pt.ptes m).page = page) :
    (pt.lockFrame page m).unLockMapping page (.frame m) = .ok (true, pt) := by
  have same : ¬ ((pt.ptes m).fpageIdCur ≠ page.fpageId ∧ (pt.ptes m).fdCur = page.fd) := by
    simp [← describes, PTE.page]
  have restored : ({ pt.ptes m with busy := false, refCount := 0, refCount_lt := by decide } : PTE) =
      pt.ptes m := by
    apply PTE.ext' <;> simp [free, unpinned]
  simp only [unLockMapping, lockFrame, setPte_ptes, setWord_ptes, Function.update_self, same, if_false,
    PTE.unLock?, Bool.true_eq_false, restored, setPte_setPte]
  have marked : ((pt.setWord page .busy).setPte m (pt.ptes m)).word? page = some .busy :=
    setWord_word?_self here
  rw [createMapping_busy marked, setPte_setWord, setWord_setWord, setWord_self here, setPte_self]

theorem unLockMapping_empty (here : pt.word? page = some .empty) :
    (pt.setWord page .busy).unLockMapping page .empty = .ok (true, pt) := by
  rw [unLockMapping, createMapping_busy (setWord_word?_self here), setWord_setWord, setWord_self here]
  nofun

end PageTable

end Gbp
