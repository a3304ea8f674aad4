import GraphBufferPool.Concurrent.Ownership

/-! # Each move preserves frame ownership

One lemma for each move of the protocol, with the frame it moves in its new place. The moves on a
reference count share `recount`: nothing but counts, references and bytes changes.
-/

namespace Gbp.Protocol

open Function Counting MarkerLock

variable {T : Type} [DecidableEq T] [Fintype T]
variable {files : Files} {v : View T} {place : ℕ → Place T}

namespace Inv

omit [DecidableEq T] in
/-- Words that agree with the old ones outside the count keep the invariant if the counts do. -/
theorem recount (inv : Inv files v place) {v' : View T}
    (frame : v' = { v with
      pte := v'.pte
      pins := v'.pins
      ref := v'.ref
      aim := v'.aim
      memory := v'.memory
      content := v'.content
      wrote := v'.wrote })
    (same : ∀ m, (v'.pte m).page = (v.pte m).page ∧ (v'.pte m).busy = (v.pte m).busy ∧
      (v'.pte m).initialized = (v.pte m).initialized)
    (counted : ∀ m page, (place m).page? = some page → (v.pte m).busy = false →
      (v'.pte m).refCount = holders v'.pins v'.ref m)
    (unheld : ∀ m, (v.pte m).busy = true ∨ (place m).page? = none → holders v'.pins v'.ref m = 0)
    (unaimed : ∀ m, (place m).page? = none → (v.pte m).busy = false → aims v'.aim m = 0)
    (bounded : ∀ m, (v.pte m).busy = true → (v'.pte m).refCount + aims v'.aim m ≤ Fintype.card T)
    (pinPage : ∀ page m, (page, m) ∈ v'.pins → (v.pte m).page = page)
    (refPage : ∀ t m page, v'.ref t = some (m, some page) → (v.pte m).page = page) :
    Inv files v' place := by
  have samePage (m : ℕ) := (same m).1
  have sameBusy (m : ℕ) := (same m).2.1
  have sameInit (m : ℕ) := (same m).2.2
  obtain ⟨map, pte, free, list, hand, latch, pins, memory, disk, content, locks, pteLock, owned, ref,
    aim, candidate, wrote, saved, filled⟩ := v'
  simp only [View.mk.injEq, true_and] at frame
  obtain ⟨rfl, rfl, rfl, rfl, rfl, rfl, rfl, rfl, rfl, rfl, rfl, rfl⟩ := frame
  exact { inv with
    candidate := by
      intro t m page? chosen
      obtain ⟨latch, member, page⟩ := inv.candidate t m page? chosen
      exact ⟨latch, member, fun p mem => (samePage m).trans (page p mem)⟩
    described := by
      intro m page resident
      obtain ⟨initialized, described⟩ := inv.described m page resident
      exact ⟨(sameInit m).trans initialized, (samePage m).trans described⟩
    counted := fun m page resident free => counted m page resident ((sameBusy m).symm.trans free)
    unheld := fun m outside => unheld m (outside.imp_left ((sameBusy m).symm.trans ·))
    unaimed := fun m outside free => unaimed m outside ((sameBusy m).symm.trans free)
    mappedFree := fun m page mapped => (sameBusy m).trans (inv.mappedFree m page mapped)
    lockedBusy := by
      intro m t page locked
      rw [← inv.lockedBusy m t page locked]
      exact (sameBusy m).congr_left
    bounded := fun m busy => bounded m ((sameBusy m).symm.trans busy)
    pinPage := fun page m member => (samePage m).trans (pinPage page m member)
    refPage := fun t m page held => (samePage m).trans (refPage t m page held)
    evicting := by
      intro t m page owner
      obtain ⟨busy, described, member⟩ := inv.evicting t m page owner
      exact ⟨(sameBusy m).trans busy, (samePage m).trans described, member⟩ }

omit [Fintype T] [DecidableEq T] in
/-- A word with another count agrees with the old one outside the count. -/
private theorem recounted (pte : ℕ → PTE) {m count : ℕ} (bound : count < 2 ^ 16) (k : ℕ) :
    (update pte m ((pte m).setRefCount count bound) k).page = (pte k).page ∧
      (update pte m ((pte m).setRefCount count bound) k).busy = (pte k).busy ∧
      (update pte m ((pte m).setRefCount count bound) k).initialized = (pte k).initialized :=
  ⟨apply_update_same PTE.page pte (by rfl) k, apply_update_same PTE.busy pte (by rfl) k,
    apply_update_same PTE.initialized pte (by rfl) k⟩

theorem step_aim (inv : Inv files v place) {t : T} {page : Page} {m : ℕ}
    (found : v.map page = .frame m) (idle : v.aim t = none) :
    Inv files { v with aim := update v.aim t (some m) } place := by
  have mapped := (inv.mapped page m).mp found
  refine inv.recount rfl (fun _ => ⟨rfl, rfl, rfl⟩) inv.counted inv.unheld ?_ ?_ inv.pinPage
    inv.refPage
  · intro k outside free
    have other : m ≠ k := by
      rintro rfl
      simp [mapped, Place.page?] at outside
    rw [aims_of_ne (by simp [idle]) (by simp [other])]
    exact inv.unaimed k outside free
  · intro k busy
    have other : m ≠ k := by
      rintro rfl
      simp [inv.mappedFree m page mapped] at busy
    rw [aims_of_ne (by simp [idle]) (by simp [other])]
    exact inv.bounded k busy

theorem step_missBusy (inv : Inv files v place) (hasRoom : v.HasRoom) {t : T} {m : ℕ}
    (aimed : v.aim t = some m) (busy : (v.pte m).busy = true) :
    Inv files { v with
      pte := update v.pte m ((v.pte m).fetchAdd 1)
      aim := update v.aim t none } place := by
  have room := inv.room hasRoom aimed (by simp [busy])
  rw [PTE.fetchAdd_one _ room]
  refine inv.recount rfl (recounted v.pte room) ?_ inv.unheld ?_ ?_ inv.pinPage inv.refPage
  · intro k page resident free
    have other : k ≠ m := by
      rintro rfl
      simp [busy] at free
    dsimp only
    rw [update_of_ne other]
    exact inv.counted k page resident free
  · intro k outside free
    have other : m ≠ k := by
      rintro rfl
      simp [busy] at free
    rw [aims_of_ne (by simp [aimed, other]) (by simp)]
    exact inv.unaimed k outside free
  · intro k busyK
    have stray := inv.bounded k busyK
    have moved := aims_update v.aim t none k
    simp only [aimed, Option.some.injEq, reduceCtorEq, if_false, Nat.add_zero] at moved
    dsimp only
    by_cases here : k = m
    · subst here
      rw [if_pos rfl] at moved
      rw [update_self, PTE.setRefCount_refCount]
      omega
    · rw [if_neg (Ne.symm here)] at moved
      rw [update_of_ne here]
      omega

/-- The pages of references after one thread took a described one or dropped its own. -/
private theorem refPage_update (inv : Inv files v place) {t : T} {new : Option (ℕ × Option Page)}
    (described : ∀ m page, new = some (m, some page) → (v.pte m).page = page) (t' : T) (m : ℕ)
    (page : Page) (held : update v.ref t new t' = some (m, some page)) : (v.pte m).page = page := by
  by_cases here : t' = t
  · subst here
    rw [update_self] at held
    exact described m page held
  · rw [update_of_ne here] at held
    exact inv.refPage t' m page held

theorem step_takeRef (inv : Inv files v place) (hasRoom : v.HasRoom) {t : T} {m : ℕ}
    {page? : Option Page} (aimed : v.aim t = some m) (free : (v.pte m).busy = false)
    (idle : v.ref t = none) (describes : ∀ page ∈ page?, (v.pte m).page = page) :
    Inv files { v with
      pte := update v.pte m ((v.pte m).fetchAdd 1)
      aim := update v.aim t none
      ref := update v.ref t (some (m, page?)) } place := by
  have room := inv.room hasRoom aimed (fun _ => idle)
  obtain ⟨home, resident⟩ := inv.aimed_place aimed free
  have moved (k : ℕ) := holders_update v.pins v.ref t (some (m, page?)) k
  simp only [idle, Option.map_none, Option.map_some, Option.some.injEq, reduceCtorEq, if_false,
    Nat.add_zero] at moved
  rw [PTE.fetchAdd_one _ room]
  refine inv.recount rfl (recounted v.pte room) ?_ ?_ ?_ ?_ inv.pinPage ?_
  · intro k page residentK freeK
    have counted := inv.counted k page residentK freeK
    rw [moved]
    dsimp only
    by_cases here : k = m
    · subst here
      rw [update_self, PTE.setRefCount_refCount, if_pos rfl, counted]
    · rw [update_of_ne here, if_neg (Ne.symm here), counted, Nat.add_zero]
  · intro k outside
    have other : m ≠ k := by
      rintro rfl
      simp [free, resident] at outside
    rw [moved, if_neg other]
    exact inv.unheld k outside
  · intro k outside freeK
    have other : m ≠ k := by
      rintro rfl
      simp [resident] at outside
    rw [aims_of_ne (by simp [aimed, other]) (by simp)]
    exact inv.unaimed k outside freeK
  · intro k busy
    have other : k ≠ m := by
      rintro rfl
      simp [free] at busy
    dsimp only
    rw [update_of_ne other, aims_of_ne (by simp [aimed, Ne.symm other]) (by simp)]
    exact inv.bounded k busy
  · apply inv.refPage_update
    rintro _ page ⟨⟩
    exact describes page rfl

theorem step_dropRef (inv : Inv files v place) {t : T} {m : ℕ} {page? : Option Page}
    (held : v.ref t = some (m, page?)) :
    Inv files { v with
      pte := update v.pte m ((v.pte m).fetchSub 1)
      ref := update v.ref t none } place := by
  have positive : 0 < holders v.pins v.ref m := holders_pos_of_ref held
  obtain ⟨home, resident, free, counted⟩ := inv.held_place positive
  have moved (k : ℕ) := holders_update v.pins v.ref t none k
  simp only [held, Option.map_none, Option.map_some, Option.some.injEq, reduceCtorEq, if_false,
    Nat.add_zero] at moved
  rw [PTE.fetchSub_one _ (counted ▸ positive)]
  refine inv.recount rfl (recounted v.pte _) ?_ ?_ inv.unaimed ?_ inv.pinPage
    (inv.refPage_update (by simp))
  · intro k page residentK freeK
    have countedK := inv.counted k page residentK freeK
    have movedK := moved k
    dsimp only
    by_cases here : k = m
    · subst here
      rw [if_pos rfl] at movedK
      rw [update_self, PTE.setRefCount_refCount]
      omega
    · rw [if_neg (Ne.symm here), Nat.add_zero] at movedK
      rw [update_of_ne here, countedK, movedK]
  · intro k outside
    have zero := inv.unheld k outside
    have movedK := moved k
    dsimp only
    omega
  · intro k busy
    have other : k ≠ m := by
      rintro rfl
      simp [free] at busy
    dsimp only
    rw [update_of_ne other]
    exact inv.bounded k busy

omit [DecidableEq T] in
/-- Handing a reference over between a thread and the kept pins keeps the holders. -/
theorem transfer (inv : Inv files v place) {pins : List (Page × ℕ)}
    {ref : T → Option (ℕ × Option Page)}
    (same : ∀ m, holders pins ref m = holders v.pins v.ref m)
    (pinPage : ∀ page m, (page, m) ∈ pins → (v.pte m).page = page)
    (refPage : ∀ t m page, ref t = some (m, some page) → (v.pte m).page = page) :
    Inv files { v with
      pins := pins
      ref := ref } place :=
  inv.recount rfl (fun _ => ⟨rfl, rfl, rfl⟩)
    (fun k page resident free => (inv.counted k page resident free).trans (same k).symm)
    (fun k outside => (same k).trans (inv.unheld k outside)) inv.unaimed inv.bounded pinPage refPage

theorem step_keepPin (inv : Inv files v place) {t : T} {m : ℕ} {page : Page}
    (held : v.ref t = some (m, some page)) :
    Inv files { v with
      pins := (page, m) :: v.pins
      ref := update v.ref t none } place := by
  refine inv.transfer ?_ ?_ (inv.refPage_update (by simp))
  · intro k
    have moved := holders_update v.pins v.ref t none k
    simp only [held, Option.map_none, Option.map_some, Option.some.injEq, reduceCtorEq, if_false,
      Nat.add_zero] at moved
    rw [holders_cons, moved]
  · intro page' k member
    rcases List.mem_cons.mp member with same | member
    · cases same
      exact inv.refPage t m page held
    · exact inv.pinPage page' k member

theorem step_usePin (inv : Inv files v place) {t : T} {m : ℕ} {page : Page}
    (member : (page, m) ∈ v.pins) (idle : v.ref t = none) :
    Inv files { v with
      pins := v.pins.erase (page, m)
      ref := update v.ref t (some (m, some page)) } place := by
  refine inv.transfer ?_ ?_ (inv.refPage_update ?_)
  · intro k
    have moved := holders_update (v.pins.erase (page, m)) v.ref t (some (m, some page)) k
    have erased := holders_erase v.ref member k
    simp only [idle, Option.map_none, Option.map_some, Option.some.injEq, reduceCtorEq, if_false,
      Nat.add_zero] at moved
    rw [moved, erased]
  · exact fun page' k member => inv.pinPage page' k (List.mem_of_mem_erase member)
  · rintro _ _ ⟨⟩
    exact inv.pinPage page m member

/-- Setting the dirty bit and storing bytes touch neither counts nor places. -/
theorem step_setDirty (inv : Inv files v place) {t : T} {m : ℕ} :
    Inv files { v with
      pte := update v.pte m ((v.pte m).setDirty true)
      wrote := update v.wrote t false } place := by
  have sameCount := apply_update_same PTE.refCount v.pte (i := m) (a := (v.pte m).setDirty true) rfl
  refine inv.recount rfl ?_ ?_ inv.unheld inv.unaimed ?_ inv.pinPage inv.refPage
  · intro k
    exact ⟨apply_update_same PTE.page v.pte (by rfl) k, apply_update_same PTE.busy v.pte (by rfl) k,
      apply_update_same PTE.initialized v.pte (by rfl) k⟩
  · intro k page resident free
    dsimp only
    rw [sameCount]
    exact inv.counted k page resident free
  · intro k busy
    dsimp only
    rw [sameCount]
    exact inv.bounded k busy

theorem step_storeByte (inv : Inv files v place) {t : T} {memory : ℕ → Bytes}
    {content : Page → Bytes} :
    Inv files { v with
      memory := memory
      content := content
      wrote := update v.wrote t true } place :=
  inv.recount rfl (fun _ => ⟨rfl, rfl, rfl⟩) inv.counted inv.unheld inv.unaimed inv.bounded
    inv.pinPage inv.refPage

/-- Changing who keeps the mapping of a resident frame leaves everything but the mappings alone. -/
theorem relocate (inv : Inv files v place) {map : Page → MapWord} {locks : T → List (Page × MapWord)}
    {a b : Place T} (samePage : b.page? = a.page?) (resident : a.page? ≠ none)
    (mapped : ∀ page m, map page = .frame m ↔ relabel place a b m = .mapped page)
    (lockedFrame : ∀ t page m, (page, .frame m) ∈ locks t ↔ relabel place a b m = .locked t page)
    (table : Held .busy map locks) (valid : ∀ page, map page ≠ .empty → files.Valid page)
    (mappedFree : ∀ m page, relabel place a b m = .mapped page → (v.pte m).busy = false)
    (lockedBusy : ∀ m t page, relabel place a b m = .locked t page →
      ((v.pte m).busy = true ↔ v.pteLock t = some m))
    (kept : ∀ t m, v.pteLock t = some m → place m ≠ a)
    (evicting : ∀ t m page, v.owned t = some (m, some page) → (page, .empty) ∈ locks t) :
    Inv files { v with
      map := map
      locks := locks } (relabel place a b) := by
  have samePages (m : ℕ) : (relabel place a b m).page? = (place m).page? :=
    relabel_page? samePage m
  have others {c : Place T} (outside : c.page? = none) (m : ℕ) :
      relabel place a b m = c ↔ place m = c := by
    rw [relabel_eq_iff]
    constructor
    · rintro (⟨_, rfl⟩ | ⟨_, same⟩)
      · exact absurd (samePage.symm.trans outside) resident
      · exact same
    · rintro rfl
      refine Or.inr ⟨?_, rfl⟩
      rintro rfl
      exact resident outside
  exact { inv with
    free := fun m => (inv.free m).trans (others rfl m).symm
    mapped := mapped
    lockedFrame := lockedFrame
    owned := fun t m => (inv.owned t m).trans (others rfl m).symm
    table := table
    valid := valid
    inList := fun m member => (samePages m).symm ▸ inv.inList m member
    described := fun m page => (samePages m).symm ▸ inv.described m page
    counted := fun m page => (samePages m).symm ▸ inv.counted m page
    unheld := fun m => (samePages m).symm ▸ inv.unheld m
    unaimed := fun m => (samePages m).symm ▸ inv.unaimed m
    mappedFree := mappedFree
    lockedBusy := lockedBusy
    pteLocked := by
      intro t m held
      obtain ⟨page, locked⟩ := inv.pteLocked t m held
      exact ⟨page, (relabel_eq_iff m).mpr (Or.inr ⟨kept t m held, locked⟩)⟩
    evicting := by
      intro t m page owner
      obtain ⟨busy, described, _⟩ := inv.evicting t m page owner
      exact ⟨busy, described, evicting t m page owner⟩ }

theorem step_lockMap (inv : Inv files v place) {t : T} {page : Page} (free : v.map page ≠ .busy)
    (valid : files.Valid page) (unlocked : v.pteLock t = none) :
    Inv files { v with
      map := update v.map page .busy
      locks := update v.locks t ((page, v.map page) :: v.locks t) }
      (relabel place (.mapped page) (.locked t page)) := by
  refine inv.relocate rfl (by simp [Place.page?]) ?_ ?_ (inv.table.acquire free t) ?_ ?_ ?_ ?_ ?_
  · intro page' m
    rw [relabel_eq_iff]
    by_cases here : page' = page
    · subst here
      simp
    · rw [update_of_ne here, inv.mapped page' m]
      constructor
      · intro mapped
        exact Or.inr ⟨by simp [mapped, here], mapped⟩
      · rintro (⟨_, ⟨⟩⟩ | ⟨_, mapped⟩)
        exact mapped
  · intro t' page' m
    rw [relabel_eq_iff, Held.mem_acquire, inv.lockedFrame, ← inv.mapped, Prod.mk.injEq]
    constructor
    · rintro (⟨rfl, rfl, same⟩ | locked)
      · exact Or.inl ⟨same.symm, rfl⟩
      · exact Or.inr ⟨by simp [locked], locked⟩
    · rintro (⟨mapped, same⟩ | ⟨_, locked⟩)
      · cases same
        exact Or.inl ⟨rfl, rfl, mapped.symm⟩
      · exact Or.inr locked
  · intro page' present
    by_cases here : page' = page
    · exact here ▸ valid
    · rw [update_of_ne here] at present
      exact inv.valid page' present
  · intro m page' mapped
    rw [relabel_eq_iff] at mapped
    rcases mapped with ⟨_, ⟨⟩⟩ | ⟨_, mapped⟩
    exact inv.mappedFree m page' mapped
  · intro m t' page' locked
    rw [relabel_eq_iff] at locked
    rcases locked with ⟨mapped, same⟩ | ⟨_, locked⟩
    · cases same
      simp [inv.mappedFree m page mapped, unlocked]
    · exact inv.lockedBusy m t' page' locked
  · intro t' m held
    obtain ⟨page', locked⟩ := inv.pteLocked t' m held
    simp [locked]
  · intro t' m page' owner
    exact Held.mem_acquire.mpr (Or.inr (inv.evicting t' m page' owner).2.2)

theorem step_unlockMap (inv : Inv files v place) {t : T} {page : Page} {word : MapWord}
    {rest : List (Page × MapWord)} (held : v.locks t = (page, word) :: rest)
    (unlocked : v.pteLock t = none) (idle : v.owned t = none) :
    Inv files { v with
      map := update v.map page word
      locks := update v.locks t rest }
      (relabel place (.locked t page) (.mapped page)) := by
  have member : (page, word) ∈ v.locks t := by rw [held]; exact List.mem_cons_self ..
  have proper : word ≠ .busy := by
    rintro rfl
    exact inv.table.unmarked t page member
  have marked := inv.table.marked_of_mem member
  have lockedWord {m : ℕ} : place m = .locked t page ↔ word = .frame m := by
    rw [← inv.lockedFrame]
    exact ⟨fun other => (inv.table.owner member other).2, fun same => same ▸ member⟩
  refine inv.relocate rfl (by simp [Place.page?]) ?_ ?_ (inv.table.release held proper) ?_ ?_ ?_ ?_ ?_
  · intro page' m
    rw [relabel_eq_iff]
    by_cases here : page' = page
    · subst here
      have unmapped : place m ≠ .mapped page' := by
        rw [Ne, ← inv.mapped, marked]
        simp
      simp [unmapped, lockedWord]
    · rw [update_of_ne here, inv.mapped page' m]
      constructor
      · intro mapped
        exact Or.inr ⟨by simp [mapped], mapped⟩
      · rintro (⟨_, same⟩ | ⟨_, mapped⟩)
        · cases same
          exact absurd rfl here
        · exact mapped
  · intro t' page' m
    rw [relabel_eq_iff, inv.table.mem_release held, inv.lockedFrame]
    constructor
    · rintro ⟨other, locked⟩
      exact Or.inr ⟨by rw [locked]; simpa using fun _ => other, locked⟩
    · rintro (⟨_, ⟨⟩⟩ | ⟨other, locked⟩)
      refine ⟨?_, locked⟩
      rintro rfl
      have := (inv.table.owner member ((inv.lockedFrame t' _ m).mpr locked)).1
      exact other (this ▸ locked)
  · intro page' present
    by_cases here : page' = page
    · subst here
      exact inv.valid page' (by simp [marked])
    · rw [update_of_ne here] at present
      exact inv.valid page' present
  · intro m page' mapped
    rw [relabel_eq_iff] at mapped
    rcases mapped with ⟨locked, _⟩ | ⟨_, mapped⟩
    · simpa [unlocked] using inv.lockedBusy m t page locked
    · exact inv.mappedFree m page' mapped
  · intro m t' page' locked
    rw [relabel_eq_iff] at locked
    rcases locked with ⟨_, ⟨⟩⟩ | ⟨_, locked⟩
    exact inv.lockedBusy m t' page' locked
  · intro t' m pteHeld here
    have busy := (inv.pteLocked t' m pteHeld).elim fun page' locked =>
      (inv.lockedBusy m t' page' locked).mpr pteHeld
    simp [inv.lockedBusy m t page here, unlocked] at busy
  · intro t' m page' owner
    have empty := (inv.evicting t' m page' owner).2.2
    refine (inv.table.mem_release held).mpr ⟨?_, empty⟩
    rintro rfl
    have := (inv.table.owner member empty).1
    subst this
    simp [idle] at owner

theorem step_lockPte (inv : Inv files v place) {t : T} {page : Page} {m : ℕ} {word : PTE}
    {rest : List (Page × MapWord)} (held : v.locks t = (page, .frame m) :: rest)
    (locked : (v.pte m).lock? = some word) (idle : v.pteLock t = none) :
    Inv files { v with
      pte := update v.pte m word
      pteLock := update v.pteLock t (some m) } place := by
  have member : (page, .frame m) ∈ v.locks t := by rw [held]; exact List.mem_cons_self ..
  have here := (inv.lockedFrame t page m).mp member
  have resident : (place m).page? = some page := by rw [here]; rfl
  obtain ⟨zero, free, rfl⟩ := PTE.lock?_eq_some locked
  obtain ⟨initialized, described⟩ := inv.described m page resident
  have count : (v.pte m).refCount = 0 := zero initialized
  have samePage := apply_update_same PTE.page v.pte (i := m)
    (a := { v.pte m with busy := true }) rfl
  have sameInit := apply_update_same PTE.initialized v.pte (i := m)
    (a := { v.pte m with busy := true }) rfl
  have busyIff (k : ℕ) : (update v.pte m { v.pte m with busy := true } k).busy = true ↔
      k = m ∨ (v.pte k).busy = true := by
    by_cases same : k = m
    · simp [same]
    · simp [same]
  have freeOf {k : ℕ} (freeK : (update v.pte m { v.pte m with busy := true } k).busy = false) :
      k ≠ m ∧ (v.pte k).busy = false := by
    rw [← Bool.not_eq_true, busyIff, not_or, Bool.not_eq_true] at freeK
    exact freeK
  exact { inv with
    candidate := by
      intro t' k page? chosen
      obtain ⟨latch, linked, page⟩ := inv.candidate t' k page? chosen
      exact ⟨latch, linked, fun p mem => (samePage k).trans (page p mem)⟩
    described := by
      intro k page' residentK
      obtain ⟨initialized, described⟩ := inv.described k page' residentK
      exact ⟨(sameInit k).trans initialized, (samePage k).trans described⟩
    counted := by
      intro k page' residentK freeK
      obtain ⟨other, freeK⟩ := freeOf freeK
      dsimp only
      rw [update_of_ne other]
      exact inv.counted k page' residentK freeK
    unheld := by
      intro k outside
      dsimp only at outside
      rw [busyIff] at outside
      rcases outside with (rfl | busy) | outside
      · exact (inv.counted k page resident free).symm.trans count
      · exact inv.unheld k (Or.inl busy)
      · exact inv.unheld k (Or.inr outside)
    unaimed := fun k outside freeK => inv.unaimed k outside (freeOf freeK).2
    mappedFree := by
      intro k page' mapped
      have other : k ≠ m := by
        rintro rfl
        simp [here] at mapped
      dsimp only
      rw [update_of_ne other]
      exact inv.mappedFree k page' mapped
    lockedBusy := by
      intro k t' page' lockedK
      dsimp only
      rw [busyIff, inv.lockedBusy k t' page' lockedK]
      by_cases same : k = m
      · subst same
        rw [here] at lockedK
        cases lockedK
        simp
      · by_cases mine : t' = t
        · subst mine
          simp [same, idle, Ne.symm same]
        · simp [same, mine]
    pteLocked := by
      intro t' k pteHeld
      dsimp only at pteHeld
      by_cases mine : t' = t
      · subst mine
        rw [update_self] at pteHeld
        cases pteHeld
        exact ⟨page, here⟩
      · rw [update_of_ne mine] at pteHeld
        exact inv.pteLocked t' k pteHeld
    bounded := by
      intro k busy
      dsimp only at busy ⊢
      by_cases same : k = m
      · subst same
        rw [update_self]
        have := count_le_card (fun aim => aim = some k) v.aim
        simp only [aims]
        omega
      · rw [update_of_ne same] at busy ⊢
        exact inv.bounded k busy
    pinPage := fun page' k pinned => (samePage k).trans (inv.pinPage page' k pinned)
    refPage := fun t' k page' refs => (samePage k).trans (inv.refPage t' k page' refs)
    evicting := by
      intro t' k page' owner
      obtain ⟨busy, described, empty⟩ := inv.evicting t' k page' owner
      exact ⟨(busyIff k).mpr (Or.inr busy), (samePage k).trans described, empty⟩ }

theorem step_unlockPte (inv : Inv files v place) {t : T} {m : ℕ} {word : PTE}
    (held : v.pteLock t = some m) (unlocked : (v.pte m).unLock? = some word) :
    Inv files { v with
      pte := update v.pte m word
      pteLock := update v.pteLock t none } place := by
  obtain ⟨page, here⟩ := inv.pteLocked t m held
  have resident : (place m).page? = some page := by rw [here]; rfl
  obtain ⟨busy, rfl⟩ := PTE.unLock?_eq_some unlocked
  have samePage := apply_update_same PTE.page v.pte (i := m)
    (a := { v.pte m with busy := false, refCount := 0, refCount_lt := by decide }) rfl
  have sameInit := apply_update_same PTE.initialized v.pte (i := m)
    (a := { v.pte m with busy := false, refCount := 0, refCount_lt := by decide }) rfl
  exact { inv with
    candidate := by
      intro t' k page? chosen
      obtain ⟨latch, linked, page⟩ := inv.candidate t' k page? chosen
      exact ⟨latch, linked, fun p mem => (samePage k).trans (page p mem)⟩
    described := by
      intro k page' residentK
      obtain ⟨initialized, described⟩ := inv.described k page' residentK
      exact ⟨(sameInit k).trans initialized, (samePage k).trans described⟩
    counted := by
      intro k page' residentK freeK
      dsimp only at freeK ⊢
      by_cases same : k = m
      · subst same
        rw [update_self]
        exact (inv.unheld k (Or.inl busy)).symm
      · rw [update_of_ne same] at freeK ⊢
        exact inv.counted k page' residentK freeK
    unheld := by
      intro k outside
      by_cases same : k = m
      · subst same
        exact inv.unheld k (Or.inl busy)
      · dsimp only at outside
        rw [update_of_ne same] at outside
        exact inv.unheld k outside
    unaimed := by
      intro k outside freeK
      have other : k ≠ m := by
        rintro rfl
        simp [resident] at outside
      dsimp only at freeK
      rw [update_of_ne other] at freeK
      exact inv.unaimed k outside freeK
    mappedFree := by
      intro k page' mapped
      have other : k ≠ m := by
        rintro rfl
        simp [here] at mapped
      dsimp only
      rw [update_of_ne other]
      exact inv.mappedFree k page' mapped
    lockedBusy := by
      intro k t' page' lockedK
      dsimp only
      by_cases same : k = m
      · subst same
        rw [here] at lockedK
        cases lockedK
        simp
      · rw [update_of_ne same, inv.lockedBusy k t' page' lockedK]
        by_cases mine : t' = t
        · subst mine
          simp [held, Ne.symm same]
        · simp [mine]
    pteLocked := by
      intro t' k pteHeld
      dsimp only at pteHeld
      by_cases mine : t' = t
      · subst mine
        simp at pteHeld
      · rw [update_of_ne mine] at pteHeld
        exact inv.pteLocked t' k pteHeld
    bounded := by
      intro k busyK
      have other : k ≠ m := by
        rintro rfl
        simp at busyK
      dsimp only at busyK ⊢
      rw [update_of_ne other] at busyK ⊢
      exact inv.bounded k busyK
    pinPage := fun page' k pinned => (samePage k).trans (inv.pinPage page' k pinned)
    refPage := fun t' k page' refs => (samePage k).trans (inv.refPage t' k page' refs)
    evicting := by
      intro t' k page' owner
      obtain ⟨busyK, described, empty⟩ := inv.evicting t' k page' owner
      have other : k ≠ m := by
        rintro rfl
        have := (inv.owned t' k).mp ⟨_, owner⟩
        simp [here] at this
      dsimp only
      rw [update_of_ne other]
      exact ⟨busyK, described, empty⟩ }

/-- Who owns which frame after one thread owns another one or none. -/
private theorem owned_update (inv : Inv files v place) {t : T} {new : Option (ℕ × Option Page)}
    {place' : ℕ → Place T} (mine : ∀ m, (∃ page?, new = some (m, page?)) ↔ place' m = .owned t)
    (others : ∀ t', t' ≠ t → ∀ m, place' m = .owned t' ↔ place m = .owned t') (t' : T) (m : ℕ) :
    (∃ page?, update v.owned t new t' = some (m, page?)) ↔ place' m = .owned t' := by
  by_cases here : t' = t
  · subst here
    rw [update_self]
    exact mine m
  · rw [update_of_ne here, others t' here, inv.owned t' m]

theorem step_poll (inv : Inv files v place) {t : T} {m : ℕ} {rest : List ℕ}
    (first : v.free = m :: rest) (idle : v.owned t = none) :
    Inv files { v with
      free := rest
      owned := update v.owned t (some (m, none)) } (update place m (.owned t)) := by
  have here : place m = .free := (inv.free m).mp (by rw [first]; exact List.mem_cons_self ..)
  have distinct := inv.freeNodup
  rw [first, List.nodup_cons] at distinct
  have samePage := apply_update_same Place.page? place (i := m) (a := .owned t) (by rw [here]; rfl)
  exact { inv with
    free := by
      intro k
      by_cases same : k = m
      · subst same
        simp [distinct.1]
      · rw [update_of_ne same, ← inv.free k, first]
        simp [same]
    freeNodup := distinct.2
    mapped := fun page k =>
      (inv.mapped page k).trans (place_update_iff (by simp [here]) (by simp) k).symm
    lockedFrame := fun t' page k =>
      (inv.lockedFrame t' page k).trans (place_update_iff (by simp [here]) (by simp) k).symm
    owned := by
      refine inv.owned_update ?_ ?_
      · intro k
        by_cases same : k = m
        · simp [same]
        · rw [update_of_ne same, ← inv.owned]
          simp [idle, Ne.symm same]
      · exact fun t' other => place_update_iff (by simp [here]) (by simp [Ne.symm other])
    inList := fun k member => (samePage k).symm ▸ inv.inList k member
    described := fun k page => (samePage k).symm ▸ inv.described k page
    counted := fun k page => (samePage k).symm ▸ inv.counted k page
    unheld := fun k => (samePage k).symm ▸ inv.unheld k
    unaimed := fun k => (samePage k).symm ▸ inv.unaimed k
    mappedFree := by
      intro k page mapped
      exact inv.mappedFree k page ((place_update_iff (by simp [here]) (by simp) k).mp mapped)
    lockedBusy := by
      intro k t' page locked
      exact inv.lockedBusy k t' page ((place_update_iff (by simp [here]) (by simp) k).mp locked)
    pteLocked := by
      intro t' k held
      obtain ⟨page, locked⟩ := inv.pteLocked t' k held
      exact ⟨page, (place_update_iff (by simp [here]) (by simp) k).mpr locked⟩
    evicting := by
      intro t' k page owner
      dsimp only at owner
      by_cases mine : t' = t
      · subst mine
        simp at owner
      · rw [update_of_ne mine] at owner
        exact inv.evicting t' k page owner }

theorem step_acquire (inv : Inv files v place) {t : T} {m : ℕ} (free : v.latch = none)
    (member : m ∈ v.list) :
    Inv files { v with
      latch := some t
      candidate := update v.candidate t (some (m, none)) } place :=
  { inv with
    candidate := by
      intro t' k page? chosen
      dsimp only at chosen
      by_cases mine : t' = t
      · subst mine
        rw [update_self] at chosen
        cases chosen
        exact ⟨rfl, member, by simp⟩
      · rw [update_of_ne mine] at chosen
        have := (inv.candidate t' k page? chosen).1
        simp [free] at this }

theorem step_select (inv : Inv files v place) {t : T} {m : ℕ} (held : v.latch = some t)
    (member : m ∈ v.list) :
    Inv files { v with candidate := update v.candidate t (some (m, none)) } place :=
  { inv with
    candidate := by
      intro t' k page? chosen
      dsimp only at chosen
      by_cases mine : t' = t
      · subst mine
        rw [update_self] at chosen
        cases chosen
        exact ⟨held, member, by simp⟩
      · rw [update_of_ne mine] at chosen
        exact inv.candidate t' k page? chosen }

theorem step_identify (inv : Inv files v place) {t : T} {m : ℕ} {page? : Option Page}
    (chosen : v.candidate t = some (m, page?)) :
    Inv files { v with candidate := update v.candidate t (some (m, some (v.pte m).page)) }
      place :=
  { inv with
    candidate := by
      intro t' k page?' chosen'
      dsimp only at chosen'
      by_cases mine : t' = t
      · subst mine
        rw [update_self] at chosen'
        cases chosen'
        obtain ⟨latch, member, _⟩ := inv.candidate t' m page? chosen
        exact ⟨latch, member, by simp⟩
      · rw [update_of_ne mine] at chosen'
        exact inv.candidate t' k page?' chosen' }

omit [DecidableEq T] in
/-- The frame whose mapping and entry the sweep locked is the candidate. -/
theorem candidate_locked (inv : Inv files v place) {t : T} {m k : ℕ} {page : Page}
    (member : (page, .frame k) ∈ v.locks t) (chosen : v.candidate t = some (m, some page)) :
    m = k := by
  obtain ⟨_, linked, described⟩ := inv.candidate t m (some page) chosen
  obtain ⟨page', resident⟩ := inv.inList m linked
  have same : page' = page := (inv.described m page' resident).2.symm.trans (described page rfl)
  subst same
  exact inv.page?_injective resident (by rw [(inv.lockedFrame t page' k).mp member]; rfl)

theorem step_evict (inv : Inv files v place) {t : T} {m k : ℕ} {page : Page}
    {rest : List (Page × MapWord)} {hand : ListIndex} (held : v.locks t = (page, .frame k) :: rest)
    (locked : v.pteLock t = some k) (chosen : v.candidate t = some (m, some page))
    (idle : v.owned t = none) (notInvalid : hand ≠ .invalid)
    (linked : ∀ i, hand = .node i → i ∈ v.list.erase m) :
    Inv files { v with
      list := v.list.erase m
      hand := hand
      latch := none
      locks := update v.locks t ((page, .empty) :: rest)
      pteLock := update v.pteLock t none
      candidate := update v.candidate t none
      owned := update v.owned t (some (m, some page))
      saved := update v.saved t false } (update place m (.owned t)) := by
  have member : (page, .frame k) ∈ v.locks t := by rw [held]; exact List.mem_cons_self ..
  obtain rfl := inv.candidate_locked member chosen
  have here := (inv.lockedFrame t page m).mp member
  have busy := (inv.lockedBusy m t page here).mpr locked
  have described := (inv.described m page (by rw [here]; rfl)).2
  have latched := (inv.candidate t m (some page) chosen).1
  have elsewhere {l : ℕ} {page' : Page} (resident : (update place m (.owned t) l).page? = some page') :
      l ≠ m ∧ (place l).page? = some page' := by
    by_cases same : l = m
    · subst same
      simp [Place.page?] at resident
    · rw [update_of_ne same] at resident
      exact ⟨same, resident⟩
  exact { inv with
    free := fun l => (inv.free l).trans (place_update_iff (by simp [here]) (by simp) l).symm
    mapped := fun page' l =>
      (inv.mapped page' l).trans (place_update_iff (by simp [here]) (by simp) l).symm
    lockedFrame := by
      intro t' page' l
      dsimp only
      rw [inv.table.mem_redirect held, inv.lockedFrame]
      by_cases same : l = m
      · subst same
        rw [update_self, here]
        simp only [Prod.mk.injEq, reduceCtorEq, and_false, false_or, Place.locked.injEq, iff_false,
          not_and]
        exact fun other _ same => other same.symm
      · rw [update_of_ne same]
        simp only [Prod.mk.injEq, reduceCtorEq, and_false, false_or, and_iff_right_iff_imp]
        rintro lockedL rfl
        exact same (inv.page?_injective (by rw [lockedL]; rfl) (by rw [here]; rfl))
    owned := by
      refine inv.owned_update ?_ ?_
      · intro l
        by_cases same : l = m
        · simp [same]
        · rw [update_of_ne same, ← inv.owned]
          simp [idle, Ne.symm same]
      · exact fun t' other => place_update_iff (by simp [here]) (by simp [Ne.symm other])
    table := inv.table.redirect held (by simp)
    listNodup := inv.listNodup.erase m
    inList := by
      intro l linked
      have other : l ≠ m := by
        rintro rfl
        exact inv.listNodup.not_mem_erase linked
      rw [update_of_ne other]
      exact inv.inList l (List.mem_of_mem_erase linked)
    handLinked := linked
    handValid := notInvalid
    candidate := by
      intro t' l page? chosen'
      dsimp only at chosen'
      by_cases mine : t' = t
      · subst mine
        simp at chosen'
      · rw [update_of_ne mine] at chosen'
        have := (inv.candidate t' l page? chosen').1
        rw [latched] at this
        exact absurd (Option.some.inj this).symm mine
    described := fun l page' resident => inv.described l page' (elsewhere resident).2
    counted := fun l page' resident free => inv.counted l page' (elsewhere resident).2 free
    unheld := by
      intro l outside
      by_cases same : l = m
      · subst same
        exact inv.unheld l (Or.inl busy)
      · rw [update_of_ne same] at outside
        exact inv.unheld l outside
    unaimed := by
      intro l outside free
      have other : l ≠ m := by
        rintro rfl
        simp [busy] at free
      rw [update_of_ne other] at outside
      exact inv.unaimed l outside free
    mappedFree := by
      intro l page' mapped
      exact inv.mappedFree l page' ((place_update_iff (by simp [here]) (by simp) l).mp mapped)
    lockedBusy := by
      intro l t' page' lockedL
      have other : l ≠ m := by
        rintro rfl
        simp at lockedL
      rw [update_of_ne other] at lockedL
      dsimp only
      rw [inv.lockedBusy l t' page' lockedL]
      by_cases mine : t' = t
      · subst mine
        simp [locked, Ne.symm other]
      · rw [update_of_ne mine]
    pteLocked := by
      intro t' l pteHeld
      dsimp only at pteHeld
      by_cases mine : t' = t
      · subst mine
        simp at pteHeld
      · rw [update_of_ne mine] at pteHeld
        obtain ⟨page', lockedL⟩ := inv.pteLocked t' l pteHeld
        have other : l ≠ m := by
          rintro rfl
          rw [here] at lockedL
          cases lockedL
          exact mine rfl
        exact ⟨page', by rw [update_of_ne other]; exact lockedL⟩
    evicting := by
      intro t' l page' owner
      dsimp only at owner ⊢
      rw [inv.table.mem_redirect held]
      by_cases mine : t' = t
      · subst mine
        rw [update_self] at owner
        cases owner
        exact ⟨busy, described, Or.inl ⟨rfl, rfl⟩⟩
      · rw [update_of_ne mine] at owner
        obtain ⟨busyL, describedL, empty⟩ := inv.evicting t' l page' owner
        refine ⟨busyL, describedL, Or.inr ⟨?_, empty⟩⟩
        rintro rfl
        exact mine (inv.table.owner empty member).1 }

theorem step_delete (inv : Inv files v place) {t : T} {m : ℕ} {page : Page}
    {rest : List (Page × MapWord)} (held : v.locks t = (page, .empty) :: rest)
    (evicting : v.owned t = some (m, some page)) :
    Inv files { v with
      map := update v.map page .empty
      locks := update v.locks t rest
      owned := update v.owned t (some (m, none))
      saved := update v.saved t false } place := by
  have member : (page, .empty) ∈ v.locks t := by rw [held]; exact List.mem_cons_self ..
  have marked := inv.table.marked_of_mem member
  have unlocked (t' : T) (k : ℕ) : place k ≠ .locked t' page := by
    rw [Ne, ← inv.lockedFrame]
    intro other
    cases (inv.table.owner member other).2
  exact { inv with
    mapped := by
      intro page' k
      dsimp only
      by_cases same : page' = page
      · subst same
        have unmapped : place k ≠ .mapped page' := by
          rw [Ne, ← inv.mapped, marked]
          simp
        simp [unmapped]
      · rw [update_of_ne same]
        exact inv.mapped page' k
    lockedFrame := by
      intro t' page' k
      rw [inv.table.mem_release held, inv.lockedFrame, and_iff_right_iff_imp]
      rintro locked rfl
      exact unlocked t' k locked
    owned := by
      refine inv.owned_update ?_ (fun _ _ _ => Iff.rfl)
      intro k
      rw [← inv.owned]
      simp [evicting]
    table := inv.table.release held (by simp)
    valid := by
      intro page' present
      by_cases same : page' = page
      · subst same
        simp at present
      · dsimp only at present
        rw [update_of_ne same] at present
        exact inv.valid page' present
    evicting := by
      intro t' k page' owner
      dsimp only at owner ⊢
      by_cases mine : t' = t
      · subst mine
        simp at owner
      · rw [update_of_ne mine] at owner
        obtain ⟨busy, described, empty⟩ := inv.evicting t' k page' owner
        refine ⟨busy, described, (inv.table.mem_release held).mpr ⟨?_, empty⟩⟩
        rintro rfl
        exact mine (inv.table.owner empty member).1 }

theorem step_store (inv : Inv files v place) {t : T} {m : ℕ} {page : Page} {word : PTE}
    {rest : List (Page × MapWord)} (held : v.locks t = (page, .empty) :: rest)
    (owner : v.owned t = some (m, none)) (idle : v.ref t = none) (unlocked : v.pteLock t = none)
    (counts : word.refCount = 1) (initialized : word.initialized = true)
    (free : word.busy = false) (describes : word.page = page) :
    Inv files { v with
      pte := update v.pte m word
      locks := update v.locks t ((page, .frame m) :: rest)
      owned := update v.owned t none
      ref := update v.ref t (some (m, some page))
      filled := update v.filled t false } (update place m (.locked t page)) := by
  have member : (page, .empty) ∈ v.locks t := by rw [held]; exact List.mem_cons_self ..
  have here : place m = .owned t := (inv.owned t m).mp ⟨_, owner⟩
  have outside : (place m).page? = none := by rw [here]; rfl
  have zero := inv.unheld m (Or.inr outside)
  have moved (k : ℕ) := holders_update v.pins v.ref t (some (m, some page)) k
  simp only [idle, Option.map_none, Option.map_some, Option.some.injEq, reduceCtorEq, if_false,
    Nat.add_zero] at moved
  have resident {k : ℕ} {page' : Page} (at' : (place k).page? = some page') : k ≠ m := by
    rintro rfl
    simp [outside] at at'
  exact { inv with
    free := fun k => (inv.free k).trans (place_update_iff (by simp [here]) (by simp) k).symm
    mapped := fun page' k =>
      (inv.mapped page' k).trans (place_update_iff (by simp [here]) (by simp) k).symm
    lockedFrame := by
      intro t' page' k
      dsimp only
      rw [inv.table.mem_redirect held, inv.lockedFrame]
      by_cases same : k = m
      · subst same
        rw [update_self, here]
        simp only [Prod.mk.injEq, and_true, reduceCtorEq, and_false, or_false, Place.locked.injEq]
        exact ⟨fun both => ⟨both.1.symm, both.2.symm⟩, fun both => ⟨both.1.symm, both.2.symm⟩⟩
      · rw [update_of_ne same]
        simp only [Prod.mk.injEq, MapWord.frame.injEq, same, and_false, false_or,
          and_iff_right_iff_imp]
        rintro locked rfl
        cases (inv.table.owner member ((inv.lockedFrame t' _ k).mpr locked)).2
    owned := by
      refine inv.owned_update ?_ ?_
      · intro k
        by_cases same : k = m
        · simp [same]
        · rw [update_of_ne same, ← inv.owned]
          simp [owner, Ne.symm same]
      · exact fun t' other => place_update_iff (by simp [here, Ne.symm other]) (by simp)
    table := inv.table.redirect held (by simp)
    inList := by
      intro k linked
      obtain ⟨page', at'⟩ := inv.inList k linked
      exact ⟨page', by rw [update_of_ne (resident at')]; exact at'⟩
    candidate := by
      intro t' k page? chosen
      obtain ⟨latch, linked, page⟩ := inv.candidate t' k page? chosen
      obtain ⟨page', at'⟩ := inv.inList k linked
      dsimp only
      rw [update_of_ne (resident at')]
      exact ⟨latch, linked, page⟩
    described := by
      intro k page' at'
      dsimp only
      by_cases same : k = m
      · subst same
        rw [update_self] at at' ⊢
        cases at'
        exact ⟨initialized, describes⟩
      · rw [update_of_ne same] at at' ⊢
        exact inv.described k page' at'
    counted := by
      intro k page' at' freeK
      dsimp only at freeK ⊢
      rw [moved]
      by_cases same : k = m
      · subst same
        rw [update_self, counts, zero, if_pos rfl]
      · rw [update_of_ne same] at at' freeK ⊢
        rw [if_neg (Ne.symm same), Nat.add_zero]
        exact inv.counted k page' at' freeK
    unheld := by
      intro k away
      dsimp only at away ⊢
      have other : k ≠ m := by
        rintro rfl
        simp [free, Place.page?] at away
      rw [update_of_ne other, update_of_ne other] at away
      rw [moved, if_neg (Ne.symm other)]
      exact inv.unheld k away
    unaimed := by
      intro k away freeK
      have other : k ≠ m := by
        rintro rfl
        simp [Place.page?] at away
      dsimp only at freeK
      rw [update_of_ne other] at away freeK
      exact inv.unaimed k away freeK
    mappedFree := by
      intro k page' mapped
      have other : k ≠ m := by
        rintro rfl
        simp at mapped
      dsimp only
      rw [update_of_ne other] at mapped ⊢
      exact inv.mappedFree k page' mapped
    lockedBusy := by
      intro k t' page' locked
      dsimp only
      by_cases same : k = m
      · subst same
        rw [update_self] at locked ⊢
        cases locked
        simp [free, unlocked]
      · rw [update_of_ne same] at locked ⊢
        exact inv.lockedBusy k t' page' locked
    pteLocked := by
      intro t' k pteHeld
      obtain ⟨page', locked⟩ := inv.pteLocked t' k pteHeld
      have other : k ≠ m := by
        rintro rfl
        simp [here] at locked
      exact ⟨page', by rw [update_of_ne other]; exact locked⟩
    bounded := by
      intro k busy
      have other : k ≠ m := by
        rintro rfl
        simp [free] at busy
      dsimp only at busy ⊢
      rw [update_of_ne other] at busy ⊢
      exact inv.bounded k busy
    pinPage := by
      intro page' k pinned
      have other : k ≠ m := by
        rintro rfl
        exact (holders_pos_of_pin pinned).ne' zero
      dsimp only
      rw [update_of_ne other]
      exact inv.pinPage page' k pinned
    refPage := by
      intro t' k page' held'
      dsimp only at held' ⊢
      by_cases mine : t' = t
      · subst mine
        rw [update_self] at held'
        cases held'
        rw [update_self, describes]
      · rw [update_of_ne mine] at held'
        have other : k ≠ m := by
          rintro rfl
          exact (holders_pos_of_ref held').ne' zero
        rw [update_of_ne other]
        exact inv.refPage t' k page' held'
    evicting := by
      intro t' k page' owner'
      dsimp only at owner' ⊢
      by_cases mine : t' = t
      · subst mine
        simp at owner'
      · rw [update_of_ne mine] at owner'
        obtain ⟨busy, described, empty⟩ := inv.evicting t' k page' owner'
        have other : k ≠ m := by
          rintro rfl
          have := (inv.owned t' k).mp ⟨_, owner'⟩
          rw [here] at this
          cases this
          exact mine rfl
        rw [update_of_ne other]
        refine ⟨busy, described, (inv.table.mem_redirect held).mpr (Or.inr ⟨?_, empty⟩)⟩
        rintro rfl
        exact mine (inv.table.owner empty member).1 }

omit [DecidableEq T] in
theorem step_insert (inv : Inv files v place) {t : T} {m : ℕ} {page : Page}
    {rest : List (Page × MapWord)} (held : v.locks t = (page, .frame m) :: rest)
    (free : v.latch = none) : Inv files { v with list := m :: v.list.erase m } place := by
  have member : (page, .frame m) ∈ v.locks t := by rw [held]; exact List.mem_cons_self ..
  have kept {k : ℕ} (linked : k ∈ v.list) : k ∈ m :: v.list.erase m := by
    by_cases same : k = m
    · exact same ▸ List.mem_cons_self ..
    · exact List.mem_cons_of_mem _ ((List.mem_erase_of_ne same).mpr linked)
  exact { inv with
    listNodup := List.nodup_cons.mpr ⟨inv.listNodup.not_mem_erase, inv.listNodup.erase m⟩
    inList := by
      intro k linked
      rcases List.mem_cons.mp linked with rfl | linked
      · exact ⟨page, by rw [(inv.lockedFrame t page k).mp member]; rfl⟩
      · exact inv.inList k (List.mem_of_mem_erase linked)
    handLinked := fun i hand => kept (inv.handLinked i hand)
    candidate := by
      intro t' k page? chosen
      have := (inv.candidate t' k page? chosen).1
      simp [free] at this }

end Inv

end Gbp.Protocol
