import GraphBufferPool.Concurrent.OwnershipSteps
import Mathlib

/-! # Frame contents

The bytes of a page live in its frame while it is resident and on disk otherwise. A resident frame
may differ from the disk only while its entry is dirty or a writer that changed it still holds its
pin. With frame ownership this is preserved by each move, so no write is lost on any schedule.
-/

namespace Gbp.Protocol

open Function MarkerLock

variable {T : Type}

/-- Where the bytes of each page are. `content` is what the writers stored. -/
structure Coherent (files : Files) (v : View T) (place : ℕ → Place T) : Prop where
  resident : ∀ m page, (place m).page? = some page →
    ∀ i, files.InFile page i → v.memory m i = v.content page i
  modified : ∀ m page, (place m).page? = some page → (v.pte m).dirty = true ∨
    (∃ t, v.ref t = some (m, some page) ∧ v.wrote t = true) ∨
      ∀ i, files.InFile page i → v.disk page i = v.content page i
  onDisk : ∀ page, (∀ m, (place m).page? ≠ some page) → (∀ t m, v.owned t ≠ some (m, some page)) →
    ∀ i, files.InFile page i → v.disk page i = v.content page i
  evicting : ∀ t m page, v.owned t = some (m, some page) →
    (∀ i, files.InFile page i → v.memory m i = v.content page i) ∧
      ((v.pte m).dirty = false ∨ v.saved t = true →
        ∀ i, files.InFile page i → v.disk page i = v.content page i)
  filled : ∀ t, v.filled t = true → ∃ m page rest, v.owned t = some (m, none) ∧
    v.locks t = (page, .empty) :: rest ∧
      ∀ i, files.InFile page i → v.memory m i = v.content page i
  wroteRef : ∀ t, v.wrote t = true → ∃ m page, v.ref t = some (m, some page)

variable {files : Files} {v : View T} {place : ℕ → Place T}

/-- A page that a thread locked without a frame is not resident. -/
theorem Inv.not_resident [Fintype T] (inv : Inv files v place) {t : T} {page : Page}
    (member : (page, .empty) ∈ v.locks t) (m : ℕ) : (place m).page? ≠ some page := by
  intro resident
  rcases Place.page?_eq_some.mp resident with mapped | ⟨t', locked⟩
  · have marked := inv.table.marked_of_mem member
    rw [(inv.mapped page m).mpr mapped] at marked
    cases marked
  · cases (inv.table.owner member ((inv.lockedFrame t' page m).mpr locked)).2

/-- A frame that a thread owns is nobody's resident frame. -/
theorem Inv.owned_page? [Fintype T] (inv : Inv files v place) {t : T} {m : ℕ} {page? : Option Page}
    (owner : v.owned t = some (m, page?)) : (place m).page? = none := by
  rw [(inv.owned t m).mp ⟨page?, owner⟩]
  rfl

theorem Inv.owner_unique [Fintype T] (inv : Inv files v place) {t t' : T} {m : ℕ}
    {page? page?' : Option Page} (first : v.owned t = some (m, page?))
    (second : v.owned t' = some (m, page?')) : t = t' := by
  have := ((inv.owned t m).mp ⟨_, first⟩).symm.trans ((inv.owned t' m).mp ⟨_, second⟩)
  exact Place.owned.inj this

/-- The frame a pin is on holds the page of the pin. -/
theorem Inv.ref_resident [Fintype T] [DecidableEq T] (inv : Inv files v place) {t : T} {m : ℕ}
    {page : Page} (held : v.ref t = some (m, some page)) : (place m).page? = some page := by
  obtain ⟨page', resident, _, _⟩ := inv.held_place (holders_pos_of_ref held)
  rw [resident, ← inv.refPage t m page held, (inv.described m page' resident).2]

namespace Coherent

/-- A move that leaves bytes, dirty bits and the pins of writers alone. -/
theorem quiet (coh : Coherent files v place) {v' : View T}
    (frame : v' = { v with
      pte := v'.pte
      list := v'.list
      hand := v'.hand
      latch := v'.latch
      pins := v'.pins
      pteLock := v'.pteLock
      ref := v'.ref
      aim := v'.aim
      candidate := v'.candidate })
    (dirty : ∀ m, (v'.pte m).dirty = (v.pte m).dirty)
    (writers : ∀ t, v.wrote t = true → v'.ref t = v.ref t) : Coherent files v' place := by
  obtain ⟨map, pte, free, list, hand, latch, pins, memory, disk, content, locks, pteLock, owned, ref,
    aim, candidate, wrote, saved, filled⟩ := v'
  simp only [View.mk.injEq, true_and] at frame
  obtain ⟨rfl, rfl, rfl, rfl, rfl, rfl, rfl, rfl, rfl, rfl⟩ := frame
  exact { coh with
    modified := by
      intro m page resident
      rcases coh.modified m page resident with set | ⟨t, held, wrote⟩ | saved
      · exact Or.inl ((dirty m).trans set)
      · exact Or.inr (Or.inl ⟨t, (writers t wrote).trans held, wrote⟩)
      · exact Or.inr (Or.inr saved)
    evicting := by
      intro t m page owner
      obtain ⟨same, saved⟩ := coh.evicting t m page owner
      exact ⟨same, fun reason => saved (reason.imp_left ((dirty m).symm.trans ·))⟩
    wroteRef := by
      intro t wrote
      obtain ⟨m, page, held⟩ := coh.wroteRef t wrote
      exact ⟨m, page, (writers t wrote).trans held⟩ }

/-- A thread without a pin has written nothing it still has to mark dirty. -/
theorem not_wrote (coh : Coherent files v place) {t : T} (idle : v.ref t = none) :
    v.wrote t = false := by
  by_contra wrote
  obtain ⟨m, page, held⟩ := coh.wroteRef t (by simpa using wrote)
  simp [idle] at held

variable [DecidableEq T]

/-- Only the pin of one thread changes, and that thread has written nothing. -/
private theorem writers_of_clean {t : T} {new : Option (ℕ × Option Page)}
    (clean : v.wrote t = false) (t' : T) (wrote : v.wrote t' = true) :
    update v.ref t new t' = v.ref t' := by
  have other : t' ≠ t := by
    rintro rfl
    simp [clean] at wrote
  exact update_of_ne other ..

/-- Relocking the mapping of a resident frame moves no bytes. -/
theorem relocate (coh : Coherent files v place) {t : T} {map : Page → MapWord}
    {held : List (Page × MapWord)} {a b : Place T} (samePage : b.page? = a.page?)
    (idle : v.owned t = none) :
    Coherent files { v with
      map := map
      locks := update v.locks t held } (relabel place a b) := by
  have samePages (m : ℕ) : (relabel place a b m).page? = (place m).page? :=
    relabel_page? samePage m
  exact { coh with
    resident := fun m page => (samePages m).symm ▸ coh.resident m page
    modified := fun m page => (samePages m).symm ▸ coh.modified m page
    onDisk := by
      intro page away
      apply coh.onDisk page
      intro m
      rw [← samePages]
      exact away m
    filled := by
      intro t' filled
      obtain ⟨m, page, rest, owner, locks, same⟩ := coh.filled t' filled
      have other : t' ≠ t := by
        rintro rfl
        simp [idle] at owner
      exact ⟨m, page, rest, owner, by dsimp only; rw [update_of_ne other, locks], same⟩ }

theorem step_poll (coh : Coherent files v place) {t : T} {m : ℕ} {rest : List ℕ}
    (here : place m = .free) (idle : v.owned t = none) :
    Coherent files { v with
      free := rest
      owned := update v.owned t (some (m, none)) } (update place m (.owned t)) := by
  have samePage := apply_update_same Place.page? place (i := m) (a := .owned t) (by rw [here]; rfl)
  have owned {t' : T} {k : ℕ} {page : Page}
      (owner : update v.owned t (some (m, none)) t' = some (k, some page)) :
      v.owned t' = some (k, some page) := by
    by_cases mine : t' = t
    · subst mine
      simp at owner
    · rwa [update_of_ne mine] at owner
  exact { coh with
    resident := fun k page => (samePage k).symm ▸ coh.resident k page
    modified := fun k page => (samePage k).symm ▸ coh.modified k page
    onDisk := by
      intro page away unowned
      refine coh.onDisk page (fun k => (samePage k).symm ▸ away k) fun t' k owner => ?_
      apply unowned t' k
      have other : t' ≠ t := by
        rintro rfl
        simp [idle] at owner
      rw [← owner]
      exact update_of_ne other ..
    evicting := fun t' k page owner => coh.evicting t' k page (owned owner)
    filled := by
      intro t' filled
      obtain ⟨k, page, rest, owner, locks, same⟩ := coh.filled t' filled
      have other : t' ≠ t := by
        rintro rfl
        simp [idle] at owner
      exact ⟨k, page, rest, by dsimp only; rw [update_of_ne other, owner], locks, same⟩ }

variable [Fintype T]

theorem step_evict (coh : Coherent files v place) (inv : Inv files v place) {t : T} {m k : ℕ}
    {page : Page} {rest : List (Page × MapWord)} {hand : ListIndex}
    (held : v.locks t = (page, .frame k) :: rest) (locked : v.pteLock t = some k)
    (chosen : v.candidate t = some (m, some page)) (idle : v.owned t = none) :
    Coherent files { v with
      list := v.list.erase m
      hand := hand
      latch := none
      locks := update v.locks t ((page, .empty) :: rest)
      pteLock := update v.pteLock t none
      candidate := update v.candidate t none
      owned := update v.owned t (some (m, some page))
      saved := update v.saved t false } (update place m (.owned t)) := by
  have member : (page, .frame k) ∈ v.locks t := by rw [held]; exact List.mem_cons_self ..
  obtain rfl := inv.candidate_locked member chosen
  have here := (inv.lockedFrame t page m).mp member
  have resident : (place m).page? = some page := by rw [here]; rfl
  have busy := (inv.lockedBusy m t page here).mpr locked
  have elsewhere {l : ℕ} {page' : Page} (residentL : (update place m (.owned t) l).page? = some page') :
      (place l).page? = some page' := by
    by_cases same : l = m
    · subst same
      simp [Place.page?] at residentL
    · rwa [update_of_ne same] at residentL
  exact { coh with
    resident := fun l page' residentL => coh.resident l page' (elsewhere residentL)
    modified := fun l page' residentL => coh.modified l page' (elsewhere residentL)
    onDisk := by
      intro page' away unowned
      have other : page' ≠ page := by
        rintro rfl
        exact unowned t m (by simp)
      refine coh.onDisk page' (fun l residentL => ?_) fun t' l owner => ?_
      · apply away l
        have elsewhere : l ≠ m := by
          rintro rfl
          exact other (Option.some.inj (residentL.symm.trans resident))
        rw [update_of_ne elsewhere, residentL]
      · apply unowned t' l
        have elsewhere : t' ≠ t := by
          rintro rfl
          simp [idle] at owner
        rw [← owner]
        exact update_of_ne elsewhere ..
    evicting := by
      intro t' l page' owner
      dsimp only at owner ⊢
      by_cases mine : t' = t
      · subst mine
        rw [update_self] at owner
        cases owner
        refine ⟨coh.resident m page resident, ?_⟩
        rintro (clean | ⟨⟩)
        · rcases coh.modified m page resident with dirty | ⟨t', pin, _⟩ | saved
          · simp [clean] at dirty
          · exact absurd (inv.unheld m (Or.inl busy)) (holders_pos_of_ref pin).ne'
          · exact saved
        · simp at *
      · rw [update_of_ne mine] at owner
        rw [update_of_ne mine]
        exact coh.evicting t' l page' owner
    filled := by
      intro t' filled
      obtain ⟨l, page', rest', owner, locks, same⟩ := coh.filled t' filled
      have other : t' ≠ t := by
        rintro rfl
        simp [idle] at owner
      exact ⟨l, page', rest', by dsimp only; rw [update_of_ne other, owner],
        by dsimp only; rw [update_of_ne other, locks], same⟩ }

omit [Fintype T] in
theorem step_saveClean (coh : Coherent files v place) {t : T} {m : ℕ} {page : Page}
    (evicting : v.owned t = some (m, some page)) (clean : (v.pte m).dirty = false) :
    Coherent files { v with saved := update v.saved t true } place :=
  { coh with
    evicting := by
      intro t' k page' owner
      dsimp only
      by_cases mine : t' = t
      · subst mine
        rw [evicting] at owner
        cases owner
        obtain ⟨same, saved⟩ := coh.evicting t' m page evicting
        exact ⟨same, fun _ => saved (Or.inl clean)⟩
      · rw [update_of_ne mine]
        exact coh.evicting t' k page' owner }

theorem step_saveDirty (coh : Coherent files v place) (inv : Inv files v place) {t : T} {m : ℕ}
    {page : Page} {disk : Page → Bytes} (evicting : v.owned t = some (m, some page))
    (written : ∀ i, files.InFile page i → disk page i = v.memory m i)
    (others : ∀ other, other ≠ page → ∀ i, files.InFile other i → disk other i = v.disk other i) :
    Coherent files { v with
      disk := disk
      saved := update v.saved t true } place := by
  have empty := (inv.evicting t m page evicting).2.2
  have kept {other : Page} (differs : other ≠ page)
      (same : ∀ i, files.InFile other i → v.disk other i = v.content other i) (i : ℕ)
      (inside : files.InFile other i) : disk other i = v.content other i :=
    (others other differs i inside).trans (same i inside)
  exact { coh with
    modified := by
      intro k page' resident
      have differs : page' ≠ page := by
        rintro rfl
        exact inv.not_resident empty k resident
      exact (coh.modified k page' resident).imp_right (Or.imp_right (kept differs))
    onDisk := by
      intro page' away unowned
      have differs : page' ≠ page := by
        rintro rfl
        exact unowned t m evicting
      exact kept differs (coh.onDisk page' away unowned)
    evicting := by
      intro t' k page' owner
      dsimp only
      obtain ⟨same, saved⟩ := coh.evicting t' k page' owner
      refine ⟨same, ?_⟩
      by_cases mine : t' = t
      · subst mine
        rw [evicting] at owner
        cases owner
        exact fun _ i inside => (written i inside).trans (same i inside)
      · rw [update_of_ne mine]
        have differs : page' ≠ page := by
          rintro rfl
          exact mine (inv.table.owner (inv.evicting t' k _ owner).2.2 empty).1
        exact fun reason => kept differs (saved reason) }

omit [Fintype T] in
theorem step_delete (coh : Coherent files v place) {t : T} {m : ℕ} {page : Page}
    {rest : List (Page × MapWord)} (evicting : v.owned t = some (m, some page))
    (saved : v.saved t = true) :
    Coherent files { v with
      map := update v.map page .empty
      locks := update v.locks t rest
      owned := update v.owned t (some (m, none))
      saved := update v.saved t false } place :=
  { coh with
    onDisk := by
      intro page' away unowned
      by_cases same : page' = page
      · subst same
        exact (coh.evicting t m page' evicting).2 (Or.inr saved)
      · apply coh.onDisk page' away
        intro t' k owner
        apply unowned t' k
        have other : t' ≠ t := by
          rintro rfl
          rw [evicting] at owner
          cases owner
          exact same rfl
        rw [← owner]
        exact update_of_ne other ..
    evicting := by
      intro t' k page' owner
      dsimp only at owner ⊢
      by_cases mine : t' = t
      · subst mine
        simp at owner
      · rw [update_of_ne mine] at owner
        rw [update_of_ne mine]
        exact coh.evicting t' k page' owner
    filled := by
      intro t' filled
      obtain ⟨k, page', rest', owner, locks, same⟩ := coh.filled t' filled
      have other : t' ≠ t := by
        rintro rfl
        simp [evicting] at owner
      exact ⟨k, page', rest', by dsimp only; rw [update_of_ne other, owner],
        by dsimp only; rw [update_of_ne other, locks], same⟩ }

omit [DecidableEq T] in
/-- The page a thread is about to load is on disk. -/
theorem loading_onDisk (coh : Coherent files v place) (inv : Inv files v place) {t : T} {m : ℕ}
    {page : Page} {rest : List (Page × MapWord)} (held : v.locks t = (page, .empty) :: rest)
    (owner : v.owned t = some (m, none)) (i : ℕ) (inside : files.InFile page i) :
    v.disk page i = v.content page i := by
  have member : (page, .empty) ∈ v.locks t := by rw [held]; exact List.mem_cons_self ..
  refine coh.onDisk page (inv.not_resident member) (fun t' k owner' => ?_) i inside
  obtain rfl := (inv.table.owner member (inv.evicting t' k page owner').2.2).1
  simp [owner] at owner'

theorem step_readPage (coh : Coherent files v place) (inv : Inv files v place) {t : T} {m : ℕ}
    {page : Page} {rest : List (Page × MapWord)} {bytes : Bytes}
    (held : v.locks t = (page, .empty) :: rest) (owner : v.owned t = some (m, none))
    (filled : ∀ i, files.InFile page i → bytes i = v.disk page i) :
    Coherent files { v with
      memory := update v.memory m bytes
      filled := update v.filled t true } place :=
  { coh with
    resident := by
      intro k page' resident
      have other : k ≠ m := by
        rintro rfl
        simp [inv.owned_page? owner] at resident
      dsimp only
      rw [update_of_ne other]
      exact coh.resident k page' resident
    evicting := by
      intro t' k page' owner'
      have other : k ≠ m := by
        rintro rfl
        obtain rfl := inv.owner_unique owner owner'
        simp [owner] at owner'
      dsimp only
      rw [update_of_ne other]
      exact coh.evicting t' k page' owner'
    filled := by
      intro t' filled'
      dsimp only at filled' ⊢
      by_cases mine : t' = t
      · subst mine
        refine ⟨m, page, rest, owner, held, fun i inside => ?_⟩
        rw [update_self, filled i inside]
        exact coh.loading_onDisk inv held owner i inside
      · rw [update_of_ne mine] at filled'
        obtain ⟨k, page', rest', owner', locks, same⟩ := coh.filled t' filled'
        have other : k ≠ m := by
          rintro rfl
          exact mine (inv.owner_unique owner' owner)
        exact ⟨k, page', rest', owner', locks, by rw [update_of_ne other]; exact same⟩ }

theorem step_store (coh : Coherent files v place) (inv : Inv files v place) {t : T} {m : ℕ}
    {page : Page} {word : PTE} {rest : List (Page × MapWord)}
    (held : v.locks t = (page, .empty) :: rest) (owner : v.owned t = some (m, none))
    (idle : v.ref t = none) (filled : v.filled t = true) :
    Coherent files { v with
      pte := update v.pte m word
      locks := update v.locks t ((page, .frame m) :: rest)
      owned := update v.owned t none
      ref := update v.ref t (some (m, some page))
      filled := update v.filled t false } (update place m (.locked t page)) := by
  have loaded : ∀ i, files.InFile page i → v.memory m i = v.content page i := by
    obtain ⟨k, page', rest', owner', locks, same⟩ := coh.filled t filled
    rw [owner] at owner'
    rw [held] at locks
    cases owner'
    cases locks
    exact same
  have outside := inv.owned_page? owner
  exact { coh with
    resident := by
      intro k page' resident
      by_cases same : k = m
      · subst same
        rw [update_self] at resident
        cases resident
        exact loaded
      · rw [update_of_ne same] at resident
        exact coh.resident k page' resident
    modified := by
      intro k page' resident
      dsimp only
      by_cases same : k = m
      · subst same
        rw [update_self] at resident
        cases resident
        exact Or.inr (Or.inr (coh.loading_onDisk inv held owner))
      · rw [update_of_ne same] at resident ⊢
        rcases coh.modified k page' resident with dirty | ⟨t', pin, wrote⟩ | saved
        · exact Or.inl dirty
        · have other : t' ≠ t := by
            rintro rfl
            simp [idle] at pin
          exact Or.inr (Or.inl ⟨t', by rw [update_of_ne other, pin], wrote⟩)
        · exact Or.inr (Or.inr saved)
    onDisk := by
      intro page' away unowned
      refine coh.onDisk page' (fun k resident => ?_) fun t' k owner' => ?_
      · apply away k
        have other : k ≠ m := by
          rintro rfl
          simp [outside] at resident
        rw [update_of_ne other, resident]
      · apply unowned t' k
        have other : t' ≠ t := by
          rintro rfl
          simp [owner] at owner'
        rw [← owner']
        exact update_of_ne other ..
    evicting := by
      intro t' k page' owner'
      dsimp only at owner' ⊢
      by_cases mine : t' = t
      · subst mine
        simp at owner'
      · rw [update_of_ne mine] at owner'
        have other : k ≠ m := by
          rintro rfl
          exact mine (inv.owner_unique owner' owner)
        rw [update_of_ne other]
        exact coh.evicting t' k page' owner'
    filled := by
      intro t' filled'
      dsimp only at filled' ⊢
      by_cases mine : t' = t
      · subst mine
        simp at filled'
      · rw [update_of_ne mine] at filled'
        obtain ⟨k, page', rest', owner', locks, same⟩ := coh.filled t' filled'
        exact ⟨k, page', rest', by rw [update_of_ne mine, owner'],
          by rw [update_of_ne mine, locks], same⟩
    wroteRef := by
      intro t' wrote
      obtain ⟨k, page', pin⟩ := coh.wroteRef t' wrote
      have other : t' ≠ t := by
        rintro rfl
        simp [idle] at pin
      exact ⟨k, page', by dsimp only; rw [update_of_ne other, pin]⟩ }

/-- The writer marks the frame before it gives up the pin. -/
theorem step_setDirty (coh : Coherent files v place) (inv : Inv files v place) {t : T} {m : ℕ}
    {page : Page} (held : v.ref t = some (m, some page)) :
    Coherent files { v with
      pte := update v.pte m ((v.pte m).setDirty true)
      wrote := update v.wrote t false } place :=
  { coh with
    modified := by
      intro k page' resident
      dsimp only
      by_cases same : k = m
      · subst same
        rw [update_self]
        exact Or.inl rfl
      · rw [update_of_ne same]
        rcases coh.modified k page' resident with dirty | ⟨t', pin, wrote⟩ | saved
        · exact Or.inl dirty
        · have other : t' ≠ t := by
            rintro rfl
            rw [held] at pin
            cases pin
            exact same rfl
          exact Or.inr (Or.inl ⟨t', pin, by rw [update_of_ne other, wrote]⟩)
        · exact Or.inr (Or.inr saved)
    evicting := by
      intro t' k page' owner
      have other : k ≠ m := by
        rintro rfl
        have := inv.ref_resident held
        simp [inv.owned_page? owner] at this
      dsimp only
      rw [update_of_ne other]
      exact coh.evicting t' k page' owner
    wroteRef := by
      intro t' wrote
      have other : t' ≠ t := by
        rintro rfl
        simp at wrote
      dsimp only at wrote
      rw [update_of_ne other] at wrote
      exact coh.wroteRef t' wrote }

/-- A byte stored into a pinned frame is a byte of its page; other frames hold other pages. -/
theorem step_storeByte (coh : Coherent files v place) (inv : Inv files v place) {t : T} {m : ℕ}
    {page : Page} {i : ℕ} {byte : UInt8} (held : v.ref t = some (m, some page)) :
    Coherent files { v with
      memory := update v.memory m (update (v.memory m) i byte)
      content := update v.content page (update (v.content page) i byte)
      wrote := update v.wrote t true } place := by
  have resident := inv.ref_resident held
  have differs {k : ℕ} {page' : Page} (away : k ≠ m) (residentK : (place k).page? = some page') :
      page' ≠ page := by
    rintro rfl
    exact away (inv.page?_injective residentK resident)
  have wroteMono {t' : T} (wrote : v.wrote t' = true) : update v.wrote t true t' = true := by
    by_cases mine : t' = t
    · rw [mine, update_self]
    · rw [update_of_ne mine, wrote]
  exact { coh with
    resident := by
      intro k page' residentK j inside
      dsimp only
      by_cases same : k = m
      · subst same
        obtain rfl : page = page' := Option.some.inj (resident.symm.trans residentK)
        simp only [update_self]
        by_cases here : j = i
        · simp [here]
        · simp only [update_of_ne here]
          exact coh.resident k page residentK j inside
      · rw [update_of_ne same, update_of_ne (differs same residentK)]
        exact coh.resident k page' residentK j inside
    modified := by
      intro k page' residentK
      dsimp only
      by_cases same : k = m
      · subst same
        obtain rfl : page = page' := Option.some.inj (resident.symm.trans residentK)
        exact Or.inr (Or.inl ⟨t, held, update_self ..⟩)
      · rw [update_of_ne (differs same residentK)]
        exact (coh.modified k page' residentK).imp_right
          (Or.imp_left fun ⟨t', pin, wrote⟩ => ⟨t', pin, wroteMono wrote⟩)
    onDisk := by
      intro page' away unowned
      have other : page' ≠ page := by
        rintro rfl
        exact away m resident
      dsimp only
      rw [update_of_ne other]
      exact coh.onDisk page' away unowned
    evicting := by
      intro t' k page' owner
      have away : k ≠ m := by
        rintro rfl
        simp [inv.owned_page? owner] at resident
      have other : page' ≠ page := by
        rintro rfl
        exact inv.not_resident (inv.evicting t' k _ owner).2.2 m resident
      dsimp only
      rw [update_of_ne away, update_of_ne other]
      exact coh.evicting t' k page' owner
    filled := by
      intro t' filled
      obtain ⟨k, page', rest, owner, locks, same⟩ := coh.filled t' filled
      have away : k ≠ m := by
        rintro rfl
        simp [inv.owned_page? owner] at resident
      have other : page' ≠ page := by
        rintro rfl
        exact inv.not_resident (by rw [locks]; exact List.mem_cons_self ..) m resident
      refine ⟨k, page', rest, owner, locks, ?_⟩
      dsimp only
      rw [update_of_ne away, update_of_ne other]
      exact same
    wroteRef := by
      intro t' wrote
      by_cases mine : t' = t
      · exact ⟨m, page, mine ▸ held⟩
      · dsimp only at wrote
        rw [update_of_ne mine] at wrote
        exact coh.wroteRef t' wrote }

end Coherent

/-- The states of the protocol in which ownership and contents are as they should be. -/
def Safe [Fintype T] (files : Files) (v : View T) : Prop :=
  ∃ place, Inv files v place ∧ Coherent files v place

/-- Each move keeps ownership and contents. -/
theorem Safe.step [DecidableEq T] [Fintype T] (safe : Safe files v) (hasRoom : v.HasRoom)
    {v' : View T} (move : Step files v v') : Safe files v' := by
  obtain ⟨place, inv, coh⟩ := safe
  have stillDirty {m : ℕ} {word : PTE} (same : word.dirty = (v.pte m).dirty) :=
    apply_update_same PTE.dirty v.pte same
  cases move with
  | aim t found idle =>
    exact ⟨_, inv.step_aim found idle, coh.quiet rfl (fun _ => rfl) fun _ _ => rfl⟩
  | @missBusy t m aimed busy =>
    have kept : ((v.pte m).fetchAdd 1).dirty = (v.pte m).dirty := by
      rw [PTE.fetchAdd_one _ (inv.room hasRoom aimed (by simp [busy]))]
      rfl
    exact ⟨_, inv.step_missBusy hasRoom aimed busy,
      coh.quiet rfl (stillDirty kept) fun _ _ => rfl⟩
  | @takeRef t m page? aimed free idle describes =>
    have kept : ((v.pte m).fetchAdd 1).dirty = (v.pte m).dirty := by
      rw [PTE.fetchAdd_one _ (inv.room hasRoom aimed fun _ => idle)]
      rfl
    exact ⟨_, inv.step_takeRef hasRoom aimed free idle describes,
      coh.quiet rfl (stillDirty kept) (Coherent.writers_of_clean (coh.not_wrote idle))⟩
  | @dropRef t m page? held clean =>
    obtain ⟨page, resident, free, counted⟩ := inv.held_place (holders_pos_of_ref held)
    have kept : ((v.pte m).fetchSub 1).dirty = (v.pte m).dirty := by
      rw [PTE.fetchSub_one _ (counted ▸ holders_pos_of_ref held)]
      rfl
    exact ⟨_, inv.step_dropRef held,
      coh.quiet rfl (stillDirty kept) (Coherent.writers_of_clean clean)⟩
  | keepPin t held clean =>
    exact ⟨_, inv.step_keepPin held,
      coh.quiet rfl (fun _ => rfl) (Coherent.writers_of_clean clean)⟩
  | usePin t member idle =>
    exact ⟨_, inv.step_usePin member idle,
      coh.quiet rfl (fun _ => rfl) (Coherent.writers_of_clean (coh.not_wrote idle))⟩
  | lockMap t free valid idle unlocked =>
    exact ⟨_, inv.step_lockMap free valid unlocked, coh.relocate rfl idle⟩
  | unlockMap t held unlocked idle =>
    exact ⟨_, inv.step_unlockMap held unlocked idle, coh.relocate rfl idle⟩
  | @lockPte t page m word rest held locked idle =>
    have kept : word.dirty = (v.pte m).dirty := by rw [(PTE.lock?_eq_some locked).2.2]
    exact ⟨_, inv.step_lockPte held locked idle, coh.quiet rfl (stillDirty kept) fun _ _ => rfl⟩
  | @unlockPte t m word held unlocked =>
    have kept : word.dirty = (v.pte m).dirty := by rw [(PTE.unLock?_eq_some unlocked).2]
    exact ⟨_, inv.step_unlockPte held unlocked, coh.quiet rfl (stillDirty kept) fun _ _ => rfl⟩
  | @poll t m rest first idle =>
    have here : place m = .free := (inv.free m).mp (by rw [first]; exact List.mem_cons_self ..)
    exact ⟨_, inv.step_poll first idle, coh.step_poll here idle⟩
  | acquire t free member =>
    exact ⟨_, inv.step_acquire free member, coh.quiet rfl (fun _ => rfl) fun _ _ => rfl⟩
  | select t held member =>
    exact ⟨_, inv.step_select held member, coh.quiet rfl (fun _ => rfl) fun _ _ => rfl⟩
  | identify t chosen =>
    exact ⟨_, inv.step_identify chosen, coh.quiet rfl (fun _ => rfl) fun _ _ => rfl⟩
  | evict t held locked chosen idle notInvalid linked =>
    exact ⟨_, inv.step_evict held locked chosen idle notInvalid linked,
      coh.step_evict inv held locked chosen idle⟩
  | saveClean t evicting clean => exact ⟨place, { inv with }, coh.step_saveClean evicting clean⟩
  | saveDirty t evicting written others =>
    exact ⟨place, { inv with }, coh.step_saveDirty inv evicting written others⟩
  | delete t held evicting saved =>
    exact ⟨_, inv.step_delete held evicting, coh.step_delete evicting saved⟩
  | readPage t held owner filled =>
    exact ⟨place, { inv with }, coh.step_readPage inv held owner filled⟩
  | store t held owner idle unlocked filled counts initialized free describes =>
    exact ⟨_, inv.step_store held owner idle unlocked counts initialized free describes,
      coh.step_store inv held owner idle filled⟩
  | insert t held free =>
    exact ⟨_, inv.step_insert held free, coh.quiet rfl (fun _ => rfl) fun _ _ => rfl⟩
  | setDirty t held => exact ⟨_, inv.step_setDirty, coh.step_setDirty inv held⟩
  | storeByte t i byte held => exact ⟨_, inv.step_storeByte, coh.step_storeByte inv held⟩

/-- A sequence of moves while the counts have room. -/
abbrev Moves [DecidableEq T] [Fintype T] (files : Files) : View T → View T → Prop :=
  Relation.ReflTransGen fun v v' => v.HasRoom ∧ Step files v v'

theorem Safe.moves [DecidableEq T] [Fintype T] {v' : View T} (safe : Safe files v)
    (moves : Moves files v v') : Safe files v' := by
  induction moves with
  | refl => exact safe
  | tail _ last ih => exact ih.step last.1 last.2

end Gbp.Protocol
